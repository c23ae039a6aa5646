/-
A space listed, added up and cut to what it holds (`omni-mem/src/region.rs`, `space.rs`, `space/subpage_ops.rs`), each by a walk
of its own over the entries and the tracked pages.
- `mappedRegions`: the entries that are not free, those that the guest cannot tell apart made one (`entryRegions`), and of each
  what is between the tracked pages and the runs of their parts (`expand`).
- `guestUsage`: the entries' lengths less the holes, the tracked pages walked in step.
- `heldRanges`: the entries with memory or a view, cut to a range and to a shared file's end, less what is not the guest's own
  in tracked pages.
- `viewAt`: what `region_at` finds, before it is cut where a shared view runs past its file's end.
-/
import Omnidroid.Lib.Coalesce
import Omnidroid.Mem.Scan

namespace Omnidroid.Mem

open Omnidroid.Mm (Protection)

/-! ## Regions made one -/

namespace RegionInfo

/-- whether `next` goes on with it in every respect that the guest can tell: whether it is committed is none -/
def canAbsorb (r next : RegionInfo) : Bool :=
  if r.stop ≠ next.start ∨ r.protection ≠ next.protection then false
  else
    match r.kind, next.kind with
    | .free, .free => true
    | .anonymous, .anonymous => r.mapping == next.mapping
    | .file backing _ fileOffset _ _, .file nextBacking _ nextOffset _ _ =>
      r.mapping == next.mapping && backing == nextBacking && nextOffset == fileOffset + r.len
    | _, _ => false

def absorb (r next : RegionInfo) : RegionInfo := { r with len := r.len + next.len, committed := r.committed + next.committed }

end RegionInfo

/-- what a region tells of an address: its protection, its kind as of the address, and its mapping -/
structure Told where
  protection : Protection
  kind : RegionKind
  mapping : Option ℕ
deriving DecidableEq, Repr

def RegionInfo.tell (r : RegionInfo) (a : ℕ) : Told := ⟨r.protection, r.rebased a, r.mapping⟩

/-- regions, as things that lie one after the other -/
def regionRanges : Ranged RegionInfo Told := ⟨RegionInfo.start, RegionInfo.len, RegionInfo.tell, RegionInfo.canAbsorb, RegionInfo.absorb⟩

/-- the spans of what is held, made one where they meet -/
def spanRanges : Ranged (ℕ × ℕ) Unit :=
  ⟨Prod.fst, Prod.snd, fun _ _ => (), fun s t => s.1 + s.2 == t.1, fun s t => (s.1, s.2 + t.2)⟩

/-! ## Regions cut up -/

namespace RegionInfo

/-- `clip`: it, cut to a range -/
def clip (r : RegionInfo) (start stop : ℕ) : RegionInfo :=
  { r with
    start
    len := stop - start
    committed := if r.isCommitted then stop - start else min r.committed (stop - start)
    kind := r.rebased start }

/-- a piece of a tracked page as the part that it is -/
def asPart (piece : RegionInfo) (part : Option Part) (isForeign : Bool) : RegionInfo :=
  match part, isForeign with
  | some (.mapped protection), true => { piece with kind := .anonymous, protection, committed := 0 }
  | some (.mapped protection), false => { piece with protection }
  | _, _ => { piece with kind := .free, protection := .none, committed := 0, mapping := none }

/-- the runs of a tracked page's parts from part `i` on, there are no more of them than parts -/
def runPieces (r : RegionInfo) (hostPage : ℕ) (s : Split) : ℕ → ℕ → List RegionInfo
  | 0, _ => []
  | turns + 1, i =>
    if s.parts.length ≤ i then []
    else
      let (first, count, part) := s.runAt i
      let piece := r.clip (max (hostPage + first * GUEST_PAGE) r.start) (min (hostPage + (first + count) * GUEST_PAGE) r.stop)
      piece.asPart part (s.isForeign first) :: runPieces r hostPage s turns (first + count)

/-- the pieces from `at'` on, of the tracked pages still to come -/
def pagePieces (r : RegionInfo) (page : ℕ) : List (ℕ × Split) → ℕ → List RegionInfo
  | [], at' => if at' < r.stop then [r.clip at' r.stop] else []
  | (hostPage, s) :: rest, at' =>
    if r.stop ≤ hostPage ∨ hostPage + page ≤ r.start then pagePieces r page rest at'
    else
      (if at' < hostPage then [r.clip at' hostPage] else []) ++ r.runPieces hostPage s s.parts.length 0 ++
        pagePieces r page rest (hostPage + page)

def expandOne (page : ℕ) (t : SubPages) (r : RegionInfo) : List RegionInfo :=
  r.pagePieces page (t.split.filter fun p => pageOf page r.start ≤ p.1 && p.1 < r.stop) r.start

/-- what `expand` leaves out -/
def shown (includeFree : Bool) (r : RegionInfo) : Bool := r.len != 0 && (includeFree || !r.isFree)

end RegionInfo

def expand (regions : List RegionInfo) (t : SubPages) (page : ℕ) (includeFree : Bool) : List RegionInfo :=
  regionRanges.coalesce ((regions.flatMap (RegionInfo.expandOne page t)).filter (RegionInfo.shown includeFree))

namespace Inner

variable (m : Inner)

/-! ## The listing -/

/-- `regions` of the map alone -/
def entryRegions (includeFree : Bool) : List RegionInfo :=
  regionRanges.coalesce
    ((m.map.entries.filter fun p => includeFree || !p.2.isFree).map fun p => .fromEntry p.1 p.2)

def guestViewRegions (regions : List RegionInfo) (includeFree : Bool) : List RegionInfo :=
  match m.sub with
  | none => regions
  | some t => if t.split.isEmpty then regions else expand regions t m.page includeFree

def mappedRegions : List RegionInfo := m.guestViewRegions (m.entryRegions false) false

/-- `region_at_locked`, but for the cut at a file's end -/
def viewAt (address : ℕ) : Option RegionInfo := do
  let (start, e) ← m.map.entryAt address
  if e.isFree then none else m.guestViewOf (.fromEntry start e) address

/-! ## The totals -/

end Inner

structure SpaceUsage where
  mapped : ℕ
  committed : ℕ
deriving DecidableEq, Repr

def Part.isHole : Part → Bool
  | .mapped _ => false
  | .hole | .strictHole => true

/-- the holes of a tracked page, cut to `[start, stop)` -/
def pageHoles (start stop : ℕ) (p : ℕ × Split) : List (ℕ × ℕ) :=
  p.2.parts.zipIdx.filterMap fun (part, i) =>
    if part.isHole then
      let from' := max (p.1 + i * GUEST_PAGE) start
      let to' := min (p.1 + (i + 1) * GUEST_PAGE) stop
      some (from', to' - from')
    else none

def SpaceUsage.lose (private' : Bool) (u : SpaceUsage) (hole : ℕ × ℕ) : SpaceUsage :=
  ⟨u.mapped - hole.2, if private' then u.committed - hole.2 else u.committed⟩

/-- one entry added, with the tracked pages not yet passed -/
def usageOf (page : ℕ) (acc : SpaceUsage × List (ℕ × Split)) (p : ℕ × Entry) : SpaceUsage × List (ℕ × Split) :=
  if p.2.isFree then acc
  else
    let stop := p.1 + p.2.len
    let isPrivate := match p.2.os with
      | .priv _ => true
      | _ => false
    let usage : SpaceUsage := ⟨acc.1.mapped + p.2.len, if isPrivate then acc.1.committed + p.2.len else acc.1.committed⟩
    let tracked := acc.2.dropWhile fun q => q.1 + page ≤ p.1
    let holes := (tracked.takeWhile fun q => q.1 < stop).flatMap (pageHoles p.1 stop)
    (holes.foldl (SpaceUsage.lose isPrivate) usage, tracked)

def Inner.guestUsage (m : Inner) : SpaceUsage := (m.map.entries.foldl (usageOf m.page) (⟨0, 0⟩, m.sub.elim [] SubPages.split)).1

/-! ## What is held -/

/-- `held_end`: a shared view holds nothing past the page that its file ends in, as the file is now -/
def heldEnd (page : ℕ) (lenNow : ℕ → ℕ) (start : ℕ) (e : Entry) : ℕ :=
  match e.os, e.owner.bind fun o => (o.backing.filter Backing.shared).map fun b => (o, b) with
  | .view _, some (o, b) =>
    if o.offsetAt start + e.len ≤ roundUp page b.len then start + e.len
    else start + min (roundUp page (lenNow b.id) - o.offsetAt start) e.len
  | _, _ => start + e.len

/-- the parts of a tracked page from `g` on that are the guest's own, there are no more of them than bytes -/
def heldParts (s : Split) (hostPage next : ℕ) : ℕ → ℕ → List (ℕ × ℕ)
  | 0, _ => []
  | turns + 1, g =>
    if next ≤ g then []
    else
      let gn := min (pageOf GUEST_PAGE g + GUEST_PAGE) next
      let i := (g - hostPage) / GUEST_PAGE
      (match s.parts[i]? with
        | some (.mapped _) => if s.isForeign i then [] else [(g, gn - g)]
        | _ => []) ++ heldParts s hostPage next turns gn

/-- a held range from `at'` on, page by page -/
def heldPages (t : SubPages) (page stop : ℕ) : ℕ → ℕ → List (ℕ × ℕ)
  | 0, _ => []
  | turns + 1, at' =>
    if stop ≤ at' then []
    else
      let hostPage := pageOf page at'
      let next := min (hostPage + page) stop
      (match t.get hostPage with
        | some s => heldParts s hostPage next (next - at') at'
        | none => [(at', next - at')]) ++ heldPages t page stop turns next

namespace Inner

variable (m : Inner)

def guestHeld (held : List (ℕ × ℕ)) : List (ℕ × ℕ) :=
  match m.sub with
  | none => held
  | some t =>
    if t.split.isEmpty then held
    else
      spanRanges.coalesce ((held.flatMap fun s => heldPages t m.page (s.1 + s.2) s.2 s.1).filter fun s => s.2 != 0)

/-- the part of an entry in `[address, stop)` that holds anything -/
def heldOf (lenNow : ℕ → ℕ) (address stop start : ℕ) : Option (ℕ × ℕ) := do
  let e ← m.map.get start
  match e.os with
  | .placeholder | .host => none
  | .priv _ | .view _ =>
    let s := max start address
    let e := min (heldEnd m.page lenNow start e) stop
    if e ≤ s then none else some (s, e - s)

def heldRanges (lenNow : ℕ → ℕ) (address len : ℕ) : List (ℕ × ℕ) :=
  let stop := min (address + len) usizeMax
  m.guestHeld (spanRanges.coalesce ((m.map.startsOverlapping address len).filterMap (m.heldOf lenNow address stop)))

end Inner

end Omnidroid.Mem
