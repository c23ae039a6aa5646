/-
What a guest asks of its space (`omni-mem/src/space.rs`): each operation with its checks and where it is placed.
The space is one whose pages are the host's, so that no host page is kept in parts.
- `place`, `findFree`: where a mapping goes.
- `mapAnonymous`, `mapFile`, `ensureCommitted`, `protect`, `unmap`, `discard`, `adviseIdle`, `reclaimIdle`.
- `State.step`: one of these, whether it succeeds or fails in the middle, or a store of the guest's.
-/
import Omnidroid.Mem.Space

namespace Omnidroid.Mem

open Omnidroid.Mm (Protection)

/-! ## Checks -/

/-- the largest address and length -/
def usizeMax : ℕ := 2 ^ 64 - 1

def outside (m : EntryMap) (operation : String) (address stop : ℕ) : MemError :=
  .outsideSpace operation address stop m.base m.stop m.len

def roundSize (operation : String) (size : ℕ) : Op ℕ := do
  let s ← get
  if size = 0 then throw (.zeroSize operation)
  if usizeMax < size + (s.page - 1) then throw (outside s.map operation 0 usizeMax)
  return roundUp s.page size

def checkAligned (operation what : String) (value : ℕ) : Op Unit := do
  let s ← get
  if value % s.page ≠ 0 then throw (.misaligned operation what value s.page)

def EntryMap.contains (m : EntryMap) (address len : ℕ) : Bool :=
  m.base ≤ address && address ≤ m.stop && len ≤ m.stop - address

def checkRange (operation : String) (address len : ℕ) : Op Unit := do
  let s ← get
  if s.map.contains address len = false then throw (outside s.map operation address (min (address + len) usizeMax))

/-- the first of the range's entries that is not free -/
def EntryMap.conflict (m : EntryMap) (address len : ℕ) : Option (ℕ × Entry) :=
  (m.startsOverlapping address len).findSome? fun start => (m.get start).bind fun e => if e.isFree then none else some (start, e)

def requireFree (operation : String) (address len : ℕ) : Op Unit := do
  let s ← get
  match s.map.conflict address len with
  | some (start, e) => throw (.addressTaken operation address (address + len) start (start + e.len) e.describe)
  | none => return

def requireMapped (operation : String) (address len : ℕ) : Op Unit := do
  let s ← get
  let free := (s.map.startsOverlapping address len).findSome? fun start =>
    (s.map.get start).bind fun e => if e.isFree then some (start, e) else none
  match free with
  | some (start, e) => throw (.notMapped operation address (address + len) start (start + e.len))
  | none => return

def refuseHost (operation : String) (address len : ℕ) : Op Unit := do
  let s ← get
  match s.map.hostOverlapping address len with
  | some (start, stop) => throw (.hostOwned operation address (address + len) start stop)
  | none => return

/-! ## Placement -/

inductive Placement where
  | fixed (address : ℕ)
  | hint (address align : ℕ)
  | anywhere (align : ℕ)
deriving DecidableEq, Repr

/-- the runs of free entries, in order: where each starts and its length -/
def freeRuns (entries : List (ℕ × Entry)) : List (ℕ × ℕ) :=
  (entries.foldl
    (fun runs p =>
      if p.2.isFree then
        match runs with
        | (start, len) :: rest => if start + len = p.1 then (start, len + p.2.len) :: rest else (p.1, p.2.len) :: runs
        | [] => [(p.1, p.2.len)]
      else runs)
    []).reverse

/-- where in a free run the first aligned address from `lower` on is that leaves room -/
def fits (len align lower : ℕ) (run : ℕ × ℕ) : Option ℕ :=
  let from' := max run.1 lower
  let candidate := roundUp align from'
  if usizeMax < from' + (align - 1) then none
  else if run.1 ≤ candidate ∧ candidate < run.1 + run.2 ∧ len ≤ run.1 + run.2 - candidate then some candidate
  else none

def fitsFrom (len align from' : ℕ) (run : ℕ × ℕ) : Option ℕ :=
  if run.1 + run.2 ≤ from' then none else fits len align from' run

/-- first fit from an address on, wrapping once -/
def findFree (operation : String) (len align from' : ℕ) : Op ℕ := do
  let s ← get
  let first := ((s.map.entryAt from').map Prod.fst).getD from'
  let runs := freeRuns s.map.entries
  let lower := if s.floor ≤ from' then s.floor else s.map.base
  let found := ((freeRuns (s.map.entries.filter fun p => first ≤ p.1)).findSome? (fitsFrom len align from')).orElse fun _ =>
    (runs.findSome? (fitsFrom len align from')).orElse fun _ => runs.findSome? (fits len align lower)
  match found with
  | some address =>
    set { s with cursor := address + len }
    return address
  | none => throw (.noSpace operation len align s.map.freeSummary.1 s.map.freeSummary.2)

def isPowerOfTwo (n : ℕ) : Bool := n != 0 && 2 ^ n.log2 == n

def checkAlignArgument (operation : String) (align : ℕ) : Op Unit := do
  let s ← get
  if isPowerOfTwo align = false then throw (.misaligned operation "alignment" align 2)
  if s.map.len < align then throw (.alignmentTooLarge operation align s.map.len)

/-- where a mapping goes: a range that is free -/
def place (operation : String) (placement : Placement) (size : ℕ) : Op ℕ := do
  match placement with
  | .fixed address =>
    checkAligned operation "fixed address" address
    checkRange operation address size
    requireFree operation address size
    return address
  | .hint address align =>
    checkAlignArgument operation align
    let s ← get
    if address % align = 0 ∧ address % s.page = 0 ∧ s.map.contains address size ∧ s.map.conflict address size = none then
      return address
    findFree operation size (max align s.page) address
  | .anywhere align =>
    checkAlignArgument operation align
    let s ← get
    findFree operation size (max align s.page) s.cursor

/-! ## Mapping -/

def mapAnonymous (placement : Placement) (size : ℕ) (protection : Protection) (commit : CommitPolicy) : Op ℕ := do
  let operation := "map_anonymous"
  let size ← roundSize operation size
  let address ← place operation placement size
  makeExactPlaceholder operation address size
  let s ← get
  let owner : Owner := ⟨s.nextMapping, address, size, protection, s.granule, commit, none, 0⟩
  set { s with nextMapping := s.nextMapping + 1, map := s.map.replace address size ⟨size, .placeholder, some owner, false⟩ }
  if commit = .eager ∧ protection ≠ .none then
    match ← attempt (commitRange operation address size) with
    | .ok _ => pure ()
    -- the mapping is there by now, and goes again
    | .error e =>
      let _ ← attempt (unmapRange operation address size)
      throw e
  return address

def mapFile (backing : Backing) (fileOffset : ℕ) (placement : Placement) (size : ℕ) (protection : Protection) : Op ℕ := do
  let operation := "map_file"
  let size ← roundSize operation size
  checkAligned operation "file offset" fileOffset
  let address ← place operation placement size
  makeExactPlaceholder operation address size
  let view ← mapView operation backing fileOffset address size protection
  let s ← get
  let owner : Owner := ⟨s.nextMapping, address, size, protection, s.granule, .eager, some backing, fileOffset⟩
  set { s with
    nextMapping := s.nextMapping + 1
    map := s.map.replace address size ⟨size, .view view, some owner, protection.isWritable && !backing.shared⟩ }
  return address

/-! ## The rest -/

def ensureCommitted (address len : ℕ) : Op ℕ := do
  let operation := "ensure_committed"
  if len = 0 then throw (.zeroSize operation)
  checkRange operation address len
  let s ← get
  if needsCommit s.map (address + len) len address = false then return 0
  commitRange operation address len

def protect (address len : ℕ) (protection : Protection) : Op Unit := do
  let operation := "protect"
  let len ← roundSize operation len
  checkAligned operation "address" address
  checkRange operation address len
  refuseHost operation address len
  requireMapped operation address len
  protectRange operation address len protection

def unmap (address len : ℕ) : Op Unit := do
  let operation := "unmap"
  let len ← roundSize operation len
  checkAligned operation "address" address
  checkRange operation address len
  refuseHost operation address len
  unmapRange operation address len

/-- the committed entries that the range covers whole, idle; how many bytes were not -/
def markIdle (address len : ℕ) : Op ℕ := do
  let _ ← attempt (ensureBoundary "advise_idle" address)
  let _ ← attempt (ensureBoundary "advise_idle" (address + len))
  let s ← get
  let marked : List (ℕ × ℕ) := (s.map.startsOverlapping address len).filterMap fun start =>
    (s.map.get start).bind fun e =>
      if address ≤ start ∧ start + e.len ≤ address + len ∧ e.os = .priv false then some (start, e.len) else none
  set { s with map := marked.foldl (fun m (p : ℕ × ℕ) => m.update p.1 fun e => { e with os := .priv true }) s.map }
  return (marked.map Prod.snd).sum

def adviseIdle (address len : ℕ) : Op ℕ := do
  let operation := "advise_idle"
  let len ← roundSize operation len
  checkAligned operation "address" address
  checkRange operation address len
  markIdle address len

/-- what a reclaim gave back -/
structure Reclaimed where
  bytes : ℕ
  granules : ℕ
  coalesced : ℕ
deriving DecidableEq, Repr

def decommitIdle (idle : List (ℕ × ℕ)) : Op Unit :=
  idle.forM fun (start, len) => do
    host "reclaim_idle" (.decommit start len)
    modify fun s =>
      { s with map := s.map.update start fun e => { e with os := .placeholder }, committed := s.committed - len }

def reclaimIn (address len : ℕ) : Op Reclaimed := do
  let s ← get
  let idle := (s.map.startsOverlapping address len).filterMap fun start =>
    (s.map.get start).bind fun e => if e.os = .priv true then some (start, e.len) else none
  decommitIdle idle
  return ⟨(idle.map Prod.snd).sum, idle.length, 0⟩

/-- the runs of free entries, each with how many entries it is of -/
def mergeable (entries : List (ℕ × Entry)) : List (ℕ × ℕ × ℕ) :=
  (entries.foldl
    (fun runs p =>
      if p.2.isFree ∧ p.2.os = .placeholder then
        match runs with
        | (start, len, count) :: rest =>
          if start + len = p.1 then (start, len + p.2.len, count + 1) :: rest else (p.1, p.2.len, 1) :: runs
        | [] => [(p.1, p.2.len, 1)]
      else runs)
    []).reverse

def reclaimIdle : Op Reclaimed := do
  let s ← get
  let idle := (s.map.entries.filter fun p => p.2.os = .priv true).map fun p => (p.1, p.2.len)
  decommitIdle idle
  let s ← get
  let runs := (mergeable s.map.entries).filter fun run => 2 ≤ run.2.2
  runs.forM fun (start, len, _) => do
    host "reclaim_idle" (.coalesce start len)
    modify fun s => { s with map := s.map.replace start len (.free len) }
  return ⟨(idle.map Prod.snd).sum, idle.length, (runs.map fun run => run.2.2).sum⟩

/-- part of a page zeroed, where it is committed; how many bytes were -/
def zeroInPlace (operation : String) (at' len : ℕ) : Op ℕ := do
  let s ← get
  let pageStart := pageOf s.page at'
  match s.map.entryAt at' with
  | none => return 0
  | some (_, e) =>
    match e.os, e.owner with
    | .priv _, some o =>
      let raise := !o.protection.isWritable
      if raise then host operation (.protect pageStart s.page .readWrite)
      modify fun s => s.store at' (List.replicate len 0)
      if raise then host operation (.protect pageStart s.page o.protection)
      return len
    | _, _ => return 0

/-- a range's part before its first page boundary, its whole pages and the part after the last -/
structure PageSplit where
  head : Option (ℕ × ℕ)
  whole : Option (ℕ × ℕ)
  tail : Option (ℕ × ℕ)
deriving DecidableEq, Repr

def splitAtPages (address len page : ℕ) : PageSplit :=
  let stop := address + len
  let piece := fun a b : ℕ => if a < b then some (a, b - a) else none
  let first := min (roundUp page address) stop
  let last := pageOf page stop
  let head : Option (ℕ × ℕ) := if address % page ≠ 0 then piece address first else none
  let tailFrom := max last (head.elim address fun p => p.1 + p.2)
  { head, whole := piece first last, tail := if stop % page ≠ 0 then piece tailFrom stop else none }

structure Discarded where
  decommitted : ℕ
  zeroed : ℕ
deriving DecidableEq, Repr

def zeroParts (operation : String) : List (ℕ × ℕ) → Op ℕ
  | [] => return 0
  | (address, len) :: rest => do
    let n ← zeroInPlace operation address len
    let more ← zeroParts operation rest
    return n + more

def SMALL_PAGE : ℕ := 4096

def discard (address len : ℕ) : Op Discarded := do
  let operation := "discard"
  if len = 0 then throw (.zeroSize operation)
  if address % SMALL_PAGE ≠ 0 then throw (.misaligned operation "address" address SMALL_PAGE)
  -- a length that cannot be rounded up is outside any space
  let len := min (roundUp SMALL_PAGE len) usizeMax
  checkRange operation address len
  let s ← get
  let split := splitAtPages address len s.page
  refuseHost operation address len
  let decommitted ← match split.whole with
    | some (start, whole) => do
      let _ ← markIdle start whole
      let reclaimed ← reclaimIn start whole
      pure reclaimed.bytes
    | none => pure 0
  let zeroed ← zeroParts operation (split.head.toList ++ split.tail.toList)
  return ⟨decommitted, zeroed⟩

/-! ## Runs -/

inductive Request where
  | mapAnonymous (placement : Placement) (size : ℕ) (protection : Protection) (commit : CommitPolicy)
  | mapFile (backing : Backing) (fileOffset : ℕ) (placement : Placement) (size : ℕ) (protection : Protection)
  | ensureCommitted (address len : ℕ)
  | protect (address len : ℕ) (protection : Protection)
  | unmap (address len : ℕ)
  | discard (address len : ℕ)
  | adviseIdle (address len : ℕ)
  | reclaimIdle
  | reclaimIdleIn (address len : ℕ)
  /-- stores of the guest's, and files written by anyone -/
  | stores (own : ℕ → Option UInt8) (files : ℕ → ℕ → UInt8)

/-- the state an operation ends in, whether it succeeds or fails -/
def after {α : Type} (x : Op α) (s : State) : State :=
  match x s with
  | .ok _ s' => s'
  | .error _ s' => s'

def State.step (s : State) : Request → State
  | .mapAnonymous placement size protection commit => after (Mem.mapAnonymous placement size protection commit) s
  | .mapFile backing fileOffset placement size protection => after (Mem.mapFile backing fileOffset placement size protection) s
  | .ensureCommitted address len => after (Mem.ensureCommitted address len) s
  | .protect address len protection => after (Mem.protect address len protection) s
  | .unmap address len => after (Mem.unmap address len) s
  | .discard address len => after (Mem.discard address len) s
  | .adviseIdle address len => after (Mem.adviseIdle address len) s
  | .reclaimIdle => after Mem.reclaimIdle s
  | .reclaimIdleIn address len => after (Mem.reclaimIn address len) s
  | .stores own files => { s with os := { s.os with own }, files }

end Omnidroid.Mem
