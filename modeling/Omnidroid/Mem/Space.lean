/-
The operations of a guest space on its region map and the system under it (`omni-mem/src/space.rs`), each with every exit it
has: a call may be refused in the middle of any of them.
- `makeExactPlaceholder`, `ensureBoundary`: the boundaries of placeholders, in the system and in the map.
- `commitRange`, `protectRange`, `unmapRange`: the walks over a range's entries.
- `unmapView`: part of a view released by releasing the whole of it and mapping again what survives, with what only its
  copied pages held (`scanForCopyOnWrite`, `restoreCopyOnWrite`).
- `markIdle`, `reclaimIn`, `reclaim`: commit charge given back later.
-/
import Omnidroid.Mem.Host

namespace Omnidroid.Mem

open Omnidroid.Mm (Protection)

/-! ## Boundaries -/

/-- the placeholder entry at `start` cut at `at`, in the system and in the map -/
def splitPlaceholder (operation : String) (start at' : ℕ) : Op Unit := do
  host operation (.split start (at' - start))
  modify fun s => { s with map := s.map.splitBookkeeping start at' }

/-- the placeholder entries of a range made one -/
def mergePlaceholders (operation : String) (start len : ℕ) (owner : Option Owner) : Op Unit := do
  host operation (.coalesce start len)
  modify fun s => { s with map := s.map.replace start len ⟨len, .placeholder, owner, false⟩ }

/-- the placeholder entry at `start` cut so that the range is one of its pieces -/
def carvePlaceholder (operation : String) (start stop address len : ℕ) : Op Unit := do
  if start < address then splitPlaceholder operation start address
  if address + len < stop then splitPlaceholder operation address (address + len)

/-- the range made exactly one placeholder entry, of the placeholder entries that cover it -/
def makeExactPlaceholder (operation : String) (address len : ℕ) : Op Unit := do
  let s ← get
  match s.map.startsOverlapping address len with
  | [] => throw .panicked
  | unionStart :: rest =>
    if (unionStart :: rest).any fun start => (s.map.get start).any fun e => e.os != .placeholder then throw .panicked
    else
      let last := (unionStart :: rest).getLast (List.cons_ne_nil _ _)
      match s.map.get unionStart, s.map.get last with
      | some first, some e =>
        -- a split may not span two placeholders, and one placeholder may not be merged
        if rest ≠ [] then mergePlaceholders operation unionStart (last + e.len - unionStart) first.owner
        carvePlaceholder operation unionStart (last + e.len) address len
      | _, _ => throw .panicked

/-- an entry's boundary at the address, its placeholder split if it is one; none inside what the host holds -/
def ensureBoundary (operation : String) (at' : ℕ) : Op Unit := do
  let s ← get
  if at' = s.map.stop then return
  match s.map.entryAt at' with
  | none => return
  | some (start, e) =>
    if start = at' ∨ e.isHost then return
    if e.os = .placeholder then splitPlaceholder operation start at'
    else set { s with map := s.map.splitBookkeeping start at' }

/-! ## Commits -/

/-- the two ceilings, before anything is spent -/
def checkCommitAllowed (operation : String) (address len : ℕ) : Op Unit := do
  let s ← get
  if s.maxCommitRequest < len then throw (.commitRequestTooLarge operation address len s.maxCommitRequest)
  if 2 ^ 64 ≤ s.committed + len then
    throw (.commitCeiling operation address len s.committed (2 ^ 64 - 1) s.maxCommitted)
  if s.maxCommitted < s.committed + len then
    throw (.commitCeiling operation address len s.committed (s.committed + len) s.maxCommitted)

/-- what is committed of an entry for the part of `[position, stop)` in it: whole granules counted from the mapping's start,
the whole mapping where it is eager, clipped to the entry -/
def commitPiece (o : Owner) (start len position stop : ℕ) : ℕ × ℕ :=
  let granule := match o.commit with
    | .eager => o.mappingLen
    | .lazy => o.granule
  let relative := position - o.mappingStart
  let granuleStart := o.mappingStart + (relative - relative % granule)
  let relativeEnd := min stop (start + len) - o.mappingStart
  let granuleEnd := o.mappingStart + roundUp granule relativeEnd
  (max granuleStart start, min granuleEnd (start + len))

/-- whether an entry waits to be committed -/
def Entry.waits (e : Entry) : Bool := e.os == .placeholder && e.owner.any fun o => o.protection != .none

/-- whether a commit of the range from `position` on would commit anything; as many turns as it has bytes are enough -/
def needsCommit (m : EntryMap) (stop : ℕ) : ℕ → ℕ → Bool
  | 0, _ => false
  | turns + 1, position =>
    if stop ≤ position then false
    else
      match m.entryAt position with
      | none => false
      | some (start, e) => e.waits || needsCommit m stop turns (start + e.len)

/-- the waiting entries from `position` on committed, up to `stop`; the bytes that were -/
def commitFrom (operation : String) (stop : ℕ) : ℕ → ℕ → Op ℕ
  | 0, _ => return 0
  | turns + 1, position => do
    if stop ≤ position then return 0
    let s ← get
    match s.map.entryAt position with
    | none => return 0
    | some (start, e) =>
      match e.owner with
      | none => commitFrom operation stop turns (start + e.len)
      | some o =>
        if e.os ≠ .placeholder ∨ o.protection = .none then commitFrom operation stop turns (start + e.len)
        else
          let (from', to') := commitPiece o start e.len position stop
          checkCommitAllowed operation from' (to' - from')
          makeExactPlaceholder operation from' (to' - from')
          host operation (.commit from' (to' - from') o.protection)
          modify fun s =>
            { s with
              map := s.map.update from' fun e => { e with os := .priv false }
              committed := s.committed + (to' - from') }
          let more ← commitFrom operation stop turns to'
          return to' - from' + more

def commitRange (operation : String) (address len : ℕ) : Op ℕ := commitFrom operation (address + len) len address

/-! ## Views and protections -/

/-- a view in the place of the placeholder of the range; its id -/
def mapView (operation : String) (backing : Backing) (fileOffset address len : ℕ) (protection : Protection) : Op ℕ := do
  -- a view cannot be made with no access, so that takes two calls
  let createWith := if protection = .none then .read else protection
  host operation (.mapFile address len backing fileOffset createWith)
  if protection = .none then host operation (.hide address len)
  let s ← get
  set { s with nextView := s.nextView + 1 }
  return s.nextView

/-- a protection recorded on an entry -/
def Entry.record (protection : Protection) (e : Entry) : Entry :=
  { e with owner := e.owner.map fun o => { o with protection } }

/-- the same, and whether its pages may differ from the file's from now on -/
def Entry.protect (protection : Protection) (e : Entry) : Entry :=
  let shared := (e.owner.bind Owner.backing).any Backing.shared
  let isView := match e.os with
    | .view _ => true
    | _ => false
  { e.record protection with everWritable := e.everWritable || (protection.isWritable && isView && !shared) }

def protectEntry (operation : String) (protection : Protection) (start : ℕ) : Op Unit := do
  let s ← get
  match s.map.get start with
  | none => throw .panicked
  | some e =>
    match e.os with
    | .host => return
    -- no pages yet: it is committed with the protection later
    | .placeholder => pure ()
    | .priv _ | .view _ => host operation (.protect start e.len protection)
    modify fun s => { s with map := s.map.update start (Entry.protect protection) }

def protectRange (operation : String) (address len : ℕ) (protection : Protection) : Op Unit := do
  ensureBoundary operation address
  ensureBoundary operation (address + len)
  let s ← get
  (s.map.startsOverlapping address len).forM (protectEntry operation protection)

/-- a protection the system has already, recorded -/
def recordProtection (operation : String) (address len : ℕ) (protection : Protection) : Op Unit := do
  let _ ← attempt (ensureBoundary operation address)
  let _ ← attempt (ensureBoundary operation (address + len))
  let s ← get
  (s.map.startsOverlapping address len).forM fun start => do
    let s ← get
    match s.map.get start with
    | none => throw .panicked
    | some e =>
      if start < address ∨ address + len < start + e.len then return
      set { s with map := s.map.update start (Entry.record protection) }

/-! ## Part of a view released -/

/-- a run of bytes that only copied pages hold -/
structure Dirty where
  address : ℕ
  bytes : List UInt8
deriving DecidableEq, Repr

/-- what is left of a piece of a view, and what only its copied pages hold -/
structure Survivor where
  start : ℕ
  len : ℕ
  owner : Owner
  everWritable : Bool
  preserved : List Dirty
deriving DecidableEq, Repr

/-- how much of a survivor is compared with the file at a time -/
def SCAN_WINDOW : ℕ := 1024 * 1024

/-- a differing page after the runs found so far, the last of them first -/
def pushDirty (dirty : List Dirty) (address : ℕ) (bytes : List UInt8) : List Dirty :=
  match dirty with
  | last :: rest =>
    if last.address + last.bytes.length = address then ⟨last.address, last.bytes ++ bytes⟩ :: rest
    else ⟨address, bytes⟩ :: dirty
  | [] => [⟨address, bytes⟩]

/-- the bytes of a range as reads give them, and as a file holds them -/
def State.bytes (s : State) (address len : ℕ) : List UInt8 := (List.range len).map fun i => s.byte (address + i)

def State.fileBytes (s : State) (backing : Backing) (offset len : ℕ) : List UInt8 :=
  (List.range len).map fun i => s.files backing.id (offset + i)

/-- one window compared page by page -/
def scanPages (s : State) (backing : Backing) (offset live window : ℕ) (dirty : List Dirty) : List Dirty :=
  (List.range (roundUp s.page window / s.page)).foldl
    (fun dirty i =>
      let position := i * s.page
      let step := min s.page (window - position)
      let page := s.bytes (live + position) step
      if page ≠ s.fileBytes backing (offset + position) step then pushDirty dirty (live + position) page else dirty)
    dirty

/-- the windows of a survivor from `offset` on; there are no more of them than bytes -/
def scanFrom (operation : String) (backing : Backing) (owner : Owner) (address len : ℕ) :
    ℕ → ℕ → List Dirty → Op (List Dirty)
  | 0, _, dirty => return dirty
  | turns + 1, offset, dirty => do
    if len ≤ offset then return dirty
    let window := min SCAN_WINDOW (len - offset)
    let live := address + offset
    host operation (.pristine window backing (owner.offsetAt live))
    let s ← get
    scanFrom operation backing owner address len turns (offset + window)
      (scanPages s backing (owner.offsetAt live) live window dirty)

/-- the pages of the range that differ from the file, in runs -/
def scanForCopyOnWrite (operation : String) (address len : ℕ) (owner : Owner) : Op (List Dirty) := do
  match owner.backing with
  | none => throw .panicked
  | some backing =>
    let dirty ← scanFrom operation backing owner address len len 0 []
    return dirty.reverse

/-- how runs were written back: the first failure, and the ranges left writable -/
structure Restored where
  source : Option MemError
  leftWritable : List (ℕ × ℕ)

/-- each run made writable, written and given its protection back; every run is tried -/
def restoreCopyOnWrite (operation : String) (protection : Protection) : List Dirty → Op Restored
  | [] => return ⟨none, []⟩
  | run :: rest => do
    match ← attempt (host operation (.protect run.address run.bytes.length .readWrite)) with
    | .error e =>
      let more ← restoreCopyOnWrite operation protection rest
      return ⟨some e, more.leftWritable⟩
    | .ok () =>
      modify fun s => s.store run.address run.bytes
      match ← attempt (host operation (.protect run.address run.bytes.length protection)) with
      | .error e =>
        let more ← restoreCopyOnWrite operation protection rest
        return ⟨some e, (run.address, run.bytes.length) :: more.leftWritable⟩
      | .ok () => restoreCopyOnWrite operation protection rest

/-- `[start, start + len)` without `[holeStart, holeEnd)` -/
def subtract (start len holeStart holeEnd : ℕ) : List (ℕ × ℕ) :=
  let stop := start + len
  ((if start < holeStart then [(start, min holeStart stop - start)] else []) ++
    (if holeEnd < stop then [(max holeEnd start, stop - max holeEnd start)] else [])).filter fun p => 0 < p.2

/-- the entries of a view: where each starts, its length and owner, and whether it was ever writable -/
def EntryMap.viewPieces (m : EntryMap) (view : ℕ) : List (ℕ × ℕ × Owner × Bool) :=
  m.entries.filterMap fun p =>
    if p.2.os = .view view then p.2.owner.map fun o => (p.1, p.2.len, o, p.2.everWritable) else none

/-- what only a survivor's copied pages hold; one that cannot be read is made readable first -/
def preserve (operation : String) (survivor : Survivor) : Op Survivor := do
  if survivor.everWritable = false then return survivor
  if survivor.owner.protection.isReadable = false then
    host operation (.protect survivor.start survivor.len .read)
  let preserved ← scanForCopyOnWrite operation survivor.start survivor.len survivor.owner
  return { survivor with preserved }

/-- a survivor mapped again, at the same address -/
def remapSurvivor (operation : String) (survivor : Survivor) : Op Unit := do
  makeExactPlaceholder operation survivor.start survivor.len
  match survivor.owner.backing with
  | none => throw .panicked
  | some backing =>
    let view ← mapView operation backing (survivor.owner.offsetAt survivor.start) survivor.start survivor.len
      survivor.owner.protection
    modify fun s =>
      { s with
        map := s.map.replace survivor.start survivor.len
          ⟨survivor.len, .view view, some survivor.owner, survivor.everWritable⟩ }

/-- what the rebuilding of a view ran into: the first failure, and what was lost -/
structure Rebuilt where
  firstError : Option MemError
  lostRanges : ℕ
  lostBytes : ℕ

/-- every survivor mapped again and its copied pages written back; a failure is kept to its own survivor -/
def rebuild (operation : String) : List Survivor → Op Rebuilt
  | [] => return ⟨none, 0, 0⟩
  | survivor :: rest => do
    match ← attempt (remapSurvivor operation survivor) with
    | .error e =>
      let more ← rebuild operation rest
      let bytes := (survivor.preserved.map fun run => run.bytes.length).sum
      return ⟨some e, more.lostRanges + 1, more.lostBytes + bytes⟩
    | .ok () =>
      let restored ← restoreCopyOnWrite operation survivor.owner.protection survivor.preserved
      restored.leftWritable.forM fun (address, len) => recordProtection operation address len .readWrite
      let more ← rebuild operation rest
      return { more with firstError := restored.source.orElse fun _ => more.firstError }

/-- the part of a view inside `[keepOutStart, keepOutEnd)` released: the whole view goes, and what survives is mapped again.
Where the walk goes on -/
def unmapView (operation : String) (view touched keepOutStart keepOutEnd : ℕ) : Op ℕ := do
  let s ← get
  match s.map.get touched with
  | none => throw .panicked
  | some e =>
    let pieces := s.map.viewPieces view
    let viewStart := pieces.foldl (fun a p => min a p.1) touched
    let viewEnd := pieces.foldl (fun a p => max a (p.1 + p.2.1)) (touched + e.len)
    let survivors := pieces.flatMap fun (start, len, owner, everWritable) =>
      (subtract start len keepOutStart keepOutEnd).map fun (start, len) =>
        ({ start, len, owner, everWritable, preserved := [] } : Survivor)
    let survivors ← survivors.mapM (preserve operation)
    host operation (.unmap viewStart (viewEnd - viewStart))
    modify fun s => { s with map := s.map.replace viewStart (viewEnd - viewStart) (.free (viewEnd - viewStart)) }
    let rebuilt ← rebuild operation survivors
    match rebuilt.firstError with
    | none => return min viewEnd keepOutEnd
    | some source =>
      if 0 < rebuilt.lostRanges then
        throw (.unmapEmulationLostContent operation viewStart (viewEnd - viewStart) rebuilt.lostRanges rebuilt.lostBytes source)
      throw source

/-- what the walk of `unmapRange` does with the entry it is at; where it goes on -/
def unmapEntry (operation : String) (address stop start : ℕ) (e : Entry) : Op ℕ := do
  if e.isFree then return start + e.len
  match e.os with
  | .placeholder =>
    modify fun s => { s with map := s.map.freeRange start e.len }
    return start + e.len
  | .priv _ =>
    host operation (.decommit start e.len)
    modify fun s => { s with committed := s.committed - e.len, map := s.map.freeRange start e.len }
    return start + e.len
  | .view view => unmapView operation view start address stop
  | .host => return start + e.len

/-- the entries from `position` on disowned and given back, up to `stop` -/
def unmapFrom (operation : String) (address stop : ℕ) : ℕ → ℕ → Op Unit
  | 0, _ => return
  | turns + 1, position => do
    if stop ≤ position then return
    let s ← get
    match s.map.entryAt position with
    | none => return
    | some (start, e) =>
      let position ← unmapEntry operation address stop start e
      unmapFrom operation address stop turns position

def unmapRange (operation : String) (address len : ℕ) : Op Unit := do
  ensureBoundary operation address
  ensureBoundary operation (address + len)
  unmapFrom operation address (address + len) len address

end Omnidroid.Mem
