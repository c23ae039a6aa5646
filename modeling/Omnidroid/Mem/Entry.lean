/-
The region map of a guest space (`omni-mem/src/entry.rs`): entries that tile the space, each with what the operating system
has there and the guest mapping it belongs to.
- `Entry`: a range with one state and at most one owner. Free space and what the host holds have none.
- `EntryMap.entryAt`: the entry an address is in.
- `EntryMap.Valid`: what `check_invariants` asserts after every operation.
-/
import Omnidroid.Lib.Tiles
import Omnidroid.Mm.Space

namespace Omnidroid.Mem

open Omnidroid.Mm (Protection)

/-! ## Entries -/

/-- an open file, its length as it was when it was opened -/
structure Backing where
  id : ℕ
  name : String
  shared : Bool
  guestNamed : Bool
  len : ℕ
deriving DecidableEq, Repr

inductive OsState where
  | placeholder
  | priv (idle : Bool)
  | view (view : ℕ)
  | host
deriving DecidableEq, Repr

inductive CommitPolicy where
  | eager | lazy
deriving DecidableEq, Repr

/-- the guest mapping an entry belongs to: all but the protection describes the whole mapping -/
structure Owner where
  id : ℕ
  mappingStart : ℕ
  mappingLen : ℕ
  protection : Protection
  granule : ℕ
  commit : CommitPolicy
  backing : Option Backing
  /-- the file's offset at `mappingStart` -/
  fileOffset : ℕ
deriving DecidableEq, Repr

def Owner.mappingEnd (o : Owner) : ℕ := o.mappingStart + o.mappingLen

def Owner.offsetAt (o : Owner) (address : ℕ) : ℕ := o.fileOffset + (address - o.mappingStart)

structure Entry where
  len : ℕ
  os : OsState
  owner : Option Owner
  /-- whether a view's pages were ever writable, and so may differ from the file's -/
  everWritable : Bool
deriving DecidableEq, Repr

namespace Entry

def free (len : ℕ) : Entry := ⟨len, .placeholder, none, false⟩

def host (len : ℕ) : Entry := ⟨len, .host, none, false⟩

def isFree (e : Entry) : Bool := e.owner.isNone && e.os != .host

/-- what it is, for diagnostics -/
def describe (e : Entry) : String :=
  match e.owner, e.os with
  | none, .host => "address space the host holds"
  | none, _ => "free address space"
  | some o, os =>
    match o.backing.isSome, os with
    | true, _ => "a file mapping"
    | false, .placeholder => "an anonymous mapping, not yet committed"
    | false, _ => "an anonymous mapping"

def isHost (e : Entry) : Bool := e.os == .host

/-- the commit charge it is responsible for -/
def committedBytes (e : Entry) : ℕ :=
  match e.os with
  | .priv _ => e.len
  | .placeholder | .view _ | .host => 0

end Entry

/-! ## The map -/

/-- the map, its entries by where they start; `hosts` are what the host holds, as they were found -/
structure EntryMap where
  base : ℕ
  len : ℕ
  entries : List (ℕ × Entry)
  hosts : List (ℕ × ℕ)
deriving DecidableEq, Repr

namespace EntryMap

variable {m : EntryMap} {p q : ℕ × Entry} {address : ℕ}

def stop (m : EntryMap) : ℕ := m.base + m.len

/-- the last entry that starts by the address, when it reaches past it -/
def entryAt (m : EntryMap) (address : ℕ) : Option (ℕ × Entry) :=
  (m.entries.reverse.find? fun p => p.1 ≤ address).filter fun p => address < p.1 + p.2.len

def get (m : EntryMap) (start : ℕ) : Option Entry := (m.entries.find? fun p => p.1 = start).map Prod.snd

/-- the starts of the entries that overlap the range -/
def startsOverlapping (m : EntryMap) (address len : ℕ) : List ℕ :=
  let first := ((m.entryAt address).map Prod.fst).getD address
  (m.entries.filter fun p => first ≤ p.1 && p.1 < address + len).map Prod.fst

/-- the first range the host holds that overlaps the one given, as its start and end -/
def hostOverlapping (m : EntryMap) (address len : ℕ) : Option (ℕ × ℕ) :=
  (m.hosts.find? fun h => h.1 < address + len && address < h.1 + h.2).map fun h => (h.1, h.1 + h.2)

/-- the entry at `start` cut in two at `at`: in the map only -/
def splitBookkeeping (m : EntryMap) (start at' : ℕ) : EntryMap :=
  { m with entries := m.entries.flatMap fun p =>
      if p.1 = start then [(start, { p.2 with len := at' - start }), (at', { p.2 with len := start + p.2.len - at' })]
      else [p] }

/-- one entry in the place of the whole entries of the range -/
def replace (m : EntryMap) (start len : ℕ) (e : Entry) : EntryMap :=
  { m with entries :=
      (m.entries.filter fun p => p.1 < start) ++ (start, e) :: m.entries.filter fun p => start + len ≤ p.1 }

/-- the entry at `start` changed -/
def update (m : EntryMap) (start : ℕ) (f : Entry → Entry) : EntryMap :=
  { m with entries := m.entries.map fun p => if p.1 = start then (p.1, f p.2) else p }

/-- every entry of the range free -/
def freeRange (m : EntryMap) (start len : ℕ) : EntryMap :=
  (m.startsOverlapping start len).foldl
    (fun m s => m.update s fun e => { e with owner := none, os := .placeholder, everWritable := false }) m

/-- what is free, and the longest run of it -/
def freeSummary (m : EntryMap) : ℕ × ℕ :=
  let (total, largest, _) := m.entries.foldl
    (fun (total, largest, run) p =>
      if p.2.isFree then (total + p.2.len, max largest (run + p.2.len), run + p.2.len) else (total, largest, 0))
    (0, 0, 0)
  (total, largest)

/-- the entries lie end to end from one address to the other -/
abbrev TiledFrom (lo : ℕ) (entries : List (ℕ × Entry)) (hi : ℕ) : Prop := Tiles Prod.fst (fun p => p.2.len) lo entries hi

/-- the mapping it belongs to reaches past it on both sides -/
def Inside (p : ℕ × Entry) (o : Owner) : Prop := o.mappingStart ≤ p.1 ∧ p.1 + p.2.len ≤ o.mappingEnd

/-- `check_invariants` -/
structure Valid (m : EntryMap) : Prop where
  tiles : TiledFrom m.base m.entries m.stop
  inside : ∀ p ∈ m.entries, ∀ o ∈ p.2.owner, Inside p o ∧ 0 < o.granule
  hosts : (m.entries.filter fun p => p.2.isHost).map (fun p => (p.1, p.2.len)) = m.hosts
  unclaimed : ∀ p ∈ m.entries, p.2.isHost → p.2.owner = none ∧ p.2.everWritable = false
  free : ∀ p ∈ m.entries, p.2.isFree → p.2.os = .placeholder

/-- the entry that an address of the space is in -/
theorem entryAt_of_mem {lo hi : ℕ} (h : TiledFrom lo m.entries hi) (hp : p ∈ m.entries) (hle : p.1 ≤ address)
    (hlt : address < p.1 + p.2.len) : m.entryAt address = some p := by
  have hpw := h.pairwise
  obtain ⟨before, after, he⟩ := List.append_of_mem hp
  have hlater : ∀ q ∈ after, ¬q.1 ≤ address := by
    intro q hq
    rw [he, List.pairwise_append] at hpw
    have := (List.pairwise_cons.mp hpw.2.1).1 q hq
    omega
  have hfind : m.entries.reverse.find? (fun q => q.1 ≤ address) = some p := by
    rw [he, List.reverse_append, List.reverse_cons, List.append_assoc, List.find?_append,
      List.find?_eq_none.mpr (by simpa using hlater)]
    simp [hle]
  simp [entryAt, hfind, hlt]

theorem mem_of_entryAt (h : m.entryAt address = some p) : p ∈ m.entries ∧ p.1 ≤ address ∧ address < p.1 + p.2.len := by
  obtain ⟨hfind, hlt⟩ := Option.filter_eq_some_iff.mp h
  refine ⟨List.mem_reverse.mp (List.mem_of_find?_eq_some hfind), ?_, by simpa using hlt⟩
  simpa using List.find?_some hfind

end EntryMap

end Omnidroid.Mem
