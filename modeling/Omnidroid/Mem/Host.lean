/-
The operating system under a guest space, as far as the space uses it (`omni-platform/src/vm/mod.rs`): what it has at each
address, the calls with the preconditions they document, and the space's own state beside it.
- `Piece`, `Os`: a placeholder, committed memory or a whole view, each address knowing the one it is in.
- `Call.Legal`, `Call.carry`: what a call asks of the address space, and what it does when it is granted.
- `State`: the space's lock and the system. `grants` says how each call is answered; any may be refused, without effect.
- `State.lawful`: whether every call so far was made inside its precondition.
Addresses are the guest's. Within one reservation the host's differ by a constant, and no entry spans two: a range that the
host holds lies between them.
-/
import Omnidroid.Lib.Answers
import Omnidroid.Mem.Region

namespace Omnidroid.Mem

open Omnidroid.Mm (Protection)

/-! ## The address space -/

inductive Piece where
  | outside
  | placeholder (start len : ℕ)
  | priv
  | view (start len : ℕ) (backing : Backing) (fileOffset : ℕ)
deriving DecidableEq, Repr

structure Os where
  piece : ℕ → Piece
  /-- the protection of what is committed or a view -/
  protection : ℕ → Protection
  /-- the process's own byte, where it has one: in a view, on a page copied when it was first written -/
  own : ℕ → Option UInt8

/-- `f`, but `v` on the `n` addresses from `a` on -/
def fill {α : Type} (f : ℕ → α) (a n : ℕ) (v : α) : ℕ → α := fun x => if Within a n x then v else f x

/-! ## Calls -/

inductive Call where
  | split (start len : ℕ)
  | coalesce (start len : ℕ)
  | commit (start len : ℕ) (protection : Protection)
  | protect (start len : ℕ) (protection : Protection)
  /-- `protect` to no access of a view just made, which cannot be made so -/
  | hide (start len : ℕ)
  | decommit (start len : ℕ)
  | mapFile (start len : ℕ) (backing : Backing) (fileOffset : ℕ) (protection : Protection)
  | unmap (start len : ℕ)
  /-- a view of a file made outside the space, to compare with, and given back -/
  | pristine (len : ℕ) (backing : Backing) (fileOffset : ℕ)
deriving DecidableEq, Repr

namespace Call

def start : Call → ℕ
  | split start _ | coalesce start _ | commit start _ _ | protect start _ _ | hide start _ | decommit start _
  | mapFile start .. | unmap start _ => start
  | pristine .. => 0

def len : Call → ℕ
  | split _ len | coalesce _ len | commit _ len _ | protect _ len _ | hide _ len | decommit _ len
  | mapFile _ len .. | unmap _ len | pristine len .. => len

/-- all that is committed memory, or all of one view -/
def Uniform (os : Os) (start len : ℕ) : Prop :=
  (∀ x, Within start len x → os.piece x = .priv) ∨
    ∃ s l b o, ∀ x, Within start len x → os.piece x = .view s l b o

/-- the preconditions: a split strictly inside one placeholder, a merge over two or more whole ones, a commit or a view on
exactly one, the release of a whole view -/
def Legal (os : Os) : Call → Prop
  | split start len => ∃ l, 0 < len ∧ len < l ∧ ∀ x, Within start l x → os.piece x = .placeholder start l
  | coalesce start len => 0 < len ∧ os.piece start ≠ .placeholder start len ∧
      ∀ x, Within start len x → ∃ s l, os.piece x = .placeholder s l ∧ start ≤ s ∧ s + l ≤ start + len
  | commit start len _ | mapFile start len .. => 0 < len ∧ ∀ x, Within start len x → os.piece x = .placeholder start len
  | protect start len _ | hide start len => 0 < len ∧ Uniform os start len
  | decommit start len => 0 < len ∧ ∀ x, Within start len x → os.piece x = .priv
  | unmap start len => 0 < len ∧ ∃ b o, ∀ x, Within start len x → os.piece x = .view start len b o
  | pristine len .. => 0 < len

/-- what a call does when it is granted -/
def carry (os : Os) : Call → Os
  | split start len =>
    match os.piece start with
    | .placeholder _ l =>
      { os with piece := fill (fill os.piece start l (.placeholder (start + len) (l - len))) start len (.placeholder start len) }
    | _ => os
  | coalesce start len => { os with piece := fill os.piece start len (.placeholder start len) }
  | commit start len protection =>
    { piece := fill os.piece start len .priv
      protection := fill os.protection start len protection
      own := fill os.own start len (some 0) }
  | protect start len protection => { os with protection := fill os.protection start len protection }
  | hide start len => { os with protection := fill os.protection start len .none }
  | decommit start len | unmap start len =>
    { os with piece := fill os.piece start len (.placeholder start len), own := fill os.own start len none }
  | mapFile start len backing fileOffset protection =>
    { piece := fill os.piece start len (.view start len backing fileOffset)
      protection := fill os.protection start len protection
      own := fill os.own start len none }
  | pristine .. => os

end Call

/-! ## The space -/

inductive MemError where
  | platform (operation : String) (address stop len : ℕ)
  | outsideSpace (operation : String) (address stop spaceBase spaceEnd spaceLen : ℕ)
  | misaligned (operation what : String) (value required : ℕ)
  | zeroSize (operation : String)
  | addressTaken (operation : String) (requested requestedEnd conflictStart conflictEnd : ℕ) (conflict : String)
  | noSpace (operation : String) (len align free largest : ℕ)
  | notMapped (operation : String) (address stop unmappedStart unmappedEnd : ℕ)
  | hostOwned (operation : String) (address stop hostStart hostEnd : ℕ)
  | alignmentTooLarge (operation : String) (align spaceLen : ℕ)
  | commitCeiling (operation : String) (address requested committed wouldTotal limit : ℕ)
  | commitRequestTooLarge (operation : String) (address requested limit : ℕ)
  | unmapEmulationLostContent (operation : String) (viewStart viewLen lostRanges lostBytes : ℕ) (source : MemError)
  /-- an `expect` or an `assert!` that does not hold -/
  | panicked
deriving DecidableEq, Repr

structure State extends Inner where
  granule : ℕ
  maxCommitted : ℕ
  maxCommitRequest : ℕ
  /-- a search for room that starts above it does not wrap below it -/
  floor : ℕ
  cursor : ℕ
  /-- the commit charge, kept by hand -/
  committed : ℕ
  nextMapping : ℕ
  nextView : ℕ
  os : Os
  /-- what each file holds -/
  files : ℕ → ℕ → UInt8
  /-- how the system answers its calls, by how many came before -/
  grants : ℕ → Call → Bool
  calls : ℕ
  lawful : Prop

abbrev Op := EStateM MemError State

namespace State

/-- a call made, and one that was granted -/
def asked (s : State) (c : Call) : State := { s with calls := s.calls + 1, lawful := s.lawful ∧ c.Legal s.os }

def granted (s : State) (c : Call) : State := { s.asked c with os := c.carry s.os }

/-- the byte a read of the address gives, where it gives one -/
def byte (s : State) (x : ℕ) : UInt8 :=
  match s.os.piece x with
  | .view start _ backing fileOffset => (s.os.own x).getD (s.files backing.id (fileOffset + (x - start)))
  | _ => (s.os.own x).getD 0

/-- the bytes from `address` on as the space itself stores them: to committed memory, or to a view's own copies -/
def store (s : State) (address : ℕ) (bytes : List UInt8) : State :=
  { s with os := { s.os with own := fun x => if Within address bytes.length x then bytes[x - address]? else s.os.own x } }

end State

/-- a call, and what its refusal is reported as -/
def host (operation : String) (c : Call) : Op Unit := fun s =>
  if s.grants s.calls c then .ok () (s.granted c)
  else .error (.platform operation c.start (c.start + c.len) c.len) (s.asked c)

theorem ensures_host {operation : String} {c : Call} {s : State} {Q : Unit → State → Prop} {E : MemError → State → Prop}
    (hgranted : s.grants s.calls c = true → Q () (s.granted c))
    (hrefused : s.grants s.calls c = false → E (.platform operation c.start (c.start + c.len) c.len) (s.asked c)) :
    Ensures (host operation c) s Q E := by
  constructor
  · intro a s' h
    unfold host at h
    split at h
    · rename_i hg
      cases h
      exact hgranted hg
    · cases h
  · intro e s' h
    unfold host at h
    split at h
    · cases h
    · rename_i hg
      cases h
      exact hrefused (by simpa using hg)

end Omnidroid.Mem
