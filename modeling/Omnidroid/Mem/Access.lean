/-
Whether guest code may make an access, and what is committed for it (`omni-mem/src/access.rs`).
- `admitsRegion`: rules 1 to 3 for an access inside one region.
- `walk`: the same over every region the access touches, with what of other mappings is owed a commit.
- `admitWalk`: the walk, then rule 4's commits by the caller's `ensureCommitted`.
- `Remembered`, `admittedFrom`: an answer from one region that a thread remembers, and that it is the walk's
  (`admittedFrom_walk`).
-/
import Omnidroid.Mem.Region

namespace Omnidroid.Mem

open Omnidroid.Mm (Protection)

/-! ## The rules -/

inductive Access where
  | read | write | execute
deriving DecidableEq, Repr

inductive Refusal where
  | notMapped | protection | commit
deriving DecidableEq, Repr

structure Admitted where
  start : ℕ
  stop : ℕ
  /-- bytes that this call committed -/
  committed : ℕ
  fullyCommitted : Bool
  anonymous : Bool
deriving DecidableEq, Repr

def permits (protection : Protection) : Access → Bool
  | .read => protection.isReadable
  | .write => protection.isWritable
  | .execute => protection.isExecutable

/-- addresses are below it: an end that reaches it overflows -/
def addressLimit : ℕ := 2 ^ 64

def admitsRegion (r : RegionInfo) (address len : ℕ) (access : Access) : Except Refusal Unit :=
  if r.isFree || r.kind == .host then .error .notMapped
  else if addressLimit ≤ address + len then .error .notMapped
  else if r.stop < address + len then .error .notMapped
  else if permits r.protection access then .ok ()
  else .error .protection

/-! ## The walk -/

/-- what the walk has found: how far it reached, where the first mapping's run ended, if it did, whether everything was
committed, and the pieces of other mappings that are owed a commit -/
structure Walk where
  coveredEnd : ℕ
  firstMappingEnd : Option ℕ
  fullyCommitted : Bool
  otherOwed : List (ℕ × ℕ)
deriving DecidableEq, Repr

section Walk

variable (regionAt : ℕ → Option RegionInfo) (region : RegionInfo) (accessEnd : ℕ) (access : Access)

/-- the next region the access touches, taken into account -/
def Walk.take (w : Walk) (next : RegionInfo) : Walk :=
  let piece := min accessEnd next.stop - w.coveredEnd
  let other := next.mapping ≠ region.mapping
  { coveredEnd := next.stop
    firstMappingEnd := if other then some (w.firstMappingEnd.getD w.coveredEnd) else w.firstMappingEnd
    fullyCommitted := w.fullyCommitted && next.isCommitted
    otherOwed :=
      if other ∧ next.kind = .anonymous ∧ next.isCommitted = false then w.otherOwed ++ [(w.coveredEnd, piece)]
      else w.otherOwed }

/-- the regions after the first, as long as the access reaches past them; each is not empty, so as many turns as the access
has bytes are enough -/
def walk : ℕ → Walk → Except Refusal Walk
  | 0, w => .ok w
  | turns + 1, w =>
    if accessEnd ≤ w.coveredEnd then .ok w
    else
      match regionAt w.coveredEnd with
      | none => .error .notMapped
      | some next =>
        if next.start ≠ w.coveredEnd ∨ next.mapping = none then .error .notMapped
        else
          match admitsRegion next w.coveredEnd (min accessEnd next.stop - w.coveredEnd) access with
          | .error refusal => .error refusal
          | .ok () => walk turns (w.take region accessEnd next)

end Walk

/-- the commits that rule 4 makes: the first mapping's in one, up to where its run ended, then the other pieces -/
def owed (region : RegionInfo) (w : Walk) (address accessEnd : ℕ) : List (ℕ × ℕ) :=
  if w.fullyCommitted then []
  else
    let own := min (w.firstMappingEnd.getD accessEnd) accessEnd - address
    (if region.kind = .anonymous then [(address, max own 1)] else []) ++ w.otherOwed

/-- rules 1 to 3: the first region, and what the walk from it found -/
def admitRules (regionAt : ℕ → Option RegionInfo) (address len : ℕ) (access : Access) :
    Except Refusal (RegionInfo × Walk) :=
  match regionAt address with
  | none => .error .notMapped
  | some region =>
    let accessEnd := address + max len 1
    if addressLimit ≤ accessEnd then .error .notMapped
    else
      match admitsRegion region address (min accessEnd region.stop - address) access with
      | .error refusal => .error refusal
      | .ok () =>
        match walk regionAt region accessEnd access (accessEnd - address) ⟨region.stop, none, region.isCommitted, []⟩ with
        | .error refusal => .error refusal
        | .ok w => .ok (region, w)

section Commits

variable {σ : Type} (ensureCommitted : ℕ → ℕ → EStateM Refusal σ ℕ)

/-- rule 4: the commits in order, the first that is refused ending them -/
def commitOwed : List (ℕ × ℕ) → EStateM Refusal σ ℕ
  | [] => pure 0
  | (address, len) :: rest => do
    let n ← ensureCommitted address len
    let more ← commitOwed rest
    return n + more

/-- `admit` where no remembered region is enough -/
def admitWalk (regionAt : ℕ → Option RegionInfo) (address len : ℕ) (access : Access) : EStateM Refusal σ Admitted :=
  match admitRules regionAt address len access with
  | .error refusal => throw refusal
  | .ok (region, w) => do
    let committed ← commitOwed ensureCommitted (owed region w address (address + max len 1))
    return ⟨region.start, w.firstMappingEnd.getD w.coveredEnd, committed, w.fullyCommitted, region.kind = .anonymous⟩

end Commits

/-! ## One remembered region -/

/-- a mapped region without its file -/
structure Remembered where
  start : ℕ
  len : ℕ
  protection : Protection
  anonymous : Bool
  committed : ℕ
  mapping : ℕ
  mappingStart : ℕ
  mappingLen : ℕ
deriving DecidableEq, Repr

namespace Remembered

def stop (h : Remembered) : ℕ := h.start + h.len

def isCommitted (h : Remembered) : Bool := h.committed == h.len

/-- the region, where it can be rebuilt: an anonymous one -/
def anonymousRegion (h : Remembered) : Option RegionInfo :=
  if h.anonymous then
    some ⟨h.start, h.len, h.protection, .anonymous, h.committed, some h.mapping, h.mappingStart, h.mappingLen⟩
  else none

/-- what is remembered of a region: nothing where nothing is mapped -/
def of (r : RegionInfo) : Option Remembered :=
  match r.kind, r.mapping with
  | .free, _ | .host, _ | _, none => none
  | .anonymous, some id => some ⟨r.start, r.len, r.protection, true, r.committed, id, r.mappingStart, r.mappingLen⟩
  | .file .., some id => some ⟨r.start, r.len, r.protection, false, r.committed, id, r.mappingStart, r.mappingLen⟩

end Remembered

/-- what `admit` answers where the remembered region is enough to know it -/
def admittedFrom (hit : Remembered) (address len : ℕ) (access : Access) : Option Admitted :=
  let accessEnd := address + max len 1
  if addressLimit ≤ accessEnd then none
  else if hit.stop < accessEnd then none
  else if permits hit.protection access = false then none
  else if hit.anonymous && !hit.isCommitted then none
  else some ⟨hit.start, hit.stop, 0, hit.isCommitted, hit.anonymous⟩

section Remembered

variable {r r' : RegionInfo} {hit : Remembered} {address len : ℕ} {access : Access} {admitted : Admitted}

/-- what is remembered of a region says all of it but the file -/
theorem Remembered.of_some (h : Remembered.of r = some hit) :
    hit.start = r.start ∧ hit.stop = r.stop ∧ hit.protection = r.protection ∧ hit.isCommitted = r.isCommitted ∧
      (hit.anonymous = decide (r.kind = .anonymous)) ∧ (r.isFree || r.kind == .host) = false := by
  unfold Remembered.of at h
  split at h
  · cases h
  · cases h
  · cases h
  all_goals
    rename_i hk _
    cases h
    simp [Remembered.stop, RegionInfo.stop, Remembered.isCommitted, RegionInfo.isCommitted, RegionInfo.isFree, hk]

/-- a region that is rebuilt is the one that was remembered -/
theorem Remembered.anonymousRegion_eq (h : Remembered.of r = some hit) (h' : hit.anonymousRegion = some r') : r' = r := by
  unfold Remembered.of at h
  split at h
  · cases h
  · cases h
  · cases h
  · rename_i hk hm
    cases h
    cases h'
    rw [← hk, ← hm]
  · cases h
    cases h'

/-- an access that ends in the remembered region, that its protection permits and that is owed no commit is the walk's: it
ends in its first region and commits nothing -/
theorem admittedFrom_walk {σ : Type} {ensureCommitted : ℕ → ℕ → EStateM Refusal σ ℕ} {regionAt : ℕ → Option RegionInfo}
    (hof : Remembered.of r = some hit) (hat : regionAt address = some r)
    (h : admittedFrom hit address len access = some admitted) (s : σ) :
    admitWalk ensureCommitted regionAt address len access s = .ok admitted s := by
  obtain ⟨hstart, hstop, hprot, hcommitted, hanon, hmapped⟩ := Remembered.of_some hof
  unfold admittedFrom at h
  simp only [Option.ite_none_left_eq_some, not_le, not_lt, Bool.not_eq_false, Bool.and_eq_true, Bool.not_eq_true',
    not_and, Option.some.injEq] at h
  obtain ⟨hlimit, hend, hpermits, hnone, rfl⟩ := h
  rw [hstop] at hend
  rw [hprot] at hpermits
  rw [hanon, hcommitted] at hnone
  have hadmits : admitsRegion r address (min (address + max len 1) r.stop - address) access = .ok () := by
    have hsum : address + (min (address + max len 1) r.stop - address) = address + max len 1 := by omega
    rw [admitsRegion, hsum, hmapped, if_neg Bool.false_ne_true, if_neg (by omega), if_neg (by omega), if_pos hpermits]
  -- the walk stops where it starts: the first region reaches the end of the access
  have hwalk : ∀ n w, r.stop ≤ w.coveredEnd → walk regionAt r (address + max len 1) access n w = .ok w := by
    intro n w hw
    cases n with
    | zero => rfl
    | succ n => rw [walk, if_pos (by omega)]
  have hrules : admitRules regionAt address len access = .ok (r, ⟨r.stop, none, r.isCommitted, []⟩) := by
    simp only [admitRules, hat, if_neg (show ¬addressLimit ≤ address + max len 1 by omega), hadmits,
      hwalk _ ⟨r.stop, none, r.isCommitted, []⟩ (le_refl _)]
  have howed : owed r ⟨r.stop, none, r.isCommitted, []⟩ address (address + max len 1) = [] := by
    cases hc : r.isCommitted with
    | true => simp [owed]
    | false =>
      have : ¬r.kind = .anonymous := by
        intro hk
        simp [hk, hc] at hnone
      simp [owed, this]
  simp only [admitWalk, hrules, howed, commitOwed, hstart, hstop, hanon, hcommitted]
  rfl

end Remembered

end Omnidroid.Mem
