/-
Finite maps with unique keys, and the total weight of what they hold.

A map is Mathlib's `AList` at a constant family. Two things are added to it:
- `lookup_insert_eq`, `lookup_erase_eq`: the value at any key after an update, as one `if`;
- `weigh w m`: the sum of `w k v` over the entries. `weigh_insert` and `weigh_erase` say what one update does to it,
  without subtraction (the replaced entry stands on the other side), so that they hold in any commutative monoid.

Conservation arguments weigh every place a token can be in: an update that moves a token from one place to another
leaves the total as it was.
-/
import Mathlib.Tactic
import Mathlib.Data.List.AList
import Mathlib.Algebra.BigOperators.Group.List.Basic
import Mathlib.Algebra.Order.Monoid.Canonical.Defs

namespace Omnidroid

/-- a finite map: at most one entry a key, in no meaningful order -/
abbrev Map (κ : Type*) (ν : Type*) := AList fun _ : κ => ν

namespace Map

variable {κ ν : Type*}

section Weigh

variable {M : Type*} [AddCommMonoid M]

/-- the sum of `w k v` over the entries -/
def weigh (w : κ → ν → M) (m : Map κ ν) : M := (m.entries.map fun e => w e.1 e.2).sum

end Weigh

variable [DecidableEq κ]

theorem lookup_insert_eq (m : Map κ ν) (k k' : κ) (v : ν) :
    (m.insert k v).lookup k' = if k' = k then some v else m.lookup k' := by
  split_ifs with h
  · subst h; exact AList.lookup_insert m
  · exact AList.lookup_insert_ne h

theorem lookup_erase_eq (m : Map κ ν) (k k' : κ) :
    (m.erase k).lookup k' = if k' = k then none else m.lookup k' := by
  split_ifs with h
  · subst h; exact AList.lookup_erase k' m
  · exact AList.lookup_erase_ne h

theorem erase_of_lookup_none {m : Map κ ν} {k : κ} (h : m.lookup k = none) : m.erase k = m :=
  AList.ext (List.kerase_of_notMem_keys (AList.lookup_eq_none.1 h))

theorem insert_isSome (m : Map κ ν) (k k' : κ) (v : ν) (h : (m.lookup k).isSome) :
    ((m.insert k v).lookup k').isSome = (m.lookup k').isSome := by
  rw [lookup_insert_eq]
  split_ifs with hk
  · rw [hk, h]; rfl
  · rfl

theorem mem_entries (m : Map κ ν) (k : κ) (v : ν) : ⟨k, v⟩ ∈ m.entries ↔ m.lookup k = some v :=
  (AList.mem_lookup_iff).symm

/-! ## Going through all entries -/

/-- each entry as `f` says: changed, or gone -/
def retain (f : κ → ν → Option ν) (m : Map κ ν) : Map κ ν where
  entries := m.entries.filterMap fun e => (f e.1 e.2).map fun v => ⟨e.1, v⟩
  nodupKeys := by
    have hs : ∀ l : List (Sigma fun _ : κ => ν),
        (l.filterMap fun e => (f e.1 e.2).map fun v => (⟨e.1, v⟩ : Sigma fun _ : κ => ν)).keys.Sublist l.keys := by
      intro l
      induction l with
      | nil => exact List.Sublist.slnil
      | cons e l ih =>
        rw [List.filterMap_cons]
        cases f e.1 e.2 with
        | none => exact ih.cons _
        | some v => exact ih.cons_cons _
    exact List.Nodup.sublist (hs m.entries) m.nodupKeys

theorem lookup_retain (f : κ → ν → Option ν) (m : Map κ ν) (k : κ) :
    (retain f m).lookup k = (m.lookup k).bind (f k) := by
  refine Option.ext fun v => ?_
  rw [← mem_entries]
  simp only [retain, List.mem_filterMap, Option.map_eq_some_iff, Option.bind_eq_some_iff, ← mem_entries]
  constructor
  · rintro ⟨⟨k', v'⟩, he, v'', hf, hv⟩
    cases hv
    exact ⟨v', he, hf⟩
  · rintro ⟨v', he, hf⟩
    exact ⟨⟨k, v'⟩, he, v, hf, rfl⟩

omit [DecidableEq κ] in
/-- what is left weighs what its entries weigh -/
theorem weigh_retain {M : Type*} [AddCommMonoid M] (w : κ → ν → M) (f : κ → ν → Option ν) (m : Map κ ν) :
    weigh w (retain f m) = weigh (fun k v => (f k v).elim 0 (w k)) m := by
  unfold weigh retain
  dsimp only
  induction m.entries with
  | nil => rfl
  | cons e l ih =>
    rw [List.filterMap_cons, List.map_cons, List.sum_cons, ← ih]
    cases f e.1 e.2 with
    | none => simp
    | some v => simp

/-! ## What one update does to the weight -/

section Update

variable {M : Type*} [AddCommMonoid M]

/-- what the entry at `k` weighs: nothing if there is none -/
def weighAt (w : κ → ν → M) (m : Map κ ν) (k : κ) : M := (m.lookup k).elim 0 (w k)

theorem weighAt_some {w : κ → ν → M} {m : Map κ ν} {k : κ} {v : ν} (h : m.lookup k = some v) :
    weighAt w m k = w k v := by
  simp [weighAt, h]

theorem weighAt_none {w : κ → ν → M} {m : Map κ ν} {k : κ} (h : m.lookup k = none) : weighAt w m k = 0 := by
  simp [weighAt, h]

/-- a default that weighs nothing may stand for a missing entry -/
theorem weighAt_getD (w : κ → ν → M) (m : Map κ ν) (k : κ) (d : ν) (hd : w k d = 0) :
    weighAt w m k = w k ((m.lookup k).getD d) := by
  cases h : m.lookup k with
  | none => simp [weighAt, h, hd]
  | some v => simp [weighAt, h]

/-- an entry comes out of the sum -/
theorem weigh_erase (w : κ → ν → M) (m : Map κ ν) (k : κ) : weigh w (m.erase k) + weighAt w m k = weigh w m := by
  by_cases hk : k ∈ m
  · obtain ⟨v, l₁, l₂, -, hm, he⟩ := List.exists_of_kerase hk
    have hl : m.lookup k = some v := (mem_entries m k v).1 (by rw [hm]; simp)
    have he' : (m.erase k).entries = l₁ ++ l₂ := he
    rw [weighAt_some hl, weigh, weigh, he', hm]
    simp only [List.map_append, List.map_cons, List.sum_append, List.sum_cons]
    abel
  · have he : (m.erase k).entries = m.entries := List.kerase_of_notMem_keys hk
    rw [weighAt_none (AList.lookup_eq_none.2 hk), add_zero, weigh, weigh, he]

/-- an entry goes into the sum in place of the one it replaces -/
theorem weigh_insert (w : κ → ν → M) (m : Map κ ν) (k : κ) (v : ν) :
    weigh w (m.insert k v) + weighAt w m k = weigh w m + w k v := by
  have he : (m.insert k v).entries = ⟨k, v⟩ :: (m.erase k).entries := rfl
  rw [weigh, he, List.map_cons, List.sum_cons, ← weigh, ← weigh_erase w m k]
  abel

theorem weigh_congr {w : κ → ν → M} (w' : κ → ν → M) {m : Map κ ν} (h : ∀ k v, m.lookup k = some v → w k v = w' k v) :
    weigh w m = weigh w' m := by
  unfold weigh
  refine congrArg List.sum (List.map_congr_left fun e he => ?_)
  exact h e.1 e.2 ((mem_entries m e.1 e.2).1 he)

theorem weigh_eq_zero {w : κ → ν → M} {m : Map κ ν} (h : ∀ k v, m.lookup k = some v → w k v = 0) :
    weigh w m = 0 := by
  rw [weigh_congr (fun _ _ => 0) h]
  simp [weigh]

/-- the whole, taken key by key in any order; `d` stands for what is not there -/
theorem weigh_eq_sum_keys (w : κ → ν → M) (m : Map κ ν) (d : ν) {l : List κ} (h : l.Perm m.keys) :
    weigh w m = (l.map fun k => w k ((m.lookup k).getD d)).sum := by
  rw [(h.map _).sum_eq, weigh, AList.keys, List.keys, List.map_map]
  refine congrArg List.sum (List.map_congr_left fun e he => ?_)
  simp [(mem_entries m e.1 e.2).1 he]

theorem weigh_mono {w w' : κ → ν → ℕ} {m : Map κ ν} (h : ∀ k v, m.lookup k = some v → w k v ≤ w' k v) :
    weigh w m ≤ weigh w' m :=
  List.sum_le_sum fun e he => h e.1 e.2 ((mem_entries m e.1 e.2).1 he)

/-- one entry weighs at most the whole -/
theorem le_weigh [PartialOrder M] [CanonicallyOrderedAdd M] {w : κ → ν → M} {m : Map κ ν} {k : κ} {v : ν}
    (h : m.lookup k = some v) : w k v ≤ weigh w m := by
  rw [← weigh_erase w m k, weighAt_some h]
  exact le_add_self

end Update

end Map

end Omnidroid
