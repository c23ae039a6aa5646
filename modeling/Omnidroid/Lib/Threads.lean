/-
Threads over memory they share: each is somewhere in its own code, one step moves one of them, and a wake moves those
that sleep.
- `total`: a weight summed over the threads; `total_update` says what one thread's move does to it.
- `Sleeper`, `wakeOne`, `wakeAll`: a queue of sleepers, as a futex has at one word.
-/
import Mathlib

namespace Omnidroid

open scoped BigOperators

variable {α : Type} {n : ℕ}

instance neZero_two : NeZero 2 := ⟨by decide⟩

instance neZero_three : NeZero 3 := ⟨by decide⟩

/-! ## Weights -/

/-- the sum of a weight over the threads -/
def total (f : α → ℕ) (g : Fin n → α) : ℕ := ∑ t, f (g t)

section Total

variable {f : α → ℕ} {g : Fin n → α} {t u : Fin n} {a : α}

theorem total_update (f : α → ℕ) (g : Fin n → α) (t : Fin n) (a : α) :
    total f (Function.update g t a) + f (g t) = total f g + f a := by
  have h : (fun u => f (Function.update g t a u)) = Function.update (fun u => f (g u)) t (f a) := by
    funext u
    rcases eq_or_ne u t with rfl | hu
    · simp
    · simp [hu]
  have h₁ := Finset.sum_update_of_mem (Finset.mem_univ t) (fun u => f (g u)) (f a)
  have h₂ := Finset.add_sum_erase Finset.univ (fun u => f (g u)) (Finset.mem_univ t)
  simp only [Finset.sdiff_singleton_eq_erase] at h₁
  simp only [total, h, h₁]
  omega

theorem weight_le_total (f : α → ℕ) (g : Fin n → α) (t : Fin n) : f (g t) ≤ total f g :=
  Finset.single_le_sum (f := fun u => f (g u)) (fun _ _ => Nat.zero_le _) (Finset.mem_univ t)

theorem total_eq_zero : total f g = 0 ↔ ∀ t, f (g t) = 0 := by
  simp [total, Finset.sum_eq_zero_iff]

theorem total_pos : 0 < total f g ↔ ∃ t, 0 < f (g t) := by
  rw [Nat.pos_iff_ne_zero, ne_eq, total_eq_zero]
  simp only [not_forall, Nat.pos_iff_ne_zero, ne_eq]

/-- two threads' weights are both in the sum -/
theorem add_le_total (htu : t ≠ u) : f (g t) + f (g u) ≤ total f g := by
  have h := Finset.sum_le_sum_of_subset (f := fun u => f (g u)) (Finset.subset_univ {t, u})
  rwa [Finset.sum_pair htu] at h

theorem total_congr {g' : Fin n → α} (h : ∀ t, f (g' t) = f (g t)) : total f g' = total f g :=
  Finset.sum_congr rfl fun t _ => h t

end Total

/-! ## Sleepers -/

/-- which places are sleep, and where a wake leads from one -/
structure Sleeper (α : Type) where
  sleeps : α → Bool
  woken : α → α

/-- a wake of at most one: `who` is woken, or no one sleeps -/
def wakeOne (S : Sleeper α) (g : Fin n → α) : Option (Fin n) → Option (Fin n → α)
  | some t => if S.sleeps (g t) then some (Function.update g t (S.woken (g t))) else none
  | none => if ∀ t, S.sleeps (g t) = false then some g else none

def wakeAll (S : Sleeper α) (g : Fin n → α) : Fin n → α := fun t => if S.sleeps (g t) then S.woken (g t) else g t

theorem wakeOne_eq_some {S : Sleeper α} {g g' : Fin n → α} {who : Option (Fin n)} (h : wakeOne S g who = some g') :
    (∃ t, S.sleeps (g t) = true ∧ g' = Function.update g t (S.woken (g t))) ∨ (∀ t, S.sleeps (g t) = false) ∧ g' = g := by
  unfold wakeOne at h
  cases who with
  | some t =>
    simp only at h
    split at h
    · rename_i hs
      exact .inl ⟨t, hs, (Option.some.inj h).symm⟩
    · cases h
  | none =>
    simp only at h
    split at h
    · rename_i hs
      exact .inr ⟨hs, (Option.some.inj h).symm⟩
    · cases h

end Omnidroid
