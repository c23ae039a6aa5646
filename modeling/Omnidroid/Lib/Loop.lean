/-
Loops that may run for ever.

A turn goes on with another state or ends with a result, and takes some steps. `run turn n s`: what `n` turns come to, and all their
steps.
- `run_ends`: the loop ends where a measure pays for the steps of every turn.
- `run_stuck`: it does not from a state of a set that no turn leaves; `not_stuck`: so it comes to none where it ends.
-/
import Mathlib.Logic.Relation
import Mathlib.Tactic

namespace Omnidroid.Loop

variable {σ ρ : Type*} {turn : σ → (σ ⊕ ρ) × ℕ}

def run (turn : σ → (σ ⊕ ρ) × ℕ) : ℕ → σ → Option (ρ × ℕ)
  | 0, _ => none
  | n + 1, s =>
    match turn s with
    | (.inl s', k) => (run turn n s').map fun r => (r.1, k + r.2)
    | (.inr r, k) => some (r, k)

/-- a turn leads from one state to the other -/
def Goes (turn : σ → (σ ⊕ ρ) × ℕ) (s s' : σ) : Prop := (turn s).1 = .inl s'

theorem run_goes {s s' : σ} (h : Goes turn s s') (n : ℕ) :
    run turn (n + 1) s = (run turn n s').map fun r => (r.1, (turn s).2 + r.2) := by
  cases hturn : turn s with
  | mk out k =>
    obtain rfl : out = .inl s' := (congrArg Prod.fst hturn).symm.trans h
    rw [run, hturn]

theorem run_done {s : σ} {r : ρ} (h : (turn s).1 = .inr r) (n : ℕ) : run turn (n + 1) s = some (r, (turn s).2) := by
  cases hturn : turn s with
  | mk out k =>
    obtain rfl : out = .inr r := (congrArg Prod.fst hturn).symm.trans h
    rw [run, hturn]

/-- a measure that pays for every turn: the loop ends, and its steps are no more than it was -/
theorem run_ends {I : σ → Prop} {m : σ → ℕ} {good : ρ → Prop}
    (hgoes : ∀ s s', I s → Goes turn s s' → I s' ∧ 0 < (turn s).2 ∧ (turn s).2 + m s' ≤ m s)
    (hends : ∀ s r, I s → (turn s).1 = .inr r → (turn s).2 ≤ m s ∧ good r) {s : σ} (h : I s) :
    ∃ n r, run turn n s = some r ∧ r.2 ≤ m s ∧ good r.1 := by
  induction hm : m s using Nat.strong_induction_on generalizing s with
  | _ k ih =>
    cases hturn : (turn s).1 with
    | inr r =>
      obtain ⟨hle, hgood⟩ := hends s r h hturn
      exact ⟨1, (r, (turn s).2), run_done hturn 0, hm ▸ hle, hgood⟩
    | inl s' =>
      obtain ⟨h', hpos, hle⟩ := hgoes s s' h hturn
      obtain ⟨n, r, hrun, hr, hgood⟩ := ih (m s') (by omega) h' rfl
      refine ⟨n + 1, (r.1, (turn s).2 + r.2), ?_, by dsimp only; omega, hgood⟩
      rw [run_goes hturn, hrun, Option.map_some]

/-- states that no turn leaves -/
theorem run_stuck {S : σ → Prop} (hstuck : ∀ s, S s → ∃ s', Goes turn s s' ∧ S s') (n : ℕ) {s : σ} (h : S s) : run turn n s = none := by
  induction n generalizing s with
  | zero => rfl
  | succ n ih =>
    obtain ⟨s', hgoes, h'⟩ := hstuck s h
    rw [run_goes hgoes, ih h', Option.map_none]

/-- a loop that ends comes to none of them -/
theorem not_stuck {S : σ → Prop} (hstuck : ∀ s, S s → ∃ s', Goes turn s s' ∧ S s') {s t : σ} (hgoes : Relation.ReflTransGen (Goes turn) s t)
    {n : ℕ} {r : ρ × ℕ} (hrun : run turn n s = some r) : ¬S t := by
  induction hgoes using Relation.ReflTransGen.head_induction_on generalizing n r with
  | refl =>
    intro h
    rw [run_stuck hstuck n h] at hrun
    cases hrun
  | head hgo _ ih =>
    cases n with
    | zero => cases hrun
    | succ n =>
      rw [run_goes hgo] at hrun
      obtain ⟨r', hr', _⟩ := Option.map_eq_some_iff.mp hrun
      exact ih hr'

end Omnidroid.Loop
