/-
Pieces laid into a block of bytes, each at an offset of its own (a C structure written field by field).

- `Lies n ps`: the pieces lie in `n` bytes, each after the end of those before it; decided on offsets and lengths alone.
- `slice_lay`: each piece is read back where it was laid.
-/
import Omnidroid.Lib.Bytes

namespace Omnidroid.Layout

open Bytes

/-- each piece written over the block, in order -/
def lay (b : Bytes) : List (ℕ × Bytes) → Bytes
  | [] => b
  | p :: ps => lay (patch b p.1 p.2) ps

/-- where a piece lies: its offset and its length -/
def extent (p : ℕ × Bytes) : ℕ × ℕ := (p.1, p.2.length)

/-- one after another from `at_` on, none past `n` -/
def Lies (n : ℕ) : ℕ → List (ℕ × ℕ) → Bool
  | at_, [] => at_ ≤ n
  | at_, p :: ps => at_ ≤ p.1 && Lies n (p.1 + p.2) ps

theorem lies_le {n at_ : ℕ} {ps : List (ℕ × ℕ)} (h : Lies n at_ ps) : at_ ≤ n := by
  induction ps generalizing at_ with
  | nil => simpa [Lies] using h
  | cons p ps ih =>
    rw [Lies, Bool.and_eq_true, decide_eq_true_eq] at h
    have := ih h.2
    omega

theorem mem_lies {n at_ : ℕ} {ps : List (ℕ × ℕ)} (h : Lies n at_ ps) : ∀ p ∈ ps, at_ ≤ p.1 ∧ p.1 + p.2 ≤ n := by
  induction ps generalizing at_ with
  | nil => simp
  | cons p ps ih =>
    rw [Lies, Bool.and_eq_true, decide_eq_true_eq] at h
    intro q hq
    rcases List.mem_cons.mp hq with rfl | hq
    · exact ⟨h.1, lies_le h.2⟩
    · have := ih h.2 q hq
      omega

theorem length_lay {b : Bytes} {ps : List (ℕ × Bytes)} (h : ∀ p ∈ ps, p.1 + p.2.length ≤ b.length) :
    (lay b ps).length = b.length := by
  induction ps generalizing b with
  | nil => rfl
  | cons p ps ih =>
    have hp := length_patch (h p List.mem_cons_self)
    rw [lay, ih, hp]
    intro q hq
    rw [hp]
    exact h q (List.mem_cons_of_mem _ hq)

/-- what lies before all of the pieces is not written over -/
theorem slice_lay_before {b : Bytes} {ps : List (ℕ × Bytes)} {o n : ℕ} (h : ∀ p ∈ ps, o + n ≤ p.1 ∧ p.1 + p.2.length ≤ b.length) :
    slice (lay b ps) o n = slice b o n := by
  induction ps generalizing b with
  | nil => rfl
  | cons p ps ih =>
    have hp := h p List.mem_cons_self
    rw [lay, ih, slice_patch_of_disjoint hp.2 (.inl hp.1)]
    intro q hq
    rw [length_patch hp.2]
    exact h q (List.mem_cons_of_mem _ hq)

/-- **A piece is read back.** -/
theorem slice_lay {b : Bytes} {ps : List (ℕ × Bytes)} {at_ : ℕ} (h : Lies b.length at_ (ps.map extent)) {p : ℕ × Bytes} (hp : p ∈ ps) :
    slice (lay b ps) p.1 p.2.length = p.2 := by
  induction ps generalizing b at_ with
  | nil => cases hp
  | cons q ps ih =>
    have hfits : q.1 + q.2.length ≤ b.length := (mem_lies h (extent q) List.mem_cons_self).2
    have hlen := length_patch hfits
    rw [List.map_cons, Lies, Bool.and_eq_true] at h
    rw [lay]
    rcases List.mem_cons.mp hp with rfl | hp
    · rw [slice_lay_before, slice_patch_same hfits]
      intro r hr
      have := mem_lies h.2 (extent r) (List.mem_map_of_mem hr)
      rw [hlen]
      exact this
    · exact ih (hlen ▸ h.2) hp

end Omnidroid.Layout
