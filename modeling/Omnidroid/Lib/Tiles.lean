/-
Ranges laid end to end: a list of things, each with where it starts and how long it is, none of them empty, that tile one
range in ascending order.
- `Tiles.cover`: they cover what the range has, and nothing else.
- `Tiles.pairwise`: each ends before any later one starts.
-/
import Mathlib.Tactic

namespace Omnidroid

variable {α : Type*} {start len : α → ℕ}

/-- `ps` lie end to end from `lo` to `hi` -/
def Tiles (start len : α → ℕ) : ℕ → List α → ℕ → Prop
  | lo, [], hi => lo = hi
  | lo, p :: ps, hi => start p = lo ∧ 0 < len p ∧ Tiles start len (lo + len p) ps hi

namespace Tiles

variable {lo mid hi : ℕ} {ps qs : List α}

theorem le (h : Tiles start len lo ps hi) : lo ≤ hi := by
  induction ps generalizing lo with
  | nil => exact h.le
  | cons p ps ih =>
    obtain ⟨-, hlen, hrest⟩ := h
    have := ih hrest
    omega

theorem append (h : Tiles start len lo ps mid) (h' : Tiles start len mid qs hi) : Tiles start len lo (ps ++ qs) hi := by
  induction ps generalizing lo with
  | nil =>
    obtain rfl : lo = mid := h
    exact h'
  | cons p ps ih => exact ⟨h.1, h.2.1, ih h.2.2⟩

theorem of_append (h : Tiles start len lo (ps ++ qs) hi) : ∃ mid, Tiles start len lo ps mid ∧ Tiles start len mid qs hi := by
  induction ps generalizing lo with
  | nil => exact ⟨lo, rfl, h⟩
  | cons p ps ih =>
    obtain ⟨mid, h₁, h₂⟩ := ih h.2.2
    exact ⟨mid, ⟨h.1, h.2.1, h₁⟩, h₂⟩

/-- what is not empty tiles one range only -/
theorem unique {lo' hi' : ℕ} (h : Tiles start len lo ps hi) (h' : Tiles start len lo' ps hi') (hne : ps ≠ []) :
    lo = lo' ∧ hi = hi' := by
  induction ps generalizing lo lo' with
  | nil => exact absurd rfl hne
  | cons p ps ih =>
    obtain rfl : lo = lo' := h.1.symm.trans h'.1
    refine ⟨rfl, ?_⟩
    rcases eq_or_ne ps [] with rfl | hne
    · exact h.2.2.symm.trans h'.2.2
    · exact (ih h.2.2 h'.2.2 hne).2

theorem cover (h : Tiles start len lo ps hi) (x : ℕ) :
    (∃ p ∈ ps, start p ≤ x ∧ x < start p + len p) ↔ lo ≤ x ∧ x < hi := by
  induction ps generalizing lo with
  | nil =>
    obtain rfl : lo = hi := h
    simp
  | cons p ps ih =>
    obtain ⟨hs, hlen, hrest⟩ := h
    have hle := hrest.le
    simp only [List.mem_cons, exists_eq_or_imp, ih hrest]
    omega

theorem bounds (h : Tiles start len lo ps hi) {p : α} (hp : p ∈ ps) : lo ≤ start p ∧ start p + len p ≤ hi ∧ 0 < len p := by
  induction ps generalizing lo with
  | nil => cases hp
  | cons q ps ih =>
    obtain ⟨hs, hlen, hrest⟩ := h
    rcases List.mem_cons.mp hp with rfl | hp
    · have := hrest.le
      omega
    · have := ih hrest hp
      omega

theorem pairwise (h : Tiles start len lo ps hi) : ps.Pairwise fun p q => start p + len p ≤ start q := by
  induction ps generalizing lo with
  | nil => exact .nil
  | cons p ps ih =>
    obtain ⟨hs, hlen, hrest⟩ := h
    refine .cons ?_ (ih hrest)
    intro q hq
    have := (hrest.bounds hq).1
    omega

end Tiles

end Omnidroid
