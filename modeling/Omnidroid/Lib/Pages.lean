/-
Ranges of numbers cut into pages: which pages a range covers, and rounding up to whole pages.
A range is where it starts and how long it is. One of whole pages covers a number exactly when it covers the start of that
number's page (`within_page`), so what is stored by page may be reasoned about by address.
-/
import Mathlib.Tactic

namespace Omnidroid

/-- `x` is one of the `n` numbers from `a` on -/
def Within (a n x : ℕ) : Prop := a ≤ x ∧ x < a + n

instance (a n x : ℕ) : Decidable (Within a n x) := inferInstanceAs (Decidable (_ ∧ _))

theorem within_zero (a x : ℕ) : ¬Within a 0 x := by
  intro h
  simp only [Within] at h
  omega

theorem within_start {a n : ℕ} (h : 0 < n) : Within a n a := ⟨le_refl a, by omega⟩

/-- the start of the page that a number is in -/
def pageOf (p a : ℕ) : ℕ := a / p * p

theorem pageOf_le (p a : ℕ) : pageOf p a ≤ a := Nat.div_mul_le_self a p

theorem dvd_pageOf (p a : ℕ) : p ∣ pageOf p a := Dvd.intro_left _ rfl

section PageOf

variable {p a b k : ℕ}

theorem lt_pageOf_add (hp : 0 < p) (a : ℕ) : a < pageOf p a + p := by
  have h := Nat.div_add_mod a p
  have hlt := Nat.mod_lt a hp
  have hc : a / p * p = p * (a / p) := Nat.mul_comm _ _
  unfold pageOf
  omega

/-- it is the one start of a page that the number is from on and the next start is not -/
theorem pageOf_eq (hp : 0 < p) (hk : p ∣ k) (hle : k ≤ a) (hlt : a < k + p) : pageOf p a = k := by
  obtain ⟨i, rfl⟩ := hk
  have : a / p = i := by
    rw [Nat.div_eq_iff hp]
    constructor <;> rw [Nat.mul_comm] <;> omega
  rw [pageOf, this, Nat.mul_comm]

/-- of two starts of pages, the lower one's page ends by the other -/
theorem add_le_of_page_lt (hk : p ∣ k) (hb : p ∣ b) (hlt : k < b) : k + p ≤ b := by
  obtain ⟨i, rfl⟩ := hk
  obtain ⟨j, rfl⟩ := hb
  have h := Nat.lt_of_mul_lt_mul_left hlt
  calc p * i + p = p * (i + 1) := (Nat.mul_succ p i).symm
    _ ≤ p * j := Nat.mul_le_mul_left p h

end PageOf

/-- the least multiple of `p` from `v` on -/
def roundUp (p v : ℕ) : ℕ := (v + (p - 1)) / p * p

section Round

variable {p : ℕ}

theorem dvd_roundUp (p v : ℕ) : p ∣ roundUp p v := Dvd.intro_left _ rfl

theorem le_roundUp (hp : 0 < p) (v : ℕ) : v ≤ roundUp p v := by
  have h := Nat.div_add_mod (v + (p - 1)) p
  have hlt := Nat.mod_lt (v + (p - 1)) hp
  rw [Nat.mul_comm] at h
  unfold roundUp
  omega

theorem roundUp_lt (hp : 0 < p) (v : ℕ) : roundUp p v < v + p := by
  have h := Nat.div_mul_le_self (v + (p - 1)) p
  unfold roundUp
  omega

theorem roundUp_le {v w : ℕ} (hp : 0 < p) (hd : p ∣ w) (h : v ≤ w) : roundUp p v ≤ w := by
  obtain ⟨k, rfl⟩ := hd
  have hlt := roundUp_lt hp v
  obtain ⟨j, hj⟩ := dvd_roundUp p v
  rw [hj] at hlt ⊢
  have : p * j < p * (k + 1) := by
    rw [Nat.mul_add, Nat.mul_one]
    omega
  exact Nat.mul_le_mul_left p (by have := Nat.lt_of_mul_lt_mul_left this; omega)

theorem roundUp_mono {v w : ℕ} (hp : 0 < p) (h : v ≤ w) : roundUp p v ≤ roundUp p w :=
  roundUp_le hp (dvd_roundUp p w) (h.trans (le_roundUp hp w))

theorem roundUp_of_dvd {v : ℕ} (hp : 0 < p) (h : p ∣ v) : roundUp p v = v :=
  le_antisymm (roundUp_le hp h (le_refl v)) (le_roundUp hp v)

theorem roundUp_add {a : ℕ} (hp : 0 < p) (ha : p ∣ a) (v : ℕ) : roundUp p (a + v) = a + roundUp p v := by
  obtain ⟨k, rfl⟩ := ha
  rw [roundUp, roundUp, Nat.add_assoc, Nat.mul_add_div hp, Nat.add_mul, Nat.mul_comm k p]

@[simp] theorem roundUp_zero (p : ℕ) : roundUp p 0 = 0 := by
  unfold roundUp
  rcases Nat.eq_zero_or_pos p with rfl | hp
  · simp
  · rw [Nat.div_eq_of_lt (by omega), Nat.zero_mul]

end Round

section Pages

variable {p a n : ℕ}

/-- the page numbers of the range, where it is of whole pages -/
def pageNumbers (p a n : ℕ) : List ℕ := List.range' (a / p) (n / p)

theorem mem_pageNumbers (hp : 0 < p) (ha : p ∣ a) (hn : p ∣ n) {q : ℕ} :
    q ∈ pageNumbers p a n ↔ Within a n (q * p) := by
  obtain ⟨i, rfl⟩ := ha
  obtain ⟨k, rfl⟩ := hn
  simp only [pageNumbers, List.mem_range'_1, Nat.mul_div_cancel_left _ hp, Within, ← Nat.mul_add]
  rw [Nat.mul_comm q p, Nat.mul_le_mul_left_iff hp, Nat.mul_lt_mul_left hp]

/-- a range of whole pages covers a number where it covers the start of its page -/
theorem within_page (hp : 0 < p) (ha : p ∣ a) (hn : p ∣ n) (x : ℕ) :
    Within a n (x / p * p) ↔ Within a n x := by
  obtain ⟨i, rfl⟩ := ha
  obtain ⟨k, rfl⟩ := hn
  have h := Nat.div_add_mod x p
  have hlt := Nat.mod_lt x hp
  have hc : x / p * p = p * (x / p) := Nat.mul_comm _ _
  simp only [Within, ← Nat.mul_add, hc]
  constructor
  · rintro ⟨h₁, h₂⟩
    have h₂' := Nat.lt_of_mul_lt_mul_left h₂
    have : p * (x / p + 1) ≤ p * (i + k) := Nat.mul_le_mul_left p h₂'
    rw [Nat.mul_add, Nat.mul_one] at this
    omega
  · rintro ⟨h₁, h₂⟩
    refine ⟨Nat.mul_le_mul_left p ?_, by omega⟩
    exact (Nat.le_div_iff_mul_le hp).mpr (by rw [Nat.mul_comm]; exact h₁)

end Pages

end Omnidroid
