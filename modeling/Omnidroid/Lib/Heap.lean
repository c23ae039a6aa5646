/-
A binary heap in an array, with the greatest element at its root: the element at `i` has its children at `2 * i + 1` and
`2 * i + 2`. An array is a function of the index, a swap is `f ∘ Equiv.swap i j`, and the order is any relation.
- `Heaped le f lo n`: among the first `n`, from `lo` on, no child is above its parent.
- `Sifting le f lo n r`: so it is but for the children of `r`, which are under the parent of `r` all the same.
  `Sifting.down` takes one swap with the greater child, `Sifting.heaped` ends the descent.
- `Heaped.root`: the root is above all; `Sorted.extract`: swapped with the last, it is where it belongs.
- `Rearranged f f' n`: `f'` is `f` with its first `n` permuted.
-/
import Mathlib

namespace Omnidroid.Heap

variable {α : Type} {le : α → α → Prop} {f f' f'' : ℕ → α} {lo n e r c i j : ℕ}

/-- any two are in order, either way or both -/
structure TotalPreorder (le : α → α → Prop) : Prop where
  total : ∀ a b, le a b ∨ le b a
  trans : ∀ a b c, le a b → le b c → le a c

theorem TotalPreorder.refl (h : TotalPreorder le) (a : α) : le a a := (h.total a a).elim id id

/-! ## Rearranging -/

def Rearranged (f f' : ℕ → α) (n : ℕ) : Prop := ∃ σ : Equiv.Perm ℕ, (∀ i, n ≤ i → σ i = i) ∧ f' = f ∘ σ

theorem Rearranged.refl (f : ℕ → α) (n : ℕ) : Rearranged f f n := ⟨1, fun _ _ => rfl, rfl⟩

theorem Rearranged.trans (h : Rearranged f f' n) (h' : Rearranged f' f'' n) : Rearranged f f'' n := by
  obtain ⟨σ, hσ, rfl⟩ := h
  obtain ⟨τ, hτ, rfl⟩ := h'
  refine ⟨τ.trans σ, fun i hi => ?_, rfl⟩
  rw [Equiv.trans_apply, hτ i hi, hσ i hi]

theorem Rearranged.mono {m : ℕ} (h : Rearranged f f' n) (hnm : n ≤ m) : Rearranged f f' m := by
  obtain ⟨σ, hσ, rfl⟩ := h
  exact ⟨σ, fun i hi => hσ i (hnm.trans hi), rfl⟩

theorem rearranged_swap (f : ℕ → α) (hi : i < n) (hj : j < n) : Rearranged f (f ∘ Equiv.swap i j) n :=
  ⟨Equiv.swap i j, fun k hk => Equiv.swap_apply_of_ne_of_ne (by omega) (by omega), rfl⟩

/-- a permutation that leaves what is from `n` on leaves what is before it -/
theorem perm_lt {σ : Equiv.Perm ℕ} (hσ : ∀ i, n ≤ i → σ i = i) (hi : i < n) : σ i < n := by
  by_contra h
  have heq := hσ (σ i) (not_lt.1 h)
  rw [σ.injective heq] at h
  exact h hi

theorem Rearranged.perm (h : Rearranged f f' n) : ((List.range n).map f').Perm ((List.range n).map f) := by
  obtain ⟨σ, hσ, rfl⟩ := h
  rw [← List.map_map]
  refine List.Perm.map f ((List.perm_ext_iff_of_nodup ?_ List.nodup_range).2 fun i => ?_)
  · exact List.nodup_range.map σ.injective
  · rw [List.mem_map, List.mem_range]
    constructor
    · rintro ⟨j, hj, rfl⟩
      exact perm_lt hσ (List.mem_range.1 hj)
    · intro hi
      have hinv : ∀ k, n ≤ k → σ.symm k = k := fun k hk => (Equiv.symm_apply_eq σ).2 (hσ k hk).symm
      exact ⟨σ.symm i, List.mem_range.2 (perm_lt hinv hi), σ.apply_symm_apply i⟩

/-! ## Heaps -/

def Child (i c : ℕ) : Prop := c = 2 * i + 1 ∨ c = 2 * i + 2

theorem Child.lt (h : Child i c) : i < c := by
  rcases h with rfl | rfl <;> omega

theorem Child.parent_eq (h : Child i c) (h' : Child j c) : i = j := by
  rcases h with rfl | rfl <;> rcases h' with h | h <;> omega

def Heaped (le : α → α → Prop) (f : ℕ → α) (lo n : ℕ) : Prop := ∀ i c, lo ≤ i → Child i c → c < n → le (f c) (f i)

/-- from the middle on nothing has a child -/
theorem heaped_leaves (h : n / 2 ≤ lo) : Heaped le f lo n := by
  intro i c hi hc hn
  rcases hc with rfl | rfl <;> omega

structure Sifting (le : α → α → Prop) (f : ℕ → α) (lo n r : ℕ) : Prop where
  others : ∀ i c, lo ≤ i → i ≠ r → Child i c → c < n → le (f c) (f i)
  under : ∀ i c, lo ≤ i → Child i r → Child r c → c < n → le (f c) (f i)

theorem Heaped.sifting (h : Heaped le f (lo + 1) n) : Sifting le f lo n lo where
  others i c hi hne hc hn := h i c (by omega) hc hn
  under i c hi hr _ _ := absurd hr.lt (by omega)

/-- the greater child goes up, and the element down -/
theorem Sifting.down (h : Sifting le f lo n r) (hlo : lo ≤ r) (hc : Child r c) (hn : c < n) (hle : le (f r) (f c))
    (hbig : ∀ d, Child r d → d < n → le (f d) (f c)) : Sifting le (f ∘ Equiv.swap r c) lo n c := by
  have hrc := hc.lt
  have hat : ∀ k, k ≠ r → k ≠ c → (f ∘ Equiv.swap r c) k = f k := fun k hkr hkc => by
    rw [Function.comp_apply, Equiv.swap_apply_of_ne_of_ne hkr hkc]
  have hr : (f ∘ Equiv.swap r c) r = f c := by rw [Function.comp_apply, Equiv.swap_apply_left]
  have hc' : (f ∘ Equiv.swap r c) c = f r := by rw [Function.comp_apply, Equiv.swap_apply_right]
  constructor
  case others =>
    intro i d hi hne hd hdn
    have hid := hd.lt
    rcases eq_or_ne i r with rfl | hir
    · rw [hr]
      rcases eq_or_ne d c with rfl | hdc
      · rw [hc']
        exact hle
      · rw [hat d (by omega) hdc]
        exact hbig d hd hdn
    · rw [hat i hir hne]
      have hdc : d ≠ c := by
        rintro rfl
        exact hir (hd.parent_eq hc)
      rcases eq_or_ne d r with rfl | hdr
      · rw [hr]
        exact h.under i c hi hd hc hn
      · rw [hat d hdr hdc]
        exact h.others i d hi hir hd hdn
  case under =>
    intro i d hi hic hcd hdn
    obtain rfl : i = r := hic.parent_eq hc
    have hlt := hcd.lt
    rw [hr, hat d (by omega) (by omega)]
    exact h.others c d (by omega) (by omega) hcd hdn

theorem Sifting.heaped (h : Sifting le f lo n r) (hr : ∀ d, Child r d → d < n → le (f d) (f r)) : Heaped le f lo n := by
  intro i c hi hc hn
  rcases eq_or_ne i r with rfl | hir
  · exact hr c hc hn
  · exact h.others i c hi hir hc hn

/-! ## The root, and what is taken off it -/

theorem Heaped.root (h : Heaped le f 0 n) (hle : TotalPreorder le) : ∀ i, i < n → le (f i) (f 0) := by
  intro i
  induction i using Nat.strong_induction_on with
  | _ i ih =>
    intro hi
    rcases Nat.eq_zero_or_pos i with rfl | hpos
    · exact hle.refl _
    · have hc : Child ((i - 1) / 2) i := by
        unfold Child
        omega
      exact hle.trans _ _ _ (h _ _ (Nat.zero_le _) hc hi) (ih _ hc.lt (by omega))

/-- the first `e` a heap, and each from there on above all before it -/
structure Sorted (le : α → α → Prop) (f : ℕ → α) (e n : ℕ) : Prop where
  heap : Heaped le f 0 e
  tail : ∀ i j, i ≤ j → e ≤ j → j < n → le (f i) (f j)

theorem Heaped.sorted (h : Heaped le f 0 n) : Sorted le f n n := ⟨h, fun _ _ _ h₁ h₂ => by omega⟩

/-- what rearranges the first `e` leaves the rest in order -/
theorem Rearranged.tail (h : Rearranged f f' e) (htail : ∀ i j, i ≤ j → e ≤ j → j < n → le (f i) (f j)) :
    ∀ i j, i ≤ j → e ≤ j → j < n → le (f' i) (f' j) := by
  obtain ⟨σ, hσ, rfl⟩ := h
  intro i j hij he hn
  rw [Function.comp_apply, Function.comp_apply, hσ j he]
  refine htail _ j ?_ he hn
  rcases lt_or_ge i e with hi | hi
  · exact (perm_lt hσ hi).le.trans he
  · rw [hσ i hi]
    exact hij

/-- the root swapped with the last of the heap: the rest but for its root a heap still -/
theorem Sorted.extract (h : Sorted le f (e + 1) n) (hle : TotalPreorder le) (hn : e + 1 ≤ n) :
    Sifting le (f ∘ Equiv.swap 0 e) 0 e 0 ∧
      ∀ i j, i ≤ j → e ≤ j → j < n → le ((f ∘ Equiv.swap 0 e) i) ((f ∘ Equiv.swap 0 e) j) := by
  have hat : ∀ k, k ≠ 0 → k ≠ e → (f ∘ Equiv.swap 0 e) k = f k := fun k hk0 hke => by
    rw [Function.comp_apply, Equiv.swap_apply_of_ne_of_ne hk0 hke]
  constructor
  · constructor
    case others =>
      intro i c _ hi hc hce
      have := hc.lt
      rw [hat c (by omega) (by omega), hat i hi (by omega)]
      exact h.heap i c (Nat.zero_le _) hc (by omega)
    case under =>
      intro i c _ h0 _ _
      exact absurd h0.lt (Nat.not_lt_zero _)
  · intro i j hij hej hjn
    rcases Nat.eq_or_lt_of_le hej with rfl | hlt
    · have hroot : (f ∘ Equiv.swap 0 e) e = f 0 := by rw [Function.comp_apply, Equiv.swap_apply_right]
      rw [hroot, Function.comp_apply]
      refine h.heap.root hle _ ?_
      -- the swap keeps within the first `e + 1`
      rcases eq_or_ne i 0 with rfl | hi0
      · rw [Equiv.swap_apply_left]
        omega
      · rcases eq_or_ne i e with rfl | hie
        · rw [Equiv.swap_apply_right]
          omega
        · rw [Equiv.swap_apply_of_ne_of_ne hi0 hie]
          omega
    · exact (rearranged_swap f (n := e + 1) (by omega) (by omega)).tail h.tail i j hij (by omega) hjn

/-- with one left all are in order -/
theorem Sorted.pairwise (h : Sorted le f e n) (he : e ≤ 1) : ((List.range n).map f).Pairwise le := by
  rw [List.pairwise_map, List.pairwise_iff_getElem]
  intro i j hi hj hij
  simp only [List.length_range] at hi hj
  rw [List.getElem_range, List.getElem_range]
  exact h.tail i j hij.le (by omega) hj

end Omnidroid.Heap
