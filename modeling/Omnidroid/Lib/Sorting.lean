/-
Steps that can fail, taken in the order of a list or of the list sorted.
Where any two steps that the sort moves past each other give the same either way round, so do the two lists
(`foldlM_insertionSort`).
-/
import Mathlib.Tactic
import Mathlib.Data.List.Sort

namespace Omnidroid

variable {α σ : Type*} {f : σ → α → Option σ}

/-- `a` then `b` is `b` then `a` -/
def Commutes (f : σ → α → Option σ) (a b : α) : Prop := ∀ s, (f s a >>= fun s => f s b) = (f s b >>= fun s => f s a)

section Insert

variable {r : α → α → Prop} [DecidableRel r]

theorem foldlM_orderedInsert {a : α} {l : List α} (h : ∀ b ∈ l, r a b ∨ Commutes f a b) (s : σ) :
    (l.orderedInsert r a).foldlM f s = (a :: l).foldlM f s := by
  induction l generalizing s with
  | nil => rfl
  | cons b l ih =>
    by_cases hr : r a b
    · rw [List.orderedInsert, if_pos hr]
    · rw [List.orderedInsert, if_neg hr]
      have hab : Commutes f a b := (h b List.mem_cons_self).resolve_left hr
      have hswap : ∀ s, (f s b >>= fun s => (a :: l).foldlM f s) = (a :: b :: l).foldlM f s := by
        intro s
        simp only [List.foldlM_cons, ← bind_assoc]
        rw [hab s]
      rw [← hswap, List.foldlM_cons]
      congr 1
      funext s
      exact ih (fun c hc => h c (List.mem_cons_of_mem _ hc)) s

theorem foldlM_insertionSort {l : List α} (h : l.Pairwise fun a b => r a b ∨ Commutes f a b) (s : σ) :
    (l.insertionSort r).foldlM f s = l.foldlM f s := by
  induction l generalizing s with
  | nil => rfl
  | cons a l ih =>
    obtain ⟨ha, hl⟩ := List.pairwise_cons.mp h
    have hmem : ∀ b ∈ l.insertionSort r, r a b ∨ Commutes f a b := by
      intro b hb
      exact ha b ((List.perm_insertionSort r l).mem_iff.mp hb)
    rw [List.insertionSort_cons, foldlM_orderedInsert hmem, List.foldlM_cons, List.foldlM_cons]
    congr 1
    funext s
    exact ih hl s

end Insert

end Omnidroid
