/-
Spans of numbers, each where it starts and how long it is, in ascending order, and the runs that spans end to end make.
- `join`: the runs of a list of spans, one made of those that lie end to end; `join_runs` says what it makes.
- `Runs.within`: what is covered without a gap lies in one run.
- `Runs.least`: the first run in which something has a place has it at the least.
-/
import Mathlib.Order.Bounds.Basic
import Mathlib.Tactic

namespace Omnidroid

/-- the least of a set, or that it has none -/
def Finds (S : Set ℕ) : Option ℕ → Prop
  | some a => IsLeast S a
  | none => S = ∅

theorem Finds.unique {S : Set ℕ} {o o' : Option ℕ} (h : Finds S o) (h' : Finds S o') : o = o' := by
  cases o with
  | none =>
    obtain rfl : S = ∅ := h
    cases o' with
    | none => rfl
    | some a => exact absurd h'.1 (Set.notMem_empty a)
  | some a =>
    cases o' with
    | none =>
      obtain rfl : S = ∅ := h'
      exact absurd h.1 (Set.notMem_empty a)
    | some b => rw [IsLeast.unique h h']

/-- where it starts, and its length -/
abbrev Span := ℕ × ℕ

namespace Span

def stop (s : Span) : ℕ := s.1 + s.2

def Has (s : Span) (x : ℕ) : Prop := s.1 ≤ x ∧ x < s.stop

/-- the run under way and those after it, of the spans to come -/
def join : Option Span → List Span → List Span
  | none, [] => []
  | some s, [] => [s]
  | none, t :: l => join (some t) l
  | some s, t :: l => if s.stop = t.1 then join (some (s.1, s.2 + t.2)) l else s :: join (some t) l

/-- none is empty, and each ends by where the next one starts -/
structure InOrder (l : List Span) : Prop where
  order : l.Pairwise fun s t => s.stop ≤ t.1
  pos : ∀ s ∈ l, 0 < s.2

/-- and before it -/
structure Runs (l : List Span) : Prop where
  apart : l.Pairwise fun s t => s.stop < t.1
  pos : ∀ s ∈ l, 0 < s.2

def Covers (l : List Span) (x : ℕ) : Prop := ∃ s ∈ l, s.Has x

variable {l : List Span} {s t : Span} {x : ℕ}

theorem InOrder.tail (h : InOrder (s :: l)) : InOrder l :=
  ⟨(List.pairwise_cons.1 h.order).2, fun t ht => h.pos t (List.mem_cons_of_mem _ ht)⟩

theorem covers_cons : Covers (s :: l) x ↔ s.Has x ∨ Covers l x := by
  unfold Covers
  simp only [List.mem_cons, exists_eq_or_imp]

/-- what lies end to end with the run under way makes it longer -/
theorem joined_inOrder (h : InOrder (s :: t :: l)) (hj : s.stop = t.1) : InOrder ((s.1, s.2 + t.2) :: l) ∧
    ∀ x, Covers ((s.1, s.2 + t.2) :: l) x ↔ Covers (s :: t :: l) x := by
  have hstop : Span.stop (s.1, s.2 + t.2) = t.stop := by
    unfold stop at hj ⊢
    omega
  refine ⟨⟨List.pairwise_cons.2 ⟨fun r hr => ?_, h.tail.tail.order⟩, fun r hr => ?_⟩, fun x => ?_⟩
  · rw [hstop]
    exact (List.pairwise_cons.1 h.tail.order).1 r hr
  · rcases List.mem_cons.1 hr with rfl | hr
    · exact Nat.add_pos_left (h.pos s List.mem_cons_self) _
    · exact h.tail.tail.pos r hr
  · rw [covers_cons, covers_cons, covers_cons, ← or_assoc]
    refine or_congr_left ?_
    have hs := h.pos s List.mem_cons_self
    unfold Has
    rw [hstop]
    unfold stop at hj ⊢
    dsimp only
    omega

theorem join_runs (h : InOrder (s :: l)) :
    Runs (join (some s) l) ∧ (∀ r ∈ join (some s) l, s.1 ≤ r.1) ∧ ∀ x, Covers (join (some s) l) x ↔ Covers (s :: l) x := by
  induction l generalizing s with
  | nil =>
    refine ⟨⟨List.pairwise_singleton _ _, h.pos⟩, fun r hr => ?_, fun x => Iff.rfl⟩
    rw [List.mem_singleton.1 hr]
  | cons t l ih =>
    unfold join
    split_ifs with hj
    · obtain ⟨ho, hc⟩ := joined_inOrder h hj
      obtain ⟨hr, hfrom, hcov⟩ := ih ho
      exact ⟨hr, hfrom, fun x => (hcov x).trans (hc x)⟩
    · obtain ⟨hr, hfrom, hcov⟩ := ih h.tail
      have hle := (List.pairwise_cons.1 h.order).1 t List.mem_cons_self
      refine ⟨⟨List.pairwise_cons.2 ⟨fun r hr => ?_, hr.apart⟩, fun r hr' => ?_⟩, fun r hr => ?_, fun x => ?_⟩
      · have := hfrom r hr
        omega
      · rcases List.mem_cons.1 hr' with rfl | hr'
        · exact h.pos _ List.mem_cons_self
        · exact hr.pos r hr'
      · rcases List.mem_cons.1 hr with rfl | hr
        · exact le_rfl
        · have := hfrom r hr
          unfold stop at hle
          omega
      · rw [covers_cons, covers_cons, hcov]

/-- the runs of spans in order: they cover what the spans do -/
theorem join_none (h : InOrder l) : Runs (join none l) ∧ ∀ x, Covers (join none l) x ↔ Covers l x := by
  cases l with
  | nil => exact ⟨⟨List.Pairwise.nil, nofun⟩, fun x => Iff.rfl⟩
  | cons t l =>
    obtain ⟨hr, -, hc⟩ := join_runs h
    exact ⟨hr, hc⟩

theorem Runs.apart_of_ne (h : Runs l) (hs : s ∈ l) (ht : t ∈ l) (hne : s ≠ t) : s.stop < t.1 ∨ t.stop < s.1 := by
  have hall : l.Pairwise fun s t => s.stop < t.1 ∨ t.stop < s.1 := h.apart.imp Or.inl
  have : Std.Symm fun s t : Span => s.stop < t.1 ∨ t.stop < s.1 := ⟨fun _ _ => Or.symm⟩
  exact hall.forall hs ht hne

/-- two runs that have numbers with none but covered ones between are one -/
theorem Runs.within (h : Runs l) {a n : ℕ} (hn : 0 < n) :
    (∀ x, a ≤ x → x < a + n → Covers l x) ↔ ∃ s ∈ l, s.1 ≤ a ∧ a + n ≤ s.stop := by
  constructor
  · intro hcov
    obtain ⟨s, hs, hle, hlt⟩ := hcov a le_rfl (by omega)
    refine ⟨s, hs, hle, ?_⟩
    by_contra hout
    obtain ⟨t, ht, hle', hlt'⟩ := hcov s.stop (by omega) (by omega)
    rcases eq_or_ne s t with rfl | hne
    · omega
    · rcases h.apart_of_ne hs ht hne with hlt'' | hlt''
      · omega
      · unfold stop at *
        omega
  · rintro ⟨s, hs, hle, hstop⟩ x hx hx'
    exact ⟨s, hs, by omega, by omega⟩

/-- the first of the runs that has a place gives the least there is, where each gives its least -/
theorem Runs.least (h : Runs l) {place : Span → Option ℕ} {Q : Span → ℕ → Prop} (hQ : ∀ s ∈ l, ∀ a, Q s a → s.Has a)
    (hplace : ∀ s ∈ l, Finds {b | Q s b} (place s)) : Finds {b | ∃ s ∈ l, Q s b} (l.findSome? place) := by
  induction l with
  | nil => exact Set.eq_empty_iff_forall_notMem.2 fun b ⟨s, hs, _⟩ => absurd hs List.not_mem_nil
  | cons s l ih =>
    obtain ⟨hafter, hrest⟩ := List.pairwise_cons.1 h.apart
    have ih := ih ⟨hrest, fun t ht => h.pos t (List.mem_cons_of_mem _ ht)⟩ (fun t ht => hQ t (List.mem_cons_of_mem _ ht))
      fun t ht => hplace t (List.mem_cons_of_mem _ ht)
    have hs := hplace s List.mem_cons_self
    rw [List.findSome?_cons]
    cases hp : place s with
    | some a =>
      rw [hp] at hs
      refine ⟨⟨s, List.mem_cons_self, hs.1⟩, ?_⟩
      rintro b ⟨t, ht, hb⟩
      rcases List.mem_cons.1 ht with rfl | ht'
      · exact hs.2 hb
      · have h₁ := (hQ s List.mem_cons_self a hs.1).2
        have h₂ := hafter t ht'
        have h₃ := (hQ t ht b hb).1
        omega
    | none =>
      rw [hp] at hs
      have hno : ∀ b, ¬Q s b := fun b => Set.eq_empty_iff_forall_notMem.1 hs b
      have hset : {b | ∃ t ∈ s :: l, Q t b} = {b | ∃ t ∈ l, Q t b} := by
        ext b
        simp only [Set.mem_ofPred_eq, List.mem_cons, exists_eq_or_imp]
        exact or_iff_right (hno b)
      rw [hset]
      exact ih

end Span

end Omnidroid
