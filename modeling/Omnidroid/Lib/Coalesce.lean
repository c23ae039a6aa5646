/-
Things that have ranges of numbers and say something of every number in theirs, one after the other, and those that continue
one another made one.
- `Tells`: a list of them says so and so on a set of numbers, each number's thing before those of greater numbers.
- `coalesce`: each thing appended to the last one where it continues it.
- `coalesce_spec`: that says nothing otherwise, leaves the lengths' total, and things in order in order.
- `total_eq_ncard`: in order, the lengths add up to how many numbers are in the ranges.
-/
import Mathlib.Data.Set.Card
import Mathlib.Tactic

namespace Omnidroid

/-- things of `α`: where the range of each starts and how long it is, what it says of a number, whether one continues
another, and the two made one -/
structure Ranged (α β : Type*) where
  start : α → ℕ
  len : α → ℕ
  label : α → ℕ → β
  continues : α → α → Bool
  append : α → α → α

namespace Ranged

variable {α β γ : Type*} (R : Ranged α β)

def stop (x : α) : ℕ := R.start x + R.len x

def Has (x : α) (a : ℕ) : Prop := R.start x ≤ a ∧ a < R.stop x

/-- the last thing so far is the head -/
def push (done : List α) (x : α) : List α :=
  match done with
  | last :: rest => if R.continues last x then R.append last x :: rest else x :: done
  | [] => [x]

def coalesce (l : List α) : List α := (l.foldl R.push []).reverse

def total (l : List α) : ℕ := (l.map R.len).sum

def Labels (l : List α) (a : ℕ) (b : β) : Prop := ∃ x ∈ l, R.Has x a ∧ R.label x a = b

/-- every number of the one is below every number of the other -/
def Before (x y : α) : Prop := ∀ a b, R.Has x a → R.Has y b → a < b

/-- none is empty, and each ends by where the next one starts -/
structure InOrder (l : List α) : Prop where
  order : l.Pairwise fun x y => R.stop x ≤ R.start y
  pos : ∀ x ∈ l, 0 < R.len x

/-- on the numbers of `D`, and on no others, the list says what `f` says -/
structure Tells (l : List α) (D : ℕ → Prop) (f : ℕ → β) : Prop where
  before : l.Pairwise R.Before
  cover : ∀ a, D a → ∃ x ∈ l, R.Has x a
  sound : ∀ x ∈ l, ∀ a, R.Has x a → D a ∧ R.label x a = f a

/-- what continues a thing starts where it ends, and the two made one say what each of them says -/
structure Lawful (Good : α → Prop) : Prop where
  next : ∀ x y, R.continues x y → R.start y = R.stop x
  start : ∀ x y, R.start (R.append x y) = R.start x
  len : ∀ x y, R.len (R.append x y) = R.len x + R.len y
  good : ∀ x y, R.continues x y → Good x → Good y → Good (R.append x y)
  first : ∀ x y, R.continues x y → Good x → Good y → ∀ a, R.Has x a → R.label (R.append x y) a = R.label x a
  second : ∀ x y, R.continues x y → Good x → Good y → ∀ a, R.Has y a → R.label (R.append x y) a = R.label y a

variable {R} {Good : α → Prop} {l l' l'' xs ys : List α} {x y : α} {D D' : ℕ → Prop} {f f' : ℕ → β} {a : ℕ} {b : β}

/-! ## Order -/

theorem Has.pos (h : R.Has x a) : 0 < R.len x := by
  unfold Has stop at h
  omega

theorem has_start (h : 0 < R.len x) : R.Has x (R.start x) := by
  unfold Has stop
  omega

/-- of things that are not empty, one is before another where it ends by its start -/
theorem before_iff (hx : 0 < R.len x) (hy : 0 < R.len y) : R.Before x y ↔ R.stop x ≤ R.start y := by
  constructor
  · intro h
    have hlast : R.Has x (R.stop x - 1) := by
      unfold Has stop
      omega
    have := h _ _ hlast (has_start hy)
    omega
  · intro h a b ha hb
    exact ha.2.trans_le (h.trans hb.1)

theorem InOrder.before (h : R.InOrder l) : l.Pairwise R.Before :=
  h.order.imp_of_mem fun hx hy hle => (before_iff (h.pos _ hx) (h.pos _ hy)).mpr hle

theorem inOrder_of_before (h : l.Pairwise R.Before) (hpos : ∀ x ∈ l, 0 < R.len x) : R.InOrder l :=
  ⟨h.imp_of_mem fun hx hy hb => (before_iff (hpos _ hx) (hpos _ hy)).mp hb, hpos⟩

/-- the lengths add up to how many numbers there are -/
theorem total_eq_ncard (h : l.Pairwise R.Before) : R.total l = Set.ncard {a | ∃ x ∈ l, R.Has x a} := by
  induction l with
  | nil => simp [total]
  | cons x l ih =>
    obtain ⟨hx, hl⟩ := List.pairwise_cons.mp h
    have hico : {a | R.Has x a} = Set.Ico (R.start x) (R.stop x) := Set.ext fun _ => Iff.rfl
    have hunion : {a | ∃ y ∈ x :: l, R.Has y a} = {a | R.Has x a} ∪ {a | ∃ y ∈ l, R.Has y a} := by
      ext a
      simp
    have hfinite : {a | ∃ y ∈ l, R.Has y a}.Finite := by
      have : {a | ∃ y ∈ l, R.Has y a} = ⋃ y ∈ {y | y ∈ l}, Set.Ico (R.start y) (R.stop y) := by
        ext a
        simp only [Set.mem_ofPred_eq, Set.mem_iUnion, Set.mem_Ico, exists_prop]
        rfl
      rw [this]
      exact (List.finite_toSet l).biUnion fun y _ => Set.finite_Ico _ _
    have hdisjoint : Disjoint {a | R.Has x a} {a | ∃ y ∈ l, R.Has y a} := by
      rw [Set.disjoint_left]
      rintro a ha ⟨y, hy, hya⟩
      exact lt_irrefl a (hx y hy a a ha hya)
    have hlen : Set.ncard (Set.Ico (R.start x) (R.stop x)) = R.len x := by
      rw [← Finset.coe_Ico, Set.ncard_coe_finset, Nat.card_Ico, stop, Nat.add_sub_cancel_left]
    rw [hunion, Set.ncard_union_eq hdisjoint (hico ▸ Set.finite_Ico _ _) hfinite, ← ih hl, hico, hlen]
    rfl

/-! ## What lists say -/

theorem Tells.labels (h : R.Tells l D f) : R.Labels l a b ↔ D a ∧ f a = b := by
  constructor
  · rintro ⟨x, hx, ha, rfl⟩
    exact ⟨(h.sound x hx a ha).1, (h.sound x hx a ha).2.symm⟩
  · rintro ⟨ha, rfl⟩
    obtain ⟨x, hx, hxa⟩ := h.cover a ha
    exact ⟨x, hx, hxa, (h.sound x hx a hxa).2⟩

theorem Tells.congr (h : R.Tells l D f) (hD : ∀ a, D' a ↔ D a) (hf : ∀ a, D a → f' a = f a) : R.Tells l D' f' :=
  ⟨h.before, fun a ha => h.cover a ((hD a).mp ha), fun x hx a ha => by
    obtain ⟨h₁, h₂⟩ := h.sound x hx a ha
    exact ⟨(hD a).mpr h₁, h₂.trans (hf a h₁).symm⟩⟩

theorem Tells.nil (h : ∀ a, ¬D a) : R.Tells [] D f := ⟨.nil, fun a ha => absurd ha (h a), nofun⟩

theorem Tells.single (hD : ∀ a, D a ↔ R.Has x a) (hf : ∀ a, D a → R.label x a = f a) : R.Tells [x] D f := by
  refine ⟨List.pairwise_singleton _ _, fun a ha => ⟨x, List.mem_singleton_self x, (hD a).mp ha⟩, ?_⟩
  intro y hy a ha
  rw [List.mem_singleton.mp hy] at ha ⊢
  exact ⟨(hD a).mpr ha, hf a ((hD a).mpr ha)⟩

theorem Tells.append (h : R.Tells l D f) (h' : R.Tells l' D' f) (hlt : ∀ a b, D a → D' b → a < b) :
    R.Tells (l ++ l') (fun a => D a ∨ D' a) f := by
  refine ⟨List.pairwise_append.mpr ⟨h.before, h'.before, ?_⟩, ?_, ?_⟩
  · intro x hx y hy a b ha hb
    exact hlt a b (h.sound x hx a ha).1 (h'.sound y hy b hb).1
  · rintro a (ha | ha)
    · obtain ⟨x, hx, hxa⟩ := h.cover a ha
      exact ⟨x, List.mem_append_left _ hx, hxa⟩
    · obtain ⟨x, hx, hxa⟩ := h'.cover a ha
      exact ⟨x, List.mem_append_right _ hx, hxa⟩
  · intro x hx a ha
    rcases List.mem_append.mp hx with hx | hx
    · exact ⟨.inl (h.sound x hx a ha).1, (h.sound x hx a ha).2⟩
    · exact ⟨.inr (h'.sound x hx a ha).1, (h'.sound x hx a ha).2⟩

/-- lists for things in order, each telling of its thing's numbers, tell of them all -/
theorem tells_flatMap {g : γ → List α} {ts : List γ} {D : γ → ℕ → Prop} {f : γ → ℕ → β}
    (hlt : ts.Pairwise fun s t => ∀ a b, D s a → D t b → a < b) (h : ∀ t ∈ ts, R.Tells (g t) (D t) (f t)) :
    (ts.flatMap g).Pairwise R.Before ∧ ∀ a b, R.Labels (ts.flatMap g) a b ↔ ∃ t ∈ ts, D t a ∧ f t a = b := by
  constructor
  · refine List.pairwise_flatMap.mpr ⟨fun t ht => (h t ht).before, hlt.imp_of_mem ?_⟩
    intro s t hs ht hst x hx y hy a b ha hb
    exact hst a b ((h s hs).sound x hx a ha).1 ((h t ht).sound y hy b hb).1
  · intro a b
    constructor
    · rintro ⟨x, hx, ha⟩
      obtain ⟨t, ht, hx⟩ := List.mem_flatMap.mp hx
      exact ⟨t, ht, (h t ht).labels.mp ⟨x, hx, ha⟩⟩
    · rintro ⟨t, ht, ha⟩
      obtain ⟨x, hx, ha⟩ := (h t ht).labels.mpr ha
      exact ⟨x, List.mem_flatMap.mpr ⟨t, ht, hx⟩, ha⟩

/-! ## Made one -/

/-- `l'` says what `l` says, in order, and is as long -/
structure Same (R : Ranged α β) (Good : α → Prop) (l l' : List α) : Prop where
  order : R.InOrder l'
  good : ∀ x ∈ l', Good x
  labels : ∀ a b, R.Labels l' a b ↔ R.Labels l a b
  total : R.total l' = R.total l

theorem Same.trans (h : Same R Good l l') (h' : Same R Good l' l'') : Same R Good l l'' :=
  ⟨h'.order, h'.good, fun a b => (h'.labels a b).trans (h.labels a b), h'.total.trans h.total⟩

/-- two neighbours made one -/
theorem same_append (hR : R.Lawful Good) (ho : R.InOrder (xs ++ x :: y :: ys)) (hg : ∀ z ∈ xs ++ x :: y :: ys, Good z)
    (hc : R.continues x y = true) : Same R Good (xs ++ x :: y :: ys) (xs ++ R.append x y :: ys) := by
  have hgx := hg x (by simp)
  have hgy := hg y (by simp)
  have hnext := hR.next x y hc
  have hstart := hR.start x y
  have hlen := hR.len x y
  have hstop : R.stop (R.append x y) = R.stop y := by
    unfold stop at hnext ⊢
    omega
  have hxy : ∀ a, R.Has (R.append x y) a ↔ R.Has x a ∨ R.Has y a := by
    intro a
    have hx := ho.pos x (by simp)
    have hy := ho.pos y (by simp)
    unfold Has
    rw [hstop, hstart, hnext]
    unfold stop at hnext ⊢
    omega
  obtain ⟨hxs, hys, hcross⟩ := List.pairwise_append.mp ho.order
  simp only [List.pairwise_cons, List.mem_cons, forall_eq_or_imp] at hys hcross
  obtain ⟨⟨-, -⟩, hy, hys⟩ := hys
  refine ⟨⟨List.pairwise_append.mpr ⟨hxs, ?_, ?_⟩, ?_⟩, ?_, ?_, ?_⟩
  · rw [List.pairwise_cons, hstop]
    exact ⟨hy, hys⟩
  · intro z hz w hw
    obtain ⟨hzx, -, hzys⟩ := hcross z hz
    rcases List.mem_cons.mp hw with rfl | hw
    · rwa [hstart]
    · exact hzys w hw
  · intro z hz
    rcases List.mem_append.mp hz with hz | hz
    · exact ho.pos z (by simp [hz])
    · rcases List.mem_cons.mp hz with rfl | hz
      · rw [hlen]
        exact Nat.add_pos_left (ho.pos x (by simp)) _
      · exact ho.pos z (by simp [hz])
  · intro z hz
    rcases List.mem_append.mp hz with hz | hz
    · exact hg z (by simp [hz])
    · rcases List.mem_cons.mp hz with rfl | hz
      · exact hR.good x y hc hgx hgy
      · exact hg z (by simp [hz])
  · intro a b
    simp only [Labels, List.mem_append, List.mem_cons, or_and_right, exists_or, exists_eq_left]
    have hone : R.Has (R.append x y) a ∧ R.label (R.append x y) a = b ↔
        R.Has x a ∧ R.label x a = b ∨ R.Has y a ∧ R.label y a = b := by
      rw [hxy a]
      constructor
      · rintro ⟨ha | ha, rfl⟩
        · exact .inl ⟨ha, (hR.first x y hc hgx hgy a ha).symm⟩
        · exact .inr ⟨ha, (hR.second x y hc hgx hgy a ha).symm⟩
      · rintro (⟨ha, rfl⟩ | ⟨ha, rfl⟩)
        · exact ⟨.inl ha, hR.first x y hc hgx hgy a ha⟩
        · exact ⟨.inr ha, hR.second x y hc hgx hgy a ha⟩
    rw [hone, or_assoc]
  · simp only [total, List.map_append, List.map_cons, List.sum_append, List.sum_cons, hlen]
    omega

theorem foldl_push (hR : R.Lawful Good) (l done : List α) (ho : R.InOrder (done.reverse ++ l))
    (hg : ∀ x ∈ done.reverse ++ l, Good x) : Same R Good (done.reverse ++ l) (l.foldl R.push done).reverse := by
  induction l generalizing done with
  | nil =>
    rw [List.append_nil] at ho hg ⊢
    exact ⟨ho, hg, fun _ _ => Iff.rfl, rfl⟩
  | cons x l ih =>
    rw [List.foldl_cons]
    cases done with
    | nil => exact ih [x] ho hg
    | cons last rest =>
      have hlist : (last :: rest).reverse ++ x :: l = rest.reverse ++ last :: x :: l := by simp
      rw [hlist] at ho hg ⊢
      rw [show R.push (last :: rest) x = if R.continues last x then R.append last x :: rest else x :: last :: rest from rfl]
      split
      · rename_i hc
        have hsame := same_append hR ho hg hc
        have hdone : rest.reverse ++ R.append last x :: l = (R.append last x :: rest).reverse ++ l := by simp
        rw [hdone] at hsame
        exact hsame.trans (ih _ hsame.order hsame.good)
      · have hdone : rest.reverse ++ last :: x :: l = (x :: last :: rest).reverse ++ l := by simp
        rw [hdone] at ho hg ⊢
        exact ih _ ho hg

theorem coalesce_spec (hR : R.Lawful Good) (ho : R.InOrder l) (hg : ∀ x ∈ l, Good x) : Same R Good l (R.coalesce l) :=
  foldl_push hR l [] ho hg

end Ranged

end Omnidroid
