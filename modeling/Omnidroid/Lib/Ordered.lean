/-
Maps kept in the order of their keys: a list of entries, strictly increasing.

- `get`, `insert`, `remove`: `get_insert` and `get_remove` say what is at any key after an update.
- `stretch k p`: the entries from `k` on for as long as `p` holds of the key. Where the keys that satisfy `p` come one after
  the other from `k` on, these are all entries that do (`mem_stretch`); the keys that begin with one list do so
  (`prefix_stretch`).
- `last p`: the entry with the greatest key that satisfies `p` (`last_some`).
- `removeAll`, `insertAll`: keys taken out, and entries put in, one after the other.
-/
import Mathlib.Tactic
import Mathlib.Data.List.Lex

namespace Omnidroid

structure Ordered (κ ν : Type*) [LinearOrder κ] where
  entries : List (κ × ν)
  sorted : entries.Pairwise fun a b => a.1 < b.1

namespace Ordered

variable {κ ν : Type*} [LinearOrder κ]

def empty : Ordered κ ν := ⟨[], List.Pairwise.nil⟩

/-- the first value at a key -/
def lookup (l : List (κ × ν)) (k : κ) : Option ν := (l.find? (·.1 = k)).map (·.2)

def get (m : Ordered κ ν) (k : κ) : Option ν := lookup m.entries k

theorem sorted_insert {l : List (κ × ν)} (h : l.Pairwise fun a b => a.1 < b.1) (k : κ) (v : ν) :
    (l.filter (·.1 < k) ++ (k, v) :: l.filter (k < ·.1)).Pairwise fun a b => a.1 < b.1 := by
  rw [List.pairwise_append]
  refine ⟨h.filter _, List.pairwise_cons.mpr ⟨?_, h.filter _⟩, ?_⟩
  · intro e he
    exact of_decide_eq_true (List.mem_filter.mp he).2
  · intro a ha b hb
    have hak : a.1 < k := of_decide_eq_true (List.mem_filter.mp ha).2
    rcases List.mem_cons.mp hb with rfl | hb
    · exact hak
    · exact hak.trans (of_decide_eq_true (List.mem_filter.mp hb).2)

def insert (m : Ordered κ ν) (k : κ) (v : ν) : Ordered κ ν :=
  ⟨m.entries.filter (·.1 < k) ++ (k, v) :: m.entries.filter (k < ·.1), sorted_insert m.sorted k v⟩

def remove (m : Ordered κ ν) (k : κ) : Ordered κ ν := ⟨m.entries.filter (·.1 ≠ k), m.sorted.filter _⟩

/-- the entries from `k` on, for as long as `p` holds of the key -/
def stretch (m : Ordered κ ν) (k : κ) (p : κ → Bool) : List (κ × ν) := (m.entries.dropWhile (·.1 < k)).takeWhile (p ·.1)

/-- the entry with the greatest key of those that satisfy `p` -/
def last (m : Ordered κ ν) (p : κ → Bool) : Option (κ × ν) := (m.entries.filter (p ·.1)).getLast?

def removeAll (m : Ordered κ ν) (l : List κ) : Ordered κ ν := l.foldl remove m

def insertAll (m : Ordered κ ν) (l : List (κ × ν)) : Ordered κ ν := l.foldl (fun m e => m.insert e.1 e.2) m

/-! ## What is at a key -/

variable {m : Ordered κ ν} {k : κ} {v : ν}

theorem keys_nodup (m : Ordered κ ν) : (m.entries.map (·.1)).Nodup :=
  List.pairwise_map.mpr (m.sorted.imp ne_of_lt)

theorem lookup_cons (e : κ × ν) (l : List (κ × ν)) (k : κ) : lookup (e :: l) k = if e.1 = k then some e.2 else lookup l k := by
  unfold lookup
  rw [List.find?_cons]
  by_cases hk : e.1 = k
  · rw [decide_eq_true hk, if_pos hk]
    rfl
  · rw [decide_eq_false hk, if_neg hk]

/-- among entries with different keys, the one found at a key is the one that is there -/
theorem lookup_iff {l : List (κ × ν)} (h : (l.map (·.1)).Nodup) : lookup l k = some v ↔ (k, v) ∈ l := by
  unfold lookup
  rw [Option.map_eq_some_iff]
  constructor
  · rintro ⟨e, hf, rfl⟩
    have hk : e.1 = k := by simpa using List.find?_some hf
    have he := List.mem_of_find?_eq_some hf
    rwa [← hk]
  · intro hm
    cases hf : l.find? (·.1 = k) with
    | none =>
      have hne : ¬(k, v).1 = k := by simpa using List.find?_eq_none.mp hf _ hm
      exact absurd rfl hne
    | some e =>
      have hk : e.1 = k := by simpa using List.find?_some hf
      have he : e = (k, v) := List.inj_on_of_nodup_map h (List.mem_of_find?_eq_some hf) hm hk
      exact ⟨e, rfl, by rw [he]⟩

theorem mem_entries : (k, v) ∈ m.entries ↔ m.get k = some v := (lookup_iff m.keys_nodup).symm

@[simp] theorem get_empty (k : κ) : (empty : Ordered κ ν).get k = none := rfl

theorem get_insert (m : Ordered κ ν) (k k' : κ) (v : ν) : (m.insert k v).get k' = if k' = k then some v else m.get k' := by
  refine Option.ext fun w => ?_
  rw [← mem_entries]
  simp only [insert, List.mem_append, List.mem_cons, List.mem_filter, decide_eq_true_eq, Prod.mk.injEq]
  split_ifs with hk
  · subst hk
    simp [eq_comm]
  · rw [← mem_entries]
    constructor
    · rintro (⟨hm, -⟩ | ⟨hk', -⟩ | ⟨hm, -⟩)
      · exact hm
      · exact absurd hk' hk
      · exact hm
    · intro hm
      rcases lt_or_gt_of_ne hk with hlt | hgt
      · exact .inl ⟨hm, hlt⟩
      · exact .inr (.inr ⟨hm, hgt⟩)

theorem get_remove (m : Ordered κ ν) (k k' : κ) : (m.remove k).get k' = if k' = k then none else m.get k' := by
  refine Option.ext fun w => ?_
  rw [← mem_entries]
  simp only [remove, List.mem_filter, ne_eq, decide_not, Bool.not_eq_true', decide_eq_false_iff_not]
  split_ifs with hk
  · simp [hk]
  · rw [← mem_entries]
    exact and_iff_left hk

theorem get_removeAll (l : List κ) (m : Ordered κ ν) (k : κ) : (m.removeAll l).get k = if k ∈ l then none else m.get k := by
  induction l generalizing m with
  | nil => rfl
  | cons a l ih =>
    have h := ih (m.remove a)
    rw [get_remove] at h
    change ((m.remove a).removeAll l).get k = _
    rw [h]
    by_cases ha : k = a
    · simp [ha]
    · simp [ha]

/-- entries put in under different keys -/
theorem get_insertAll {l : List (κ × ν)} (h : (l.map (·.1)).Nodup) (m : Ordered κ ν) (k : κ) :
    (m.insertAll l).get k = (lookup l k).or (m.get k) := by
  induction l generalizing m with
  | nil => rfl
  | cons e l ih =>
    obtain ⟨hnot, hnodup⟩ := List.nodup_cons.mp h
    change ((m.insert e.1 e.2).insertAll l).get k = _
    rw [ih hnodup, get_insert, lookup_cons]
    by_cases hk : e.1 = k
    · have hnone : lookup l k = none := by
        refine Option.eq_none_iff_forall_ne_some.mpr fun v hv => ?_
        exact hnot (List.mem_map.mpr ⟨(k, v), (lookup_iff hnodup).mp hv, hk.symm⟩)
      rw [hnone, if_pos hk.symm, if_pos hk]
      rfl
    · rw [if_neg (Ne.symm hk), if_neg hk]

/-! ## Stretches -/

theorem mem_dropWhile_lt {l : List (κ × ν)} (h : l.Pairwise fun a b => a.1 < b.1) (k : κ) (e : κ × ν) :
    e ∈ l.dropWhile (·.1 < k) ↔ e ∈ l ∧ k ≤ e.1 := by
  induction l with
  | nil => simp
  | cons a l ih =>
    obtain ⟨hlt, hl⟩ := List.pairwise_cons.mp h
    rw [List.dropWhile_cons]
    by_cases hak : a.1 < k
    · rw [if_pos (decide_eq_true hak), ih hl, List.mem_cons]
      constructor
      · rintro ⟨he, hk⟩
        exact ⟨.inr he, hk⟩
      · rintro ⟨rfl | he, hk⟩
        · exact absurd hak (not_lt.mpr hk)
        · exact ⟨he, hk⟩
    · rw [if_neg (by simpa using hak)]
      refine ⟨fun he => ⟨he, ?_⟩, fun he => he.1⟩
      rcases List.mem_cons.mp he with rfl | he
      · exact not_lt.mp hak
      · exact (not_lt.mp hak).trans (hlt e he).le

/-- in a list where `p` goes on holding backwards, the entries before the first without it are all that have it -/
theorem mem_takeWhile_of_down {l : List (κ × ν)} {p : κ → Bool} (h : l.Pairwise fun a b => a.1 < b.1)
    (hp : ∀ a ∈ l, ∀ b ∈ l, a.1 ≤ b.1 → p b.1 → p a.1) (e : κ × ν) : e ∈ l.takeWhile (p ·.1) ↔ e ∈ l ∧ p e.1 := by
  induction l with
  | nil => simp
  | cons a l ih =>
    obtain ⟨hlt, hl⟩ := List.pairwise_cons.mp h
    have hp' : ∀ a ∈ l, ∀ b ∈ l, a.1 ≤ b.1 → p b.1 → p a.1 := fun a ha b hb =>
      hp a (List.mem_cons_of_mem _ ha) b (List.mem_cons_of_mem _ hb)
    rw [List.takeWhile_cons]
    split_ifs with hpa
    · rw [List.mem_cons, List.mem_cons, ih hl hp']
      constructor
      · rintro (rfl | he)
        · exact ⟨.inl rfl, hpa⟩
        · exact ⟨.inr he.1, he.2⟩
      · rintro ⟨rfl | he, hpe⟩
        · exact .inl rfl
        · exact .inr ⟨he, hpe⟩
    · refine ⟨fun he => absurd he List.not_mem_nil, ?_⟩
      rintro ⟨he, hpe⟩
      have hle : a.1 ≤ e.1 := by
        rcases List.mem_cons.mp he with rfl | he
        · exact le_rfl
        · exact (hlt e he).le
      exact absurd (hp a List.mem_cons_self e he hle hpe) hpa

/-- keys that satisfy `p` come one after the other from `k` on: a stretch is all of them -/
theorem mem_stretch {p : κ → Bool} (hk : ∀ b, p b → k ≤ b) (hp : ∀ a b, k ≤ a → a ≤ b → p b → p a) (e : κ × ν) :
    e ∈ m.stretch k p ↔ e ∈ m.entries ∧ p e.1 := by
  unfold stretch
  rw [mem_takeWhile_of_down (m.sorted.sublist (List.dropWhile_sublist _)), mem_dropWhile_lt m.sorted]
  · exact ⟨fun h => ⟨h.1.1, h.2⟩, fun h => ⟨⟨h.1, hk _ h.2⟩, h.2⟩⟩
  · intro a ha b _ hab hb
    exact hp _ _ ((mem_dropWhile_lt m.sorted k a).mp ha).2 hab hb

theorem stretch_sublist (m : Ordered κ ν) (k : κ) (p : κ → Bool) : (m.stretch k p).Sublist m.entries :=
  (List.takeWhile_sublist _).trans (List.dropWhile_sublist _)

/-! ## The last entry -/

theorem getLast?_sorted {l : List (κ × ν)} (h : l.Pairwise fun a b => a.1 < b.1) {e : κ × ν} :
    l.getLast? = some e ↔ e ∈ l ∧ ∀ a ∈ l, a.1 ≤ e.1 := by
  have hlast : ∀ {e}, l.getLast? = some e → e ∈ l ∧ ∀ a ∈ l, a.1 ≤ e.1 := by
    intro e he
    obtain ⟨init, rfl⟩ := List.getLast?_eq_some_iff.mp he
    refine ⟨List.mem_append_right _ (List.mem_singleton_self e), fun a ha => ?_⟩
    rcases List.mem_append.mp ha with ha | ha
    · exact ((List.pairwise_append.mp h).2.2 a ha e (List.mem_singleton_self e)).le
    · rw [List.mem_singleton.mp ha]
  refine ⟨hlast, fun ⟨hm, hle⟩ => ?_⟩
  cases hl : l.getLast? with
  | none =>
    rw [List.getLast?_eq_none_iff.mp hl] at hm
    cases hm
  | some e' =>
    obtain ⟨hm', hle'⟩ := hlast hl
    have hnodup : (l.map (·.1)).Nodup := List.pairwise_map.mpr (h.imp ne_of_lt)
    exact congrArg some (List.inj_on_of_nodup_map hnodup hm' hm (le_antisymm (hle _ hm') (hle' _ hm)))

theorem last_some {p : κ → Bool} {e : κ × ν} :
    m.last p = some e ↔ m.get e.1 = some e.2 ∧ p e.1 ∧ ∀ k v, m.get k = some v → p k → k ≤ e.1 := by
  unfold last
  rw [getLast?_sorted (m.sorted.filter _), ← mem_entries, List.mem_filter, and_assoc]
  refine and_congr_right fun _ => and_congr_right fun _ => ?_
  constructor
  · exact fun h k v hk hp => h (k, v) (List.mem_filter.mpr ⟨mem_entries.mpr hk, hp⟩)
  · exact fun h a ha => h a.1 a.2 (mem_entries.mp (List.mem_filter.mp ha).1) (List.mem_filter.mp ha).2

theorem last_none {p : κ → Bool} : m.last p = none ↔ ∀ k v, m.get k = some v → p k = false := by
  unfold last
  rw [List.getLast?_eq_none_iff, List.filter_eq_nil_iff]
  constructor
  · exact fun h k v hk => Bool.eq_false_iff.mpr (h (k, v) (mem_entries.mpr hk))
  · exact fun h a ha => Bool.eq_false_iff.mp (h a.1 a.2 (mem_entries.mp ha))

end Ordered

/-! ## Lists that begin with a list -/

section Prefix

variable {α : Type*} [LinearOrder α]

theorem le_of_prefix {r a : List α} (h : r <+: a) : r ≤ a := by
  obtain ⟨s, rfl⟩ := h
  induction r with
  | nil => exact not_lt.mp fun hlt => nomatch hlt
  | cons x r ih =>
    refine not_lt.mp fun hlt => ?_
    exact absurd (List.cons_lt_cons_self.mp hlt) (not_lt.mpr ih)

theorem prefix_of_between {r a b : List α} (hra : r ≤ a) (hab : a ≤ b) (h : r <+: b) : r <+: a := by
  induction r generalizing a b with
  | nil => exact List.nil_prefix
  | cons x r ih =>
    obtain ⟨s, rfl⟩ := h
    cases a with
    | nil => exact absurd (lt_of_lt_of_le (List.nil_lt_cons x r) hra) (lt_irrefl _)
    | cons y a =>
      have hxy : x = y := by
        rcases lt_trichotomy x y with hlt | heq | hgt
        · exact absurd hab (not_le.mpr (List.Lex.rel hlt))
        · exact heq
        · exact absurd hra (not_le.mpr (List.Lex.rel hgt))
      subst hxy
      have hra' : r ≤ a := by
        by_contra hlt
        exact absurd hra (not_le.mpr (List.Lex.cons (not_le.mp hlt)))
      have hab' : a ≤ r ++ s := by
        by_contra hlt
        exact absurd hab (not_le.mpr (List.Lex.cons (not_le.mp hlt)))
      exact List.cons_prefix_cons.mpr ⟨rfl, ih hra' hab' (List.prefix_append r s)⟩

/-- all entries whose key begins with `r` -/
theorem Ordered.prefix_stretch {ν : Type*} {m : Ordered (List α) ν} (r : List α) (e : List α × ν) :
    e ∈ m.stretch r (r.isPrefixOf ·) ↔ e ∈ m.entries ∧ r <+: e.1 := by
  rw [mem_stretch]
  · rw [List.isPrefixOf_iff_prefix]
  · exact fun b hb => le_of_prefix (List.isPrefixOf_iff_prefix.mp hb)
  · exact fun a b hra hab hb =>
      List.isPrefixOf_iff_prefix.mpr (prefix_of_between hra hab (List.isPrefixOf_iff_prefix.mp hb))

end Prefix

end Omnidroid
