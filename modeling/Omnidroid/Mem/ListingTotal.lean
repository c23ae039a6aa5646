/-
The mapped total of a space is the sum of its listing's lengths.
- `HoleAt`: an address in a hole of a tracked page.
- `entryHoles_tells`: the holes that the walk takes off an entry are the holes in it, each once.
- `usageOf_spec`: one entry, with the tracked pages walked in step; `usage_run`: all of them.
- `usage_mapped`: what is added less what is taken off is how long the listing is, both being counted by their addresses.
-/
import Omnidroid.Mem.ListingView
import Mathlib.Data.List.TakeWhile

namespace Omnidroid.Mem

/-! ## Lists in order -/

section Whiles

variable {α : Type*} {l : List α} {q : α → Bool}

/-- where what holds of a later one holds of an earlier one -/
theorem takeWhile_filter (h : l.Pairwise fun x y => q y = true → q x = true) : l.takeWhile q = l.filter q := by
  induction l with
  | nil => rfl
  | cons x l ih =>
    obtain ⟨hx, hl⟩ := List.pairwise_cons.mp h
    cases hq : q x with
    | true => rw [List.takeWhile_cons_of_pos hq, List.filter_cons_of_pos hq, ih hl]
    | false =>
      rw [List.takeWhile_cons_of_neg (by simp [hq]), eq_comm, List.filter_eq_nil_iff]
      intro y hy hqy
      rcases List.mem_cons.mp hy with rfl | hy
      · simp [hq] at hqy
      · simp [hx y hy hqy] at hq

theorem dropWhile_filter (h : l.Pairwise fun x y => q y = true → q x = true) : l.dropWhile q = l.filter fun x => !q x := by
  have hall : ∀ {m : List α}, m.Pairwise (fun x y => q y = true → q x = true) → m.filter q ++ m.filter (fun x => !q x) = m := by
    intro m hm
    induction m with
    | nil => rfl
    | cons x m ih =>
      obtain ⟨hx, hm⟩ := List.pairwise_cons.mp hm
      cases hq : q x with
      | true => rw [List.filter_cons_of_pos hq, List.filter_cons_of_neg (by simp [hq]), List.cons_append, ih hm]
      | false =>
        have hno : ∀ y ∈ m, q y = false := fun y hy => by
          by_contra hqy
          simp [hx y hy (by simpa using hqy)] at hq
        rw [List.filter_cons_of_neg (by simp [hq]), List.filter_cons_of_pos (by simp [hq]),
          List.filter_eq_nil_iff.mpr fun y hy => by simp [hno y hy], List.filter_eq_self.mpr fun y hy => by simp [hno y hy]]
        rfl
  have h₁ := List.takeWhile_append_dropWhile (p := q) (l := l)
  rw [takeWhile_filter h] at h₁
  exact List.append_cancel_left (h₁.trans (hall h).symm)

end Whiles

/-! ## Holes -/

section Holes

variable {m : Inner} {p : ℕ × Entry} {q : ℕ × Split} {pages : List (ℕ × Split)} {u : SpaceUsage} {page start stop a : ℕ}

def IsHole (k : Option (Option Part × Bool)) : Prop := ∃ q, k = some q ∧ ∀ part ∈ q.1, part.isHole = true

def HoleAt (page : ℕ) (pages : List (ℕ × Split)) (a : ℕ) : Prop := IsHole (partIn page pages a)

theorem overlaid_free {k : Option (Option Part × Bool)} {told : Told} (h : told.kind ≠ .free) :
    (overlaid k told).kind = .free ↔ IsHole k := by
  unfold overlaid IsHole
  split
  · simp [h]
  · simp [Part.isHole]
  · simp [h, Part.isHole]
  · rename_i q h₁ h₂
    refine iff_of_true rfl ⟨q, rfl, ?_⟩
    intro part hpart
    obtain ⟨o, b⟩ := q
    obtain rfl : o = some part := hpart
    cases part with
    | mapped protection => cases b <;> simp_all
    | hole => rfl
    | strictHole => rfl

theorem partIn_of_mem (hpos : 0 < page) (hp : Pages page pages) (hq : q ∈ pages) (h₁ : q.1 ≤ a) (h₂ : a < q.1 + page) :
    partIn page pages a = some (q.2.key ((a - q.1) / GUEST_PAGE)) := by
  have hof : pageOf page a = q.1 := pageOf_eq hpos (hp.whole q hq).1 h₁ h₂
  have hfind : pages.find? (fun p => p.1 = pageOf page a) = some q := by
    rw [List.find?_eq_some_iff_append]
    obtain ⟨before, after, rfl⟩ := List.append_of_mem hq
    refine ⟨by simp [hof], before, after, rfl, ?_⟩
    intro x hx
    have := (List.pairwise_append.mp hp.order).2.2 x hx q List.mem_cons_self
    simp only [hof, Bool.not_eq_true', decide_eq_false_iff_not]
    omega
  rw [partIn, hfind, Option.map_some]

theorem mem_of_partIn {k : Option Part × Bool} (h : partIn page pages a = some k) :
    ∃ q ∈ pages, q.1 = pageOf page a ∧ k = q.2.key ((a - q.1) / GUEST_PAGE) := by
  obtain ⟨q, hq, rfl⟩ := Option.map_eq_some_iff.mp h
  exact ⟨q, List.mem_of_find?_eq_some hq, by simpa using List.find?_some hq, rfl⟩

/-- the holes of a page, cut to a range, are the holes in both -/
theorem pageHoles_tells (hpos : 0 < page) (hp : Pages page pages) (hq : q ∈ pages) :
    spanRanges.Tells (pageHoles start stop q)
      (fun a => (start ≤ a ∧ a < stop) ∧ (q.1 ≤ a ∧ a < q.1 + page) ∧ HoleAt page pages a) fun _ => () := by
  have hparts := (hp.whole q hq).2
  have hmem : ∀ x ∈ pageHoles start stop q, ∃ part i, q.2.parts[i]? = some part ∧ part.isHole = true ∧
      x = (max (q.1 + i * GUEST_PAGE) start, min (q.1 + (i + 1) * GUEST_PAGE) stop - max (q.1 + i * GUEST_PAGE) start) := by
    intro x hx
    obtain ⟨⟨part, i⟩, hi, hx⟩ := List.mem_filterMap.mp hx
    simp only at hx
    split at hx
    · rename_i hhole
      exact ⟨part, i, List.mem_zipIdx_iff_getElem?.mp hi, hhole, (Option.some.inj hx).symm⟩
    · cases hx
  have hhas : ∀ (i : ℕ) (a : ℕ), spanRanges.Has (max (q.1 + i * GUEST_PAGE) start,
      min (q.1 + (i + 1) * GUEST_PAGE) stop - max (q.1 + i * GUEST_PAGE) start) a ↔
        (start ≤ a ∧ a < stop) ∧ q.1 + i * GUEST_PAGE ≤ a ∧ a < q.1 + (i + 1) * GUEST_PAGE := by
    intro i a
    show max (q.1 + i * GUEST_PAGE) start ≤ a ∧
      a < max (q.1 + i * GUEST_PAGE) start + (min (q.1 + (i + 1) * GUEST_PAGE) stop - max (q.1 + i * GUEST_PAGE) start) ↔ _
    omega
  refine ⟨?_, ?_, ?_⟩
  · unfold pageHoles
    rw [List.pairwise_filterMap]
    have hidx : q.2.parts.zipIdx.Pairwise fun x y => x.2 < y.2 := by
      rw [← List.pairwise_map (f := Prod.snd) (R := (· < ·)), List.zipIdx_map_snd]
      exact List.pairwise_lt_range'
    refine hidx.imp ?_
    rintro ⟨part, i⟩ ⟨part', j⟩ hij x hx y hy a b ha hb
    simp only at hij hx hy
    split at hx
    · split at hy
      · rw [← Option.some.inj hx, hhas] at ha
        rw [← Option.some.inj hy, hhas] at hb
        have := Nat.mul_le_mul_right GUEST_PAGE (show i + 1 ≤ j from hij)
        omega
      · cases hy
    · cases hx
  · rintro a ⟨ha, ⟨h₁, h₂⟩, k, hk, hhole⟩
    rw [partIn_of_mem hpos hp hq h₁ h₂] at hk
    obtain rfl := Option.some.inj hk
    rw [← hparts] at h₂
    have hi : (a - q.1) / GUEST_PAGE < q.2.parts.length := by
      rw [Nat.div_lt_iff_lt_mul (by decide)]
      omega
    refine ⟨(max (q.1 + (a - q.1) / GUEST_PAGE * GUEST_PAGE) start,
      min (q.1 + ((a - q.1) / GUEST_PAGE + 1) * GUEST_PAGE) stop - max (q.1 + (a - q.1) / GUEST_PAGE * GUEST_PAGE) start),
      List.mem_filterMap.mpr ⟨(q.2.parts[(a - q.1) / GUEST_PAGE], (a - q.1) / GUEST_PAGE),
        List.mem_zipIdx_iff_getElem?.mpr (List.getElem?_eq_getElem hi), ?_⟩, ?_⟩
    · exact if_pos (hhole _ (List.getElem?_eq_getElem hi))
    · rw [hhas]
      simp only [GUEST_PAGE] at *
      omega
  · intro x hx a ha
    obtain ⟨part, i, hi, hhole, rfl⟩ := hmem x hx
    rw [hhas] at ha
    have hlt := (List.getElem?_eq_some_iff.mp hi).1
    have hle := Nat.mul_le_mul_right GUEST_PAGE (show i + 1 ≤ q.2.parts.length from hlt)
    rw [hparts] at hle
    have h₁ : q.1 ≤ a := by omega
    refine ⟨⟨ha.1, ⟨h₁, by omega⟩, ?_⟩, rfl⟩
    have hdiv : (a - q.1) / GUEST_PAGE = i := by
      simp only [GUEST_PAGE] at ha ⊢
      omega
    refine ⟨_, partIn_of_mem hpos hp hq h₁ (by omega), ?_⟩
    rw [hdiv]
    intro p hp
    rw [Split.key, hi] at hp
    cases hp
    exact hhole

/-- the holes in an entry, of all tracked pages -/
def entryHoles (page : ℕ) (pages : List (ℕ × Split)) (p : ℕ × Entry) : List (ℕ × ℕ) :=
  ((pages.filter fun q => !decide (q.1 + page ≤ p.1)).filter fun q => q.1 < p.1 + p.2.len).flatMap
    (pageHoles p.1 (p.1 + p.2.len))

theorem entryHoles_tells (hpos : 0 < page) (hp : Pages page pages) :
    spanRanges.Tells (entryHoles page pages p) (fun a => Within p.1 p.2.len a ∧ HoleAt page pages a) fun _ => () := by
  have hmem : ∀ q ∈ (pages.filter fun q => !decide (q.1 + page ≤ p.1)).filter fun q => q.1 < p.1 + p.2.len, q ∈ pages :=
    fun q hq => List.mem_of_mem_filter (List.mem_of_mem_filter hq)
  obtain ⟨hbefore, hlabels⟩ := Ranged.tells_flatMap (R := spanRanges) (f := fun _ _ => ()) (g := pageHoles p.1 (p.1 + p.2.len))
    (D := fun q a => (p.1 ≤ a ∧ a < p.1 + p.2.len) ∧ (q.1 ≤ a ∧ a < q.1 + page) ∧ HoleAt page pages a)
    (((hp.order.filter _).filter _).imp fun hle a b ha hb => by omega)
    fun q hq => pageHoles_tells hpos hp (hmem q hq)
  refine ⟨hbefore, ?_, ?_⟩
  · rintro a ⟨ha, hhole⟩
    obtain ⟨k, hk, -⟩ := id hhole
    obtain ⟨q, hq, hqa, -⟩ := mem_of_partIn hk
    have h₁ := pageOf_le page a
    have h₂ := lt_pageOf_add hpos a
    unfold Within at ha
    obtain ⟨x, hx, hxa, -⟩ := (hlabels a ()).mpr ⟨q, by
      simp only [List.mem_filter, hq, true_and, Bool.not_eq_true', decide_eq_false_iff_not, decide_eq_true_eq]
      omega, ⟨ha, ⟨by omega, by omega⟩, hhole⟩, rfl⟩
    exact ⟨x, hx, hxa⟩
  · intro x hx a ha
    obtain ⟨q, -, ⟨hin, -, hhole⟩, -⟩ := (hlabels a ()).mp ⟨x, hx, ha, rfl⟩
    exact ⟨⟨hin, hhole⟩, rfl⟩

end Holes

/-! ## The walk -/

section Walk

variable {names : ℕ → String × Bool × Bool} {m : Inner} {p : ℕ × Entry} {pages gone rest : List (ℕ × Split)} {u : SpaceUsage}
variable {page a : ℕ}

theorem lose_mapped (isPrivate : Bool) (holes : List (ℕ × ℕ)) (u : SpaceUsage) :
    (holes.foldl (SpaceUsage.lose isPrivate) u).mapped = u.mapped - spanRanges.total holes := by
  induction holes generalizing u with
  | nil => rfl
  | cons hole holes ih =>
    rw [List.foldl_cons, ih]
    show u.mapped - hole.2 - _ = u.mapped - (hole.2 + _)
    exact Nat.sub_sub _ _ _

/-- no more than the entry is taken off it -/
theorem entryHoles_le (hpos : 0 < page) (hp : Pages page pages) : spanRanges.total (entryHoles page pages p) ≤ p.2.len := by
  have ht := entryHoles_tells (p := p) hpos hp
  have hsub : {a | ∃ x ∈ entryHoles page pages p, spanRanges.Has x a} ⊆ Set.Ico p.1 (p.1 + p.2.len) := by
    rintro a ⟨x, hx, ha⟩
    exact (ht.sound x hx a ha).1.1
  rw [Ranged.total_eq_ncard ht.before]
  refine (Set.ncard_le_ncard hsub (Set.finite_Ico _ _)).trans ?_
  rw [← Finset.coe_Ico, Set.ncard_coe_finset, Nat.card_Ico, Nat.add_sub_cancel_left]

/-- one entry: of the tracked pages those that end by its start are passed, and its holes are taken off -/
theorem usageOf_spec (hpos : 0 < page) (hp : Pages page (gone ++ rest)) (hgone : ∀ q ∈ gone, q.1 + page ≤ p.1)
    (hfree : p.2.isFree = false) :
    (usageOf page (u, rest) p).1.mapped + spanRanges.total (entryHoles page (gone ++ rest) p) = u.mapped + p.2.len ∧
      ∃ passed, gone ++ rest = passed ++ (usageOf page (u, rest) p).2 ∧ ∀ q ∈ passed, q.1 + page ≤ p.1 := by
  have hrest : rest.Pairwise fun q q' => q.1 + page ≤ q'.1 := (List.pairwise_append.mp hp.order).2.1
  have hdrop : rest.dropWhile (fun q => decide (q.1 + page ≤ p.1)) = rest.filter fun q => !decide (q.1 + page ≤ p.1) := by
    apply dropWhile_filter
    refine hrest.imp ?_
    simp only [decide_eq_true_eq]
    intro q q' hle h
    omega
  have htake : (rest.dropWhile fun q => decide (q.1 + page ≤ p.1)).takeWhile (fun q => decide (q.1 < p.1 + p.2.len)) =
      ((gone ++ rest).filter fun q => !decide (q.1 + page ≤ p.1)).filter fun q => q.1 < p.1 + p.2.len := by
    have hnone : gone.filter (fun q => !decide (q.1 + page ≤ p.1)) = [] :=
      List.filter_eq_nil_iff.mpr fun q hq => by simpa using hgone q hq
    rw [hdrop, takeWhile_filter, List.filter_append, hnone, List.nil_append]
    refine (hrest.filter _).imp ?_
    simp only [decide_eq_true_eq]
    intro q q' hle h
    omega
  have hle := entryHoles_le (p := p) hpos hp
  unfold usageOf
  rw [if_neg (by simp [hfree])]
  simp only [htake, lose_mapped]
  constructor
  · show u.mapped + p.2.len - spanRanges.total (entryHoles page (gone ++ rest) p) + _ = _
    omega
  · refine ⟨gone ++ rest.takeWhile fun q => decide (q.1 + page ≤ p.1), ?_, ?_⟩
    · rw [List.append_assoc, List.takeWhile_append_dropWhile]
    · intro q hq
      rcases List.mem_append.mp hq with hq | hq
      · exact hgone q hq
      · simpa using List.mem_takeWhile_imp hq

/-- all the entries: what is mapped in the end, and the holes taken off, are the lengths of those that are not free -/
theorem usage_run (hpos : 0 < page) (entries : List (ℕ × Entry)) (hp : Pages page (gone ++ rest))
    (horder : entries.Pairwise fun p p' => p.1 ≤ p'.1) (hgone : ∀ p ∈ entries, ∀ q ∈ gone, q.1 + page ≤ p.1) :
    (entries.foldl (usageOf page) (u, rest)).1.mapped +
        spanRanges.total ((entries.filter fun p => !p.2.isFree).flatMap (entryHoles page (gone ++ rest))) =
      u.mapped + ((entries.filter fun p => !p.2.isFree).map fun p => p.2.len).sum := by
  induction entries generalizing u gone rest with
  | nil => rfl
  | cons p entries ih =>
    obtain ⟨hfirst, horder⟩ := List.pairwise_cons.mp horder
    rw [List.foldl_cons]
    cases hfree : p.2.isFree with
    | true =>
      rw [List.filter_cons_of_neg (by simp [hfree]), show usageOf page (u, rest) p = (u, rest) by simp [usageOf, hfree]]
      exact ih hp horder fun p hp => hgone p (List.mem_cons_of_mem _ hp)
    | false =>
      obtain ⟨hmapped, passed, hsplit, hpassed⟩ := usageOf_spec (u := u) hpos hp (hgone p List.mem_cons_self) hfree
      generalize usageOf page (u, rest) p = acc at hmapped hsplit ⊢
      obtain ⟨u', rest'⟩ := acc
      have hsplit : gone ++ rest = passed ++ rest' := hsplit
      have hpages : Pages page (passed ++ rest') := hsplit ▸ hp
      have hrun := ih (u := u') hpages horder fun p' hp' q hq => (hpassed q hq).trans (hfirst p' hp')
      rw [← hsplit] at hrun
      rw [List.filter_cons_of_pos (by simp [hfree]), List.flatMap_cons, List.map_cons, List.sum_cons, Ranged.total, List.map_append,
        List.sum_append]
      simp only [Ranged.total] at hrun hmapped
      omega

theorem usage_mapped (hv : m.Valid) (hn : m.map.FilesNamed names) :
    m.guestUsage.mapped = (m.mappedRegions.map RegionInfo.len).sum := by
  obtain ⟨pages, hpages, hp, hpart⟩ : ∃ pages, m.sub.elim [] SubPages.split = pages ∧ Pages m.page pages ∧
      ∀ a, m.partAt a = partIn m.page pages a := by
    cases ht : m.sub with
    | none => exact ⟨[], rfl, ⟨.nil, nofun⟩, fun a => by simp [Inner.partAt, ht, partIn]⟩
    | some t => exact ⟨t.split, rfl, pages_of_valid hv ht, fun a => partAt_eq ht⟩
  have htiles := hv.map.tiles.pairwise
  have hp' : Pages m.page ([] ++ pages) := hp
  have hrun := usage_run (u := ⟨0, 0⟩) hv.page_pos m.map.entries hp'
    (htiles.imp fun h => (Nat.le_add_right _ _).trans h) (by simp)
  rw [List.nil_append] at hrun
  obtain ⟨horder, hlabels⟩ := mappedRegions_spec hv hn
  -- the addresses of the entries that are not free, of the holes in them and of the listing
  let E : Set ℕ := {a | ∃ p ∈ m.map.entries, p.2.isFree = false ∧ Within p.1 p.2.len a}
  let H : Set ℕ := {a | HoleAt m.page pages a}
  have hE : ((m.map.entries.filter fun p => !p.2.isFree).map fun p => p.2.len).sum = E.ncard := by
    have htotal := Ranged.total_eq_ncard (R := spanRanges) (l := (m.map.entries.filter fun p => !p.2.isFree).map fun p => (p.1, p.2.len))
      (List.pairwise_map.mpr ((htiles.filter _).imp fun h a b ha hb => ha.2.trans_le (h.trans hb.1)))
    rw [Ranged.total, List.map_map] at htotal
    refine htotal.trans (congrArg Set.ncard (Set.ext fun a => ?_))
    simp only [List.mem_map, List.mem_filter, Bool.not_eq_true', Set.mem_ofPred_eq, E]
    constructor
    · rintro ⟨x, ⟨p, ⟨hp, hfree⟩, rfl⟩, ha⟩
      exact ⟨p, hp, hfree, ha⟩
    · rintro ⟨p, hp, hfree, ha⟩
      exact ⟨_, ⟨p, ⟨hp, hfree⟩, rfl⟩, ha⟩
  have hH : spanRanges.total ((m.map.entries.filter fun p => !p.2.isFree).flatMap (entryHoles m.page pages)) = (E ∩ H).ncard := by
    obtain ⟨hbefore, hholes⟩ := Ranged.tells_flatMap (R := spanRanges) (f := fun _ _ => ()) (g := entryHoles m.page pages)
      (D := fun p a => Within p.1 p.2.len a ∧ HoleAt m.page pages a)
      ((htiles.filter fun p => !p.2.isFree).imp fun h a b ha hb => ha.1.2.trans_le (h.trans hb.1.1))
      fun p _ => entryHoles_tells hv.page_pos hp
    refine (Ranged.total_eq_ncard hbefore).trans (congrArg Set.ncard (Set.ext fun a => ?_))
    constructor
    · rintro ⟨x, hx, ha⟩
      obtain ⟨p, hp, ⟨hpa, hhole⟩, -⟩ := (hholes a ()).mp ⟨x, hx, ha, rfl⟩
      obtain ⟨hp, hfree⟩ := List.mem_filter.mp hp
      exact ⟨⟨p, hp, by simpa using hfree, hpa⟩, hhole⟩
    · rintro ⟨⟨p, hp, hfree, hpa⟩, hhole⟩
      obtain ⟨x, hx, ha, -⟩ := (hholes a ()).mpr ⟨p, List.mem_filter.mpr ⟨hp, by simp [hfree]⟩, ⟨hpa, hhole⟩, rfl⟩
      exact ⟨x, hx, ha⟩
  have hL : (m.mappedRegions.map RegionInfo.len).sum = (E \ H).ncard := by
    refine (Ranged.total_eq_ncard horder.before).trans (congrArg Set.ncard (Set.ext fun a => ?_))
    have hkind : ∀ p : ℕ × Entry, p.2.isFree = false →
        ((overlaid (m.partAt a) ((RegionInfo.fromEntry p.1 p.2).tell a)).kind = .free ↔ HoleAt m.page pages a) := by
      intro p hfree
      rw [hpart]
      refine overlaid_free ?_
      show RegionInfo.rebased _ a ≠ _
      rw [ne_eq, rebased_free, fromEntry_free, hfree]
      exact Bool.false_ne_true
    constructor
    · rintro ⟨x, hx, ha⟩
      obtain ⟨p, hp, hfree, hpa, htold, hk⟩ := (hlabels a _).mp ⟨x, hx, ha, rfl⟩
      refine ⟨⟨p, hp, hfree, hpa⟩, fun hhole => hk ?_⟩
      rw [← htold]
      exact (hkind p hfree).mpr hhole
    · rintro ⟨⟨p, hp, hfree, hpa⟩, hhole⟩
      obtain ⟨x, hx, ha, -⟩ := (hlabels a _).mpr ⟨p, hp, hfree, hpa, rfl, fun hk => hhole ((hkind p hfree).mp hk)⟩
      exact ⟨x, hx, ha⟩
  have hfinite : E.Finite := by
    refine (Set.finite_Ico m.map.base m.map.stop).subset ?_
    rintro a ⟨p, hp, -, ha⟩
    have := hv.map.tiles.bounds hp
    unfold Within at ha
    exact ⟨by omega, by omega⟩
  have hsplit := Set.ncard_inter_add_ncard_sdiff_eq_ncard E H hfinite
  rw [hE, hH] at hrun
  rw [hL, Inner.guestUsage, hpages]
  simp only at hrun
  omega

end Walk

end Omnidroid.Mem
