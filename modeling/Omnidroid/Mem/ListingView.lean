/-
The listing says of every address what a lookup there says.
- `overlaid`: what a part of a tracked page makes of what its entry says.
- `regionRanges_lawful`: regions made one say what each of them said.
- `expandOne_tells`, `mappedRegions_spec`: the listing, from the entries and the tracked pages.
- `viewAt_iff`: and the lookup, from the same.
-/
import Omnidroid.Mem.Glance
import Omnidroid.Mem.Listing

namespace Omnidroid.Mem

open Omnidroid.Mm (Protection)

section Told

variable {names : ℕ → String × Bool × Bool} {r x y : RegionInfo} {s : Split} {page hostPage a : ℕ}

/-- a file's name, and how it was opened, are those of the file -/
def Named (names : ℕ → String × Bool × Bool) : RegionKind → Prop
  | .file backing name _ shared guestNamed => names backing = (name, shared, guestNamed)
  | .free | .host | .anonymous => True

def Good (names : ℕ → String × Bool × Bool) (r : RegionInfo) : Prop := Named names r.kind ∧ r.kind ≠ .free

theorem named_rebased : Named names (r.rebased a) ↔ Named names r.kind := by
  unfold RegionInfo.rebased
  split
  · rename_i hk
    rw [hk]
    rfl
  · rfl

theorem rebased_free : r.rebased a = .free ↔ r.kind = .free := by
  unfold RegionInfo.rebased
  split <;> simp_all

theorem good_iff : Good names r ↔ Named names (r.tell a).kind ∧ (r.tell a).kind ≠ .free := by
  rw [Good, RegionInfo.tell, named_rebased, ne_eq, ne_eq, rebased_free]

/-- a region goes on with another of the same protection and mapping where that one ends -/
theorem canAbsorb_spec (h : x.canAbsorb y = true) :
    y.start = x.stop ∧ y.protection = x.protection ∧ (x.kind = .free ∧ y.kind = .free ∨ y.mapping = x.mapping ∧
      (x.kind = .anonymous ∧ y.kind = .anonymous ∨ ∃ b n o s g n' s' g', x.kind = .file b n o s g ∧
        y.kind = .file b n' (o + x.len) s' g')) := by
  unfold RegionInfo.canAbsorb at h
  split at h
  · cases h
  · rename_i hends
    push Not at hends
    refine ⟨hends.1.symm, hends.2.symm, ?_⟩
    split at h
    · exact .inl ⟨‹_›, ‹_›⟩
    · exact .inr ⟨(beq_iff_eq.mp h).symm, .inl ⟨‹_›, ‹_›⟩⟩
    · rename_i hx hy
      simp only [Bool.and_eq_true, beq_iff_eq] at h
      obtain ⟨⟨hm, rfl⟩, rfl⟩ := h
      exact .inr ⟨hm.symm, .inr ⟨_, _, _, _, _, _, _, _, hx, hy⟩⟩
    · cases h

theorem regionRanges_lawful (names : ℕ → String × Bool × Bool) : regionRanges.Lawful (Good names) where
  next x y h := (canAbsorb_spec h).1
  start _ _ := rfl
  len _ _ := rfl
  good x y _ hx _ := hx
  first x y _ _ _ a _ := rfl
  second x y h hx hy a ha := by
    obtain ⟨hstart, hprotection, hk | ⟨hmapping, hk | hk⟩⟩ := canAbsorb_spec h
    · exact absurd hk.1 hx.2
    · show RegionInfo.tell (x.absorb y) a = y.tell a
      simp [RegionInfo.tell, RegionInfo.absorb, RegionInfo.rebased, hk.1, hk.2, hprotection, hmapping]
    · obtain ⟨b, n, o, s, g, n', s', g', hkx, hky⟩ := hk
      have hnx := hx.1
      have hny := hy.1
      rw [hkx] at hnx
      rw [hky] at hny
      obtain ⟨rfl, hrest⟩ := Prod.mk.inj (hnx.symm.trans hny)
      obtain ⟨rfl, rfl⟩ := Prod.mk.inj hrest
      have hle : y.start ≤ a := ha.1
      rw [RegionInfo.stop] at hstart
      show RegionInfo.tell (x.absorb y) a = y.tell a
      simp only [RegionInfo.tell, RegionInfo.absorb, RegionInfo.rebased, hkx, hky, hprotection, hmapping]
      rw [show o + (a - x.start) = o + x.len + (a - y.start) by omega]

/-! ## What parts make of it -/

/-- what a part of a tracked page makes of what its entry says -/
def overlaid : Option (Option Part × Bool) → Told → Told
  | none, told => told
  | some (some (.mapped protection), true), told => { told with protection, kind := .anonymous }
  | some (some (.mapped protection), false), told => { told with protection }
  | some _, _ => ⟨.none, .free, none⟩

theorem named_overlaid {k : Option (Option Part × Bool)} {told : Told} (h : Named names told.kind) :
    Named names (overlaid k told).kind := by
  unfold overlaid
  split
  · exact h
  · trivial
  · exact h
  · trivial

theorem tell_clip {lo hi : ℕ} (h₁ : r.start ≤ lo) (h₂ : lo ≤ a) : (r.clip lo hi).tell a = r.tell a := by
  unfold RegionInfo.tell RegionInfo.clip RegionInfo.rebased
  cases hk : r.kind with
  | file b n o s g =>
    simp only
    rw [show o + (lo - r.start) + (a - lo) = o + (a - r.start) by omega]
  | _ => simp

theorem tell_asPart {part : Option Part} {isForeign : Bool} :
    (r.asPart part isForeign).tell a = overlaid (some (part, isForeign)) (r.tell a) := by
  unfold RegionInfo.asPart
  split
  · rfl
  · rfl
  · rename_i h₁ h₂
    rw [overlaid]
    · rfl
    · simpa using h₁
    · simpa using h₂

theorem asPart_range {part : Option Part} {isForeign : Bool} :
    (r.asPart part isForeign).start = r.start ∧ (r.asPart part isForeign).len = r.len := by
  unfold RegionInfo.asPart
  split <;> exact ⟨rfl, rfl⟩

end Told

/-! ## A region cut up -/

section Pieces

variable {r : RegionInfo} {s : Split} {t : SubPages} {m : Inner} {pages : List (ℕ × Split)} {page hostPage i j at' a : ℕ}

/-- where one run ends, the next one starts -/
theorem runStart_runStop (hi : i < s.parts.length) : s.runStop i = s.parts.length ∨ s.runStart (s.runStop i) = s.runStop i := by
  obtain ⟨hlt, -, hin, hnext⟩ := s.runStop_spec hi
  refine hnext.imp id fun hne => ?_
  obtain ⟨hle, hkey, -⟩ := s.runStart_spec (s.runStop i)
  by_contra hcon
  have h₁ := hkey (s.runStop i - 1) (by omega) (by omega)
  have h₂ := hin (s.runStop i - 1) (by omega) (by omega)
  exact hne (h₁.symm.trans h₂)

theorem runPieces_tells (turns : ℕ) (hstart : i = s.parts.length ∨ s.runStart i = i) (hturns : s.parts.length ≤ turns + i) :
    regionRanges.Tells (r.runPieces hostPage s turns i)
      (fun a => (r.start ≤ a ∧ a < r.stop) ∧ hostPage + i * GUEST_PAGE ≤ a ∧ a < hostPage + s.parts.length * GUEST_PAGE)
      fun a => overlaid (some (s.key ((a - hostPage) / GUEST_PAGE))) (r.tell a) := by
  have hempty : s.parts.length ≤ i → ∀ a, ¬((r.start ≤ a ∧ a < r.stop) ∧ hostPage + i * GUEST_PAGE ≤ a ∧
      a < hostPage + s.parts.length * GUEST_PAGE) := by
    intro hle a ha
    have := Nat.mul_le_mul_right GUEST_PAGE hle
    omega
  induction turns generalizing i with
  | zero => exact Ranged.Tells.nil (hempty (by omega))
  | succ turns ih =>
    unfold RegionInfo.runPieces
    split
    · rename_i hle
      exact Ranged.Tells.nil (hempty hle)
    · rename_i hlt
      have hi : i < s.parts.length := by omega
      obtain ⟨h₁, h₂, hin, -⟩ := s.runStop_spec hi
      have hfirst : s.runStart i = i := hstart.resolve_left (by omega)
      have hcount : i + (s.runStop i - i) = s.runStop i := by omega
      simp only [Split.runAt, hfirst, hcount]
      have hnext := ih (i := s.runStop i) (runStart_runStop hi) (by omega) fun hle a ha => by
        have := Nat.mul_le_mul_right GUEST_PAGE hle
        omega
      have hpiece : regionRanges.Tells
          [(r.clip (max (hostPage + i * GUEST_PAGE) r.start) (min (hostPage + s.runStop i * GUEST_PAGE) r.stop)).asPart s.parts[i]?
            (s.isForeign i)]
          (fun a => (r.start ≤ a ∧ a < r.stop) ∧ hostPage + i * GUEST_PAGE ≤ a ∧ a < hostPage + s.runStop i * GUEST_PAGE)
          fun a => overlaid (some (s.key ((a - hostPage) / GUEST_PAGE))) (r.tell a) := by
        apply Ranged.Tells.single
        · intro a
          show _ ↔ RegionInfo.start _ ≤ a ∧ a < RegionInfo.start _ + RegionInfo.len _
          rw [asPart_range.1, asPart_range.2]
          simp only [RegionInfo.clip]
          omega
        · rintro a ⟨⟨ha₁, ha₂⟩, ha₃, ha₄⟩
          have hkey : s.key ((a - hostPage) / GUEST_PAGE) = s.key i := by
            simp only [GUEST_PAGE] at ha₃ ha₄ ⊢
            exact hin _ (by omega) (by omega)
          show RegionInfo.tell _ a = _
          rw [tell_asPart, tell_clip (le_max_right _ _) (max_le ha₃ ha₁), hkey]
          rfl
      refine (hpiece.append hnext ?_).congr ?_ fun _ _ => rfl
      · rintro a b ⟨-, -, ha⟩ ⟨-, hb, -⟩
        omega
      · intro a
        have h₃ := Nat.mul_le_mul_right GUEST_PAGE h₁.le
        have h₄ := Nat.mul_le_mul_right GUEST_PAGE h₂
        omega

/-- the part of the tracked pages that an address is in -/
def partIn (page : ℕ) (pages : List (ℕ × Split)) (a : ℕ) : Option (Option Part × Bool) :=
  (pages.find? fun p => p.1 = pageOf page a).map fun p => p.2.key ((a - p.1) / GUEST_PAGE)

theorem partIn_cons {p : ℕ × Split} : partIn page (p :: pages) a =
    if p.1 = pageOf page a then some (p.2.key ((a - p.1) / GUEST_PAGE)) else partIn page pages a := by
  unfold partIn
  rw [List.find?_cons]
  split <;> simp_all

theorem partIn_none (h : ∀ p ∈ pages, p.1 ≠ pageOf page a) : partIn page pages a = none := by
  rw [partIn, List.find?_eq_none.mpr fun p hp => by simpa using h p hp]
  rfl

/-- tracked pages, in order and each in all its parts -/
structure Pages (page : ℕ) (pages : List (ℕ × Split)) : Prop where
  order : pages.Pairwise fun p q => p.1 + page ≤ q.1
  whole : ∀ p ∈ pages, page ∣ p.1 ∧ p.2.parts.length * GUEST_PAGE = page

theorem pagePieces_tells (hpos : 0 < page) (hp : Pages page pages) (hle : r.start ≤ at')
    (hat : (∀ p ∈ pages, at' ≤ p.1) ∨ at' = r.start) :
    regionRanges.Tells (r.pagePieces page pages at') (fun a => (r.start ≤ a ∧ a < r.stop) ∧ at' ≤ a)
      fun a => overlaid (partIn page pages a) (r.tell a) := by
  induction pages generalizing at' with
  | nil =>
    unfold RegionInfo.pagePieces
    split
    · rename_i hlt
      apply Ranged.Tells.single
      · intro a
        simp only [Ranged.Has, Ranged.stop, regionRanges, RegionInfo.clip]
        omega
      · rintro a ⟨-, ha⟩
        exact tell_clip hle ha
    · exact Ranged.Tells.nil fun a ha => by omega
  | cons p rest ih =>
    obtain ⟨hostPage, s⟩ := p
    obtain ⟨hafter, horder⟩ := List.pairwise_cons.mp hp.order
    obtain ⟨hd, hparts⟩ := hp.whole _ List.mem_cons_self
    have hrest : Pages page rest := ⟨horder, fun q hq => hp.whole q (List.mem_cons_of_mem _ hq)⟩
    simp only at hafter hd hparts
    unfold RegionInfo.pagePieces
    split
    · -- the page is no part of the region
      rename_i hout
      refine (ih hrest hle (hat.imp_left fun h q hq => h q (List.mem_cons_of_mem _ hq))).congr (fun _ => Iff.rfl) ?_
      rintro a ⟨⟨ha₁, ha₂⟩, -⟩
      rw [partIn_cons, if_neg]
      intro heq
      have h₁ := pageOf_le page a
      have h₂ := lt_pageOf_add hpos a
      simp only at heq
      omega
    · rename_i hin
      push Not at hin
      have hgap : regionRanges.Tells (if at' < hostPage then [r.clip at' hostPage] else [])
          (fun a => (r.start ≤ a ∧ a < r.stop) ∧ at' ≤ a ∧ a < hostPage)
          fun a => overlaid (partIn page ((hostPage, s) :: rest) a) (r.tell a) := by
        split
        · apply Ranged.Tells.single
          · intro a
            simp only [Ranged.Has, Ranged.stop, regionRanges, RegionInfo.clip]
            omega
          · rintro a ⟨-, ha, hlt⟩
            rw [partIn_none, overlaid]
            · exact tell_clip hle ha
            · intro q hq
              have := pageOf_le page a
              rcases List.mem_cons.mp hq with rfl | hq
              · simp only
                omega
              · have := hafter q hq
                omega
        · exact Ranged.Tells.nil fun a ha => by omega
      have hruns : regionRanges.Tells (r.runPieces hostPage s s.parts.length 0)
          (fun a => (r.start ≤ a ∧ a < r.stop) ∧ hostPage ≤ a ∧ a < hostPage + page)
          fun a => overlaid (partIn page ((hostPage, s) :: rest) a) (r.tell a) := by
        have h0 : s.runStart 0 = 0 := Nat.le_zero.mp (s.runStart_spec 0).1
        refine (runPieces_tells (i := 0) s.parts.length (.inr h0) (by omega)).congr ?_ ?_
        · intro a
          rw [hparts, Nat.zero_mul, Nat.add_zero]
        · rintro a ⟨-, ha₁, ha₂⟩
          rw [hparts] at ha₂
          rw [partIn_cons, if_pos (pageOf_eq hpos hd (by omega) ha₂).symm]
      have hlater := ih hrest (show r.start ≤ hostPage + page by omega) (.inl hafter)
      have hpast : ∀ a, (r.start ≤ a ∧ a < r.stop) ∧ hostPage + page ≤ a →
          overlaid (partIn page ((hostPage, s) :: rest) a) (r.tell a) = overlaid (partIn page rest a) (r.tell a) := by
        rintro a ⟨-, ha⟩
        rw [partIn_cons, if_neg]
        have := (pageOf_eq (p := page) (a := a) (k := hostPage) hpos hd)
        have h₁ := lt_pageOf_add hpos a
        simp only
        omega
      refine ((hgap.append hruns ?_).append (hlater.congr (fun _ => Iff.rfl) hpast) ?_).congr ?_ fun _ _ => rfl
      · rintro a b ⟨-, -, ha⟩ ⟨-, hb, -⟩
        omega
      · rintro a b (⟨-, -, ha⟩ | ⟨-, -, ha⟩) ⟨-, hb⟩
        · omega
        · omega
      · intro a
        have hfrom : at' ≤ hostPage ∨ at' = r.start := hat.imp_left fun h => h _ List.mem_cons_self
        omega

end Pieces

/-! ## The listing -/

section Listing

variable {names : ℕ → String × Bool × Bool} {m : Inner} {t : SubPages} {r info : RegionInfo} {p : ℕ × Entry} {told : Told}
variable {a lo hi : ℕ}

theorem pages_of_valid (hv : m.Valid) (ht : m.sub = some t) : Pages m.page t.split := by
  refine ⟨(hv.sorted t ht).imp_of_mem ?_, ?_⟩
  · intro p q hp hq hlt
    exact add_le_of_page_lt (hv.tracked t ht p hp).1 (hv.tracked t ht q hq).1 hlt
  · intro p hp
    obtain ⟨hd, hparts, -⟩ := hv.tracked t ht p hp
    exact ⟨hd, by rw [hparts, Nat.div_mul_cancel hv.guest_dvd]⟩

theorem partAt_eq (ht : m.sub = some t) : m.partAt a = partIn m.page t.split a := by
  rw [Inner.partAt, ht, Option.bind_some, SubPages.get, partIn]
  cases hf : t.split.find? fun p => p.1 = pageOf m.page a with
  | none => rfl
  | some p =>
    have : p.1 = pageOf m.page a := by simpa using List.find?_some hf
    simp only [Option.map_some, this]

theorem partIn_filter {page : ℕ} {pages : List (ℕ × Split)} (h₁ : lo ≤ pageOf page a) (h₂ : pageOf page a < hi) :
    partIn page (pages.filter fun p => lo ≤ p.1 && p.1 < hi) a = partIn page pages a := by
  unfold partIn
  rw [List.find?_filter]
  congr 1
  apply List.find?_congr
  intro p _
  rcases eq_or_ne p.1 (pageOf page a) with h | h
  · simp [h, h₁, h₂]
  · simp [h]

/-- a region cut up tells of its addresses what the parts of tracked pages make of it -/
theorem expandOne_tells (hv : m.Valid) (ht : m.sub = some t) : regionRanges.Tells (r.expandOne m.page t) (regionRanges.Has r)
    fun a => overlaid (m.partAt a) (r.tell a) := by
  have hp := pages_of_valid hv ht
  have hpages : Pages m.page (t.split.filter fun p => pageOf m.page r.start ≤ p.1 && p.1 < r.stop) :=
    ⟨hp.order.filter _, fun p hp' => hp.whole p (List.mem_of_mem_filter hp')⟩
  refine (pagePieces_tells hv.page_pos hpages (le_refl _) (.inr rfl)).congr ?_ ?_
  · intro a
    show r.start ≤ a ∧ a < r.stop ↔ _
    omega
  · rintro a ⟨⟨ha₁, ha₂⟩, -⟩
    rw [partAt_eq ht, partIn_filter]
    · exact Nat.mul_le_mul_right _ (Nat.div_le_div_right ha₁)
    · exact (pageOf_le _ _).trans_lt ha₂

theorem fromEntry_free {e : Entry} {start : ℕ} : (RegionInfo.fromEntry start e).kind = .free ↔ e.isFree = true := by
  unfold RegionInfo.fromEntry Entry.isFree
  cases ho : e.owner with
  | none =>
    rcases em (e.os = .host) with h | h
    · simp [h]
    · simp [h]
  | some o =>
    simp only [Option.isNone_some, Bool.false_and, Bool.false_eq_true, iff_false]
    cases o.backing <;> simp

/-- the files that entries belong to, by their ids -/
def EntryMap.FilesNamed (m : EntryMap) (names : ℕ → String × Bool × Bool) : Prop :=
  ∀ p ∈ m.entries, ∀ o ∈ p.2.owner, ∀ b ∈ o.backing, names b.id = (b.name, b.shared, b.guestNamed)

theorem entryRegions_same (hv : m.Valid) (hn : m.map.FilesNamed names) :
    regionRanges.Same (Good names) ((m.map.entries.filter fun p => !p.2.isFree).map fun p => .fromEntry p.1 p.2)
      (m.entryRegions false) := by
  apply Ranged.coalesce_spec (regionRanges_lawful names)
  · constructor
    · rw [List.pairwise_map]
      refine (hv.map.tiles.pairwise.filter _).imp ?_
      intro p q hle
      show RegionInfo.start _ + RegionInfo.len _ ≤ RegionInfo.start _
      simpa using hle
    · intro x hx
      obtain ⟨p, hp, rfl⟩ := List.mem_map.mp hx
      have := (hv.map.tiles.bounds (List.mem_of_mem_filter hp)).2.2
      show 0 < RegionInfo.len _
      simpa using this
  · intro x hx
    obtain ⟨p, hp, rfl⟩ := List.mem_map.mp hx
    obtain ⟨hp, hfree⟩ := List.mem_filter.mp hp
    refine ⟨?_, ?_⟩
    · unfold RegionInfo.fromEntry
      cases ho : p.2.owner with
      | none =>
        simp only
        split <;> trivial
      | some o =>
        cases hb : o.backing with
        | none => simp only [hb]; trivial
        | some b =>
          simp only [hb]
          exact hn p hp o (by rw [ho]; rfl) b (by rw [hb]; rfl)
    · rw [ne_eq, fromEntry_free]
      simpa using hfree

theorem entryRegions_labels (hv : m.Valid) (hn : m.map.FilesNamed names) :
    regionRanges.Labels (m.entryRegions false) a told ↔
      ∃ p ∈ m.map.entries, p.2.isFree = false ∧ Within p.1 p.2.len a ∧ (RegionInfo.fromEntry p.1 p.2).tell a = told := by
  rw [(entryRegions_same hv hn).labels]
  constructor
  · rintro ⟨x, hx, ha, rfl⟩
    obtain ⟨p, hp, rfl⟩ := List.mem_map.mp hx
    obtain ⟨hp, hfree⟩ := List.mem_filter.mp hp
    refine ⟨p, hp, by simpa using hfree, ?_, rfl⟩
    have : RegionInfo.start _ ≤ a ∧ a < RegionInfo.start _ + RegionInfo.len _ := ha
    simpa [Within] using this
  · rintro ⟨p, hp, hfree, ha, rfl⟩
    refine ⟨_, List.mem_map.mpr ⟨p, List.mem_filter.mpr ⟨hp, by simp [hfree]⟩, rfl⟩, ?_, rfl⟩
    show RegionInfo.start _ ≤ a ∧ a < RegionInfo.start _ + RegionInfo.len _
    simpa [Within] using ha

/-- what the listing tells of an address: what parts make of an entry that is not free, and no hole -/
theorem mappedRegions_spec (hv : m.Valid) (hn : m.map.FilesNamed names) : regionRanges.InOrder m.mappedRegions ∧
    ∀ a told, regionRanges.Labels m.mappedRegions a told ↔
      ∃ p ∈ m.map.entries, p.2.isFree = false ∧ Within p.1 p.2.len a ∧
        overlaid (m.partAt a) ((RegionInfo.fromEntry p.1 p.2).tell a) = told ∧ told.kind ≠ .free := by
  have hsame := entryRegions_same hv hn
  have hplain : (∀ a, m.partAt a = none) → ∀ a told, regionRanges.Labels (m.entryRegions false) a told ↔
      ∃ p ∈ m.map.entries, p.2.isFree = false ∧ Within p.1 p.2.len a ∧
        overlaid (m.partAt a) ((RegionInfo.fromEntry p.1 p.2).tell a) = told ∧ told.kind ≠ .free := by
    intro hnone a told
    rw [entryRegions_labels hv hn]
    constructor
    · rintro ⟨p, hp, hfree, ha, rfl⟩
      refine ⟨p, hp, hfree, ha, by rw [hnone]; rfl, ?_⟩
      show RegionInfo.rebased _ a ≠ _
      rw [ne_eq, rebased_free, fromEntry_free, hfree]
      exact Bool.false_ne_true
    · rintro ⟨p, hp, hfree, ha, htold, -⟩
      rw [hnone] at htold
      exact ⟨p, hp, hfree, ha, htold⟩
  unfold Inner.mappedRegions Inner.guestViewRegions
  cases ht : m.sub with
  | none => exact ⟨hsame.order, hplain fun a => by simp [Inner.partAt, ht]⟩
  | some t =>
    simp only
    split
    · rename_i hempty
      refine ⟨hsame.order, hplain fun a => ?_⟩
      rw [partAt_eq ht, List.isEmpty_iff.mp hempty]
      rfl
    · obtain ⟨hbefore, hlabels⟩ := Ranged.tells_flatMap (R := regionRanges) (g := RegionInfo.expandOne m.page t) (D := regionRanges.Has) (f := fun r a => overlaid (m.partAt a) (r.tell a))
        hsame.order.before fun r _ => expandOne_tells hv ht
      have hshown : ∀ {x : RegionInfo} {a : ℕ}, regionRanges.Has x a → (x.shown false = true ↔ (x.tell a).kind ≠ .free) := by
        intro x a ha
        have hlen : x.len ≠ 0 := ha.pos.ne'
        show _ ↔ x.rebased a ≠ .free
        rw [ne_eq, rebased_free]
        simp [RegionInfo.shown, RegionInfo.isFree, hlen]
      have hfiltered : regionRanges.Same (Good names)
          (((m.entryRegions false).flatMap (RegionInfo.expandOne m.page t)).filter (RegionInfo.shown false))
          (expand (m.entryRegions false) t m.page false) := by
        apply Ranged.coalesce_spec (regionRanges_lawful names)
        · refine Ranged.inOrder_of_before (hbefore.filter _) ?_
          intro x hx
          have hx := (List.mem_filter.mp hx).2
          simp only [RegionInfo.shown, Bool.and_eq_true, bne_iff_ne] at hx
          exact Nat.pos_of_ne_zero hx.1
        · intro x hx
          obtain ⟨hx, hs⟩ := List.mem_filter.mp hx
          have hlen : 0 < x.len := by
            simp only [RegionInfo.shown, Bool.and_eq_true, bne_iff_ne] at hs
            exact Nat.pos_of_ne_zero hs.1
          have hhas : regionRanges.Has x x.start := Ranged.has_start hlen
          obtain ⟨r, hr, -, htell⟩ := (hlabels x.start (x.tell x.start)).mp ⟨x, hx, hhas, rfl⟩
          refine good_iff.mpr ⟨?_, (hshown hhas).mp hs⟩
          rw [← htell]
          exact named_overlaid (good_iff.mp (hsame.good r hr)).1
      refine ⟨hfiltered.order, ?_⟩
      intro a told
      rw [hfiltered.labels]
      have hpieces : regionRanges.Labels
          (((m.entryRegions false).flatMap (RegionInfo.expandOne m.page t)).filter (RegionInfo.shown false)) a told ↔
          (∃ r ∈ m.entryRegions false, regionRanges.Has r a ∧ overlaid (m.partAt a) (r.tell a) = told) ∧ told.kind ≠ .free := by
        rw [← hlabels a told]
        constructor
        · rintro ⟨x, hx, ha, rfl⟩
          obtain ⟨hx, hs⟩ := List.mem_filter.mp hx
          exact ⟨⟨x, hx, ha, rfl⟩, (hshown ha).mp hs⟩
        · rintro ⟨⟨x, hx, ha, rfl⟩, hs⟩
          exact ⟨x, List.mem_filter.mpr ⟨hx, (hshown ha).mpr hs⟩, ha, rfl⟩
      rw [hpieces]
      constructor
      · rintro ⟨⟨r, hr, ha, rfl⟩, hk⟩
        obtain ⟨p, hp, hfree, hpa, htell⟩ := (entryRegions_labels hv hn).mp ⟨r, hr, ha, rfl⟩
        exact ⟨p, hp, hfree, hpa, congrArg (overlaid (m.partAt a)) htell, hk⟩
      · rintro ⟨p, hp, hfree, hpa, rfl, hk⟩
        obtain ⟨r, hr, ha, htell⟩ := (entryRegions_labels hv hn).mpr ⟨p, hp, hfree, hpa, rfl⟩
        exact ⟨⟨r, hr, ha, congrArg (overlaid (m.partAt a)) htell⟩, hk⟩

/-! ## The lookup -/

theorem rebased_twice (h : r.kind = info.rebased r.start) (h₁ : info.start ≤ r.start) (h₂ : r.start ≤ a) :
    r.rebased a = info.rebased a := by
  unfold RegionInfo.rebased at h ⊢
  cases hk : info.kind with
  | file b n o s g =>
    rw [hk] at h
    simp only [h]
    rw [show o + (r.start - info.start) + (a - r.start) = o + (a - info.start) by omega]
  | _ =>
    rw [hk] at h
    simp only [h]

/-- what a lookup sees of an entry that is not free is what parts make of it, where that is no hole -/
theorem guestViewOf_tell (hv : m.Valid) (hp : p ∈ m.map.entries) (ha : Within p.1 p.2.len a) (hstart : info.start = p.1)
    (hlen : info.len = p.2.len) (hkind : info.kind ≠ .free) :
    (∃ r, m.guestViewOf info a = some r ∧ r.tell a = told) ↔
      overlaid (m.partAt a) (info.tell a) = told ∧ told.kind ≠ .free := by
  have hwhole : (info.tell a).kind ≠ .free := by
    show info.rebased a ≠ _
    rwa [ne_eq, rebased_free]
  have hsee : ∀ r, m.guestViewOf info a = some r → info.start ≤ r.start ∧ r.start ≤ a := by
    intro r hr
    obtain ⟨h₁, -, h₂, -⟩ := Inner.guestViewOf_same hv hp ha.1 ha.2 hstart hlen hr
    exact ⟨hstart ▸ h₁, h₂.1⟩
  cases ht : m.sub with
  | none =>
    have hview : m.guestViewOf info a = some info := by simp [Inner.guestViewOf, ht]
    have hpart : m.partAt a = none := by simp [Inner.partAt, ht]
    simp only [hview, hpart, Option.some.injEq, exists_eq_left', overlaid]
    exact ⟨fun h => ⟨h, h ▸ hwhole⟩, fun h => h.1⟩
  | some t =>
    cases hget : t.get (pageOf m.page a) with
    | none =>
      have hpart : m.partAt a = none := by simp [Inner.partAt, ht, hget]
      obtain ⟨r, hr, htell⟩ : ∃ r, m.guestViewOf info a = some r ∧ r.tell a = info.tell a := by
        rcases em (t.split.isEmpty = true) with hempty | hne
        · exact ⟨info, by simp [Inner.guestViewOf, ht, hempty], rfl⟩
        · have hgap : m.guestViewOf info a = _ := Inner.guestViewOf_gap ht hne hget
          obtain ⟨h₁, h₂⟩ := hsee _ hgap
          refine ⟨_, hgap, ?_⟩
          show Told.mk _ _ _ = Told.mk _ _ _
          rw [rebased_twice rfl h₁ h₂]
          rfl
      simp only [hr, hpart, Option.some.injEq, exists_eq_left', htell, overlaid]
      exact ⟨fun h => ⟨h, h ▸ hwhole⟩, fun h => h.1⟩
    | some s =>
      have hne : ¬t.split.isEmpty := by
        rw [List.isEmpty_iff]
        exact List.ne_nil_of_mem (SubPages.mem_of_get hget)
      have hrun : m.guestViewOf info a = _ := Inner.guestViewOf_run ht hne hget
      have hpart : m.partAt a = some (s.key ((a - pageOf m.page a) / GUEST_PAGE)) := by simp [Inner.partAt, ht, hget]
      generalize (a - pageOf m.page a) / GUEST_PAGE = i at hrun hpart
      have hfirst : s.isForeign (s.runStart i) = s.isForeign i :=
        congrArg Prod.snd ((s.runStart_spec i).2.1 _ (le_refl _) (s.runStart_spec i).1)
      rw [hrun, hpart, Split.key]
      rw [hrun] at hsee
      simp only [RegionInfo.ofRun, Split.runAt] at hsee ⊢
      -- a hole is nothing to a lookup, and told to be free
      have hhole : ∀ {k : Option Part × Bool}, overlaid (some k) (info.tell a) = ⟨.none, .free, none⟩ →
          ((∃ r, (none : Option RegionInfo) = some r ∧ r.tell a = told) ↔
            overlaid (some k) (info.tell a) = told ∧ told.kind ≠ .free) := by
        intro k hk
        rw [hk]
        constructor
        · rintro ⟨r, hr, -⟩
          cases hr
        · rintro ⟨rfl, hk⟩
          exact absurd rfl hk
      cases hpart : s.parts[i]? with
      | none => exact hhole (by cases s.isForeign i <;> rfl)
      | some part =>
        cases part with
        | hole => exact hhole (by cases s.isForeign i <;> rfl)
        | strictHole => exact hhole (by cases s.isForeign i <;> rfl)
        | mapped protection =>
          rw [hpart] at hsee
          simp only [hfirst] at hsee ⊢
          cases hf : s.isForeign i with
          | true =>
            simp only [if_true, Option.some.injEq, exists_eq_left', overlaid]
            refine ⟨fun h => ⟨h, ?_⟩, fun h => h.1⟩
            rw [← h]
            intro hfree
            cases hfree
          | false =>
            rw [hf] at hsee
            simp only [Bool.false_eq_true, if_false, Option.some.injEq, exists_eq_left', overlaid] at hsee ⊢
            obtain ⟨h₁, h₂⟩ := hsee _ rfl
            have htell : ∀ r : RegionInfo, info.start ≤ r.start → r.start ≤ a → r.protection = protection →
                r.mapping = info.mapping → r.kind = info.rebased r.start → r.tell a = { info.tell a with protection } := by
              intro r h₁ h₂ hr hm hk
              rw [RegionInfo.tell, RegionInfo.tell, hr, hm, rebased_twice hk h₁ h₂]
            rw [htell _ h₁ h₂ rfl rfl rfl]
            exact ⟨fun h => ⟨h, h ▸ hwhole⟩, fun h => h.1⟩

/-- the lookup, but for a file's end, from the entries and the tracked pages -/
theorem viewAt_iff (hv : m.Valid) : (∃ r, m.viewAt a = some r ∧ r.tell a = told) ↔
    ∃ p ∈ m.map.entries, p.2.isFree = false ∧ Within p.1 p.2.len a ∧
      overlaid (m.partAt a) ((RegionInfo.fromEntry p.1 p.2).tell a) = told ∧ told.kind ≠ .free := by
  have hentry : ∀ p ∈ m.map.entries, p.2.isFree = false → Within p.1 p.2.len a →
      ((∃ r, m.guestViewOf (.fromEntry p.1 p.2) a = some r ∧ r.tell a = told) ↔
        overlaid (m.partAt a) ((RegionInfo.fromEntry p.1 p.2).tell a) = told ∧ told.kind ≠ .free) := by
    intro p hp hfree ha
    exact guestViewOf_tell hv hp ha (RegionInfo.fromEntry_start _ _) (RegionInfo.fromEntry_len _ _)
      (by rw [ne_eq, fromEntry_free, hfree]; exact Bool.false_ne_true)
  constructor
  · rintro ⟨r, hr, htell⟩
    simp only [Inner.viewAt, Option.bind_eq_bind, Option.bind_eq_some_iff, Option.ite_none_left_eq_some, Bool.not_eq_true] at hr
    obtain ⟨p, hp, hfree, hview⟩ := hr
    obtain ⟨hmem, ha⟩ := EntryMap.mem_of_entryAt hp
    exact ⟨p, hmem, hfree, ha, (hentry p hmem hfree ha).mp ⟨r, hview, htell⟩⟩
  · rintro ⟨p, hmem, hfree, ha, h⟩
    obtain ⟨r, hview, htell⟩ := (hentry p hmem hfree ha).mpr h
    refine ⟨r, ?_, htell⟩
    simp only [Inner.viewAt, Option.bind_eq_bind, Option.bind_eq_some_iff, Option.ite_none_left_eq_some, Bool.not_eq_true]
    exact ⟨p, EntryMap.entryAt_of_mem hv.map.tiles hmem ha.1 ha.2, hfree, hview⟩

end Listing

end Omnidroid.Mem
