/-
What a space holds in a range has every byte that may read otherwise than zero; and the lookup, the listing, the total and what
is held of one space, together.
- `contents`: what a read of an address gives, where it gives anything.
- `heldParts_tells`, `heldPages_tells`: a held range less the holes and foreign parts of tracked pages.
- `held_covers`: no byte that reads otherwise than zero is left out.
- `listing_agrees`: the four walks agree, whatever the files' lengths are now.
-/
import Omnidroid.Mem.Carve
import Omnidroid.Mem.ListingTotal

namespace Omnidroid.Mem

/-- what a read of the address gives: `own` is what private memory and the private copies of files hold, `files` what shared
views show -/
def Inner.contents (m : Inner) (lenNow : ℕ → ℕ) (own : ℕ → UInt8) (files : ℕ → ℕ → UInt8) (a : ℕ) : Option UInt8 :=
  match m.map.entryAt a with
  | none => none
  | some (_, e) =>
    match m.partAt a with
    -- a reservation's part over a view's page reads zero once it is made accessible
    | some (some (.mapped _), true) => some 0
    | some (some .hole, _) | some (some .strictHole, _) | some (none, _) => none
    | none | some (some (.mapped _), false) =>
      match e.os, e.owner with
      | .host, _ | .placeholder, none => none
      -- not committed yet
      | .placeholder, some _ => some 0
      | .priv _, _ | .view _, none => some (own a)
      | .view _, some o =>
        match o.backing.filter Backing.shared with
        | none => some (own a)
        | some b => if o.offsetAt a < roundUp m.page (lenNow b.id) then some (files b.id (o.offsetAt a)) else none

/-- an address in no tracked page, or in a part that is mapped and has its own bytes -/
def IsOwn (k : Option (Option Part × Bool)) : Prop := k = none ∨ ∃ protection, k = some (some (.mapped protection), false)

section Held

variable {m : Inner} {t : SubPages} {s : Split} {lenNow : ℕ → ℕ} {own : ℕ → UInt8} {files : ℕ → ℕ → UInt8} {v : UInt8}
variable {e : Entry} {p : ℕ × Entry} {page hostPage next stop g at' address len start a : ℕ}

/-- an address with contents that are not zero is in an entry with memory or a view, and is its own -/
theorem contents_spec (h : m.contents lenNow own files a = some v) (hne : v ≠ 0) :
    ∃ p, m.map.entryAt a = some p ∧ IsOwn (m.partAt a) ∧ ((∃ idle, p.2.os = .priv idle) ∨ ∃ view, p.2.os = .view view ∧
      ∀ o ∈ p.2.owner, ∀ b ∈ o.backing.filter Backing.shared, o.offsetAt a < roundUp m.page (lenNow b.id)) := by
  unfold Inner.contents at h
  split at h
  · cases h
  · rename_i start e hat
    refine ⟨_, hat, ?_⟩
    split at h
    · exact absurd (Option.some.inj h).symm hne
    · cases h
    · cases h
    · cases h
    all_goals
      rename_i hpart
      rw [hpart]
      refine ⟨by simp [IsOwn], ?_⟩
      split at h
      · cases h
      · cases h
      · exact absurd (Option.some.inj h).symm hne
      · rename_i idle hos
        exact .inl ⟨idle, hos⟩
      · rename_i view hos howner
        exact .inr ⟨view, hos, by simp [howner]⟩
      · rename_i view o hos howner
        refine .inr ⟨view, hos, ?_⟩
        intro o' ho b hb
        obtain rfl : o = o' := Option.some.inj (howner.symm.trans ho)
        rw [show o.backing.filter Backing.shared = some b from hb] at h
        simp only at h
        split at h
        · assumption
        · cases h

/-! ## Entries -/

theorem spanRanges_lawful : spanRanges.Lawful fun _ => True where
  next _ _ h := (beq_iff_eq.mp h).symm
  start _ _ := rfl
  len _ _ := rfl
  good _ _ _ _ _ := trivial
  first _ _ _ _ _ _ _ := rfl
  second _ _ _ _ _ _ _ := rfl

theorem heldEnd_le : heldEnd page lenNow start e ≤ start + e.len := by
  unfold heldEnd
  split
  · split <;> omega
  · exact le_refl _

/-- an address of a view before the page that its file ends in is over is held -/
theorem lt_heldEnd (hlt : a < start + e.len) (hle : start ≤ a) (hin : ∀ o ∈ e.owner, o.mappingStart ≤ start)
    (h : ∀ o ∈ e.owner, ∀ b ∈ o.backing.filter Backing.shared, o.offsetAt a < roundUp page (lenNow b.id)) :
    a < heldEnd page lenNow start e := by
  unfold heldEnd
  split
  · rename_i o b _ hob
    obtain ⟨o', ho, hb⟩ := Option.bind_eq_some_iff.mp hob
    obtain ⟨b', hb', heq⟩ := Option.map_eq_some_iff.mp hb
    cases heq
    have h₁ := h o ho b hb'
    have h₂ := hin o ho
    split
    · exact hlt
    · unfold Owner.offsetAt at h₁ ⊢
      omega
  · exact hlt

theorem mem_starts (hv : m.map.Valid) (hat : m.map.entryAt a = some p) (hle : address ≤ a) (hlt : a < address + len) :
    p.1 ∈ m.map.startsOverlapping address len := by
  obtain ⟨hp, h₁, h₂⟩ := EntryMap.mem_of_entryAt hat
  have hfirst : ((m.map.entryAt address).map Prod.fst).getD address ≤ p.1 := by
    cases hf : m.map.entryAt address with
    | some f =>
      obtain ⟨hf, h₃, h₄⟩ := EntryMap.mem_of_entryAt hf
      show f.1 ≤ p.1
      rcases EntryMap.apart hv hf hp with rfl | h | h <;> omega
    | none =>
      show address ≤ p.1
      by_contra hcon
      rw [EntryMap.entryAt_of_mem hv.tiles hp (by omega) (by omega)] at hf
      cases hf
  unfold EntryMap.startsOverlapping
  refine List.mem_map.mpr ⟨p, List.mem_filter.mpr ⟨hp, ?_⟩, rfl⟩
  simp only [Bool.and_eq_true, decide_eq_true_eq]
  omega

theorem heldOf_some {x : ℕ × ℕ} (h : m.heldOf lenNow address stop start = some x) :
    ∃ e, m.map.get start = some e ∧ 0 < x.2 ∧ start ≤ x.1 ∧ x.1 + x.2 ≤ start + e.len := by
  simp only [Inner.heldOf, Option.bind_eq_bind, Option.bind_eq_some_iff] at h
  obtain ⟨e, he, h⟩ := h
  have hle : heldEnd m.page lenNow start e ≤ start + e.len := heldEnd_le
  refine ⟨e, he, ?_⟩
  split at h
  · cases h
  · cases h
  all_goals
    split at h
    · cases h
    · cases h
      simp only
      omega

/-- what the entries hold, in order, with every address of theirs that may read otherwise than zero -/
theorem entries_held (hv : m.Valid) : spanRanges.InOrder
      ((m.map.startsOverlapping address len).filterMap (m.heldOf lenNow address stop)) := by
  constructor
  · rw [List.pairwise_filterMap]
    refine (EntryMap.startsOverlapping_sorted hv.map address len).imp ?_
    intro i j hij x hx y hy
    obtain ⟨d, hd, -, -, h₁⟩ := heldOf_some hx
    obtain ⟨e, he, -, h₂, -⟩ := heldOf_some hy
    have hd := (EntryMap.get_eq_some hv.map).mp hd
    have he := (EntryMap.get_eq_some hv.map).mp he
    have hlen := (hv.map.tiles.bounds he).2.2
    show x.1 + x.2 ≤ y.1
    rcases EntryMap.apart hv.map hd he with h | h | h
    · have := congrArg Prod.fst h
      simp only at this
      omega
    · simp only at h
      omega
    · simp only at h hlen
      omega
  · intro x hx
    obtain ⟨i, -, hx⟩ := List.mem_filterMap.mp hx
    exact (heldOf_some hx).choose_spec.2.1

theorem heldOf_has (hv : m.Valid) (hat : m.map.entryAt a = some p) (ha : address ≤ a ∧ a < stop)
    (hos : (∃ idle, p.2.os = .priv idle) ∨ ∃ view, p.2.os = .view view ∧
      ∀ o ∈ p.2.owner, ∀ b ∈ o.backing.filter Backing.shared, o.offsetAt a < roundUp m.page (lenNow b.id)) :
    ∃ x, m.heldOf lenNow address stop p.1 = some x ∧ spanRanges.Has x a := by
  obtain ⟨hp, h₁, h₂⟩ := EntryMap.mem_of_entryAt hat
  have hget := (EntryMap.get_eq_some hv.map).mpr (show (p.1, p.2) ∈ m.map.entries from hp)
  have hend : a < heldEnd m.page lenNow p.1 p.2 := by
    rcases hos with ⟨idle, hos⟩ | ⟨view, hos, hfile⟩
    · simp [heldEnd, hos, h₂]
    · exact lt_heldEnd h₂ h₁ (fun o ho => (hv.map.inside p hp o ho).1.1) hfile
  refine ⟨(max p.1 address, min (heldEnd m.page lenNow p.1 p.2) stop - max p.1 address), ?_, ?_⟩
  · have hlt : ¬min (heldEnd m.page lenNow p.1 p.2) stop ≤ max p.1 address := by omega
    rcases hos with ⟨idle, hos⟩ | ⟨view, hos, -⟩
    · simp only [Inner.heldOf, hget, Option.bind_eq_bind, Option.bind_some, hos, if_neg hlt]
    · simp only [Inner.heldOf, hget, Option.bind_eq_bind, Option.bind_some, hos, if_neg hlt]
  · show max p.1 address ≤ a ∧ a < max p.1 address + (min (heldEnd m.page lenNow p.1 p.2) stop - max p.1 address)
    omega

/-! ## Tracked pages -/

/-- the pages of one turn, from `g` to `stop` -/
theorem heldPart_tells (hpage : ∀ a, g ≤ a → a < stop → (a - hostPage) / GUEST_PAGE = (g - hostPage) / GUEST_PAGE) :
    spanRanges.Tells
      (match s.parts[(g - hostPage) / GUEST_PAGE]? with
        | some (.mapped _) => if s.isForeign ((g - hostPage) / GUEST_PAGE) then [] else [(g, stop - g)]
        | _ => [])
      (fun a => (g ≤ a ∧ a < stop) ∧ IsOwn (some (s.key ((a - hostPage) / GUEST_PAGE)))) fun _ => () := by
  have hkey : ∀ a, g ≤ a → a < stop → s.key ((a - hostPage) / GUEST_PAGE) =
      (s.parts[(g - hostPage) / GUEST_PAGE]?, s.isForeign ((g - hostPage) / GUEST_PAGE)) :=
    fun a h₁ h₂ => by rw [hpage a h₁ h₂]; rfl
  split
  · rename_i protection hmapped
    split
    · rename_i hforeign
      apply Ranged.Tells.nil
      rintro a ⟨⟨h₁, h₂⟩, hown⟩
      rw [hkey a h₁ h₂, hmapped, hforeign] at hown
      simp [IsOwn] at hown
    · rename_i hforeign
      refine Ranged.Tells.single (fun a => ?_) fun _ _ => rfl
      show _ ↔ g ≤ a ∧ a < g + (stop - g)
      constructor
      · rintro ⟨h, -⟩
        omega
      · intro h
        refine ⟨by omega, ?_⟩
        rw [hkey a (by omega) (by omega), hmapped]
        simp [IsOwn, hforeign]
  · rename_i hnone
    apply Ranged.Tells.nil
    rintro a ⟨⟨h₁, h₂⟩, hown⟩
    rw [hkey a h₁ h₂] at hown
    rcases hown with h | ⟨protection, h⟩
    · cases h
    · exact hnone protection (Prod.mk.inj (Option.some.inj h)).1

/-- what is told of `[g, mid)` and of what follows it -/
theorem tells_before {l₁ l₂ : List (ℕ × ℕ)} {mid : ℕ} {P : ℕ → Prop} (hg : g ≤ mid) (hmid : mid ≤ stop)
    (h₁ : spanRanges.Tells l₁ (fun a => (g ≤ a ∧ a < mid) ∧ P a) fun _ => ())
    (h₂ : spanRanges.Tells l₂ (fun a => (mid ≤ a ∧ a < stop) ∧ P a) fun _ => ()) :
    spanRanges.Tells (l₁ ++ l₂) (fun a => (g ≤ a ∧ a < stop) ∧ P a) fun _ => () := by
  refine (h₁.append h₂ ?_).congr ?_ fun _ _ => rfl
  · rintro a b ⟨ha, -⟩ ⟨hb, -⟩
    omega
  · intro a
    constructor
    · rintro ⟨ha, hP⟩
      rcases lt_or_ge a mid with h | h
      · exact .inl ⟨⟨ha.1, h⟩, hP⟩
      · exact .inr ⟨⟨h, ha.2⟩, hP⟩
    · rintro (⟨ha, hP⟩ | ⟨ha, hP⟩)
      · exact ⟨by omega, hP⟩
      · exact ⟨by omega, hP⟩

theorem heldParts_tells (turns : ℕ) (hd : GUEST_PAGE ∣ hostPage) (hle : hostPage ≤ g) (hturns : next - g ≤ turns) :
    spanRanges.Tells (heldParts s hostPage next turns g)
      (fun a => (g ≤ a ∧ a < next) ∧ IsOwn (some (s.key ((a - hostPage) / GUEST_PAGE)))) fun _ => () := by
  induction turns generalizing g with
  | zero => exact Ranged.Tells.nil fun a ha => by omega
  | succ turns ih =>
    unfold heldParts
    split
    · exact Ranged.Tells.nil fun a ha => by omega
    · rename_i hlt
      obtain ⟨k, rfl⟩ := hd
      have hgn : g < min (pageOf GUEST_PAGE g + GUEST_PAGE) next := by
        have := lt_pageOf_add (p := GUEST_PAGE) (by decide) g
        omega
      refine tells_before hgn.le (min_le_right _ _) (heldPart_tells fun a h₁ h₂ => ?_)
        (ih (g := min (pageOf GUEST_PAGE g + GUEST_PAGE) next) (by omega) (by omega))
      simp only [pageOf, GUEST_PAGE] at *
      omega

/-- a page of the host's from `at'` to `next`: the pages held of it where it is tracked, else all of it -/
theorem heldPage_tells (hv : m.Valid) (ht : m.sub = some t)
    (hsame : ∀ a, at' ≤ a → a < next → pageOf m.page a = pageOf m.page at') :
    spanRanges.Tells
      (match t.get (pageOf m.page at') with
        | some s => heldParts s (pageOf m.page at') next (next - at') at'
        | none => [(at', next - at')])
      (fun a => (at' ≤ a ∧ a < next) ∧ IsOwn (m.partAt a)) fun _ => () := by
  cases hget : t.get (pageOf m.page at') with
  | none =>
    refine Ranged.Tells.single (fun a => ?_) fun _ _ => rfl
    show _ ↔ at' ≤ a ∧ a < at' + (next - at')
    constructor
    · rintro ⟨h, -⟩
      omega
    · intro h
      refine ⟨by omega, .inl ?_⟩
      rw [Inner.partAt, ht, Option.bind_some, hsame a (by omega) (by omega), hget]
      rfl
  | some s =>
    have hdvd : GUEST_PAGE ∣ pageOf m.page at' := hv.guest_dvd.trans (Nat.dvd_mul_left _ _)
    refine (heldParts_tells _ hdvd (pageOf_le m.page at') (le_refl _)).congr ?_ fun _ _ => rfl
    intro a
    refine and_congr_right fun ha => ?_
    rw [Inner.partAt, ht, Option.bind_some, hsame a ha.1 ha.2, hget]
    rfl

theorem heldPages_tells (hv : m.Valid) (ht : m.sub = some t) (turns : ℕ) (hturns : stop - at' ≤ turns) :
    spanRanges.Tells (heldPages t m.page stop turns at') (fun a => (at' ≤ a ∧ a < stop) ∧ IsOwn (m.partAt a)) fun _ => () := by
  induction turns generalizing at' with
  | zero => exact Ranged.Tells.nil fun a ha => by omega
  | succ turns ih =>
    unfold heldPages
    split
    · exact Ranged.Tells.nil fun a ha => by omega
    · rename_i hlt
      have h₁ := pageOf_le m.page at'
      have h₂ := lt_pageOf_add hv.page_pos at'
      exact tells_before (by omega) (min_le_right _ _)
        (heldPage_tells hv ht fun a ha ha' => pageOf_eq hv.page_pos (Nat.dvd_mul_left _ _) (h₁.trans ha) (by omega))
        (ih (show stop - min (pageOf m.page at' + m.page) stop ≤ turns by omega))

/-! ## What is held -/

/-- no byte of the range that reads otherwise than zero is left out -/
theorem held_covers (hv : m.Valid) (hmax : m.map.stop ≤ usizeMax) (ha : Within address len a)
    (h : m.contents lenNow own files a = some v) (hne : v ≠ 0) : ∃ s ∈ m.heldRanges lenNow address len, Within s.1 s.2 a := by
  obtain ⟨p, hat, hown, hos⟩ := contents_spec h hne
  obtain ⟨hp, h₁, h₂⟩ := EntryMap.mem_of_entryAt hat
  have hbounds := hv.map.tiles.bounds hp
  have hrange : address ≤ a ∧ a < min (address + len) usizeMax := ⟨ha.1, lt_min ha.2 (by omega)⟩
  obtain ⟨x, hx, hxa⟩ := heldOf_has hv hat hrange hos
  have hentries : spanRanges.InOrder ((m.map.startsOverlapping address len).filterMap
      (m.heldOf lenNow address (min (address + len) usizeMax))) := entries_held hv
  have hsame := Ranged.coalesce_spec spanRanges_lawful hentries fun _ _ => trivial
  obtain ⟨y, hy, hya, -⟩ := (hsame.labels a ()).mpr
    ⟨x, List.mem_filterMap.mpr ⟨p.1, mem_starts hv.map hat ha.1 ha.2, hx⟩, hxa, rfl⟩
  unfold Inner.heldRanges Inner.guestHeld
  cases ht : m.sub with
  | none => exact ⟨y, hy, hya⟩
  | some t =>
    simp only
    split
    · exact ⟨y, hy, hya⟩
    · obtain ⟨hbefore, hlabels⟩ := Ranged.tells_flatMap (R := spanRanges) (f := fun _ _ => ())
        (g := fun s : ℕ × ℕ => heldPages t m.page (s.1 + s.2) s.2 s.1)
        (D := fun s a => (s.1 ≤ a ∧ a < s.1 + s.2) ∧ IsOwn (m.partAt a))
        (hsame.order.before.imp fun hlt a b ha hb => hlt a b ha.1 hb.1)
        fun s _ => heldPages_tells hv ht s.2 (by omega)
      obtain ⟨z, hz, hza, -⟩ := (hlabels a ()).mpr ⟨y, hy, ⟨hya, hown⟩, rfl⟩
      have hfiltered := Ranged.coalesce_spec spanRanges_lawful
        (Ranged.inOrder_of_before (hbefore.filter fun s => s.2 != 0) fun s hs => Nat.pos_of_ne_zero
          (bne_iff_ne.mp (List.mem_filter.mp hs).2)) fun _ _ => trivial
      obtain ⟨w, hw, hwa, -⟩ := (hfiltered.labels a ()).mpr
        ⟨z, List.mem_filter.mpr ⟨hz, bne_iff_ne.mpr hza.pos.ne'⟩, hza, rfl⟩
      exact ⟨w, hw, hwa⟩

/-- the lookup is of the same region, cut at a file's end -/
theorem regionAt_view {o : RegionInfo × Bool} :
    m.regionAtLocked lenNow a = some o ↔
      ∃ p r, m.map.entryAt a = some p ∧ m.viewAt a = some r ∧ m.clipAtEndOfFile lenNow p.2 r a = o := by
  rw [Inner.regionAtLocked_some]
  simp only [Inner.viewAt, Option.bind_eq_bind, Option.bind_eq_some_iff, Option.ite_none_left_eq_some, Bool.not_eq_true]
  constructor
  · rintro ⟨p, r, hp, hfree, hview, hclip⟩
    exact ⟨p, r, hp, ⟨p, hp, hfree, hview⟩, hclip⟩
  · rintro ⟨p, r, hp, ⟨q, hq, hfree, hview⟩, hclip⟩
    obtain rfl : p = q := Option.some.inj (hp.symm.trans hq)
    exact ⟨p, r, hp, hfree, hview, hclip⟩

end Held

/-! ## The four walks -/

/-- the address is in a shared view, past the page that its file ends in now -/
def Inner.PastEnd (m : Inner) (lenNow : ℕ → ℕ) (a : ℕ) (told : Told) : Prop :=
  ∃ p b backing name fileOffset shared guestNamed, m.map.entryAt a = some p ∧
    (p.2.owner.bind Owner.backing).filter Backing.shared = some b ∧
    told.kind = .file backing name fileOffset shared guestNamed ∧ roundUp m.page (lenNow b.id) ≤ fileOffset

/-- the lookup, the listing, the total and what is held are of one view of the space -/
structure Inner.Agree (m : Inner) (lenNow : ℕ → ℕ) : Prop where
  /-- an address is found where the listing has it -/
  found : ∀ a, (∃ o, m.regionAtLocked lenNow a = some o) ↔ ∃ r ∈ m.mappedRegions, r.start ≤ a ∧ a < r.stop
  /-- and told the same of, but past a file's end, where it may not be accessed -/
  same : ∀ a o, m.regionAtLocked lenNow a = some o → ∀ r ∈ m.mappedRegions, r.start ≤ a → a < r.stop →
    o.1.tell a = r.tell a ∨ m.PastEnd lenNow a (r.tell a) ∧ o.1.tell a = { r.tell a with protection := .none }
  order : m.mappedRegions.Pairwise fun r r' => r.stop ≤ r'.start
  pos : ∀ r ∈ m.mappedRegions, 0 < r.len
  total : (m.mappedRegions.map RegionInfo.len).sum = m.guestUsage.mapped
  /-- whatever memory and files hold -/
  held : ∀ own files address len a v, Within address len a → m.contents lenNow own files a = some v → v ≠ 0 →
    ∃ s ∈ m.heldRanges lenNow address len, Within s.1 s.2 a

section Agree

variable {m : Inner} {names : ℕ → String × Bool × Bool} {lenNow : ℕ → ℕ} {info r : RegionInfo} {p : ℕ × Entry} {a : ℕ}

/-- a region cut at a file's end tells the same, but that the part past it may not be accessed -/
theorem clipAtEndOfFile_tell (hp : m.map.entryAt a = some p) (hle : info.start ≤ a) :
    (m.clipAtEndOfFile lenNow p.2 info a).1.tell a = info.tell a ∨ m.PastEnd lenNow a (info.tell a) ∧
      (m.clipAtEndOfFile lenNow p.2 info a).1.tell a = { info.tell a with protection := .none } := by
  unfold Inner.clipAtEndOfFile
  split
  · rename_i backing name fileOffset shared guestNamed b hk hb
    split
    · exact .inl rfl
    · simp only
      split
      · exact .inl rfl
      · split
        · exact .inl rfl
        · rename_i hcut
          push Not at hcut
          refine .inr ⟨⟨p, b, backing, name, fileOffset + (a - info.start), shared, guestNamed, hp, hb, ?_, by omega⟩, ?_⟩
          · simp only [RegionInfo.tell, RegionInfo.rebased, hk]
          · simp only [RegionInfo.tell, RegionInfo.rebased, hk]
            congr 2
            omega
  · exact .inl rfl

/-- a lookup's region starts by the address -/
theorem viewAt_start (hv : m.Valid) (h : m.viewAt a = some r) : r.start ≤ a := by
  simp only [Inner.viewAt, Option.bind_eq_bind, Option.bind_eq_some_iff, Option.ite_none_left_eq_some] at h
  obtain ⟨p, hp, -, hview⟩ := h
  obtain ⟨hmem, hle, hlt⟩ := EntryMap.mem_of_entryAt hp
  exact (Inner.guestViewOf_same hv hmem hle hlt (RegionInfo.fromEntry_start _ _) (RegionInfo.fromEntry_len _ _) hview).2.2.1.1

theorem listing_agrees (hv : m.Valid) (hn : m.map.FilesNamed names) (hmax : m.map.stop ≤ usizeMax) (lenNow : ℕ → ℕ) :
    m.Agree lenNow := by
  obtain ⟨horder, hlabels⟩ := mappedRegions_spec hv hn
  have hview : ∀ a told, (∃ r, m.viewAt a = some r ∧ r.tell a = told) ↔ regionRanges.Labels m.mappedRegions a told :=
    fun a told => (viewAt_iff hv).trans (hlabels a told).symm
  refine ⟨?_, ?_, horder.order, horder.pos, (usage_mapped hv hn).symm, ?_⟩
  · intro a
    constructor
    · rintro ⟨o, ho⟩
      obtain ⟨p, r, -, hr, -⟩ := regionAt_view.mp ho
      obtain ⟨x, hx, ha, -⟩ := (hview a _).mp ⟨r, hr, rfl⟩
      exact ⟨x, hx, ha⟩
    · rintro ⟨x, hx, ha⟩
      obtain ⟨r, hr, -⟩ := (hview a _).mpr ⟨x, hx, ha, rfl⟩
      obtain ⟨p, hp, -⟩ := Option.bind_eq_some_iff.mp hr
      exact ⟨_, regionAt_view.mpr ⟨p, r, hp, hr, rfl⟩⟩
  · intro a o ho x hx hle hlt
    obtain ⟨p, r, hp, hr, rfl⟩ := regionAt_view.mp ho
    obtain ⟨r', hr', htell⟩ := (hview a _).mpr ⟨x, hx, ⟨hle, hlt⟩, rfl⟩
    obtain rfl : r = r' := Option.some.inj (hr.symm.trans hr')
    rw [show x.tell a = r.tell a from htell.symm]
    exact clipAtEndOfFile_tell hp (viewAt_start hv hr)
  · intro own files address len a v ha hread hne
    exact held_covers hv hmax ha hread hne

/-- two host pages of private memory and a free one; of the second the guest has only the first half, to read -/
def halfHole : Inner :=
  { page := 8192
    map := ⟨8192, 24576, [(8192, ⟨16384, .priv false, some ⟨1, 8192, 16384, .readWrite, 8192, .eager, none, 0⟩, false⟩),
      (24576, .free 8192)], []⟩
    sub := some ⟨[(16384, ⟨[.mapped .read, .hole], 0⟩)]⟩ }

theorem halfHole_valid : halfHole.Valid where
  page_pos := by decide
  guest_dvd := by decide
  map := by
    constructor
    · exact ⟨rfl, by decide, rfl, by decide, rfl⟩
    · intro p hp o ho
      rcases List.mem_pair.mp hp with rfl | rfl
      · cases ho
        exact ⟨⟨le_refl _, le_refl _⟩, by decide⟩
      · cases ho
    · rfl
    · decide
    · decide
  sorted t ht := by
    cases ht
    exact List.pairwise_singleton _ _
  tracked t ht p hp := by
    cases ht
    rw [List.mem_singleton.mp hp]
    exact ⟨by decide, rfl, _, List.mem_cons_self, by decide, by decide⟩

theorem listing_agrees_hole : halfHole.Agree fun _ => 0 := by
  have hnamed : halfHole.map.FilesNamed fun _ => ("", false, false) := by
    intro p hp o ho b hb
    rcases List.mem_pair.mp hp with rfl | rfl
    · cases ho
      cases hb
    · cases ho
  exact listing_agrees halfHole_valid hnamed (by decide) _

end Agree

end Omnidroid.Mem
