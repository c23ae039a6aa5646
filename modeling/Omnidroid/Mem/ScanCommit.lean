/-
What a scan's first byte may have committed, and how far the scan is let go then.
- `ensureCommitted_one`: the commit for one byte makes the granule of its entry private memory, and nothing else.
- `readable_first`: of the region that the scan starts in, the bytes up to the end of that granule may be read.
- `scan_reach_iff`: a scan keeps its promise unless the granule ends before the region does, as it was before the commit.
-/
import Omnidroid.Mem.Carve
import Omnidroid.Mem.Glance

namespace Omnidroid.Mem

/-! ## The commit for one byte -/

/-- entries, and the mappings that they are of, are of whole pages -/
def EntryMap.Aligned (m : EntryMap) (page : ℕ) : Prop :=
  ∀ p ∈ m.entries, page ∣ p.1 ∧ page ∣ p.2.len ∧ ∀ o ∈ p.2.owner, page ∣ o.mappingStart ∧ page ∣ o.mappingLen ∧ page ∣ o.granule

/-- what is committed for the byte at an address, from where to where: nothing, unless its entry waits to be committed -/
def State.pieceAt (s : State) (address : ℕ) : ℕ × ℕ :=
  match s.map.entryAt address with
  | none => (address, address)
  | some (start, e) =>
    match e.owner with
    | none => (address, address)
    | some o => if e.waits then commitPiece o start e.len address (address + 1) else (address, address)

/-- whether the two ceilings let the piece be committed -/
def State.affords (s : State) (address : ℕ) : Prop :=
  let n := (s.pieceAt address).2 - (s.pieceAt address).1
  0 < n → n ≤ s.maxCommitRequest ∧ s.committed + n < 2 ^ 64 ∧ s.committed + n ≤ s.maxCommitted

/-- the system grants whatever it is asked -/
def State.granting (s : State) : Prop := ∀ n c, s.grants n c = true

/-- the entries cut otherwise, each address in the same as it was -/
structure Recut (page : ℕ) (m m' : EntryMap) : Prop where
  valid : m'.Valid
  aligned : m'.Aligned page
  base : m'.base = m.base
  len : m'.len = m.len
  kinds : ∀ x, m'.kindAt x = m.kindAt x

/-- what is beside the map and the system -/
structure Beside (s s' : State) : Prop where
  page : s'.page = s.page
  sub : s'.sub = s.sub
  grants : s'.grants = s.grants

section Commit

variable {m m' m'' : EntryMap} {s s' s'' : State} {page start mid address n lo : ℕ} {e : Entry} {operation : String}

theorem Recut.refl (hv : m.Valid) (ha : m.Aligned page) : Recut page m m := ⟨hv, ha, rfl, rfl, fun _ => rfl⟩

theorem Recut.trans (h : Recut page m m') (h' : Recut page m' m'') : Recut page m m'' :=
  ⟨h'.valid, h'.aligned, h'.base.trans h.base, h'.len.trans h.len, fun x => (h'.kinds x).trans (h.kinds x)⟩

theorem Beside.refl (s : State) : Beside s s := ⟨rfl, rfl, rfl⟩

theorem Beside.trans (h : Beside s s') (h' : Beside s' s'') : Beside s s'' :=
  ⟨h'.page.trans h.page, h'.sub.trans h.sub, h'.grants.trans h.grants⟩

theorem recut_split (hv : m.Valid) (ha : m.Aligned page) (hp : (start, e) ∈ m.entries) (hh : e.isHost = false)
    (h₁ : start < mid) (h₂ : mid < start + e.len) (hd : page ∣ mid) :
    Recut page m (m.splitBookkeeping start mid) ∧ (start, { e with len := mid - start }) ∈ (m.splitBookkeeping start mid).entries ∧
      (mid, { e with len := start + e.len - mid }) ∈ (m.splitBookkeeping start mid).entries := by
  have sw := EntryMap.swap_split hv hp h₁ h₂
  have hfine := hv.fine hp hh
  obtain ⟨hd₁, hd₂, howner⟩ := ha _ hp
  have hvalid : (m.splitBookkeeping start mid).Valid := by
    refine sw.valid hv (by omega) ?_ ?_
    · intro q hq
      rw [List.mem_singleton.mp hq]
      exact hh
    · intro q hq
      rcases List.mem_pair.mp hq with rfl | rfl
      · exact hfine.part (le_refl _) (by omega)
      · exact hfine.part h₁.le (by omega)
  refine ⟨⟨hvalid, ?_, sw.base, sw.len, EntryMap.kindAt_split hv hvalid hp h₁ h₂⟩, sw.mem_new (by simp), sw.mem_new (by simp)⟩
  intro q hq
  rcases sw.mem_iff hq with hq | hq
  · rcases List.mem_pair.mp hq with rfl | rfl
    · exact ⟨hd₁, Nat.dvd_sub hd hd₁, howner⟩
    · exact ⟨hd, Nat.dvd_sub (Nat.dvd_add hd₁ hd₂) hd, howner⟩
  · exact ha q hq

theorem splitPlaceholder_cuts (start mid : ℕ) :
    Ensures (splitPlaceholder operation start mid) s
      (fun _ s' => s'.map = s.map.splitBookkeeping start mid ∧ Beside s s') fun _ _ => ¬s.granting := by
  refine Ensures.bind (ensures_host (fun _ => ?_) fun h => ?_)
  · exact Ensures.modifies ⟨rfl, rfl, rfl, rfl⟩
  · intro hg
    rw [hg] at h
    cases h

/-- a placeholder cut so that the range is one of its pieces -/
theorem carvePlaceholder_cuts (hv : s.map.Valid) (ha : s.map.Aligned s.page) (hp : (start, e) ∈ s.map.entries)
    (hh : e.isHost = false) (hpos : 0 < n) (hle : start ≤ lo) (hend : lo + n ≤ start + e.len) (hd₁ : s.page ∣ lo)
    (hd₂ : s.page ∣ lo + n) :
    Ensures (carvePlaceholder operation start (start + e.len) lo n) s
      (fun _ s' => Recut s.page s.map s'.map ∧ (lo, { e with len := n }) ∈ s'.map.entries ∧ Beside s s')
      fun _ _ => ¬s.granting := by
  have hfirst : Ensures (if start < lo then splitPlaceholder operation start lo else pure ()) s
      (fun _ s' => Recut s.page s.map s'.map ∧ (lo, { e with len := start + e.len - lo }) ∈ s'.map.entries ∧ Beside s s')
      fun _ _ => ¬s.granting := by
    split
    · rename_i hlt
      refine (splitPlaceholder_cuts start lo).post ?_
      rintro - s' ⟨hm, hb⟩
      obtain ⟨hr, -, hmem⟩ := recut_split hv ha hp hh hlt (by omega) hd₁
      rw [hm]
      exact ⟨hr, hmem, hb⟩
    · obtain rfl : start = lo := by omega
      refine Ensures.pure ⟨.refl hv ha, ?_, .refl s⟩
      rw [Nat.add_sub_cancel_left]
      exact hp
  unfold carvePlaceholder
  refine Ensures.when (hfirst.post ?_)
  rintro - s₁ ⟨hr₁, hp₁, hb₁⟩
  split
  · refine (splitPlaceholder_cuts lo (lo + n)).mono ?_ ?_
    · rintro - s' ⟨hm, hb⟩
      obtain ⟨hr, hmem, -⟩ := recut_split hr₁.valid hr₁.aligned hp₁ hh (show lo < lo + n by omega) (by simp only; omega) hd₂
      rw [Nat.add_sub_cancel_left] at hmem
      rw [hm]
      exact ⟨hr₁.trans hr, hmem, hb₁.trans hb⟩
    · intro e s' hno hg
      exact hno fun n c => by rw [hb₁.grants, hg]
  · refine Ensures.pure ⟨hr₁, ?_, hb₁⟩
    rwa [show start + e.len - lo = n by omega] at hp₁

theorem startsOverlapping_inside (hv : m.Valid) (hp : (start, e) ∈ m.entries) (hpos : 0 < n) (hle : start ≤ lo)
    (hend : lo + n ≤ start + e.len) : m.startsOverlapping lo n = [start] := by
  have hb := hv.tiles.bounds hp
  simp only at hb
  have hmem : ∀ x, x ∈ m.startsOverlapping lo n ↔ x = start := by
    intro x
    rw [EntryMap.mem_startsOverlapping hv (by omega) (by omega)]
    constructor
    · rintro ⟨d, hd, h₁, h₂⟩
      rcases EntryMap.apart hv hp hd with h | h | h
      · exact (congrArg Prod.fst h).symm
      · simp only at h
        omega
      · simp only at h
        omega
    · rintro rfl
      exact ⟨e, hp, by omega, by omega⟩
  have hsorted := EntryMap.startsOverlapping_sorted hv lo n
  cases hl : m.startsOverlapping lo n with
  | nil => exact absurd ((hmem start).mpr rfl) (by simp [hl])
  | cons x rest =>
    rw [hl] at hmem hsorted
    obtain rfl := (hmem x).mp List.mem_cons_self
    cases rest with
    | nil => rfl
    | cons y rest =>
      have h₁ := (hmem y).mp (by simp)
      have h₂ := (List.pairwise_cons.mp hsorted).1 y List.mem_cons_self
      omega

theorem makeExactPlaceholder_cuts (hv : s.map.Valid) (ha : s.map.Aligned s.page) (hp : (start, e) ∈ s.map.entries)
    (hos : e.os = .placeholder) (hpos : 0 < n) (hle : start ≤ lo) (hend : lo + n ≤ start + e.len) (hd₁ : s.page ∣ lo)
    (hd₂ : s.page ∣ lo + n) :
    Ensures (makeExactPlaceholder operation lo n) s
      (fun _ s' => Recut s.page s.map s'.map ∧ (lo, { e with len := n }) ∈ s'.map.entries ∧ Beside s s')
      fun _ _ => ¬s.granting := by
  have hh : e.isHost = false := by simp [Entry.isHost, hos]
  have hget := (EntryMap.get_eq_some hv).mpr hp
  have hany : ([start].any fun start => (s.map.get start).any fun e => e.os != .placeholder) = false := by simp [hget, hos]
  unfold makeExactPlaceholder
  refine Ensures.bind (Ensures.get ?_)
  rw [startsOverlapping_inside hv hp hpos hle hend]
  simp only [hany, Bool.false_eq_true, if_false, List.getLast_singleton, hget, ne_eq, not_true_eq_false]
  exact carvePlaceholder_cuts hv ha hp hh hpos hle hend hd₁ hd₂

/-- what a mapping is committed by -/
def Owner.unit (o : Owner) : ℕ :=
  match o.commit with
  | .eager => o.mappingLen
  | .lazy => o.granule

theorem commitPiece_eq (o : Owner) (start len position stop : ℕ) : commitPiece o start len position stop =
    (max (o.mappingStart + (position - o.mappingStart - (position - o.mappingStart) % o.unit)) start,
      min (o.mappingStart + roundUp o.unit (min stop (start + len) - o.mappingStart)) (start + len)) := rfl

/-- the piece committed for one byte is of whole pages, in its entry, and has the byte -/
theorem commitPiece_spec {o : Owner} (hv : m.Valid) (ha : m.Aligned page) (hp : (start, e) ∈ m.entries) (ho : e.owner = some o)
    (hle : start ≤ address) (hlt : address < start + e.len) :
    let piece := commitPiece o start e.len address (address + 1)
    (start ≤ piece.1 ∧ piece.1 ≤ address) ∧ (address < piece.2 ∧ piece.2 ≤ start + e.len) ∧ page ∣ piece.1 ∧ page ∣ piece.2 := by
  obtain ⟨hd₁, hd₂, howner⟩ := ha _ hp
  obtain ⟨hd₃, hd₄, hd₅⟩ := howner o ho
  obtain ⟨⟨hin₁, hin₂⟩, hgranule⟩ := hv.inside _ hp o ho
  simp only [Owner.mappingEnd] at hin₁ hin₂
  have hpos : 0 < o.unit := by
    unfold Owner.unit
    split <;> omega
  have hd : page ∣ o.unit := by
    unfold Owner.unit
    split <;> assumption
  have hmod := Nat.mod_le (address - o.mappingStart) o.unit
  have hend : min (address + 1) (start + e.len) - o.mappingStart = address - o.mappingStart + 1 := by omega
  have hup := le_roundUp hpos (address - o.mappingStart + 1)
  simp only [commitPiece_eq, hend]
  refine ⟨⟨le_max_right _ _, by omega⟩, ⟨by omega, min_le_right _ _⟩, ?_, ?_⟩
  · have : page ∣ o.mappingStart + (address - o.mappingStart - (address - o.mappingStart) % o.unit) :=
      Nat.dvd_add hd₃ (hd.trans (Nat.dvd_sub_mod _))
    rcases max_choice (o.mappingStart + (address - o.mappingStart - (address - o.mappingStart) % o.unit)) start with h | h
    · rwa [h]
    · rwa [h]
  · have : page ∣ o.mappingStart + roundUp o.unit (address - o.mappingStart + 1) :=
      Nat.dvd_add hd₃ (hd.trans (dvd_roundUp _ _))
    rcases min_choice (o.mappingStart + roundUp o.unit (address - o.mappingStart + 1)) (start + e.len) with h | h
    · rwa [h]
    · rw [h]
      exact Nat.dvd_add hd₁ hd₂

/-- the piece committed, and everything else in what it was -/
structure Commits (s s' : State) (e : Entry) (piece : ℕ × ℕ) : Prop where
  page : s'.page = s.page
  sub : s'.sub = s.sub
  valid : s'.map.Valid
  aligned : s'.map.Aligned s.page
  base : s'.map.base = s.map.base
  len : s'.map.len = s.map.len
  kinds : ∀ x, s'.map.kindAt x =
    if Within piece.1 (piece.2 - piece.1) x then some (.priv false, e.owner, e.everWritable) else s.map.kindAt x

theorem Commits.none (hv : s.map.Valid) (ha : s.map.Aligned s.page) : Commits s s e (address, address) :=
  ⟨rfl, rfl, hv, ha, rfl, rfl, fun x => by rw [Nat.sub_self, if_neg (within_zero address x)]⟩

/-- the entry of the piece made private memory -/
theorem Recut.commits (h : Recut s.page s.map m) {hi : ℕ} (hp : (lo, { e with len := hi - lo }) ∈ m.entries)
    (hh : e.isHost = false) (ho : e.owner ≠ none) (hpage : s'.page = s.page) (hsub : s'.sub = s.sub)
    (hm : s'.map = m.update lo fun e => { e with os := .priv false }) : Commits s s' e (lo, hi) := by
  have sw := EntryMap.swap_update h.valid hp (f := fun e => { e with os := .priv false }) rfl
  rw [← hm] at sw
  have hpos := (h.valid.tiles.bounds hp).2.2
  simp only at hpos sw
  have hfine := h.valid.fine hp hh
  have hvalid : s'.map.Valid := by
    refine sw.valid h.valid (by omega) ?_ ?_
    · intro q hq
      rw [List.mem_singleton.mp hq]
      exact hh
    · intro q hq
      rw [List.mem_singleton.mp hq]
      refine ⟨hfine.inside, rfl, ?_⟩
      intro hfree
      simp only [Entry.isFree, Bool.and_eq_true, Option.isNone_iff_eq_none] at hfree
      exact absurd hfree.1 ho
  refine ⟨hpage, hsub, hvalid, ?_, sw.base.trans h.base, sw.len.trans h.len, ?_⟩
  · intro q hq
    rcases sw.mem_iff hq with hq | hq
    · rw [List.mem_singleton.mp hq]
      have := h.aligned _ hp
      exact this
    · exact h.aligned q hq
  · intro x
    split
    · rename_i hx
      exact EntryMap.kindAt_of_mem hvalid (sw.mem_new (List.mem_singleton_self _)) hx
    · rename_i hx
      rw [← h.kinds x, EntryMap.kindAt, EntryMap.kindAt, sw.entryAt_outside h.valid hvalid]
      simp only [Within] at hx
      omega

theorem checkCommitAllowed_affords :
    Ensures (checkCommitAllowed operation address n) s
      (fun _ s' => s' = s ∧ n ≤ s.maxCommitRequest ∧ s.committed + n < 2 ^ 64 ∧ s.committed + n ≤ s.maxCommitted)
      fun _ _ => ¬(n ≤ s.maxCommitRequest ∧ s.committed + n < 2 ^ 64 ∧ s.committed + n ≤ s.maxCommitted) := by
  unfold checkCommitAllowed
  refine Ensures.bind (Ensures.get (Ensures.when ?_))
  split
  · exact Ensures.throw (by omega)
  · refine Ensures.pure (Ensures.when ?_)
    split
    · exact Ensures.throw (by omega)
    · refine Ensures.pure ?_
      split
      · exact Ensures.throw (by omega)
      · exact Ensures.pure ⟨rfl, by omega, by omega, by omega⟩

/-- a commit for one byte: the piece is committed, unless a ceiling or the system refuses -/
theorem ensureCommitted_one (hv : s.map.Valid) (ha : s.map.Aligned s.page) (hat : s.map.entryAt address = some (start, e)) :
    Ensures (ensureCommitted address 1) s (fun _ s' => Commits s s' e (s.pieceAt address) ∧ s.affords address)
      fun _ _ => ¬(s.affords address ∧ s.granting) := by
  obtain ⟨hp, hle, hlt⟩ := EntryMap.mem_of_entryAt hat
  have hb := hv.tiles.bounds hp
  simp only at hle hlt hb
  have hcontains : s.map.contains address 1 = true := by
    simp only [EntryMap.contains, Bool.and_eq_true, decide_eq_true_eq]
    omega
  have hneeds : needsCommit s.map (address + 1) 1 address = e.waits := by simp [needsCommit, hat]
  unfold ensureCommitted checkRange
  refine Ensures.when ?_
  rw [if_neg one_ne_zero]
  refine Ensures.pure (Ensures.bind (Ensures.bind (Ensures.get ?_)))
  rw [if_neg (by simp [hcontains])]
  refine Ensures.pure (Ensures.bind (Ensures.get ?_))
  rw [hneeds]
  cases hw : e.waits with
  | false =>
    have hpiece : s.pieceAt address = (address, address) := by
      unfold State.pieceAt
      rw [hat]
      cases ho : e.owner <;> simp [hw, ho]
    rw [if_pos rfl, hpiece]
    refine Ensures.pure ⟨.none hv ha, ?_⟩
    simp [State.affords, hpiece]
  | true =>
    rw [if_neg (by simp)]
    have hwaits := hw
    simp only [Entry.waits, Bool.and_eq_true, beq_iff_eq, Option.any_eq_true, bne_iff_ne] at hwaits
    obtain ⟨hos, o, ho, hprotection⟩ := hwaits
    have hpiece : s.pieceAt address = commitPiece o start e.len address (address + 1) := by simp [State.pieceAt, hat, ho, hw]
    obtain ⟨⟨h₁, h₂⟩, ⟨h₃, h₄⟩, hd₁, hd₂⟩ := commitPiece_spec hv ha hp ho hle hlt
    unfold commitRange commitFrom
    rw [if_neg (by omega)]
    refine Ensures.bind (Ensures.get ?_)
    simp only [hat, ho]
    rw [if_neg (by simp [hos, hprotection])]
    rw [← hpiece] at h₁ h₂ h₃ h₄ hd₁ hd₂ ⊢
    have hafford : s.affords address ↔ (s.pieceAt address).2 - (s.pieceAt address).1 ≤ s.maxCommitRequest ∧
        s.committed + ((s.pieceAt address).2 - (s.pieceAt address).1) < 2 ^ 64 ∧
        s.committed + ((s.pieceAt address).2 - (s.pieceAt address).1) ≤ s.maxCommitted :=
      ⟨fun h => h (by omega), fun h _ => h⟩
    rw [hafford]
    generalize s.pieceAt address = piece at *
    obtain ⟨lo, hi⟩ := piece
    simp only at *
    have hsum : lo + (hi - lo) = hi := by omega
    refine Ensures.bind (checkCommitAllowed_affords.mono ?_ fun _ _ hno h => hno h.1)
    rintro - s₁ ⟨rfl, hfits⟩
    refine Ensures.bind ((makeExactPlaceholder_cuts hv ha hp hos (n := hi - lo) (by omega) h₁ (by omega) hd₁
      (by rwa [hsum])).mono ?_ fun _ _ hno h => hno h.2)
    rintro - s₂ ⟨hr, hmem, hb⟩
    refine Ensures.bind (ensures_host (fun _ => ?_) fun hno h => ?_)
    · refine Ensures.bind (Ensures.modifies (Ensures.bind (Ensures.pure (Ensures.pure ?_))))
      exact ⟨hr.commits hmem (by simp [Entry.isHost, hos]) (by simp [ho]) hb.page hb.sub rfl, hfits⟩
    · rw [hb.grants, h.2] at hno
      cases hno

end Commit

/-! ## What may be read of the first region -/

/-- whether an address is in a part of a tracked page whose bytes are not its own -/
def State.foreignAt (s : State) (a : ℕ) : Bool := (s.partAt a).any Prod.snd

/-- the commit for the byte at `address` shows at `a`: the piece reaches it, and it is not in a foreign part -/
def State.committedFor (s : State) (address a : ℕ) : Prop := a < (s.pieceAt address).2 ∧ s.foreignAt a = false

section First

variable {s s' : State} {lenNow : ℕ → ℕ} {r : RegionInfo} {access : Access} {e : Entry} {start address a : ℕ}

theorem pieceAt_spec (hv : s.map.Valid) (ha : s.map.Aligned s.page) (hat : s.map.entryAt address = some (start, e)) :
    (s.pieceAt address).1 ≤ address ∧
      ((s.pieceAt address).1 < (s.pieceAt address).2 → e.os = .placeholder ∧ e.owner ≠ none) := by
  obtain ⟨hp, hle, hlt⟩ := EntryMap.mem_of_entryAt hat
  unfold State.pieceAt
  rw [hat]
  cases ho : e.owner with
  | none => simp [ho]
  | some o =>
    simp only [ho]
    split
    · rename_i hw
      simp only [Entry.waits, Bool.and_eq_true, beq_iff_eq] at hw
      exact ⟨(commitPiece_spec hv ha hp ho hle hlt).1.2, fun _ => ⟨hw.1, by simp⟩⟩
    · simp

theorem Commits.inner_valid (h : Commits s s' e (s.pieceAt address)) (hv : s.toInner.Valid) : s'.toInner.Valid := by
  have hstop : s'.map.stop = s.map.stop := by rw [EntryMap.stop, EntryMap.stop, h.base, h.len]
  refine ⟨h.page ▸ hv.page_pos, h.page ▸ hv.guest_dvd, h.valid, h.sub ▸ hv.sorted, ?_⟩
  intro t ht p hp
  rw [h.sub] at ht
  rw [h.page]
  obtain ⟨hd, hparts, q, hq, hq₁, hq₂⟩ := hv.tracked t ht p hp
  have hb := hv.map.tiles.bounds hq
  have hpos := hv.page_pos
  refine ⟨hd, hparts, ?_⟩
  obtain ⟨u, hu, hu₁, hu₂⟩ := EntryMap.exists_entry (x := p.1) h.valid (by rw [h.base]; omega) (by rw [hstop]; omega)
  obtain ⟨hd₁, hd₂, -⟩ := h.aligned u hu
  exact ⟨u, hu, hu₁, add_le_of_page_lt hd (Nat.dvd_add hd₁ hd₂) hu₂⟩

/-- a commit shows at an address, unless it is in a foreign part -/
theorem overlay_commit {k : Option (Option Part × Bool)} {g g' : Glance} (h : overlay k g = some g') :
    overlay k { g with committed := true } = some (if k.any Prod.snd then g' else { g' with committed := true }) := by
  unfold overlay at h ⊢
  split at h
  · cases h
    rfl
  · cases h
    rfl
  · cases h
    rfl
  · cases h

/-- the region that the byte is in, after the commit: the same mapping and protection, and committed where the commit
shows -/
theorem regionAt_after (hv : s.toInner.Valid) (ha : s.map.Aligned s.page) (hr : s.regionAt lenNow address = some r)
    (hk : r.kind = .anonymous) (hc : r.isCommitted = false) (hat : s.map.entryAt address = some (start, e))
    (h : Commits s s' e (s.pieceAt address)) (hle : address ≤ a) (hlt : a < r.stop) :
    ∃ r', s'.regionAt lenNow a = some r' ∧ r'.kind = .anonymous ∧ r'.mapping = r.mapping ∧ r'.protection = r.protection ∧
      (r'.isCommitted = true ↔ s.committedFor address a) := by
  obtain ⟨hb, hall, p, hp, hp₁, hp₂⟩ := regionAt_covers hv hr
  have hra := hall a (by omega) hlt
  have hpa : s.map.entryAt a = some p := EntryMap.entryAt_of_mem hv.map.tiles hp (by omega) (by omega)
  obtain rfl : p = (start, e) :=
    Option.some.inj ((EntryMap.entryAt_of_mem hv.map.tiles hp (by omega) (by omega)).symm.trans hat)
  have hfree : e.isFree = false := by
    obtain ⟨o, ho, -⟩ := Option.map_eq_some_iff.mp hr
    obtain ⟨q, -, hq, hfree, -⟩ := Inner.regionAtLocked_some.mp ho
    obtain rfl := Option.some.inj (hat.symm.trans hq)
    exact hfree
  obtain ⟨hsee, hanon⟩ := (anonymous_at hv hpa hfree).mp ⟨r, hra, hk, rfl⟩
  have hpart : s'.partAt a = s.partAt a := by rw [Inner.partAt, Inner.partAt, h.sub, h.page]
  have hold : s.map.kindAt a = some (e.os, e.owner, e.everWritable) := by rw [EntryMap.kindAt, hpa, Option.map_some]
  have hkind := h.kinds a
  obtain ⟨hlo, hwaits⟩ := pieceAt_spec hv.map ha hat
  -- what the lookup says then, by what the map and the tracked pages say
  have hthen : ∀ {os : OsState} {g : Glance}, s'.map.kindAt a = some (os, e.owner, e.everWritable) →
      (Entry.isFree ⟨0, os, e.owner, false⟩) = false → overlay (s.partAt a) (glanceOf os e.owner) = some g → g.anonymous = true →
      ∃ r', s'.regionAt lenNow a = some r' ∧ r'.kind = .anonymous ∧ r'.glance = g := by
    intro os g hk' hfree' hg hga
    obtain ⟨q, hq, hqk⟩ := Option.map_eq_some_iff.mp hk'
    obtain ⟨rfl, hrest⟩ := Prod.mk.inj hqk
    have howner : q.2.owner = e.owner := (Prod.mk.inj hrest).1
    have hqfree : q.2.isFree = false := by rwa [Entry.isFree, howner]
    refine (anonymous_at (h.inner_valid hv) hq hqfree).mpr ?_
    rw [howner, hpart]
    exact ⟨hg, hga⟩
  split at hkind
  · rename_i hin
    simp only [Within] at hin
    obtain ⟨hos, howner⟩ := hwaits (by omega)
    obtain ⟨o, ho⟩ := Option.ne_none_iff_exists'.mp howner
    rw [hos, ho] at hsee
    obtain ⟨r', hr', hk', hg⟩ := hthen hkind (by simp [Entry.isFree, ho]) (by rw [ho]; exact overlay_commit hsee)
      (by split <;> exact hanon)
    refine ⟨r', hr', hk', ?_, ?_, ?_⟩
    · have := congrArg Glance.mapping hg
      split at this <;> exact this
    · have := congrArg Glance.protection hg
      split at this <;> exact this
    · have := congrArg Glance.committed hg
      rw [State.committedFor, State.foreignAt, and_iff_right (by omega : a < (s.pieceAt address).2)]
      split at this
      · rename_i hf
        have : r'.isCommitted = r.isCommitted := this
        simp [this, hc, hf]
      · rename_i hf
        have : r'.isCommitted = true := this
        simpa [this] using hf
  · rename_i hout
    obtain ⟨r', hr', hk', hg⟩ := hthen (hkind.trans hold) hfree hsee hanon
    refine ⟨r', hr', hk', congrArg Glance.mapping hg, congrArg Glance.protection hg, ?_⟩
    have hno : r'.isCommitted = r.isCommitted := congrArg Glance.committed hg
    simp only [Within] at hout
    rw [hno, hc, State.committedFor]
    constructor
    · intro h
      cases h
    · intro hlt
      omega

end First

/-! ## The scan -/

/-- what a thread remembers of an address is what a lookup finds there -/
def Remembers (lenNow : ℕ → ℕ) (s : State) (address : ℕ) (remembered : Option Remembered) : Prop :=
  ∀ hit ∈ remembered, ∃ r, s.toInner.regionAtLocked lenNow address = some (r, false) ∧ Remembered.of r = some hit

/-- where the region at the address is anonymous and owed a commit that the ceilings allow, every byte of it up to the cap is
in the piece that is committed for the first one -/
def Covered (lenNow : ℕ → ℕ) (address : ℕ) (access : Access) (limit : ℕ) (s : State) : Prop :=
  ∀ r, s.regionAt lenNow address = some r → r.kind = .anonymous → r.isCommitted = false →
    admitsRegion r address 1 access = .ok () → s.affords address →
      ∀ a, address ≤ a → a < r.stop → a < capOf address limit → s.committedFor address a

section Scan

variable {s s' : State} {lenNow : ℕ → ℕ} {r : RegionInfo} {access : Access} {first : Admitted} {remembered : Option Remembered}
variable {address limit stop : ℕ}

theorem admit_walk (hm : Remembers lenNow s address remembered) :
    admitRange lenNow remembered address 1 access s = admitWalk commitFor (s.regionAt lenNow) address 1 access s := by
  unfold admitRange
  split
  · rename_i admitted h
    obtain ⟨hit, rfl, hfrom⟩ := Option.bind_eq_some_iff.mp h
    obtain ⟨r, hr, hof⟩ := hm hit rfl
    exact (admittedFrom_walk hof (by rw [State.regionAt, hr]; rfl) hfrom s).symm
  · rfl

/-- one byte is admitted by the rules for its region alone -/
theorem admitRules_one (hr : s.regionAt lenNow address = some r) (hlt : address < r.stop) :
    admitRules (s.regionAt lenNow) address 1 access =
      match admitsRegion r address 1 access with
      | .error refusal => .error refusal
      | .ok () => .ok (r, ⟨r.stop, none, r.isCommitted, []⟩) := by
  have hone : min (address + max 1 1) r.stop - address = 1 := by omega
  unfold admitRules
  simp only [hr, hone]
  split
  · rename_i hlimit
    have hno : admitsRegion r address 1 access = .error .notMapped := by
      unfold admitsRegion
      split
      · rfl
      · rw [if_pos (by omega)]
    rw [hno]
  · rewrite [show address + max 1 1 - address = 1 by omega, walk, if_pos (by simp only; omega)]
    cases admitsRegion r address 1 access <;> rfl

theorem commitFor_ok {len n : ℕ} : commitFor address len s = .ok n s' ↔ ensureCommitted address len s = .ok n s' := by
  unfold commitFor
  cases ensureCommitted address len s <;> simp

/-- one byte admitted: the region's end, and a commit where the region is anonymous and owed one -/
theorem admit_ok (hv : s.toInner.Valid) (hm : Remembers lenNow s address remembered) :
    admitRange lenNow remembered address 1 access s = .ok first s' ↔
      ∃ r, s.regionAt lenNow address = some r ∧ admitsRegion r address 1 access = .ok () ∧
        if r.kind = .anonymous ∧ r.isCommitted = false then
          ∃ n, ensureCommitted address 1 s = .ok n s' ∧ first = ⟨r.start, r.stop, n, false, true⟩
        else s' = s ∧ first = ⟨r.start, r.stop, 0, r.isCommitted, r.kind = .anonymous⟩ := by
  rw [admit_walk hm]
  unfold admitWalk
  cases hr : s.regionAt lenNow address with
  | none => simp [admitRules, hr, throw_ok]
  | some r =>
    have hlt := (regionAt_covers hv hr).1.2
    rw [admitRules_one hr hlt]
    cases hadmitteds : admitsRegion r address 1 access with
    | error refusal => simp [hadmitteds, throw_ok]
    | ok u =>
      simp only [Option.some.injEq, exists_eq_left', hadmitteds, true_and]
      have howed : owed r ⟨r.stop, none, r.isCommitted, []⟩ address (address + max 1 1) =
          if r.kind = .anonymous ∧ r.isCommitted = false then [(address, 1)] else [] := by
        cases r.isCommitted <;> simp [owed]
      rw [howed]
      split
      · rename_i h
        simp only [commitOwed, bind_ok, pure_ok, commitFor_ok, Option.getD_none, h.1, h.2, decide_true]
        constructor
        · rintro ⟨_, _, ⟨n, s₁, hn, _, _, ⟨rfl, rfl⟩, rfl, rfl⟩, rfl, rfl⟩
          exact ⟨n, hn, rfl⟩
        · rintro ⟨n, hn, rfl⟩
          exact ⟨n, s', ⟨n, s', hn, 0, s', ⟨rfl, rfl⟩, rfl, rfl⟩, rfl, rfl⟩
      · simp only [commitOwed, bind_ok, pure_ok, Option.getD_none]
        constructor
        · rintro ⟨_, _, ⟨rfl, rfl⟩, rfl, rfl⟩
          exact ⟨rfl, rfl⟩
        · rintro ⟨rfl, rfl⟩
          exact ⟨0, s', ⟨rfl, rfl⟩, rfl, rfl⟩

/-- the bytes of the first region that may be read once it is admitted: all of them, or where a commit was owed those that it
shows at -/
theorem readable_first (hv : s.toInner.Valid) (ha : s.map.Aligned s.page) (hm : Remembers lenNow s address remembered)
    (h : admitRange lenNow remembered address 1 access s = .ok first s') :
    ∃ r r', s.regionAt lenNow address = some r ∧ admitsRegion r address 1 access = .ok () ∧
      (r.kind = .anonymous → r.isCommitted = false → s.affords address) ∧ first.stop = r.stop ∧ s'.toInner.Valid ∧
      s'.regionAt lenNow address = some r' ∧
      ∀ a, address ≤ a → a < r.stop → (Readable lenNow s' r'.mapping access a ↔
        (r.kind = .anonymous → r.isCommitted = false → s.committedFor address a)) := by
  obtain ⟨r, hr, hadmitteds, h⟩ := (admit_ok hv hm).mp h
  obtain ⟨hb, hall, -⟩ := regionAt_covers hv hr
  have hpermits := (admitsRegion_ok hadmitteds).1
  split at h
  · rename_i howed
    obtain ⟨hk, hc⟩ := howed
    obtain ⟨n, hn, rfl⟩ := h
    obtain ⟨o, ho, -⟩ := Option.map_eq_some_iff.mp hr
    obtain ⟨⟨start, e⟩, -, hat, -⟩ := Inner.regionAtLocked_some.mp ho
    obtain ⟨hcommits, hafford⟩ := (ensureCommitted_one hv.map ha hat).ok n s' hn
    have hafter := fun a hle hlt => regionAt_after (a := a) hv ha hr hk hc hat hcommits hle hlt
    obtain ⟨r', hr', -, hmapping, -⟩ := hafter address (le_refl _) hb.2
    refine ⟨r, r', hr, hadmitteds, fun _ _ => hafford, rfl, hcommits.inner_valid hv, hr', ?_⟩
    intro a hle hlt
    obtain ⟨q, hq, hqk, hqm, hqp, hqc⟩ := hafter a hle hlt
    simp only [Readable, hq, Option.some.injEq, exists_eq_left', hqm, hmapping, hqp, hpermits, hqk, hqc, hk, hc, true_and,
      forall_const]
  · rename_i hnone
    obtain ⟨rfl, rfl⟩ := h
    refine ⟨r, r, hr, hadmitteds, fun h₁ h₂ => absurd ⟨h₁, h₂⟩ hnone, rfl, hv, hr, ?_⟩
    intro a hle hlt
    have hcommitted : r.kind = .anonymous → r.isCommitted = true := fun h => by simpa [h] using hnone
    simp only [Readable, hall a (by omega) hlt, Option.some.injEq, exists_eq_left', hpermits, true_and]
    exact ⟨fun _ h₁ h₂ => absurd ⟨h₁, h₂⟩ hnone, fun _ => hcommitted⟩

theorem scanReach_of_admitted (h : admitRange lenNow remembered address 1 access s = .ok first s')
    (hr : s'.regionAt lenNow address = some r) :
    scanReach lenNow remembered address access limit s =
      .ok (min (scanOn (s'.regionAt lenNow) r.mapping access (capOf address limit) (capOf address limit - first.stop) first.stop)
        (capOf address limit)) s' := by
  unfold scanReach
  rw [bind_of_ok h, bind_of_ok get_eq]
  simp only [hr]
  rfl

theorem admit_of_scanReach (h : scanReach lenNow remembered address access limit s = .ok stop s') :
    ∃ first, admitRange lenNow remembered address 1 access s = .ok first s' := by
  unfold scanReach at h
  obtain ⟨first, s₁, hadmitted, h⟩ := bind_ok.mp h
  rw [bind_of_ok get_eq] at h
  obtain rfl : s₁ = s' := by
    cases hr : s₁.regionAt lenNow address with
    | none =>
      simp only [hr] at h
      exact (pure_ok.mp h).2
    | some region =>
      simp only [hr] at h
      exact (pure_ok.mp h).2
  exact ⟨first, hadmitted⟩

/-- a scan keeps its promise, however the system answers, where it is not owed a commit or the commit for its first byte
covers all that it takes for the first region -/
theorem scan_reach_iff (hv : s.toInner.Valid) (ha : s.map.Aligned s.page) (hm : Remembers lenNow s address remembered) :
    (∀ grants, Bounded lenNow remembered address access limit { s with grants }) ↔ Covered lenNow address access limit s := by
  constructor
  · intro h r hr hk hc hadmitteds hafford a hle hlt hcap
    -- the system grants the commit
    let t : State := { s with grants := fun _ _ => true }
    obtain ⟨o, ho, -⟩ := Option.map_eq_some_iff.mp hr
    obtain ⟨⟨start, e⟩, -, hat, -⟩ := Inner.regionAtLocked_some.mp ho
    obtain ⟨n, s', hn⟩ : ∃ n s', ensureCommitted address 1 t = .ok n s' := by
      cases hx : ensureCommitted address 1 t with
      | ok n s' => exact ⟨n, s', rfl⟩
      | error e s' => exact absurd ⟨hafford, fun _ _ => rfl⟩ ((ensureCommitted_one (s := t) hv.map ha hat).error e s' hx)
    have hadmitted : admitRange lenNow remembered address 1 access t = .ok ⟨r.start, r.stop, n, false, true⟩ s' := by
      refine (admit_ok (s := t) hv hm).mpr ⟨r, hr, hadmitteds, ?_⟩
      rw [if_pos ⟨hk, hc⟩]
      exact ⟨n, hn, rfl⟩
    obtain ⟨q, r', hq, -, -, hstop, hv', hr', hread⟩ := readable_first (s := t) hv ha hm hadmitted
    obtain rfl := Option.some.inj (hr.symm.trans hq)
    obtain ⟨-, r'', hr'', hbytes⟩ := h _ _ s' (scanReach_of_admitted hadmitted hr')
    obtain rfl := Option.some.inj (hr'.symm.trans hr'')
    refine (hread a hle hlt).mp (hbytes a hle ?_) hk hc
    exact lt_min (hlt.trans_le (le_scanOn hv' _)) hcap
  · intro h grants stop s' hs
    obtain ⟨first, hadmitted⟩ := admit_of_scanReach hs
    obtain ⟨r, r', hr, hadmitteds, hafford, hstop, hv', hr', hread⟩ := readable_first (s := { s with grants }) hv ha hm hadmitted
    rw [scanReach_of_admitted hadmitted hr'] at hs
    cases hs
    refine ⟨(min_le_right _ _).trans (capOf_le _ _), r', hr', ?_⟩
    intro a hle hlt
    rw [lt_min_iff] at hlt
    refine scanOn_readable hv' _ ?_ a hle hlt.1 hlt.2
    intro a hle hlt hcap
    rw [hstop] at hlt
    exact (hread a hle hlt).mpr fun hk hc => h r hr hk hc hadmitteds (hafford hk hc) a hle hlt hcap

/-- a space of one lazy mapping of two granules, neither committed -/
def twoGranules : State :=
  { page := 4096
    map := ⟨65536, 131072,
      [(65536, ⟨131072, .placeholder, some ⟨1, 65536, 131072, .readWrite, 65536, .lazy, none, 0⟩, false⟩)], []⟩
    sub := none
    granule := 65536
    maxCommitted := 1048576
    maxCommitRequest := 1048576
    floor := 65536
    cursor := 65536
    committed := 0
    nextMapping := 2
    nextView := 1
    os := ⟨fun _ => .placeholder 65536 131072, fun _ => .none, fun _ => none⟩
    files := fun _ _ => 0
    grants := fun _ _ => true
    calls := 0
    lawful := True }

theorem twoGranules_valid : twoGranules.toInner.Valid where
  page_pos := by decide
  guest_dvd := dvd_refl _
  map := by
    constructor
    · exact ⟨rfl, by decide, rfl⟩
    · intro p hp o ho
      rw [List.mem_singleton.mp hp] at ho ⊢
      cases ho
      exact ⟨⟨le_refl _, le_refl _⟩, by decide⟩
    · rfl
    · decide
    · decide
  sorted t ht := by cases ht
  tracked t ht := by cases ht

theorem twoGranules_aligned : twoGranules.map.Aligned twoGranules.page := by
  intro p hp
  rw [List.mem_singleton.mp hp]
  refine ⟨by decide, by decide, ?_⟩
  intro o ho
  cases ho
  decide

theorem scan_reach_granule : Bounded (fun _ => 0) none 65536 .read 65536 twoGranules := by
  refine (scan_reach_iff twoGranules_valid twoGranules_aligned (by rintro hit ⟨⟩)).mpr ?_ twoGranules.grants
  intro r _ _ _ _ _ a _ _ hcap
  have hpiece : (twoGranules.pieceAt 65536).2 = 131072 := by decide
  have hcapOf : capOf 65536 65536 = 131072 := by decide
  exact ⟨by omega, rfl⟩

/-- a scan of both granules commits the first, and is let go to the end of the second -/
theorem scan_past_granule : ¬Bounded (fun _ => 0) none 65536 .read 131072 twoGranules := by
  intro h
  have hrun : (match scanReach (fun _ => 0) none 65536 .read 131072 twoGranules with
      | .ok stop s' => some (stop, (s'.regionAt (fun _ => 0) 131072).map fun r => (r.kind == .anonymous, r.isCommitted))
      | .error _ _ => none) = some (196608, some (true, false)) := by decide
  cases hs : scanReach (fun _ => 0) none 65536 .read 131072 twoGranules with
  | error e s' => simp [hs] at hrun
  | ok stop s' =>
    simp only [hs, Option.some.injEq, Prod.mk.injEq] at hrun
    obtain ⟨rfl, hregion⟩ := hrun
    obtain ⟨-, r, -, hbytes⟩ := h _ _ hs
    obtain ⟨q, hq, -, -, hcommitted⟩ := hbytes 131072 (by decide) (by decide)
    simp only [hq, Option.map_some, Option.some.injEq, Prod.mk.injEq, beq_iff_eq] at hregion
    rw [hcommitted hregion.1] at hregion
    cases hregion.2

end Scan

end Omnidroid.Mem
