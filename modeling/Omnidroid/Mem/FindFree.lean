/-
Where a mapping goes (`find_free`, `omni-mem/src/space.rs`): the first free run from the start point on that has room, and where
there is none, the first from the floor on.

- `firstFit`: the first pass as the walk that it is, of the entries from the one that holds the start point.
- `firstFit_eq`: it finds what a pass over all the free runs would.
- `find_free_lowest`: the address found is the lowest that has room.
-/
import Omnidroid.Lib.Spans
import Omnidroid.Mem.Guest

namespace Omnidroid.Mem

/-! ## The first pass -/

/-- the walk, with the free run under way; a run is looked at when the next one starts, the last at the end -/
def pass (len align from' : ℕ) : Option Span → List (ℕ × Entry) → Option ℕ
  | run, [] => run.bind (fitsFrom len align from')
  | run, p :: entries =>
    if !p.2.isFree then pass len align from' run entries
    else
      match run with
      | some (start, n) =>
        if start + n = p.1 then pass len align from' (some (start, n + p.2.len)) entries
        else
          match fitsFrom len align from' (start, n) with
          | some address => some address
          | none => pass len align from' (some (p.1, p.2.len)) entries
      | none => pass len align from' (some (p.1, p.2.len)) entries

def firstFit (m : EntryMap) (len align from' : ℕ) : Option ℕ :=
  pass len align from' none (m.entries.filter fun p => ((m.entryAt from').map Prod.fst).getD from' ≤ p.1)

/-! ## What is to be found -/

namespace EntryMap

variable (m : EntryMap)

def FreeAt (x : ℕ) : Prop := ∃ p ∈ m.entries, p.2.isFree ∧ p.1 ≤ x ∧ x < p.1 + p.2.len

/-- room for so many bytes -/
structure Room (len align address : ℕ) : Prop where
  aligned : align ∣ address
  inside : m.base ≤ address ∧ address + len ≤ m.stop
  free : ∀ x, address ≤ x → x < address + len → m.FreeAt x

end EntryMap

/-! ## The runs -/

/-- the free entries -/
def freeSpans (entries : List (ℕ × Entry)) : List Span := (entries.filter (·.2.isFree)).map fun p => (p.1, p.2.len)

theorem freeSpans_cons (p : ℕ × Entry) (entries : List (ℕ × Entry)) :
    freeSpans (p :: entries) = if p.2.isFree then (p.1, p.2.len) :: freeSpans entries else freeSpans entries := by
  unfold freeSpans
  rw [List.filter_cons]
  split_ifs <;> rfl

theorem pass_eq (len align from' : ℕ) (run : Option Span) (entries : List (ℕ × Entry)) :
    pass len align from' run entries = (Span.join run (freeSpans entries)).findSome? (fitsFrom len align from') := by
  induction entries generalizing run with
  | nil => cases run <;> simp [pass, freeSpans, Span.join]
  | cons p entries ih =>
    rw [freeSpans_cons]
    unfold pass
    cases hp : p.2.isFree with
    | false => exact ih run
    | true =>
      cases run with
      | none => exact ih _
      | some s =>
        obtain ⟨start, n⟩ := s
        rw [if_neg (by decide), if_pos rfl, Span.join]
        unfold Span.stop
        dsimp only
        split_ifs
        · exact ih _
        · rw [List.findSome?_cons, ih]
          cases fitsFrom len align from' (start, n) <;> rfl

/-- the runs so far, the one under way first -/
def gather (runs : List Span) (p : ℕ × Entry) : List Span :=
  if p.2.isFree then
    match runs with
    | (start, len) :: rest => if start + len = p.1 then (start, len + p.2.len) :: rest else (p.1, p.2.len) :: runs
    | [] => [(p.1, p.2.len)]
  else runs

theorem gather_join (entries : List (ℕ × Entry)) (s : Span) (done : List Span) :
    (entries.foldl gather (s :: done)).reverse = done.reverse ++ Span.join (some s) (freeSpans entries) := by
  induction entries generalizing s done with
  | nil => simp [freeSpans, Span.join]
  | cons p entries ih =>
    obtain ⟨start, n⟩ := s
    rw [List.foldl_cons, freeSpans_cons, gather]
    cases p.2.isFree with
    | false => exact ih _ _
    | true =>
      rw [if_pos rfl, if_pos rfl, Span.join]
      unfold Span.stop
      dsimp only
      split_ifs
      · exact ih _ _
      · rw [ih, List.reverse_cons, List.append_assoc, List.singleton_append]

theorem freeRuns_eq (entries : List (ℕ × Entry)) : freeRuns entries = Span.join none (freeSpans entries) := by
  change (entries.foldl gather []).reverse = _
  induction entries with
  | nil => rfl
  | cons p entries ih =>
    rw [List.foldl_cons, freeSpans_cons, gather]
    split_ifs
    · exact gather_join entries _ []
    · exact ih

/-! ## A run -/

/-- a place in a run, from an address on -/
def InRun (len align lower : ℕ) (run : Span) (b : ℕ) : Prop := align ∣ b ∧ lower ≤ b ∧ run.1 ≤ b ∧ b + len ≤ run.stop

theorem align_pos {align : ℕ} (h : isPowerOfTwo align) : 0 < align := by
  unfold isPowerOfTwo at h
  simp only [Bool.and_eq_true, bne_iff_ne] at h
  omega

/-- what rounds up past the end of the address space is in no run -/
theorem roundUp_overflow {align v : ℕ} (halign : isPowerOfTwo align) (hsmall : align ≤ 2 ^ 64) (h : usizeMax < v + (align - 1)) :
    2 ^ 64 ≤ roundUp align v := by
  have hpow : align = 2 ^ align.log2 := by
    unfold isPowerOfTwo at halign
    simp only [Bool.and_eq_true, beq_iff_eq] at halign
    exact halign.2.symm
  have hdvd : align ∣ 2 ^ 64 := by
    rw [hpow] at hsmall ⊢
    exact pow_dvd_pow 2 ((Nat.pow_le_pow_iff_right (by decide)).1 hsmall)
  unfold usizeMax at h
  calc 2 ^ 64 = 2 ^ 64 / align * align := (Nat.div_mul_cancel hdvd).symm
    _ ≤ (v + (align - 1)) / align * align := Nat.mul_le_mul_right _ (Nat.div_le_div_right (by omega))

section

variable {len align : ℕ} (halign : isPowerOfTwo align)
include halign

theorem fits_least (lower : ℕ) {run : Span} (hlen : 0 < len) (hsmall : align ≤ 2 ^ 64) (hstop : run.stop ≤ usizeMax) :
    Finds {b | InRun len align lower run b} (fits len align lower run) := by
  have hpos := align_pos halign
  have hfrom := le_roundUp hpos (max run.1 lower)
  have hleast : ∀ b, InRun len align lower run b → roundUp align (max run.1 lower) ≤ b :=
    fun b hb => roundUp_le hpos hb.1 (max_le hb.2.2.1 hb.2.1)
  have hempty : (∀ b, ¬InRun len align lower run b) → Finds {b | InRun len align lower run b} none :=
    fun h => Set.eq_empty_iff_forall_notMem.2 h
  unfold Span.stop at hstop
  unfold fits
  dsimp only
  split_ifs with hover hfits
  · refine hempty fun b hb => ?_
    have h₁ := roundUp_overflow halign hsmall hover
    have h₂ := hleast b hb
    have h₃ := hb.2.2.2
    unfold Span.stop at h₃
    unfold usizeMax at hstop
    omega
  · refine ⟨⟨dvd_roundUp _ _, by omega, hfits.1, ?_⟩, hleast⟩
    unfold Span.stop
    omega
  · refine hempty fun b hb => hfits ?_
    have h₂ := hleast b hb
    have h₃ := hb.2.2.2
    unfold Span.stop at h₃
    omega

/-- a run that ends by the start point has no room from it on -/
theorem fitsFrom_eq (lower : ℕ) (run : Span) : fitsFrom len align lower run = fits len align lower run := by
  have hfrom := le_roundUp (align_pos halign) (max run.1 lower)
  unfold fitsFrom
  split_ifs with hpast
  · unfold fits
    dsimp only
    split_ifs
    · rfl
    · omega
    · rfl
  · rfl

/-- a pass over the free runs of entries in order -/
theorem pass_least (lower : ℕ) {entries : List (ℕ × Entry)} (hpw : entries.Pairwise fun p q => p.1 + p.2.len ≤ q.1)
    (hent : ∀ p ∈ entries, 0 < p.2.len ∧ p.1 + p.2.len ≤ usizeMax) (hlen : 0 < len) (hsmall : align ≤ 2 ^ 64) :
    Finds {b | align ∣ b ∧ lower ≤ b ∧ ∀ x, b ≤ x → x < b + len → Span.Covers (freeSpans entries) x}
      ((freeRuns entries).findSome? (fits len align lower)) := by
  have horder : Span.InOrder (freeSpans entries) := by
    refine ⟨List.pairwise_map.2 (hpw.filter _), fun s hs => ?_⟩
    obtain ⟨p, hp, rfl⟩ := List.mem_map.1 hs
    exact (hent p (List.mem_of_mem_filter hp)).1
  obtain ⟨hruns, hcov⟩ := Span.join_none horder
  rw [freeRuns_eq]
  have hset : {b | align ∣ b ∧ lower ≤ b ∧ ∀ x, b ≤ x → x < b + len → Span.Covers (freeSpans entries) x} =
      {b | ∃ s ∈ Span.join none (freeSpans entries), InRun len align lower s b} := by
    ext b
    simp only [Set.mem_ofPred_eq, ← hcov]
    rw [hruns.within hlen]
    unfold InRun
    constructor
    · rintro ⟨hd, hl, s, hs, h⟩
      exact ⟨s, hs, hd, hl, h⟩
    · rintro ⟨s, hs, hd, hl, h⟩
      exact ⟨hd, hl, s, hs, h⟩
  rw [hset]
  refine hruns.least (fun s _ a ha => ⟨ha.2.2.1, by have := ha.2.2.2; omega⟩) fun s hs => fits_least halign lower hlen hsmall ?_
  -- the last byte of a run is an entry's
  have hpos := hruns.pos s hs
  obtain ⟨t, ht, -, hlt⟩ := (hcov (s.stop - 1)).1 ⟨s, hs, by unfold Span.stop; omega, by unfold Span.stop; omega⟩
  obtain ⟨p, hp, rfl⟩ := List.mem_map.1 ht
  have := (hent p (List.mem_of_mem_filter hp)).2
  unfold Span.stop at hlt ⊢
  dsimp only at hlt
  omega

end

/-! ## The search -/

section Search

variable {m : EntryMap} {len align : ℕ}

theorem covers_free {entries : List (ℕ × Entry)} {x : ℕ} :
    Span.Covers (freeSpans entries) x ↔ ∃ p ∈ entries, p.2.isFree ∧ p.1 ≤ x ∧ x < p.1 + p.2.len := by
  constructor
  · rintro ⟨s, hs, hx⟩
    obtain ⟨p, hp, rfl⟩ := List.mem_map.1 hs
    exact ⟨p, List.mem_of_mem_filter hp, (List.mem_filter.1 hp).2, hx⟩
  · rintro ⟨p, hp, hfree, hx⟩
    exact ⟨(p.1, p.2.len), List.mem_map.2 ⟨p, List.mem_filter.2 ⟨hp, hfree⟩, rfl⟩, hx⟩

/-- from the start point on, the entries from the one that holds it are all there are -/
theorem covers_from (hv : m.Valid) {from' x : ℕ} (hx : from' ≤ x) :
    Span.Covers (freeSpans (m.entries.filter fun p => ((m.entryAt from').map Prod.fst).getD from' ≤ p.1)) x ↔
      Span.Covers (freeSpans m.entries) x := by
  have hfirst : ((m.entryAt from').map Prod.fst).getD from' ≤ from' := by
    cases h : m.entryAt from' with
    | none => exact le_rfl
    | some q => exact (EntryMap.mem_of_entryAt h).2.1
  rw [covers_free, covers_free]
  constructor
  · rintro ⟨p, hp, h⟩
    exact ⟨p, List.mem_of_mem_filter hp, h⟩
  · rintro ⟨p, hp, hfree, hle, hlt⟩
    refine ⟨p, List.mem_filter.2 ⟨hp, decide_eq_true ?_⟩, hfree, hle, hlt⟩
    rcases le_or_gt p.1 from' with hbefore | hafter
    · rw [EntryMap.entryAt_of_mem hv.tiles hp hbefore (by omega)]
      exact le_rfl
    · exact hfirst.trans hafter.le

variable (hv : m.Valid) (hstop : m.stop ≤ usizeMax) (hlen : 0 < len) (halign : isPowerOfTwo align) (hsmall : align ≤ m.len)
include hv hstop hlen halign hsmall

/-- a pass over all the free runs -/
theorem runs_least (lower : ℕ) :
    Finds {b | m.Room len align b ∧ lower ≤ b} ((freeRuns m.entries).findSome? (fits len align lower)) := by
  have hent : ∀ p ∈ m.entries, 0 < p.2.len ∧ p.1 + p.2.len ≤ usizeMax := by
    intro p hp
    have h := hv.tiles.bounds hp
    exact ⟨h.2.2, h.2.1.trans hstop⟩
  have hset : {b | m.Room len align b ∧ lower ≤ b} =
      {b | align ∣ b ∧ lower ≤ b ∧ ∀ x, b ≤ x → x < b + len → Span.Covers (freeSpans m.entries) x} := by
    ext b
    simp only [Set.mem_ofPred_eq, covers_free]
    constructor
    · exact fun h => ⟨h.1.aligned, h.2, h.1.free⟩
    · rintro ⟨hd, hl, hfree⟩
      obtain ⟨p, hp, -, hle, -⟩ := hfree b le_rfl (by omega)
      obtain ⟨q, hq, -, -, hlt⟩ := hfree (b + len - 1) (by omega) (by omega)
      have h₁ := (hv.tiles.bounds hp).1
      have h₂ := (hv.tiles.bounds hq).2.1
      exact ⟨⟨hd, ⟨by omega, by omega⟩, hfree⟩, hl⟩
  rw [hset]
  exact pass_least halign lower hv.tiles.pairwise hent hlen (by unfold EntryMap.stop usizeMax at hstop; omega)

/-- the first pass finds what one over all the free runs would -/
theorem firstFit_eq (from' : ℕ) : firstFit m len align from' = (freeRuns m.entries).findSome? (fitsFrom len align from') := by
  have hfits : fitsFrom len align from' = fits len align from' := funext (fitsFrom_eq halign from')
  have hsmall' : align ≤ 2 ^ 64 := by
    unfold EntryMap.stop usizeMax at hstop
    omega
  have hent : ∀ p ∈ m.entries, 0 < p.2.len ∧ p.1 + p.2.len ≤ usizeMax := by
    intro p hp
    have h := hv.tiles.bounds hp
    exact ⟨h.2.2, h.2.1.trans hstop⟩
  have hall := pass_least halign from' hv.tiles.pairwise hent hlen hsmall'
  have hsome := pass_least halign from'
    (hv.tiles.pairwise.filter fun p => ((m.entryAt from').map Prod.fst).getD from' ≤ p.1)
    (fun p hp => hent p (List.mem_of_mem_filter hp)) hlen hsmall'
  have hset : {b | align ∣ b ∧ from' ≤ b ∧ ∀ x, b ≤ x → x < b + len → Span.Covers
        (freeSpans (m.entries.filter fun p => ((m.entryAt from').map Prod.fst).getD from' ≤ p.1)) x} =
      {b | align ∣ b ∧ from' ≤ b ∧ ∀ x, b ≤ x → x < b + len → Span.Covers (freeSpans m.entries) x} := by
    ext b
    refine and_congr_right fun _ => and_congr_right fun hb => forall_congr' fun x => imp_congr_right fun hx => ?_
    rw [covers_from hv (hb.trans hx)]
  rw [hset] at hsome
  unfold firstFit
  rw [pass_eq, ← freeRuns_eq, hfits]
  exact hsome.unique hall

end Search

theorem findFree_eq (operation : String) (len align from' : ℕ) (s : State) : findFree operation len align from' s =
    match (firstFit s.map len align from').orElse fun _ =>
      ((freeRuns s.map.entries).findSome? (fitsFrom len align from')).orElse fun _ =>
        (freeRuns s.map.entries).findSome? (fits len align (if s.floor ≤ from' then s.floor else s.map.base)) with
    | some address => .ok address { s with cursor := address + len }
    | none => .error (.noSpace operation len align s.map.freeSummary.1 s.map.freeSummary.2) s := by
  unfold firstFit
  rw [pass_eq, ← freeRuns_eq]
  unfold findFree
  rw [bind_of_ok (x := get) (a := s) rfl]
  generalize Option.orElse _ _ = found
  cases found <;> rfl

/-- **The lowest address with room** from the start point on, else from the floor on (from the space's base, if the search starts
below the floor); and the first pass, which walks the map once, is the pass over all the free runs. -/
theorem find_free_lowest {s : State} (operation : String) {len align : ℕ} (from' : ℕ) (hv : s.map.Valid) (hstop : s.map.stop ≤ usizeMax)
    (hlen : 0 < len) (halign : isPowerOfTwo align) (hsmall : align ≤ s.map.len) :
    let above := {b | s.map.Room len align b ∧ from' ≤ b}
    let wrapped := {b | s.map.Room len align b ∧ (if s.floor ≤ from' then s.floor else s.map.base) ≤ b}
    (match findFree operation len align from' s with
      | .ok address s' => s' = { s with cursor := address + len } ∧ (IsLeast above address ∨ above = ∅ ∧ IsLeast wrapped address)
      | .error e s' => e = .noSpace operation len align s.map.freeSummary.1 s.map.freeSummary.2 ∧ s' = s ∧ above = ∅ ∧ wrapped = ∅) ∧
      firstFit s.map len align from' = (freeRuns s.map.entries).findSome? (fitsFrom len align from') := by
  intro above wrapped
  have hfirst := firstFit_eq hv hstop hlen halign hsmall from'
  have habove : Finds above (firstFit s.map len align from') := by
    rw [hfirst, funext (fitsFrom_eq halign from')]
    exact runs_least hv hstop hlen halign hsmall from'
  have hwrapped := runs_least hv hstop hlen halign hsmall (if s.floor ≤ from' then s.floor else s.map.base)
  refine ⟨?_, hfirst⟩
  rw [findFree_eq, ← hfirst]
  cases ha : firstFit s.map len align from' with
  | some a =>
    rw [ha] at habove
    exact ⟨rfl, .inl habove⟩
  | none =>
    rw [ha] at habove
    cases hw : (freeRuns s.map.entries).findSome? (fits len align (if s.floor ≤ from' then s.floor else s.map.base)) with
    | some a =>
      rw [hw] at hwrapped
      exact ⟨rfl, .inr ⟨habove, hwrapped⟩⟩
    | none =>
      rw [hw] at hwrapped
      exact ⟨rfl, rfl, habove, hwrapped⟩

/-- a space of five pages, its second one mapped, with a search that starts in it -/
def fivePages : State where
  page := 0x1000
  map :=
    { base := 0x10000
      len := 0x5000
      entries := [(0x10000, .free 0x1000), (0x11000, ⟨0x1000, .placeholder, some ⟨1, 0x11000, 0x1000, .none, 0x1000, .lazy, none, 0⟩, false⟩),
        (0x12000, .free 0x1000), (0x13000, .free 0x2000)]
      hosts := [] }
  sub := none
  granule := 0x1000
  maxCommitted := 0x5000
  maxCommitRequest := 0x5000
  floor := 0x10000
  cursor := 0x11800
  committed := 0
  nextMapping := 2
  nextView := 0
  os := { piece := fun _ => .outside, protection := fun _ => .none, own := fun _ => none }
  files := fun _ _ => 0
  grants := fun _ _ => true
  calls := 0
  lawful := True

theorem fivePages_valid : fivePages.map.Valid where
  tiles := by simp [fivePages, EntryMap.stop, Tiles, Entry.free]
  inside := by
    intro p hp o ho
    simp only [fivePages, List.mem_cons, List.not_mem_nil, or_false] at hp
    rcases hp with rfl | rfl | rfl | rfl
    · cases ho
    · cases ho
      exact ⟨⟨le_rfl, le_rfl⟩, by decide⟩
    · cases ho
    · cases ho
  hosts := by decide
  unclaimed := by decide
  free := by decide

/-- two pages, aligned to two: the third and the fourth -/
theorem find_free_lowest_pages :
    findFree "map_anonymous" 0x2000 0x2000 0x11800 fivePages = .ok 0x12000 { fivePages with cursor := 0x14000 } ∧
      IsLeast {b | fivePages.map.Room 0x2000 0x2000 b ∧ 0x11800 ≤ b} 0x12000 := by
  have h := (find_free_lowest "map_anonymous" 0x11800 fivePages_valid (by decide) (show 0 < 0x2000 by decide)
    (show isPowerOfTwo 0x2000 by decide) (by decide)).1
  have hrun : findFree "map_anonymous" 0x2000 0x2000 0x11800 fivePages = .ok 0x12000 { fivePages with cursor := 0x14000 } := rfl
  rw [hrun] at h
  refine ⟨hrun, h.2.resolve_right ?_⟩
  rintro ⟨hempty, hroom, -⟩
  exact Set.eq_empty_iff_forall_notMem.1 hempty 0x12000 ⟨hroom.1, by decide⟩

end Omnidroid.Mem
