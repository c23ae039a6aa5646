/-
What bounds a table of relocations (`LoadImage::validate`, `omni-elf/src/image.rs`, and `parse_relr_table`, `reloc.rs`).
- `covered`: the addresses of an image. `unionSize_spec`: the merge counts them, and no step of it wraps.
- `relrExpansion`: what the words of a `DT_RELR` table stand for, bit by bit.
- `parseRelrTable_eq`: the two passes agree with it and with each other.
- `relocation_bounds`: both.
-/
import Mathlib.Data.Nat.Bitwise
import Mathlib.Data.Set.Card
import Omnidroid.Elf.Tables

namespace Omnidroid.Elf

/-! ## The union of the segments -/

/-- the addresses of a list of ranges -/
def covered (ranges : List (ℕ × ℕ)) : Set ℕ := {x | ∃ r ∈ ranges, r.1 ≤ x ∧ x < r.2}

namespace LoadImage

/-- the ranges in the order that `validate` merges them in -/
def ranges (loads : List Segment) : List (ℕ × ℕ) :=
  (loads.insertionSort fun s t => s.p_vaddr ≤ t.p_vaddr).map fun s => (s.p_vaddr, s.p_vaddr + s.p_memsz)

/-- every state of the merge: the total so far and the range under way -/
def unionStates : Option (ℕ × ℕ) → List (ℕ × ℕ) → ℕ → List (ℕ × ℕ × ℕ)
  | none, [], _ => []
  | some (start, end_), [], total => [(total, start, end_)]
  | none, r :: rs, total => unionStates (some r) rs total
  | some (start, end_), (start', end') :: rs, total =>
    (total, start, end_) ::
      if start' ≤ end_ then unionStates (some (start, max end_ end')) rs total
      else unionStates (some (start', end')) rs (total + (end_ - start))

end LoadImage

variable {r : ℕ × ℕ} {rs : List (ℕ × ℕ)} {start end_ total lo hi : ℕ}

theorem covered_cons (r : ℕ × ℕ) (rs : List (ℕ × ℕ)) : covered (r :: rs) = Set.Ico r.1 r.2 ∪ covered rs := by
  ext x
  simp [covered]

theorem covered_finite (rs : List (ℕ × ℕ)) : (covered rs).Finite := by
  induction rs with
  | nil =>
    refine Set.finite_empty.subset ?_
    rintro x ⟨r, hr, -⟩
    cases hr
  | cons r rs ih =>
    rw [covered_cons]
    exact (Set.finite_Ico _ _).union ih

theorem covered_perm {rs' : List (ℕ × ℕ)} (h : rs.Perm rs') : covered rs = covered rs' := by
  ext x
  simp only [covered, h.mem_iff]

theorem ncard_Ico (a b : ℕ) : (Set.Ico a b).ncard = b - a := by
  rw [← Finset.coe_Ico, Set.ncard_coe_finset, Nat.card_Ico]

/-- ranges that lie between two bounds have no more addresses than there are between these -/
theorem ncard_covered_le (h : ∀ r ∈ rs, lo ≤ r.1 ∧ r.2 ≤ hi) : (covered rs).ncard ≤ hi - lo := by
  rw [← ncard_Ico lo hi]
  refine Set.ncard_le_ncard ?_ (Set.finite_Ico _ _)
  rintro x ⟨r, hr, hx, hx'⟩
  exact ⟨(h r hr).1.trans hx, hx'.trans_le (h r hr).2⟩

/-- the range under way touches the next one: the two are one range -/
theorem covered_merge {start' end' : ℕ} (hle : start ≤ start') (htouch : start' ≤ end_) :
    covered ((start, end_) :: (start', end') :: rs) = covered ((start, max end_ end') :: rs) := by
  rw [covered_cons, covered_cons, covered_cons, ← Set.union_assoc]
  congr 1
  ext x
  simp only [Set.mem_union, Set.mem_Ico]
  omega

/-- it ends before all others: its addresses are none of theirs -/
theorem ncard_covered_cons (h : ∀ r ∈ rs, end_ ≤ r.1) :
    (covered ((start, end_) :: rs)).ncard = (end_ - start) + (covered rs).ncard := by
  rw [covered_cons, Set.ncard_union_eq _ (Set.finite_Ico _ _) (covered_finite rs), ncard_Ico]
  rw [Set.disjoint_left]
  rintro x hx ⟨r, hr, hrx, -⟩
  have := hx.2
  have := h r hr
  simp only at *
  omega

/-- ranges to come, in ascending order, none before the one under way and none past `hi` -/
structure Merging (start end_ hi : ℕ) (rs : List (ℕ × ℕ)) : Prop where
  le : start ≤ end_
  bound : end_ ≤ hi
  sorted : rs.Pairwise fun r r' => r.1 ≤ r'.1
  next : ∀ r ∈ rs, start ≤ r.1 ∧ r.1 ≤ r.2 ∧ r.2 ≤ hi

namespace LoadImage

/-- the merge counts the addresses; no subtraction of it and no sum wraps -/
theorem unionSize_spec (hm : Merging start end_ hi rs) (htotal : total + lo ≤ start) (hhi : hi < 2 ^ 64) :
    unionSize (some (start, end_)) rs total = some (total + (covered ((start, end_) :: rs)).ncard) ∧
      ∀ state ∈ unionStates (some (start, end_)) rs total,
        state.2.1 ≤ state.2.2 ∧ state.1 + (state.2.2 - state.2.1) ≤ hi - lo := by
  have hle := hm.le
  have hbound := hm.bound
  have hstate : start ≤ end_ ∧ total + (end_ - start) ≤ hi - lo := ⟨hm.le, by omega⟩
  induction rs generalizing start end_ total with
  | nil =>
    rw [unionSize, unionStates, ncard_covered_cons (by simp)]
    have hzero : (covered []).ncard = 0 := by simp [covered]
    rw [hzero, Nat.add_zero]
    exact ⟨if_pos (by omega), by simpa using hstate⟩
  | cons r rs ih =>
    obtain ⟨start', end'⟩ := r
    obtain ⟨hfirst, hsorted⟩ := List.pairwise_cons.mp hm.sorted
    obtain ⟨hstart, hend, hbound'⟩ := hm.next _ List.mem_cons_self
    have hrest : ∀ r ∈ rs, start ≤ r.1 ∧ r.1 ≤ r.2 ∧ r.2 ≤ hi := fun r hr => hm.next r (List.mem_cons_of_mem _ hr)
    simp only at hfirst hstart hend hbound'
    rw [unionSize, unionStates]
    by_cases htouch : start' ≤ end_
    · rw [if_pos htouch, if_pos htouch, covered_merge hstart htouch]
      obtain ⟨hsize, hstates⟩ := @ih start (max end_ end') total ⟨by omega, by omega, hsorted, hrest⟩ htotal (by omega) (by omega)
        ⟨by omega, by omega⟩
      exact ⟨hsize, List.forall_mem_cons.mpr ⟨hstate, hstates⟩⟩
    · rw [if_neg htouch, if_neg htouch]
      have hadd : checkedAdd total (end_ - start) = some (total + (end_ - start)) := if_pos (by omega)
      have hnext : ∀ r ∈ rs, start' ≤ r.1 ∧ r.1 ≤ r.2 ∧ r.2 ≤ hi := fun r hr => ⟨hfirst r hr, (hrest r hr).2⟩
      obtain ⟨hsize, hstates⟩ := @ih start' end' (total + (end_ - start)) ⟨hend, hbound', hsorted, hnext⟩ (by omega) hend hbound'
        ⟨hend, by omega⟩
      have hcount : (covered ((start, end_) :: (start', end') :: rs)).ncard =
          (end_ - start) + (covered ((start', end') :: rs)).ncard := by
        apply ncard_covered_cons
        intro r hr
        rcases List.mem_cons.mp hr with rfl | hr
        · exact (not_le.mp htouch).le
        · exact (not_le.mp htouch).le.trans (hfirst r hr)
      rw [hadd, hcount, ← Nat.add_assoc]
      exact ⟨hsize, List.forall_mem_cons.mpr ⟨hstate, hstates⟩⟩

theorem ranges_perm (loads : List Segment) : (ranges loads).Perm (loads.map fun s => (s.p_vaddr, s.p_vaddr + s.p_memsz)) :=
  (List.perm_insertionSort _ loads).map _

theorem ranges_sorted (loads : List Segment) : (ranges loads).Pairwise fun r r' => r.1 ≤ r'.1 :=
  List.pairwise_map.mpr (List.pairwise_insertionSort _ loads)

theorem covered_ranges (loads : List Segment) :
    covered (ranges loads) = {x | ∃ s ∈ loads, s.p_vaddr ≤ x ∧ x < s.p_vaddr + s.p_memsz} := by
  rw [covered_perm (ranges_perm loads)]
  ext x
  simp [covered]

/-- what is measured of an accepted set -/
structure Extent (segments : List Segment) (image : LoadImage) : Prop where
  mapped : image.mappedBytes = Set.ncard {x | ∃ s ∈ segments, s.isLoad = true ∧ s.p_vaddr ≤ x ∧ x < s.p_vaddr + s.p_memsz}
  le_span : image.mappedBytes ≤ image.span
  span_le : image.span ≤ MAX_IMAGE_SPAN
  /-- the span is between the lowest address and the highest end, which do not wrap -/
  span_eq : image.baseVaddr + image.span = image.endVaddr ∧ image.endVaddr < 2 ^ 64
  ends : ∀ s ∈ segments, s.isLoad = true → image.baseVaddr ≤ s.p_vaddr ∧ s.p_vaddr + s.p_memsz ≤ image.endVaddr
  /-- the merge subtracts no more than there is, and its sums stay within the span -/
  merge : ∀ state ∈ unionStates none (ranges (segments.filter Segment.isLoad)) 0,
    state.2.1 ≤ state.2.2 ∧ state.1 + (state.2.2 - state.2.1) ≤ image.span

/-- the highest end is one of the ends, none of which wraps -/
theorem measure_end {fileLen index : ℕ} {loads : List Segment} {m out : ℕ × ℕ × ℕ} (h : measure fileLen index loads m = .ok out)
    (hm : m.2.1 < 2 ^ 64) : out.2.1 < 2 ^ 64 := by
  induction loads generalizing index m with
  | nil =>
    cases h
    exact hm
  | cons s loads ih =>
    obtain ⟨base, end_, align⟩ := m
    obtain ⟨memEnd, hcheck, h⟩ := except_bind_ok.mp h
    obtain ⟨hsound, rfl⟩ := checkSegment_ok hcheck
    exact ih h (max_lt hm hsound.mem_lt)

theorem validate_extent {segments : List Segment} {fileLen : ℕ} {image : LoadImage} (h : validate segments fileLen = .ok image) :
    Extent segments image := by
  simp only [validate] at h
  split at h
  · cases h
  case isFalse hsome =>
    obtain ⟨⟨base, end_, align⟩, hmeasure, h⟩ := except_bind_ok.mp h
    obtain ⟨hbase, -, hall⟩ := measure_ok hmeasure
    have hend := measure_end hmeasure (by decide)
    simp only at h hbase hall hend
    split at h
    · cases h
    case isFalse hspan =>
      split at h
      · cases h
      case isFalse hlimit =>
        generalize hloads : segments.filter Segment.isLoad = loads at h hall hsome
        have hbound : ∀ r ∈ ranges loads, base ≤ r.1 ∧ r.1 ≤ r.2 ∧ r.2 ≤ end_ := by
          intro r hr
          obtain ⟨s, hs, rfl⟩ := List.mem_map.mp ((ranges_perm loads).mem_iff.mp hr)
          exact ⟨(hall s hs).2.1, Nat.le_add_right _ _, (hall s hs).2.2⟩
        have hsame : ((loads.insertionSort fun s t => s.p_vaddr ≤ t.p_vaddr).map fun s => (s.p_vaddr, s.p_vaddr + s.p_memsz)) =
          ranges loads := rfl
        rw [hsame] at h
        cases hranges : ranges loads with
        | nil =>
          have := (ranges_perm loads).length_eq
          rw [hranges, List.length_map] at this
          exact absurd (List.isEmpty_iff_length_eq_zero.mpr this.symm) hsome
        | cons r rs =>
          rw [hranges] at hbound h
          have hsorted := ranges_sorted loads
          rw [hranges] at hsorted
          obtain ⟨hfirst, hsorted⟩ := List.pairwise_cons.mp hsorted
          obtain ⟨hstart, hle, hstop⟩ := hbound r List.mem_cons_self
          have hnext : ∀ r' ∈ rs, r.1 ≤ r'.1 ∧ r'.1 ≤ r'.2 ∧ r'.2 ≤ end_ := fun r' hr' =>
            ⟨hfirst r' hr', (hbound r' (List.mem_cons_of_mem _ hr')).2⟩
          obtain ⟨hsize, hstates⟩ := @unionSize_spec rs r.1 r.2 0 base end_ ⟨hle, hstop, hsorted, hnext⟩ (by omega) hend
          rw [unionSize, hsize, Nat.zero_add, ← hranges] at h
          cases h
          have hcovered : covered (ranges loads) =
              {x | ∃ s ∈ segments, s.isLoad = true ∧ s.p_vaddr ≤ x ∧ x < s.p_vaddr + s.p_memsz} := by
            rw [covered_ranges, ← hloads]
            simp only [List.mem_filter, and_assoc]
          refine ⟨congrArg Set.ncard hcovered, ?_, not_lt.mp hlimit, ⟨by simp only; omega, hend⟩, ?_, ?_⟩
          · rw [hranges]
            exact ncard_covered_le fun r hr => ⟨(hbound r hr).1, (hbound r hr).2.2⟩
          · intro s hs hload
            have hs : s ∈ loads := hloads ▸ List.mem_filter.mpr ⟨hs, hload⟩
            exact (hall s hs).2
          · rw [hloads, hranges]
            exact hstates

end LoadImage

/-! ## The words of a table -/

/-- a word's value, and the bits of a number from the lowest up -/
def bitsBelow (n w : ℕ) : List ℕ := (List.range n).filter fun k => w.testBit k

/-- what a table stands for: an even word is an address, an odd one's bits above the lowest the words from the base on -/
def relrExpansion : List UInt64 → UInt64 → List UInt64
  | [], _ => []
  | entry :: entries, base =>
    if entry.toNat % 2 = 0 then entry :: relrExpansion entries (entry + 8)
    else ((bitsBelow 63 (entry.toNat / 2)).map fun k => base + 8 * UInt64.ofNat k) ++ relrExpansion entries (base + 504)

/-- what the first pass counts -/
def relrCount (entries : List UInt64) : ℕ :=
  entries.foldl (fun n (entry : UInt64) => saturatingAdd n (if entry &&& 1 = 0 then 1 else countOnes (entry >>> 1) 64)) 0

/-- the words of a table -/
def relrWords (view : Bytes) (size : ℕ) : List UInt64 :=
  (List.range (size / 8)).map fun i => UInt64.ofNat (Bytes.leNat (Bytes.slice view (i * 8) 8))

theorem and_one (w : UInt64) : w &&& 1 = 0 ↔ w.toNat % 2 = 0 := by
  rw [← UInt64.toNat_inj, UInt64.toNat_and]
  exact (Nat.and_one_is_mod w.toNat).symm ▸ Iff.rfl

theorem shiftRight_one (w : UInt64) : (w >>> 1).toNat = w.toNat / 2 := by
  rw [UInt64.toNat_shiftRight]
  exact Nat.shiftRight_eq_div_pow w.toNat 1

theorem bitsBelow_zero (n : ℕ) : bitsBelow n 0 = [] := by simp [bitsBelow]

/-- the lowest bit, and the others a place lower -/
theorem bitsBelow_succ (n w : ℕ) : bitsBelow (n + 1) w = (if w % 2 = 1 then [0] else []) ++ (bitsBelow n (w / 2)).map Nat.succ := by
  rw [bitsBelow, List.range_succ_eq_map, List.filter_cons, List.filter_map, bitsBelow]
  have hlow : w.testBit 0 = decide (w % 2 = 1) := Nat.testBit_zero w
  have hhigh : ((fun k => w.testBit k) ∘ Nat.succ) = fun k => (w / 2).testBit k := by
    funext k
    exact Nat.testBit_succ w k
  rw [hlow, hhigh]
  by_cases h : w % 2 = 1 <;> simp [h]

/-- a bound on the number bounds its bits -/
theorem bitsBelow_of_lt {n w : ℕ} (h : w < 2 ^ n) : bitsBelow (n + 1) w = bitsBelow n w := by
  rw [bitsBelow, List.range_succ, List.filter_append, bitsBelow, List.filter_singleton, Nat.testBit_eq_false_of_lt h]
  exact List.append_nil _

theorem bitmapTargets_eq {n : ℕ} {bits : UInt64} (h : bits.toNat < 2 ^ n) (offset : UInt64) :
    bitmapTargets bits offset = (bitsBelow n bits.toNat).map fun k => offset + 8 * UInt64.ofNat k := by
  induction n generalizing bits offset with
  | zero =>
    obtain rfl : bits = 0 := UInt64.toNat_inj.mp (Nat.lt_one_iff.mp h)
    rw [bitmapTargets]
    rfl
  | succ n ih =>
    rw [bitmapTargets]
    by_cases hzero : bits = 0
    · rw [dif_pos hzero, hzero, show (0 : UInt64).toNat = 0 from rfl, bitsBelow_zero, List.map_nil]
    · have hhalf : (bits >>> 1).toNat < 2 ^ n := by
        rw [shiftRight_one]
        omega
      have hlow : bits &&& 1 ≠ 0 ↔ bits.toNat % 2 = 1 := (and_one bits).not.trans (by omega)
      have hnext : ((fun k => offset + 8 * UInt64.ofNat k) ∘ Nat.succ) = fun k => offset + 8 + 8 * UInt64.ofNat k := by
        funext k
        rw [Function.comp_apply, Nat.succ_eq_add_one, UInt64.ofNat_add, show UInt64.ofNat 1 = 1 from rfl]
        grind
      rw [dif_neg hzero, ih hhalf, bitsBelow_succ, shiftRight_one, List.map_append, List.map_map, hnext]
      congr 1
      by_cases hodd : bits.toNat % 2 = 1
      · rw [if_pos (hlow.mpr hodd), if_pos hodd]
        simp
      · rw [if_neg (hlow.not.mpr hodd), if_neg hodd]
        rfl

theorem countOnes_eq (w : UInt64) : countOnes w 64 = (bitsBelow 64 w.toNat).length := by
  rw [countOnes, bitsBelow, List.countP_eq_length_filter]
  congr 1
  apply List.filter_congr
  intro i hi
  have hlt := List.mem_range.mp hi
  have hbit : (w >>> UInt64.ofNat i &&& 1) = 0 ↔ w.toNat / 2 ^ i % 2 = 0 := by
    rw [and_one, UInt64.toNat_shiftRight, UInt64.toNat_ofNat', Nat.mod_eq_of_lt (show i < 2 ^ 64 by omega), Nat.mod_eq_of_lt hlt,
      Nat.shiftRight_eq_div_pow]
  rw [Nat.testBit_eq_decide_div_mod_eq, bne, Bool.eq_iff_iff]
  simp only [Bool.not_eq_true', beq_eq_false_iff_ne, ne_eq, hbit, decide_eq_true_eq]
  omega

/-- one word's part of the expansion, and what the first pass counts of it -/
theorem relrTargets_cons (entry : UInt64) (entries : List UInt64) (base : UInt64) :
    relrTargets (entry :: entries) base = relrExpansion [entry] base ++
        relrTargets entries (if entry.toNat % 2 = 0 then entry + 8 else base + 504) ∧
      (relrExpansion [entry] base).length = if entry &&& 1 = 0 then 1 else countOnes (entry >>> 1) 64 := by
  have hhalf : (entry >>> 1).toNat < 2 ^ 63 := by
    have := entry.toNat_lt
    rw [shiftRight_one]
    omega
  have hbits : entry.toNat / 2 < 2 ^ 63 := shiftRight_one entry ▸ hhalf
  simp only [relrTargets, relrExpansion]
  by_cases heven : entry.toNat % 2 = 0
  · rw [if_pos ((and_one entry).mpr heven), if_pos heven, if_pos heven, if_pos ((and_one entry).mpr heven)]
    exact ⟨rfl, rfl⟩
  · rw [if_neg ((and_one entry).not.mpr heven), if_neg heven, if_neg heven, if_neg ((and_one entry).not.mpr heven), List.append_nil,
      bitmapTargets_eq hhalf, countOnes_eq, shiftRight_one, bitsBelow_of_lt hbits, List.length_map]
    exact ⟨rfl, rfl⟩

theorem relrExpansion_cons (entry : UInt64) (entries : List UInt64) (base : UInt64) :
    relrExpansion (entry :: entries) base = relrExpansion [entry] base ++
      relrExpansion entries (if entry.toNat % 2 = 0 then entry + 8 else base + 504) := by
  simp only [relrExpansion]
  by_cases heven : entry.toNat % 2 = 0
  · rw [if_pos heven, if_pos heven, if_pos heven]
    rfl
  · rw [if_neg heven, if_neg heven, if_neg heven, List.append_nil]

/-- the second pass -/
theorem relrTargets_eq (entries : List UInt64) (base : UInt64) : relrTargets entries base = relrExpansion entries base := by
  induction entries generalizing base with
  | nil => rfl
  | cons entry entries ih => rw [(relrTargets_cons entry entries base).1, ih, relrExpansion_cons entry entries]

/-- the first pass: the length of the expansion, wherever it begins, up to the largest number -/
theorem relrCount_from (entries : List UInt64) (base : UInt64) {n : ℕ} (hn : n ≤ 2 ^ 64 - 1) :
    entries.foldl (fun n (entry : UInt64) => saturatingAdd n (if entry &&& 1 = 0 then 1 else countOnes (entry >>> 1) 64)) n =
      min (n + (relrExpansion entries base).length) (2 ^ 64 - 1) := by
  induction entries generalizing base n with
  | nil => exact (min_eq_left hn).symm
  | cons entry entries ih =>
    have hsum : saturatingAdd n (relrExpansion [entry] base).length ≤ 2 ^ 64 - 1 := min_le_right _ _
    rw [List.foldl_cons, ← (relrTargets_cons entry entries base).2, ih (if entry.toNat % 2 = 0 then entry + 8 else base + 504) hsum,
      relrExpansion_cons entry entries, List.length_append, saturatingAdd]
    omega

theorem relrCount_eq (entries : List UInt64) : relrCount entries = min (relrExpansion entries 0).length (2 ^ 64 - 1) := by
  rw [relrCount, relrCount_from entries 0 (Nat.zero_le _), Nat.zero_add]

/-- a check of every word, none of which fails -/
theorem mapM_ok {f : ℕ → Except ElfError UInt64} {g : ℕ → UInt64} {is : List ℕ} (h : ∀ i ∈ is, f i = .ok (g i)) :
    is.mapM f = .ok (is.map g) := by
  induction is with
  | nil => rfl
  | cons i is ih =>
    rw [List.mapM_cons, h i List.mem_cons_self, ih fun i hi => h i (List.mem_cons_of_mem _ hi)]
    rfl

/-- a table of whole words -/
structure WholeTable (view : Bytes) (size : ℕ) (entsize : Option ℕ) : Prop where
  entsize : ∀ actual ∈ entsize, actual = 8
  whole : size % 8 = 0
  inside : size ≤ view.length

theorem checkEntries_whole {view : Bytes} {size : ℕ} {entsize : Option ℕ} (ht : WholeTable view size entsize) :
    checkEntries "DT_RELR" size entsize 8 = .ok () := by
  have hwhole := ht.whole
  unfold checkEntries
  cases entsize with
  | none => exact if_neg (by omega)
  | some actual =>
    obtain rfl := ht.entsize actual rfl
    exact (if_neg (by omega)).trans (if_neg (by omega))

theorem viewU64_whole {view : Bytes} {size i : ℕ} {entsize : Option ℕ} (ht : WholeTable view size entsize) (hi : i < size / 8) :
    viewU64 "DT_RELR entry" view (i * 8) = .ok (UInt64.ofNat (Bytes.leNat (Bytes.slice view (i * 8) 8))) := by
  have hinside := ht.inside
  rw [viewU64, Bytes.get?, if_pos (by omega)]

/-- a table within the limit: its expansion, where the memory for that can be had -/
theorem parseRelrTable_eq {fits : ℕ → Bool} {view : Bytes} {size : ℕ} {entsize : Option ℕ} {limits : Aps2Limits}
    (ht : WholeTable view size entsize) (hlimit : relrCount (relrWords view size) ≤ limits.maxRelocations) :
    parseRelrTable fits view size entsize limits =
      if fits (relrCount (relrWords view size) * SIZEOF_RELA) then
        .ok ((relrExpansion (relrWords view size) 0).map fun r_offset => ⟨r_offset, R_AARCH64_RELATIVE, 0⟩)
      else .error (.allocationFailed (min (relrCount (relrWords view size) * SIZEOF_RELA) (2 ^ 64 - 1))) := by
  have hwords : ((List.range (size / 8)).mapM fun i => viewU64 "DT_RELR entry" view (i * 8)) = .ok (relrWords view size) :=
    mapM_ok fun i hi => viewU64_whole ht (List.mem_range.mp hi)
  rw [parseRelrTable, checkEntries_whole ht, hwords]
  change (if limits.maxRelocations < relrCount (relrWords view size) then _ else _) = _
  rw [if_neg (not_lt.mpr hlimit), relrTargets_eq]
  change (tryReserve fits (relrCount (relrWords view size)) >>= fun _ => _) = _
  rw [tryReserve]
  by_cases hroom : fits (relrCount (relrWords view size) * SIZEOF_RELA)
  · rw [if_pos hroom, if_pos hroom]
    rfl
  · rw [if_neg hroom, if_neg hroom]
    rfl

/-- **What bounds relocations.** Of an accepted set, the mapped bytes are its addresses, each counted once. A table of packed
words within the limit is what its words stand for, as many as were counted before any memory was asked for. No vector has more
than `isize::MAX` bytes. -/
theorem relocation_bounds :
    (∀ segments fileLen image, LoadImage.validate segments fileLen = .ok image → LoadImage.Extent segments image) ∧
      ∀ fits : ℕ → Bool, (∀ bytes, fits bytes → bytes < 2 ^ 63) →
        ∀ view size entsize limits, WholeTable view size entsize → relrCount (relrWords view size) ≤ limits.maxRelocations →
          (fits (relrCount (relrWords view size) * SIZEOF_RELA) →
            ∃ rs, parseRelrTable fits view size entsize limits = .ok rs ∧
              rs = (relrExpansion (relrWords view size) 0).map (fun r_offset => ⟨r_offset, R_AARCH64_RELATIVE, 0⟩) ∧
              rs.length = relrCount (relrWords view size)) ∧
          (¬fits (relrCount (relrWords view size) * SIZEOF_RELA) → ∃ bytes,
            parseRelrTable fits view size entsize limits = .error (.allocationFailed bytes)) := by
  refine ⟨fun segments fileLen image h => LoadImage.validate_extent h, ?_⟩
  intro fits hfits view size entsize limits ht hlimit
  rw [parseRelrTable_eq ht hlimit]
  constructor
  · intro hroom
    rw [if_pos hroom]
    refine ⟨_, rfl, rfl, ?_⟩
    have hlt := hfits _ hroom
    have hcount := relrCount_eq (relrWords view size)
    rw [SIZEOF_RELA] at hlt
    rw [List.length_map]
    omega
  · intro hroom
    exact ⟨_, if_neg hroom⟩

/-- two segments that overlap and one apart: twelve addresses and four; and an address with a bitmap after it -/
theorem relocation_bounds_two :
    LoadImage.Extent [⟨PT_LOAD, 4, 0, 0, 8, 8, 1⟩, ⟨PT_LOAD, 4, 0, 4, 8, 8, 1⟩, ⟨PT_LOAD, 4, 0, 32, 4, 4, 1⟩]
        ⟨0, 36, 36, 16, 1, 3⟩ ∧
      ∃ rs, parseRelrTable (fun bytes => bytes < 2 ^ 63) [16, 0, 0, 0, 0, 0, 0, 0, 11, 0, 0, 0, 0, 0, 0, 0] 16 (some 8) ⟨4, 64⟩ =
        .ok rs ∧ rs.map Rela.r_offset = [16, 24, 40] := by
  constructor
  · exact relocation_bounds.1 _ 8 _ rfl
  · obtain ⟨rs, hrs, heq, -⟩ := (relocation_bounds.2 (fun bytes => bytes < 2 ^ 63) (fun bytes h => of_decide_eq_true h)
      [16, 0, 0, 0, 0, 0, 0, 0, 11, 0, 0, 0, 0, 0, 0, 0] 16 (some 8) ⟨4, 64⟩ ⟨by simp, rfl, by decide⟩ (by decide)).1 (by decide)
    refine ⟨rs, hrs, ?_⟩
    rw [heq]
    decide

end Omnidroid.Elf
