/-
The `PT_LOAD` set of an object and its measured extent (`omni-elf/src/segment.rs` and `image.rs`).
- `LoadImage.validate`: every check on the program headers, and what is measured of them.
- `validate_ok`: what holds of each `PT_LOAD` of a set it accepts.
-/
import Omnidroid.Elf.Types
import Omnidroid.Lib.Answers

namespace Omnidroid.Elf

def PT_LOAD : UInt32 := 1

/-- one program header -/
structure Segment where
  p_type : UInt32
  p_flags : UInt32
  p_offset : ℕ
  p_vaddr : ℕ
  p_filesz : ℕ
  p_memsz : ℕ
  p_align : ℕ
deriving DecidableEq, Repr

namespace Segment

def isLoad (s : Segment) : Bool := s.p_type == PT_LOAD

/-- whether the segment's file image has all of the range -/
def fileContainsVaddr (s : Segment) (vaddr len : ℕ) : Bool :=
  if !s.isLoad then false
  else
    match checkedAdd vaddr len with
    | none => false
    | some end_ => s.p_vaddr ≤ vaddr && end_ ≤ saturatingAdd s.p_vaddr s.p_filesz

end Segment

/-- the measured extent of an image -/
structure LoadImage where
  baseVaddr : ℕ
  endVaddr : ℕ
  span : ℕ
  mappedBytes : ℕ
  maxAlign : ℕ
  segmentCount : ℕ
deriving DecidableEq, Repr

def MAX_IMAGE_SPAN : ℕ := 4 * 1024 * 1024 * 1024

namespace LoadImage

def isPowerOfTwo (n : ℕ) : Bool := 2 ^ n.log2 == n

/-- the checks on one `PT_LOAD`, and where its memory image ends -/
def checkSegment (fileLen index : ℕ) (s : Segment) : Except ElfError ℕ := do
  match checkedAdd s.p_offset s.p_filesz with
  | none => throw (.segmentFileRangeOverflow index s.p_offset s.p_filesz)
  | some fileEnd =>
    if fileLen < fileEnd then throw (.segmentOutsideFile index s.p_offset s.p_filesz fileLen)
    else if s.p_memsz < s.p_filesz then throw (.segmentFileSizeExceedsMemSize index s.p_filesz s.p_memsz)
    else
      match checkedAdd s.p_vaddr s.p_memsz with
      | none => throw (.segmentMemRangeOverflow index s.p_vaddr s.p_memsz)
      | some memEnd =>
        if 1 < s.p_align ∧ !isPowerOfTwo s.p_align then throw (.segmentAlignNotPowerOfTwo index s.p_align)
        else if 1 < s.p_align ∧ s.p_vaddr &&& (s.p_align - 1) ≠ s.p_offset &&& (s.p_align - 1) then
          throw (.segmentAlignMismatch index s.p_vaddr s.p_offset s.p_align)
        else pure memEnd

/-- the loop over the `PT_LOAD`s: the lowest address, the highest end and the largest alignment -/
def measure (fileLen : ℕ) : ℕ → List Segment → ℕ × ℕ × ℕ → Except ElfError (ℕ × ℕ × ℕ)
  | _, [], m => pure m
  | index, s :: loads, (base, end_, align) => do
    let memEnd ← checkSegment fileLen index s
    measure fileLen (index + 1) loads (min base s.p_vaddr, max end_ memEnd, max align s.p_align)

/-- the measure of the union of ranges in ascending order, from the one under way on; none past 64 bits -/
def unionSize : Option (ℕ × ℕ) → List (ℕ × ℕ) → ℕ → Option ℕ
  | none, [], total => some total
  | some (start, end_), [], total => checkedAdd total (end_ - start)
  | none, r :: rs, total => unionSize (some r) rs total
  | some (start, end_), (start', end') :: rs, total =>
    if start' ≤ end_ then unionSize (some (start, max end_ end')) rs total
    else
      match checkedAdd total (end_ - start) with
      | none => none
      | some total => unionSize (some (start', end')) rs total

def validate (segments : List Segment) (fileLen : ℕ) : Except ElfError LoadImage := do
  let loads := segments.filter Segment.isLoad
  if loads.isEmpty then throw .noLoadSegments
  else
    let (base, end_, align) ← measure fileLen 0 loads (2 ^ 64 - 1, 0, 0)
    if end_ < base then throw (.imageSpanOverflow base end_)
    else if MAX_IMAGE_SPAN < end_ - base then throw (.imageSpanTooLarge (end_ - base) MAX_IMAGE_SPAN)
    else
      let ranges := (loads.insertionSort fun s t => s.p_vaddr ≤ t.p_vaddr).map fun s => (s.p_vaddr, s.p_vaddr + s.p_memsz)
      match unionSize none ranges 0 with
      | none => throw (.imageSpanOverflow base end_)
      | some mappedBytes => pure ⟨base, end_, end_ - base, mappedBytes, align, loads.length⟩

end LoadImage

namespace LoadImage

/-- what an accepted set says of each of its `PT_LOAD`s -/
structure Sound (fileLen : ℕ) (s : Segment) : Prop where
  in_file : s.p_offset + s.p_filesz ≤ fileLen
  filesz_le : s.p_filesz ≤ s.p_memsz
  mem_lt : s.p_vaddr + s.p_memsz < 2 ^ 64
  align : s.p_align ≤ 1 ∨ ∃ k, s.p_align = 2 ^ k

theorem checkSegment_ok {fileLen index memEnd : ℕ} {s : Segment} (h : checkSegment fileLen index s = .ok memEnd) :
    Sound fileLen s ∧ memEnd = s.p_vaddr + s.p_memsz := by
  simp only [checkSegment, checkedAdd] at h
  split at h
  case h_1 => cases h
  case h_2 fileEnd hfile =>
    split at hfile
    case isFalse => cases hfile
    cases hfile
    split at h
    · cases h
    rename_i hin
    split at h
    · cases h
    rename_i hsize
    split at h
    case h_1 => cases h
    case h_2 end_ hmem =>
      split at hmem
      case isFalse => cases hmem
      rename_i hlt
      cases hmem
      split at h
      · cases h
      rename_i hpow
      split at h
      · cases h
      cases h
      refine ⟨⟨by omega, by omega, hlt, ?_⟩, rfl⟩
      rcases Nat.lt_or_ge 1 s.p_align with h1 | h1
      · refine .inr ⟨s.p_align.log2, ?_⟩
        have htwo : isPowerOfTwo s.p_align = true := by
          by_contra hno
          exact hpow ⟨h1, by simpa using hno⟩
        exact (beq_iff_eq.mp htwo).symm
      · exact .inl h1

theorem measure_ok {fileLen index : ℕ} {loads : List Segment} {m out : ℕ × ℕ × ℕ}
    (h : measure fileLen index loads m = .ok out) :
    out.1 ≤ m.1 ∧ m.2.1 ≤ out.2.1 ∧
      ∀ s ∈ loads, Sound fileLen s ∧ out.1 ≤ s.p_vaddr ∧ s.p_vaddr + s.p_memsz ≤ out.2.1 := by
  induction loads generalizing index m with
  | nil =>
    cases h
    exact ⟨le_refl _, le_refl _, by simp⟩
  | cons s loads ih =>
    obtain ⟨base, end_, align⟩ := m
    obtain ⟨memEnd, hcheck, h⟩ := except_bind_ok.mp h
    obtain ⟨hsound, rfl⟩ := checkSegment_ok hcheck
    obtain ⟨hbase, hend, hrest⟩ := ih h
    simp only at hbase hend ⊢
    refine ⟨by omega, by omega, ?_⟩
    intro t ht
    rcases List.mem_cons.mp ht with rfl | ht
    · exact ⟨hsound, by omega, by omega⟩
    · exact hrest t ht

theorem validate_ok {segments : List Segment} {fileLen : ℕ} {image : LoadImage}
    (h : validate segments fileLen = .ok image) {s : Segment} (hs : s ∈ segments) (hload : s.isLoad = true) :
    Sound fileLen s ∧ image.baseVaddr ≤ s.p_vaddr ∧ s.p_vaddr + s.p_memsz ≤ image.endVaddr := by
  simp only [validate] at h
  split at h
  · cases h
  obtain ⟨⟨base, end_, align⟩, hmeasure, h⟩ := except_bind_ok.mp h
  have hall := (measure_ok hmeasure).2.2 s (List.mem_filter.mpr ⟨hs, hload⟩)
  simp only at h
  split at h
  · cases h
  split at h
  · cases h
  split at h
  · cases h
  cases h
  exact hall

end LoadImage
end Omnidroid.Elf
