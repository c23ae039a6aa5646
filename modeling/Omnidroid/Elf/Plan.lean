/-
The plan of what a loader maps (`omni-elf/src/loader/plan.rs`), and the bytes its pieces and zero fills show
(`load_into` in `loader/mod.rs`).
- `LoadPlan.build`: the pieces of every `PT_LOAD` and the zero fills owed after them, with the checks made on the way.
- `LoadPlan.mapped`: the memory once the pieces are mapped and the fills made.
- `planSegment_ok`: one segment's pieces tile its pages and show its image.
- `plan_shows_image`: so do all of them together.
-/
import Omnidroid.Elf.Image
import Omnidroid.Lib.Tiles
import Omnidroid.Mm.Space

namespace Omnidroid.Elf

open Mm (Protection)

def PF_X : UInt32 := 1
def PF_W : UInt32 := 2
def PF_R : UInt32 := 4

def MAX_SEGMENT_ALIGN : ℕ := 2 * 1024 * 1024

/-! ## The plan -/

inductive PieceSource where
  | file (offset : ℕ)
  | fileTailCopy (offset len : ℕ)
  | zero
deriving DecidableEq, Repr

structure Piece where
  segment : ℕ
  vaddr : ℕ
  len : ℕ
  source : PieceSource
  rest : Protection
  anonymous : Bool
deriving DecidableEq, Repr

namespace Piece

def vaddrEnd (p : Piece) : ℕ := p.vaddr + p.len

/-- an address of the piece -/
def has (p : Piece) (x : ℕ) : Prop := p.vaddr ≤ x ∧ x < p.vaddr + p.len

instance (p : Piece) (x : ℕ) : Decidable (p.has x) := inferInstanceAs (Decidable (_ ∧ _))

end Piece

structure ZeroFill where
  vaddr : ℕ
  len : ℕ
deriving DecidableEq, Repr

structure LoadPlan where
  imageStart : ℕ
  imageEnd : ℕ
  span : ℕ
  baseAlign : ℕ
  pieces : List Piece
  zeroFills : List ZeroFill
deriving DecidableEq, Repr

/-- the page's size is a power of two -/
def pageDown (value page : ℕ) : ℕ := value / page * page

def pageUp (what : String) (value page : ℕ) : Except LoadError ℕ :=
  if value + (page - 1) < 2 ^ 64 then .ok (roundUp page value) else .error (.addressOverflow what 0 value)

def restProtection (index : ℕ) (flags : UInt32) : Except LoadError Protection :=
  let w := flags &&& PF_W != 0
  let x := flags &&& PF_X != 0
  let r := flags &&& PF_R != 0
  match r, w, x with
  | _, true, true => .error (.writableExecutableSegment index flags)
  | _, true, false => .ok .readWrite
  | _, false, true => .ok .readExecute
  | true, false, false => .ok .read
  | false, false, false => .ok .none

namespace LoadPlan

/-- the alignments, and the largest of them -/
def maxAlign (page : ℕ) : List (ℕ × Segment) → ℕ → Except LoadError ℕ
  | [], align => .ok align
  | (index, seg) :: loads, align =>
    if 1 < seg.p_align ∧ seg.p_align < page then .error (.alignBelowPageSize index seg.p_align page)
    else if MAX_SEGMENT_ALIGN < seg.p_align then .error (.alignTooLarge index seg.p_align MAX_SEGMENT_ALIGN)
    else maxAlign page loads (max align seg.p_align)

/-- where the part of a segment that comes from the file ends -/
def fileNeedEnd (page : ℕ) (seg : Segment) (memStart memEnd : ℕ) : Except LoadError ℕ :=
  if seg.p_filesz = 0 then .ok memStart
  else do
    let up ← pageUp "page_up(p_vaddr + p_filesz)" (seg.p_vaddr + seg.p_filesz) page
    pure (min up memEnd)

/-- that part's pieces: a view of the file's whole pages, and a copy of what the file has after them -/
def filePart (page fileLen index : ℕ) (seg : Segment) (memStart memEnd needEnd : ℕ) (rest : Protection) :
    Except LoadError (List Piece × List ZeroFill) :=
  if needEnd ≤ memStart then .ok ([], [])
  else
    let bias := seg.p_vaddr - memStart
    let fileOffset := seg.p_offset - bias
    if seg.p_offset < bias then .error (.segmentOffsetBelowPageBias index seg.p_offset seg.p_vaddr bias)
    else if fileOffset % page ≠ 0 then .error (.segmentOffsetNotCongruent index seg.p_offset seg.p_vaddr page)
    else
      let want := needEnd - memStart
      let available := pageDown fileLen page - fileOffset
      let viewLen := min want available
      let view := if 0 < viewLen then [⟨index, memStart, viewLen, .file fileOffset, rest, false⟩] else []
      let tailLen := want - viewLen
      let copyFrom := fileOffset + viewLen
      let copyLen := min (min (seg.p_offset + seg.p_filesz) fileLen - copyFrom) tailLen
      let tail :=
        if viewLen < want then [⟨index, memStart + viewLen, tailLen, .fileTailCopy copyFrom copyLen, rest, true⟩] else []
      let segFileEnd := seg.p_vaddr + seg.p_filesz
      let upTo := min (memStart + viewLen) memEnd
      let fills :=
        if seg.p_filesz < seg.p_memsz ∧ segFileEnd < memStart + viewLen ∧ segFileEnd < upTo then
          [⟨segFileEnd, upTo - segFileEnd⟩] else []
      .ok (view ++ tail, fills)

/-- the whole pages of `.bss` -/
def bssPart (index needEnd memEnd : ℕ) (rest : Protection) : List Piece :=
  if needEnd < memEnd then [⟨index, needEnd, memEnd - needEnd, .zero, rest, true⟩] else []

/-- one segment, after the one before it -/
def planSegment (page fileLen index : ℕ) (seg : Segment) (previous : Option (ℕ × ℕ × ℕ)) :
    Except LoadError (ℕ × ℕ × List Piece × List ZeroFill) := do
  let memStart := pageDown seg.p_vaddr page
  let memEnd ← pageUp "page_up(p_vaddr + p_memsz)" (saturatingAdd seg.p_vaddr seg.p_memsz) page
  match previous.filter fun p => memStart < p.2.2 with
  | some (prevIndex, prevStart, prevEnd) =>
    throw (.segmentsOverlap prevIndex prevStart prevEnd index memStart memEnd)
  | none => do
    let rest ← restProtection index seg.p_flags
    let needEnd ← fileNeedEnd page seg memStart memEnd
    let (pieces, fills) ← filePart page fileLen index seg memStart memEnd needEnd rest
    pure (memStart, memEnd, pieces ++ bssPart index needEnd memEnd rest, fills)

/-- the loop over the segments, in ascending order -/
def planSegments (page fileLen : ℕ) : List (ℕ × Segment) → Option (ℕ × ℕ × ℕ) →
    Except LoadError (List Piece × List ZeroFill)
  | [], _ => .ok ([], [])
  | (index, seg) :: loads, previous => do
    let (memStart, memEnd, pieces, fills) ← planSegment page fileLen index seg previous
    let (pieces', fills') ← planSegments page fileLen loads (some (index, memStart, memEnd))
    pure (pieces ++ pieces', fills ++ fills')

/-- the `PT_LOAD`s with their places in the program-header table -/
def loads (segments : List Segment) : List (ℕ × Segment) :=
  (segments.zipIdx.filter fun p => p.1.isLoad).map fun p => (p.2, p.1)

def build (segments : List Segment) (load : LoadImage) (fileLen page : ℕ) : Except LoadError LoadPlan := do
  let align ← maxAlign page (loads segments) page
  let imageStart := load.baseVaddr / align * align
  let imageEnd ← pageUp "page_up(end_vaddr)" load.endVaddr page
  let (pieces, zeroFills) ← planSegments page fileLen
    ((loads segments).insertionSort fun p q => p.2.p_vaddr ≤ q.2.p_vaddr) none
  pure ⟨imageStart, imageEnd, imageEnd - imageStart, align, pieces, zeroFills⟩

end LoadPlan

/-! ## What it shows -/

/-- the byte a piece has at one of its addresses, once it is mapped -/
def Piece.byte (file : Bytes) (p : Piece) (x : ℕ) : UInt8 :=
  match p.source with
  | .file offset => file.getD (offset + (x - p.vaddr)) 0
  | .fileTailCopy offset len => if x - p.vaddr < len then file.getD (offset + (x - p.vaddr)) 0 else 0
  | .zero => 0

def mapPiece (file : Bytes) (mem : ℕ → UInt8) (p : Piece) : ℕ → UInt8 := fun x => if p.has x then p.byte file x else mem x

def zeroOut (mem : ℕ → UInt8) (z : ZeroFill) : ℕ → UInt8 := fun x =>
  if z.vaddr ≤ x ∧ x < z.vaddr + z.len then 0 else mem x

/-- the pieces mapped one after another, and then the fills made; by unbiased address -/
def LoadPlan.mapped (file : Bytes) (plan : LoadPlan) (mem : ℕ → UInt8) : ℕ → UInt8 :=
  plan.zeroFills.foldl zeroOut (plan.pieces.foldl (mapPiece file) mem)

/-! ## One segment -/

theorem pageUp_ok {what : String} {value page out : ℕ} (h : pageUp what value page = .ok out) : out = roundUp page value := by
  simp only [pageUp] at h
  split at h <;> cases h
  rfl

theorem dvd_pageDown (value page : ℕ) : page ∣ pageDown value page := Dvd.intro_left _ rfl

theorem pageDown_le (value page : ℕ) : pageDown value page ≤ value := Nat.div_mul_le_self _ _

theorem le_pageDown {value page a : ℕ} (hp : 0 < page) (ha : page ∣ a) (h : a ≤ value) : a ≤ pageDown value page := by
  obtain ⟨k, rfl⟩ := ha
  rw [pageDown, Nat.mul_comm page k]
  apply Nat.mul_le_mul_right
  rw [Nat.le_div_iff_mul_le hp, Nat.mul_comm]
  exact h

theorem restProtection_ok {index : ℕ} {flags : UInt32} {prot : Protection} (h : restProtection index flags = .ok prot) :
    prot ≠ .readWriteExecute := by
  simp only [restProtection] at h
  split at h <;> cases h
  all_goals decide

/-- the pages of a segment -/
def Segment.pages (page : ℕ) (s : Segment) (x : ℕ) : Prop :=
  pageDown s.p_vaddr page ≤ x ∧ x < roundUp page (s.p_vaddr + s.p_memsz)

def ZeroFill.has (z : ZeroFill) (x : ℕ) : Prop := z.vaddr ≤ x ∧ x < z.vaddr + z.len

instance (z : ZeroFill) (x : ℕ) : Decidable (z.has x) := inferInstanceAs (Decidable (_ ∧ _))

/-- whole pages, of a view that the file has all of, and not both writable and executable -/
structure Piece.Whole (page fileLen : ℕ) (p : Piece) : Prop where
  vaddr_dvd : page ∣ p.vaddr
  len_dvd : page ∣ p.len
  rest : p.rest ≠ .readWriteExecute
  view : ∀ offset, p.source = .file offset → page ∣ offset ∧ offset + p.len ≤ fileLen

/-- the pieces and fills of a segment show its image: the file's bytes, and nought after them where there is more memory -/
structure ShowsSegment (file : Bytes) (page : ℕ) (s : Segment) (pieces : List Piece) (fills : List ZeroFill) : Prop where
  image : ∀ x, s.p_vaddr ≤ x → x < s.p_vaddr + s.p_filesz → (∀ z ∈ fills, ¬z.has x) ∧
    ∀ p ∈ pieces, p.has x → p.byte file x = file.getD (s.p_offset + (x - s.p_vaddr)) 0
  zero : s.p_filesz < s.p_memsz → ∀ x, s.p_vaddr + s.p_filesz ≤ x → x < roundUp page (s.p_vaddr + s.p_memsz) →
    (∃ z ∈ fills, z.has x) ∨ ∀ p ∈ pieces, p.has x → p.byte file x = 0

theorem mem_ifOne {α : Type} {c : Prop} [Decidable c] {a b : α} : b ∈ (if c then [a] else []) ↔ c ∧ b = a := by
  split <;> simp_all

theorem tiles_ifOne {α : Type} {start len : α → ℕ} {c : Prop} [Decidable c] {a : α} {lo hi : ℕ}
    (h : c → start a = lo ∧ 0 < len a ∧ lo + len a = hi) (h' : ¬c → lo = hi) :
    Tiles start len lo (if c then [a] else []) hi := by
  split
  case isTrue hc => exact h hc
  case isFalse hc => exact h' hc

namespace LoadPlan

theorem fileNeedEnd_ok {page memStart needEnd : ℕ} {s : Segment} (hp : 0 < page) (hsize : s.p_filesz ≤ s.p_memsz)
    (h : fileNeedEnd page s memStart (roundUp page (s.p_vaddr + s.p_memsz)) = .ok needEnd) :
    needEnd = if s.p_filesz = 0 then memStart else roundUp page (s.p_vaddr + s.p_filesz) := by
  rw [fileNeedEnd] at h
  split at h
  case isTrue hz =>
    cases h
    rw [if_pos hz]
  case isFalse hz =>
    obtain ⟨up, hup, h⟩ := except_bind_ok.mp h
    obtain rfl := pageUp_ok hup
    cases h
    rw [if_neg hz]
    exact Nat.min_eq_left (roundUp_mono hp (by omega))

/-- the pieces from the file lie end to end up to `needEnd`, and show the file; the fill is the rest of the view -/
theorem filePart_ok {page index needEnd : ℕ} {file : Bytes} {s : Segment} {rest : Protection} {pieces : List Piece}
    {fills : List ZeroFill} (hp : 0 < page) (hrest : rest ≠ .readWriteExecute)
    (hneed : needEnd = if s.p_filesz = 0 then pageDown s.p_vaddr page else roundUp page (s.p_vaddr + s.p_filesz))
    (hend : needEnd ≤ roundUp page (s.p_vaddr + s.p_memsz))
    (h : filePart page file.length index s (pageDown s.p_vaddr page) (roundUp page (s.p_vaddr + s.p_memsz)) needEnd rest =
      .ok (pieces, fills)) :
    Tiles Piece.vaddr Piece.len (pageDown s.p_vaddr page) pieces needEnd ∧
      (∀ p ∈ pieces, p.Whole page file.length) ∧
      (∀ z ∈ fills, s.p_vaddr + s.p_filesz ≤ z.vaddr ∧ z.vaddr + z.len ≤ needEnd) ∧
      (∀ p ∈ pieces, ∀ x, s.p_vaddr ≤ x → x < s.p_vaddr + s.p_filesz → p.has x →
        p.byte file x = file.getD (s.p_offset + (x - s.p_vaddr)) 0) ∧
      (s.p_filesz < s.p_memsz → ∀ p ∈ pieces, ∀ x, s.p_vaddr + s.p_filesz ≤ x → p.has x →
        (∃ z ∈ fills, z.has x) ∨ p.byte file x = 0) := by
  have hdown := pageDown_le s.p_vaddr page
  rw [filePart] at h
  split at h
  case isTrue hle =>
    cases h
    have hempty : s.p_filesz = 0 := by
      by_contra hne
      rw [if_neg hne] at hneed
      have := le_roundUp hp (s.p_vaddr + s.p_filesz)
      omega
    rw [if_pos hempty] at hneed
    exact ⟨hneed.symm, by simp, by simp, by simp, by simp⟩
  case isFalse hlt =>
    have hsome : s.p_filesz ≠ 0 := by
      intro hz
      rw [if_pos hz] at hneed
      omega
    rw [if_neg hsome] at hneed
    simp only at h
    split at h
    · cases h
    rename_i hbias
    split at h
    · cases h
    rename_i hcong
    have hoff : page ∣ s.p_offset - (s.p_vaddr - pageDown s.p_vaddr page) := Nat.dvd_of_mod_eq_zero (not_not.mp hcong)
    have hA := dvd_pageDown s.p_vaddr page
    have hN : page ∣ needEnd := by
      rw [hneed]
      exact dvd_roundUp _ _
    have hV : page ∣ min (needEnd - pageDown s.p_vaddr page)
        (pageDown file.length page - (s.p_offset - (s.p_vaddr - pageDown s.p_vaddr page))) := by
      rcases Nat.le_total (needEnd - pageDown s.p_vaddr page)
        (pageDown file.length page - (s.p_offset - (s.p_vaddr - pageDown s.p_vaddr page))) with hle | hle
      · rw [Nat.min_eq_left hle]
        exact Nat.dvd_sub hN hA
      · rw [Nat.min_eq_right hle]
        exact Nat.dvd_sub (dvd_pageDown _ _) hoff
    have hfile := pageDown_le file.length page
    have hfrom : s.p_vaddr + s.p_filesz ≤ needEnd := by
      rw [hneed]
      exact le_roundUp hp _
    have hbelow : needEnd < s.p_vaddr + s.p_filesz + page := by
      rw [hneed]
      exact roundUp_lt hp _
    generalize hAv : pageDown s.p_vaddr page = A at *
    generalize hOv : s.p_offset - (s.p_vaddr - A) = off at *
    generalize hVv : min (needEnd - A) (pageDown file.length page - off) = V at *
    -- a piece after the view starts a page or more below the end of what is needed, so its first byte is the file's
    have htail : V < needEnd - A → A + V < s.p_vaddr + s.p_filesz := by
      intro hlt'
      have hgap : page ∣ needEnd - A - V := Nat.dvd_sub (Nat.dvd_sub hN hA) hV
      have := Nat.le_of_dvd (by omega) hgap
      omega
    obtain ⟨rfl, rfl⟩ := Prod.mk.inj (Except.ok.inj h)
    have hoffset : off + (s.p_vaddr - A) = s.p_offset := by omega
    have hwant : V ≤ needEnd - A := hVv ▸ min_le_left _ _
    have havailable : V ≤ pageDown file.length page - off := hVv ▸ min_le_right _ _
    clear hVv hcong hneed hbelow hOv
    refine ⟨?_, ?_, ?_, ?_, ?_⟩
    · apply @Tiles.append _ _ _ _ (A + V)
      · apply tiles_ifOne
        · intro hpos
          exact ⟨rfl, hpos, rfl⟩
        · intro hzero
          omega
      · apply tiles_ifOne
        · intro hlt'
          refine ⟨rfl, by simp only; omega, by simp only; omega⟩
        · intro hge
          omega
    · intro q hq
      rcases List.mem_append.mp hq with hq | hq
      · obtain ⟨hpos, rfl⟩ := mem_ifOne.mp hq
        refine ⟨hA, hV, hrest, ?_⟩
        intro offset hoffset'
        cases hoffset'
        exact ⟨hoff, by simp only; omega⟩
      · obtain ⟨hlt', rfl⟩ := mem_ifOne.mp hq
        refine ⟨Nat.dvd_add hA hV, Nat.dvd_sub (Nat.dvd_sub hN hA) hV, hrest, ?_⟩
        intro offset hoffset'
        cases hoffset'
    · clear htail
      intro z hz
      obtain ⟨hfill, rfl⟩ := mem_ifOne.mp hz
      simp only
      omega
    · intro q hq x hx hx' hhas
      rcases List.mem_append.mp hq with hq | hq
      · have hindex : off + (x - A) = s.p_offset + (x - s.p_vaddr) := by
          clear htail
          omega
        obtain ⟨-, rfl⟩ := mem_ifOne.mp hq
        simp only [Piece.byte, hindex]
      · obtain ⟨hlt', rfl⟩ := mem_ifOne.mp hq
        simp only [Piece.has] at hhas
        have htail := htail hlt'
        have hindex : off + V + (x - (A + V)) = s.p_offset + (x - s.p_vaddr) := by omega
        simp only [Piece.byte, hindex]
        split
        · rfl
        case isFalse hover =>
          -- past the file's end: the copy has stopped, and there is no byte
          rw [List.getD_eq_getElem?_getD, List.getElem?_eq_none (by omega)]
          rfl
    · intro hbss q hq x hx hhas
      rcases List.mem_append.mp hq with hq | hq
      · clear htail
        obtain ⟨hpos, rfl⟩ := mem_ifOne.mp hq
        simp only [Piece.has] at hhas
        refine .inl ⟨_, mem_ifOne.mpr ⟨by omega, rfl⟩, ?_⟩
        simp only [ZeroFill.has]
        omega
      · obtain ⟨hlt', rfl⟩ := mem_ifOne.mp hq
        simp only [Piece.has] at hhas
        have htail := htail hlt'
        refine .inr ?_
        simp only [Piece.byte]
        apply if_neg
        omega

/-- what one segment adds to the plan: pieces over its pages, and fills in them -/
structure Planned (file : Bytes) (page : ℕ) (s : Segment) (pieces : List Piece) (fills : List ZeroFill) : Prop where
  tiles : Tiles Piece.vaddr Piece.len (pageDown s.p_vaddr page) pieces (roundUp page (s.p_vaddr + s.p_memsz))
  whole : ∀ p ∈ pieces, p.Whole page file.length
  fills_in : ∀ z ∈ fills, s.p_vaddr + s.p_filesz ≤ z.vaddr ∧ z.vaddr + z.len ≤ roundUp page (s.p_vaddr + s.p_memsz)
  shows : ShowsSegment file page s pieces fills

theorem planSegment_ok {page index a b : ℕ} {file : Bytes} {s : Segment} {previous : Option (ℕ × ℕ × ℕ)}
    {pieces : List Piece} {fills : List ZeroFill} (hp : 0 < page) (hsize : s.p_filesz ≤ s.p_memsz)
    (hmem : s.p_vaddr + s.p_memsz < 2 ^ 64)
    (h : planSegment page file.length index s previous = .ok (a, b, pieces, fills)) :
    a = pageDown s.p_vaddr page ∧ b = roundUp page (s.p_vaddr + s.p_memsz) ∧ (∀ q ∈ previous, q.2.2 ≤ a) ∧
      Planned file page s pieces fills := by
  simp only [planSegment] at h
  obtain ⟨memEnd, hend, h⟩ := except_bind_ok.mp h
  have hsat : saturatingAdd s.p_vaddr s.p_memsz = s.p_vaddr + s.p_memsz := by
    unfold saturatingAdd
    omega
  rw [hsat] at hend
  obtain rfl := pageUp_ok hend
  split at h
  case h_1 => cases h
  case h_2 hprev =>
    obtain ⟨rest, hrest, h⟩ := except_bind_ok.mp h
    obtain ⟨needEnd, hneed, h⟩ := except_bind_ok.mp h
    obtain ⟨⟨front, fills'⟩, hpart, h⟩ := except_bind_ok.mp h
    cases h
    have hneed := fileNeedEnd_ok hp hsize hneed
    have hle : needEnd ≤ roundUp page (s.p_vaddr + s.p_memsz) := by
      rw [hneed]
      split
      · exact (pageDown_le _ _).trans ((Nat.le_add_right _ _).trans (le_roundUp hp _))
      · exact roundUp_mono hp (by omega)
    obtain ⟨htiles, hwhole, hfills, himage, hzero⟩ := filePart_ok hp (restProtection_ok hrest) hneed hle hpart
    have hneed_dvd : page ∣ needEnd := by
      rw [hneed]
      split
      · exact dvd_pageDown _ _
      · exact dvd_roundUp _ _
    have hbss : ∀ q ∈ bssPart index needEnd (roundUp page (s.p_vaddr + s.p_memsz)) rest,
        needEnd ≤ q.vaddr ∧ q.Whole page file.length ∧ ∀ x, q.byte file x = 0 := by
      intro q hq
      obtain ⟨hlt, rfl⟩ := mem_ifOne.mp hq
      refine ⟨le_refl _, ⟨hneed_dvd, Nat.dvd_sub (dvd_roundUp _ _) hneed_dvd, restProtection_ok hrest, ?_⟩, fun x => rfl⟩
      intro offset hoffset
      cases hoffset
    have hfile_end : s.p_filesz ≠ 0 → s.p_vaddr + s.p_filesz ≤ needEnd := by
      intro hne
      rw [hneed, if_neg hne]
      exact le_roundUp hp _
    refine ⟨rfl, rfl, ?_, ?_, ?_, ?_, ?_⟩
    · intro q hq
      have := Option.filter_eq_none_iff.mp hprev q hq
      simpa using this
    · apply htiles.append
      apply tiles_ifOne
      · intro hlt
        exact ⟨rfl, by simp only; omega, by simp only; omega⟩
      · intro hge
        omega
    · intro q hq
      rcases List.mem_append.mp hq with hq | hq
      · exact hwhole q hq
      · exact (hbss q hq).2.1
    · intro z hz
      have := hfills z hz
      omega
    · constructor
      · intro x hx hx'
        constructor
        · intro z hz hin
          have := (hfills z hz).1
          simp only [ZeroFill.has] at hin
          omega
        · intro q hq hhas
          rcases List.mem_append.mp hq with hq | hq
          · exact himage q hq x hx hx' hhas
          · have := (hbss q hq).1
            have := hfile_end (by omega)
            simp only [Piece.has] at hhas
            omega
      · intro hmore x hx hx'
        by_cases hfill : ∃ z ∈ fills', z.has x
        · exact .inl hfill
        · refine .inr ?_
          intro q hq hhas
          rcases List.mem_append.mp hq with hq | hq
          · exact (hzero hmore q hq x hx hhas).resolve_left hfill
          · exact (hbss q hq).2.2 x

/-! ## All of them -/

/-- what segments in ascending order add to the plan, none of them with a page below `lo` -/
structure PlannedAll (file : Bytes) (page lo : ℕ) (loads : List (ℕ × Segment)) (pieces : List Piece)
    (fills : List ZeroFill) : Prop where
  from_lo : ∀ q ∈ loads, lo ≤ pageDown q.2.p_vaddr page
  pos : ∀ p ∈ pieces, 0 < p.len
  pairwise : pieces.Pairwise fun p q => p.vaddr + p.len ≤ q.vaddr
  cover : ∀ x, (∃ p ∈ pieces, p.has x) ↔ ∃ q ∈ loads, q.2.pages page x
  whole : ∀ p ∈ pieces, p.Whole page file.length
  fills_in : ∀ z ∈ fills, ∃ q ∈ loads, q.2.p_vaddr + q.2.p_filesz ≤ z.vaddr ∧
    z.vaddr + z.len ≤ roundUp page (q.2.p_vaddr + q.2.p_memsz)
  shows : ∀ q ∈ loads, ShowsSegment file page q.2 pieces fills

/-- no piece, and no fill, below `lo` -/
theorem PlannedAll.above {file : Bytes} {page lo : ℕ} {loads : List (ℕ × Segment)} {pieces : List Piece}
    {fills : List ZeroFill} (h : PlannedAll file page lo loads pieces fills) :
    (∀ p ∈ pieces, lo ≤ p.vaddr) ∧ ∀ z ∈ fills, lo ≤ z.vaddr := by
  constructor
  · intro p hp
    have hpos := h.pos p hp
    obtain ⟨q, hq, hpage, -⟩ := (h.cover p.vaddr).mp ⟨p, hp, le_refl _, by omega⟩
    exact (h.from_lo q hq).trans hpage
  · intro z hz
    obtain ⟨q, hq, hz', -⟩ := h.fills_in z hz
    have := h.from_lo q hq
    have := pageDown_le q.2.p_vaddr page
    omega

/-- one more segment before them -/
theorem PlannedAll.cons {file : Bytes} {page lo i : ℕ} {s : Segment} {loads : List (ℕ × Segment)} {ps ps' : List Piece}
    {fs fs' : List ZeroFill} (hp : 0 < page) (hsize : s.p_filesz ≤ s.p_memsz) (hlo : lo ≤ pageDown s.p_vaddr page)
    (h : Planned file page s ps fs)
    (h' : PlannedAll file page (roundUp page (s.p_vaddr + s.p_memsz)) loads ps' fs') :
    PlannedAll file page lo ((i, s) :: loads) (ps ++ ps') (fs ++ fs') := by
  have hend : pageDown s.p_vaddr page ≤ roundUp page (s.p_vaddr + s.p_memsz) :=
    (pageDown_le _ _).trans ((Nat.le_add_right _ _).trans (le_roundUp hp _))
  obtain ⟨habove, habove'⟩ := h'.above
  have hup := le_roundUp hp (s.p_vaddr + s.p_memsz)
  have hlater : ∀ q ∈ loads, roundUp page (s.p_vaddr + s.p_memsz) ≤ q.2.p_vaddr := by
    intro q hq
    exact (h'.from_lo q hq).trans (pageDown_le _ _)
  refine ⟨?_, ?_, ?_, ?_, ?_, ?_, ?_⟩
  · intro q hq
    rcases List.mem_cons.mp hq with rfl | hq
    · exact hlo
    · exact hlo.trans (hend.trans (h'.from_lo q hq))
  · intro p hp
    rcases List.mem_append.mp hp with hp | hp
    · exact (h.tiles.bounds hp).2.2
    · exact h'.pos p hp
  · refine List.pairwise_append.mpr ⟨h.tiles.pairwise, h'.pairwise, ?_⟩
    intro p hp q hq
    exact (h.tiles.bounds hp).2.1.trans (habove q hq)
  · intro x
    have hfront := h.tiles.cover x
    have hback := h'.cover x
    simp only [List.mem_append, List.mem_cons, or_and_right, exists_or, exists_eq_left]
    exact or_congr hfront hback
  · intro p hp
    rcases List.mem_append.mp hp with hp | hp
    · exact h.whole p hp
    · exact h'.whole p hp
  · intro z hz
    rcases List.mem_append.mp hz with hz | hz
    · exact ⟨(i, s), List.mem_cons_self, h.fills_in z hz⟩
    · obtain ⟨q, hq, hin⟩ := h'.fills_in z hz
      exact ⟨q, List.mem_cons_of_mem _ hq, hin⟩
  · intro q hq
    rcases List.mem_cons.mp hq with rfl | hq
    · -- the later segments' pieces and fills are above this one's pages
      show ShowsSegment file page s _ _
      constructor
      · intro x hx hx'
        obtain ⟨hfree, hbytes⟩ := h.shows.image x hx hx'
        constructor
        · intro z hz hin
          rcases List.mem_append.mp hz with hz | hz
          · exact hfree z hz hin
          · have := habove' z hz
            simp only [ZeroFill.has] at hin
            omega
        · intro p hp hhas
          rcases List.mem_append.mp hp with hp | hp
          · exact hbytes p hp hhas
          · have := habove p hp
            simp only [Piece.has] at hhas
            omega
      · intro hmore x hx hx'
        rcases h.shows.zero hmore x hx hx' with ⟨z, hz, hin⟩ | hzero
        · exact .inl ⟨z, List.mem_append_left _ hz, hin⟩
        · refine .inr ?_
          intro p hp hhas
          rcases List.mem_append.mp hp with hp | hp
          · exact hzero p hp hhas
          · have := habove p hp
            simp only [Piece.has] at hhas
            omega
    · -- this segment's are below the later ones' pages
      have hq' := hlater q hq
      constructor
      · intro x hx hx'
        obtain ⟨hfree, hbytes⟩ := (h'.shows q hq).image x hx hx'
        constructor
        · intro z hz hin
          rcases List.mem_append.mp hz with hz | hz
          · have := (h.fills_in z hz).2
            simp only [ZeroFill.has] at hin
            omega
          · exact hfree z hz hin
        · intro p hp hhas
          rcases List.mem_append.mp hp with hp | hp
          · have := (h.tiles.bounds hp).2.1
            simp only [Piece.has] at hhas
            omega
          · exact hbytes p hp hhas
      · intro hmore x hx hx'
        rcases (h'.shows q hq).zero hmore x hx hx' with ⟨z, hz, hin⟩ | hzero
        · exact .inl ⟨z, List.mem_append_right _ hz, hin⟩
        · refine .inr ?_
          intro p hp hhas
          rcases List.mem_append.mp hp with hp | hp
          · have := (h.tiles.bounds hp).2.1
            simp only [Piece.has] at hhas
            omega
          · exact hzero p hp hhas

theorem planSegments_ok {page : ℕ} {file : Bytes} {loads : List (ℕ × Segment)} {previous : Option (ℕ × ℕ × ℕ)}
    {pieces : List Piece} {fills : List ZeroFill} (hp : 0 < page)
    (hsound : ∀ q ∈ loads, q.2.p_filesz ≤ q.2.p_memsz ∧ q.2.p_vaddr + q.2.p_memsz < 2 ^ 64)
    (h : planSegments page file.length loads previous = .ok (pieces, fills)) :
    PlannedAll file page (previous.elim 0 fun q => q.2.2) loads pieces fills := by
  induction loads generalizing previous pieces fills with
  | nil =>
    cases h
    constructor <;> simp
  | cons q loads ih =>
    obtain ⟨i, s⟩ := q
    obtain ⟨⟨a, b, ps, fs⟩, hone, h⟩ := except_bind_ok.mp h
    obtain ⟨⟨ps', fs'⟩, hrest, h⟩ := except_bind_ok.mp h
    cases h
    obtain ⟨hsize, hmem⟩ := hsound (i, s) List.mem_cons_self
    obtain ⟨rfl, rfl, hprev, hplanned⟩ := planSegment_ok hp hsize hmem hone
    have hall := ih (fun q hq => hsound q (List.mem_cons_of_mem _ hq)) hrest
    refine PlannedAll.cons hp hsize ?_ hplanned hall
    cases previous with
    | none => exact Nat.zero_le _
    | some q => exact hprev q rfl

theorem filePart_rest {page fileLen index memStart memEnd needEnd : ℕ} {s : Segment} {rest : Protection} {pieces : List Piece}
    {fills : List ZeroFill} (h : filePart page fileLen index s memStart memEnd needEnd rest = .ok (pieces, fills)) {p : Piece}
    (hp : p ∈ pieces) : p.segment = index ∧ p.rest = rest := by
  rw [filePart] at h
  split at h
  · cases h
    cases hp
  · simp only at h
    split at h
    · cases h
    split at h
    · cases h
    obtain ⟨rfl, -⟩ := Prod.mk.inj (Except.ok.inj h)
    rcases List.mem_append.mp hp with hp | hp
    · obtain ⟨-, rfl⟩ := mem_ifOne.mp hp
      exact ⟨rfl, rfl⟩
    · obtain ⟨-, rfl⟩ := mem_ifOne.mp hp
      exact ⟨rfl, rfl⟩

/-- a segment's pieces are its own, and end at its protection -/
theorem planSegment_rest {page fileLen index a b : ℕ} {s : Segment} {previous : Option (ℕ × ℕ × ℕ)} {pieces : List Piece}
    {fills : List ZeroFill} (h : planSegment page fileLen index s previous = .ok (a, b, pieces, fills)) {p : Piece}
    (hp : p ∈ pieces) : p.segment = index ∧ restProtection index s.p_flags = .ok p.rest := by
  simp only [planSegment] at h
  obtain ⟨memEnd, -, h⟩ := except_bind_ok.mp h
  split at h
  case h_1 => cases h
  case h_2 =>
    obtain ⟨rest, hrest, h⟩ := except_bind_ok.mp h
    obtain ⟨needEnd, -, h⟩ := except_bind_ok.mp h
    obtain ⟨⟨front, fills'⟩, hpart, h⟩ := except_bind_ok.mp h
    cases h
    rcases List.mem_append.mp hp with hp | hp
    · obtain ⟨hsegment, hprot⟩ := filePart_rest hpart hp
      exact ⟨hsegment, hprot ▸ hrest⟩
    · obtain ⟨-, rfl⟩ := mem_ifOne.mp hp
      exact ⟨rfl, hrest⟩

theorem planSegments_rest {page : ℕ} {file : Bytes} {loads : List (ℕ × Segment)} {previous : Option (ℕ × ℕ × ℕ)}
    {pieces : List Piece} {fills : List ZeroFill} (hp : 0 < page)
    (hsound : ∀ q ∈ loads, q.2.p_filesz ≤ q.2.p_memsz ∧ q.2.p_vaddr + q.2.p_memsz < 2 ^ 64)
    (h : planSegments page file.length loads previous = .ok (pieces, fills)) :
    ∀ q ∈ loads, ∀ p ∈ pieces, ∀ x, p.has x → q.2.pages page x →
      p.segment = q.1 ∧ restProtection q.1 q.2.p_flags = .ok p.rest := by
  induction loads generalizing previous pieces fills with
  | nil => simp
  | cons q loads ih =>
    obtain ⟨i, s⟩ := q
    obtain ⟨⟨a, b, ps, fs⟩, hone, h⟩ := except_bind_ok.mp h
    obtain ⟨⟨ps', fs'⟩, hrest, h⟩ := except_bind_ok.mp h
    cases h
    obtain ⟨hsize, hmem⟩ := hsound (i, s) List.mem_cons_self
    have hsound' : ∀ q ∈ loads, q.2.p_filesz ≤ q.2.p_memsz ∧ q.2.p_vaddr + q.2.p_memsz < 2 ^ 64 :=
      fun q hq => hsound q (List.mem_cons_of_mem _ hq)
    obtain ⟨rfl, rfl, -, hplanned⟩ := planSegment_ok hp hsize hmem hone
    have hall := planSegments_ok hp hsound' hrest
    intro q hq p hpiece x hx hpage
    simp only [Piece.has, Segment.pages] at hx hpage
    rcases List.mem_append.mp hpiece with hpiece | hpiece
    · rcases List.mem_cons.mp hq with rfl | hq
      · exact planSegment_rest hone hpiece
      · -- a later segment's pages start after this one's
        have hlo : roundUp page (s.p_vaddr + s.p_memsz) ≤ pageDown q.2.p_vaddr page := hall.from_lo q hq
        have hend : p.vaddr + p.len ≤ roundUp page (s.p_vaddr + s.p_memsz) := (hplanned.tiles.bounds hpiece).2.1
        omega
    · rcases List.mem_cons.mp hq with rfl | hq
      · have hlo : roundUp page (s.p_vaddr + s.p_memsz) ≤ p.vaddr := hall.above.1 p hpiece
        exact absurd (hx.1.trans_lt hpage.2) (not_lt.mpr hlo)
      · exact ih hsound' hrest q hq p hpiece x hx hpage

/-- the largest alignment is a power of two no smaller than the page -/
theorem maxAlign_ok {shift align out : ℕ} {loads : List (ℕ × Segment)} (ha : ∃ k, align = 2 ^ k ∧ shift ≤ k)
    (hpow : ∀ q ∈ loads, q.2.p_align ≤ 1 ∨ ∃ k, q.2.p_align = 2 ^ k)
    (h : maxAlign (2 ^ shift) loads align = .ok out) : ∃ k, out = 2 ^ k ∧ shift ≤ k := by
  induction loads generalizing align with
  | nil =>
    cases h
    exact ha
  | cons q loads ih =>
    obtain ⟨i, s⟩ := q
    rw [maxAlign] at h
    split at h
    · cases h
    rename_i hbelow
    split at h
    · cases h
    refine ih ?_ (fun q hq => hpow q (List.mem_cons_of_mem _ hq)) h
    obtain ⟨k, rfl, hk⟩ := ha
    have hone : 1 ≤ 2 ^ k := Nat.one_le_two_pow
    rcases hpow (i, s) List.mem_cons_self with hsmall | ⟨j, hj⟩
    · have hsmall : s.p_align ≤ 1 := hsmall
      exact ⟨k, Nat.max_eq_left (by omega), hk⟩
    · have hj : s.p_align = 2 ^ j := hj
      rw [hj] at hbelow ⊢
      rcases Nat.le_total (2 ^ j) (2 ^ k) with hle | hle
      · exact ⟨k, Nat.max_eq_left hle, hk⟩
      · refine ⟨j, Nat.max_eq_right hle, ?_⟩
        exact hk.trans ((Nat.pow_le_pow_iff_right (by decide)).mp hle)

end LoadPlan

theorem foldl_mapPiece_of_not {file : Bytes} {pieces : List Piece} {x : ℕ} (h : ∀ p ∈ pieces, ¬p.has x) (mem : ℕ → UInt8) :
    pieces.foldl (mapPiece file) mem x = mem x := by
  induction pieces generalizing mem with
  | nil => rfl
  | cons p pieces ih =>
    rw [List.foldl_cons, ih fun q hq => h q (List.mem_cons_of_mem _ hq)]
    exact if_neg (h p List.mem_cons_self)

/-- where pieces lie apart, each shows its own bytes -/
theorem foldl_mapPiece {file : Bytes} {pieces : List Piece} {p : Piece} {x : ℕ}
    (hpair : pieces.Pairwise fun p q => p.vaddr + p.len ≤ q.vaddr) (hp : p ∈ pieces) (hx : p.has x) (mem : ℕ → UInt8) :
    pieces.foldl (mapPiece file) mem x = p.byte file x := by
  induction pieces generalizing mem with
  | nil => cases hp
  | cons q pieces ih =>
    obtain ⟨hq, hrest⟩ := List.pairwise_cons.mp hpair
    rw [List.foldl_cons]
    rcases List.mem_cons.mp hp with rfl | hp
    · rw [foldl_mapPiece_of_not]
      · exact if_pos hx
      · intro r hr hin
        have := hq r hr
        simp only [Piece.has] at hx hin
        omega
    · exact ih hrest hp _

theorem foldl_zeroOut {fills : List ZeroFill} {x : ℕ} (mem : ℕ → UInt8) :
    fills.foldl zeroOut mem x = if ∃ z ∈ fills, z.has x then 0 else mem x := by
  induction fills generalizing mem with
  | nil => simp
  | cons z fills ih =>
    rw [List.foldl_cons, ih]
    simp only [List.mem_cons, exists_eq_or_imp, zeroOut, ZeroFill.has]
    by_cases hrest : ∃ w ∈ fills, w.vaddr ≤ x ∧ x < w.vaddr + w.len
    · simp [hrest]
    · simp [hrest]

/-- What a plan of accepted segments is: pieces of whole pages, ascending and apart, inside the image, over exactly the
segments' pages and none of them writable and executable; once mapped, with the fills made, each segment's image is the
file's, and the memory after it reads nought to the end of its last page. -/
structure ShowsImage (page : ℕ) (segments : List Segment) (file : Bytes) (plan : LoadPlan) : Prop where
  whole : ∀ p ∈ plan.pieces, p.Whole page file.length
  inside : ∀ p ∈ plan.pieces, plan.imageStart ≤ p.vaddr ∧ p.vaddr + p.len ≤ plan.imageEnd
  apart : plan.pieces.Pairwise fun p q => p.vaddr + p.len ≤ q.vaddr
  cover : ∀ x, (∃ p ∈ plan.pieces, p.has x) ↔ ∃ s ∈ segments, s.isLoad = true ∧ s.pages page x
  image : ∀ mem, ∀ s ∈ segments, s.isLoad = true → ∀ x, s.p_vaddr ≤ x → x < s.p_vaddr + s.p_filesz →
    plan.mapped file mem x = file.getD (s.p_offset + (x - s.p_vaddr)) 0
  zero : ∀ mem, ∀ s ∈ segments, s.isLoad = true → s.p_filesz < s.p_memsz → ∀ x, s.p_vaddr + s.p_filesz ≤ x →
    x < roundUp page (s.p_vaddr + s.p_memsz) → plan.mapped file mem x = 0
  fills_clear : ∀ z ∈ plan.zeroFills, ∀ s ∈ segments, s.isLoad = true → ∀ x, s.p_vaddr ≤ x →
    x < s.p_vaddr + s.p_filesz → ¬z.has x

theorem mem_loads {segments : List Segment} {s : Segment} : (∃ i, (i, s) ∈ LoadPlan.loads segments) ↔
    s ∈ segments ∧ s.isLoad = true := by
  simp only [LoadPlan.loads, List.mem_map, List.mem_filter, Prod.mk.injEq, Prod.exists]
  constructor
  · rintro ⟨i, t, j, ⟨hmem, hload⟩, rfl, rfl⟩
    exact ⟨(List.mem_zipIdx' hmem).2 ▸ List.getElem_mem _, hload⟩
  · rintro ⟨hmem, hload⟩
    obtain ⟨i, hi, rfl⟩ := List.mem_iff_getElem.mp hmem
    exact ⟨i, segments[i], i, ⟨List.mk_mem_zipIdx_iff_getElem?.mpr (List.getElem?_eq_getElem hi), hload⟩, rfl, rfl⟩

/-- what a plan is made of: the alignment, the image's pages, and the segments' pieces and fills -/
structure Built (shift : ℕ) (segments : List Segment) (image : LoadImage) (file : Bytes) (plan : LoadPlan) : Prop where
  align : ∃ k, plan.baseAlign = 2 ^ k ∧ shift ≤ k
  imageStart : plan.imageStart = image.baseVaddr / plan.baseAlign * plan.baseAlign
  imageEnd : plan.imageEnd = roundUp (2 ^ shift) image.endVaddr
  span : plan.span = plan.imageEnd - plan.imageStart
  all : LoadPlan.PlannedAll file (2 ^ shift) 0 ((LoadPlan.loads segments).insertionSort fun p q => p.2.p_vaddr ≤ q.2.p_vaddr)
    plan.pieces plan.zeroFills
  rest : ∀ q ∈ LoadPlan.loads segments, ∀ p ∈ plan.pieces, ∀ x, p.has x → q.2.pages (2 ^ shift) x →
    p.segment = q.1 ∧ restProtection q.1 q.2.p_flags = .ok p.rest

theorem mem_sorted_loads {segments : List Segment} {q : ℕ × Segment} :
    q ∈ (LoadPlan.loads segments).insertionSort (fun p q => p.2.p_vaddr ≤ q.2.p_vaddr) ↔ q ∈ LoadPlan.loads segments :=
  (List.perm_insertionSort _ _).mem_iff

theorem LoadPlan.build_ok {shift n : ℕ} {segments : List Segment} {image : LoadImage} {file : Bytes} {plan : LoadPlan}
    (hv : LoadImage.validate segments n = .ok image)
    (hb : LoadPlan.build segments image file.length (2 ^ shift) = .ok plan) : Built shift segments image file plan := by
  have hp : 0 < 2 ^ shift := Nat.two_pow_pos shift
  simp only [LoadPlan.build] at hb
  obtain ⟨align, halign, hb⟩ := except_bind_ok.mp hb
  obtain ⟨imageEnd, hend, hb⟩ := except_bind_ok.mp hb
  obtain ⟨⟨pieces, fills⟩, hplan, hb⟩ := except_bind_ok.mp hb
  cases hb
  have hload : ∀ q ∈ LoadPlan.loads segments, LoadImage.Sound n q.2 := by
    intro q hq
    obtain ⟨hs, hl⟩ := mem_loads.mp ⟨q.1, hq⟩
    exact (LoadImage.validate_ok hv hs hl).1
  have hsound : ∀ q ∈ (LoadPlan.loads segments).insertionSort fun p q => p.2.p_vaddr ≤ q.2.p_vaddr,
      q.2.p_filesz ≤ q.2.p_memsz ∧ q.2.p_vaddr + q.2.p_memsz < 2 ^ 64 := by
    intro q hq
    have h := hload q (mem_sorted_loads.mp hq)
    exact ⟨h.filesz_le, h.mem_lt⟩
  refine ⟨?_, rfl, pageUp_ok hend, rfl, LoadPlan.planSegments_ok hp hsound hplan, ?_⟩
  · exact LoadPlan.maxAlign_ok ⟨shift, rfl, le_refl _⟩ (fun q hq => (hload q hq).align) halign
  · intro q hq
    exact LoadPlan.planSegments_rest hp hsound hplan q (mem_sorted_loads.mpr hq)

namespace Built

variable {shift n : ℕ} {segments : List Segment} {image : LoadImage} {file : Bytes} {plan : LoadPlan}

theorem cover (h : Built shift segments image file plan) (x : ℕ) :
    (∃ p ∈ plan.pieces, p.has x) ↔ ∃ s ∈ segments, s.isLoad = true ∧ s.pages (2 ^ shift) x := by
  rw [h.all.cover]
  constructor
  · rintro ⟨q, hq, hx⟩
    obtain ⟨hs, hl⟩ := mem_loads.mp ⟨q.1, mem_sorted_loads.mp hq⟩
    exact ⟨q.2, hs, hl, hx⟩
  · rintro ⟨s, hs, hl, hx⟩
    obtain ⟨i, hi⟩ := mem_loads.mpr ⟨hs, hl⟩
    exact ⟨(i, s), mem_sorted_loads.mpr hi, hx⟩

theorem shows (h : Built shift segments image file plan) {s : Segment} (hs : s ∈ segments) (hl : s.isLoad = true) :
    ShowsSegment file (2 ^ shift) s plan.pieces plan.zeroFills := by
  obtain ⟨i, hi⟩ := mem_loads.mpr ⟨hs, hl⟩
  exact h.all.shows (i, s) (mem_sorted_loads.mpr hi)

theorem dvd_align (h : Built shift segments image file plan) : 2 ^ shift ∣ plan.baseAlign := by
  obtain ⟨k, hk, hshift⟩ := h.align
  rw [hk]
  exact pow_dvd_pow 2 hshift

theorem dvd_start (h : Built shift segments image file plan) : plan.baseAlign ∣ plan.imageStart := by
  rw [h.imageStart]
  exact Dvd.intro_left _ rfl

theorem inside (h : Built shift segments image file plan) (hv : LoadImage.validate segments n = .ok image) {p : Piece}
    (hpiece : p ∈ plan.pieces) : plan.imageStart ≤ p.vaddr ∧ p.vaddr + p.len ≤ plan.imageEnd := by
  have hp : 0 < 2 ^ shift := Nat.two_pow_pos shift
  have hpos := h.all.pos p hpiece
  obtain ⟨s, hs, hl, hfrom, -⟩ := (h.cover p.vaddr).mp ⟨p, hpiece, le_refl _, by omega⟩
  obtain ⟨t, ht, hl', -, hto⟩ := (h.cover (p.vaddr + p.len - 1)).mp ⟨p, hpiece, by omega, by omega⟩
  constructor
  · apply le_trans _ hfrom
    apply le_pageDown hp (h.dvd_align.trans h.dvd_start)
    rw [h.imageStart]
    exact (Nat.div_mul_le_self _ _).trans (LoadImage.validate_ok hv hs hl).2.1
  · have hmono := roundUp_mono hp (LoadImage.validate_ok hv ht hl').2.2
    rw [h.imageEnd]
    omega

end Built

theorem plan_shows_image (shift n : ℕ) (segments : List Segment) (image : LoadImage) (file : Bytes) (plan : LoadPlan)
    (hv : LoadImage.validate segments n = .ok image)
    (hb : LoadPlan.build segments image file.length (2 ^ shift) = .ok plan) :
    ShowsImage (2 ^ shift) segments file plan := by
  have hbuilt := LoadPlan.build_ok hv hb
  refine ⟨hbuilt.all.whole, fun p hp => hbuilt.inside hv hp, hbuilt.all.pairwise, hbuilt.cover, ?_, ?_, ?_⟩
  · intro mem s hs hl x hx hx'
    have hsize := (LoadImage.validate_ok hv hs hl).1.filesz_le
    have hup := le_roundUp (Nat.two_pow_pos shift) (s.p_vaddr + s.p_memsz)
    obtain ⟨hclear, hbytes⟩ := (hbuilt.shows hs hl).image x hx hx'
    obtain ⟨p, hpiece, hin⟩ := (hbuilt.cover x).mpr ⟨s, hs, hl, (pageDown_le _ _).trans hx, by omega⟩
    rw [LoadPlan.mapped, foldl_zeroOut, if_neg (by rintro ⟨z, hz, hzx⟩; exact hclear z hz hzx),
      foldl_mapPiece hbuilt.all.pairwise hpiece hin]
    exact hbytes p hpiece hin
  · intro mem s hs hl hmore x hx hx'
    rw [LoadPlan.mapped, foldl_zeroOut]
    rcases (hbuilt.shows hs hl).zero hmore x hx hx' with hfill | hzero
    · exact if_pos hfill
    · obtain ⟨p, hpiece, hin⟩ := (hbuilt.cover x).mpr
        ⟨s, hs, hl, (pageDown_le _ _).trans ((Nat.le_add_right _ _).trans hx), hx'⟩
      rw [foldl_mapPiece hbuilt.all.pairwise hpiece hin, hzero p hpiece hin]
      exact ite_self 0
  · intro z hz s hs hl x hx hx' hin
    exact ((hbuilt.shows hs hl).image x hx hx').1 z hz hin

/-- a small object: a segment wholly in the file's last part of a page, with `.bss` after it -/
def smallSegments : List Segment := [⟨PT_LOAD, PF_R ||| PF_W, 0, 0x10000, 100, 5000, 4096⟩]

theorem plan_shows_image_small :
    ShowsImage 4096 smallSegments (List.replicate 100 7)
      ⟨0x10000, 0x12000, 0x2000, 4096,
        [⟨0, 0x10000, 0x1000, .fileTailCopy 0 100, .readWrite, true⟩, ⟨0, 0x11000, 0x1000, .zero, .readWrite, true⟩], []⟩ :=
  plan_shows_image 12 100 smallSegments ⟨0x10000, 0x11388, 5000, 5000, 4096, 1⟩ (List.replicate 100 7) _
    (by rfl) (by rfl)

end Omnidroid.Elf
