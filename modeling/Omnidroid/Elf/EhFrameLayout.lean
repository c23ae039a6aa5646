/-
What `.eh_frame` has where its entries are laid out by the format's rules, and what the reader makes of it
(`omni-elf/src/eh_frame.rs`).
- `Cie`, `Fde`: an entry by its fields; `Laid`: the two are in a reader's bytes, each field where the format has it.
- `uleb128_leb`, `augmentation_string`, `readEncoded_value`: each field is read as it was laid out, or refused.
- `letters_laid`, `cieFdeEncoding_laid`: so is the encoding that the CIE declares, where no padding is in the way.
- `fdeBounds_ends`: over any bytes at all the reader ends with bounds that do not wrap, or with an error.
- `fdeBounds_iff`: over laid out entries the bounds are the FDE's, or an encoding is refused, unless the FDE's pointers are
  relative to the data base. A personality pointer is stepped over without its padding (`aligned_misread`).
-/
import Omnidroid.Elf.EhFrame
import Omnidroid.Lib.Answers
import Omnidroid.Lib.Leb128

namespace Omnidroid.Elf

open Bytes

/-! ## The format -/

/-- the bytes of a LEB128 number: all but the last have their high bit set -/
def Leb (bs : Bytes) : Prop := ∃ init last, bs = init ++ [last] ∧ (∀ b ∈ init, b &&& 0x80 ≠ 0) ∧ last &&& 0x80 = 0

/-- the value of an unsigned LEB128 number -/
def lebNat : Bytes → ℕ
  | [] => 0
  | b :: bs => b.toNat % 128 + 128 * lebNat bs

/-- what values can be relative to, and what the image has at an address -/
structure Bases where
  text : UInt64
  data : UInt64
  func : UInt64
  deref : UInt64 → UInt64

/-- how wide the values of an encoding are; LEB128 numbers have no width of their own -/
def widthOf (encoding : UInt8) : Option ℕ :=
  match (encoding &&& 0x0f).toNat with
  | 0x00 | 0x04 | 0x0c => some 8
  | 0x02 | 0x0a => some 2
  | 0x03 | 0x0b => some 4
  | _ => none

/-- the bytes are a value of the encoding's format -/
def InFormat (encoding : UInt8) (bs : Bytes) : Prop :=
  match widthOf encoding with
  | some w => bs.length = w
  | none => (encoding &&& 0x0f = 0x01 ∨ encoding &&& 0x0f = 0x09) ∧ Leb bs

/-- the number of a value, by its format -/
def rawOf (encoding : UInt8) (bs : Bytes) : ℤ :=
  match (encoding &&& 0x0f).toNat with
  | 0x01 => lebNat bs
  | 0x09 => ((Leb128.read bs).map Prod.fst).getD 0
  | 0x0a => if leNat bs < 2 ^ 15 then leNat bs else leNat bs - 2 ^ 16
  | 0x0b => if leNat bs < 2 ^ 31 then leNat bs else leNat bs - 2 ^ 32
  | 0x0c => if leNat bs < 2 ^ 63 then leNat bs else leNat bs - 2 ^ 64
  | _ => leNat bs

/-- what a value at an address is relative to -/
def baseOf (bases : Bases) (addr : UInt64) (encoding : UInt8) : UInt64 :=
  match (encoding &&& 0x70).toNat with
  | 0x10 => addr
  | 0x20 => bases.text
  | 0x30 => bases.data
  | 0x40 => bases.func
  | _ => 0

/-- the value that bytes at an address encode -/
def encoded (bases : Bases) (addr : UInt64) (encoding : UInt8) (bs : Bytes) : UInt64 :=
  let value := baseOf bases addr encoding + UInt64.ofInt (rawOf encoding bs)
  if encoding &&& 0x80 = 0 then value else bases.deref value

/-- a value that is aligned comes after bytes that bring it to a multiple of the address size -/
def Padded (encoding : UInt8) (addr : UInt64) (pad : Bytes) : Prop :=
  pad.length = if encoding &&& 0x70 = 0x50 then (8 - addr.toNat % 8) % 8 else 0

/-- a letter of an augmentation string, with its data; `R`'s is the encoding the CIE declares -/
inductive Letter where
  | R
  | P (encoding : UInt8) (pad pointer : Bytes)
  | L (encoding : UInt8)
  | S
  | B
  | G
deriving DecidableEq

namespace Letter

def char : Letter → UInt8
  | R => 0x52
  | P _ _ _ => 0x50
  | L _ => 0x4c
  | S => 0x53
  | B => 0x42
  | G => 0x47

def data (encoding : UInt8) : Letter → Bytes
  | R => [encoding]
  | P e pad pointer => e :: (pad ++ pointer)
  | L e => [e]
  | S => []
  | B => []
  | G => []

/-- a personality pointer is as its encoding says, or omitted -/
def WellFormed (addr : UInt64) : Letter → Prop
  | P e pad pointer => Padded e (addr + 1) pad ∧ (InFormat e pointer ∨ e = 0xff ∧ pointer = [])
  | _ => True

/-- its data is read, and not only stepped over -/
def Read : Letter → Prop
  | R => True
  | P _ _ _ => True
  | _ => False

end Letter

def dataOf (encoding : UInt8) (ls : List Letter) : Bytes := ls.flatMap (Letter.data encoding)

/-- the letters' data, one after the other from an address -/
def LettersLaid (encoding : UInt8) : UInt64 → List Letter → Prop
  | _, [] => True
  | addr, l :: ls => l.WellFormed addr ∧ LettersLaid encoding (addr + UInt64.ofNat (l.data encoding).length) ls

structure Cie where
  version : UInt8
  letters : List Letter
  /-- what an `R` among the letters says -/
  encoding : UInt8
  codeAlign : Bytes
  dataAlign : Bytes
  returnAddress : Bytes
  dataLength : Bytes
  instructions : Bytes

namespace Cie

def string (c : Cie) : Bytes := 0x7a :: c.letters.map Letter.char

/-- the fields between the length and the augmentation data -/
def fields (c : Cie) : Bytes :=
  leBytes 4 0 ++ ([c.version] ++ (c.string ++ [0] ++ (c.codeAlign ++ (c.dataAlign ++ (c.returnAddress ++ c.dataLength)))))

def body (c : Cie) : Bytes := c.fields ++ (dataOf c.encoding c.letters ++ c.instructions)

def bytes (c : Cie) : Bytes := leBytes 4 c.body.length ++ c.body

structure WellFormed (c : Cie) (addr : UInt64) : Prop where
  version : c.version = 1 ∨ c.version = 3
  codeAlign : Leb c.codeAlign
  dataAlign : Leb c.dataAlign
  returnAddress : if c.version = 1 then c.returnAddress.length = 1 else Leb c.returnAddress
  dataLength : Leb c.dataLength
  letters : LettersLaid c.encoding (addr + 4 + UInt64.ofNat c.fields.length) c.letters
  short : c.body.length < 0xffffffff

/-- the encoding of its FDEs' pointers: absolute where it declares none -/
def fdeEncoding (c : Cie) : UInt8 := if .R ∈ c.letters then c.encoding else 0

end Cie

structure Fde where
  /-- what aligns `pc_begin` -/
  pad : Bytes
  pcBegin : Bytes
  pcRange : Bytes
  rest : Bytes

namespace Fde

def body (f : Fde) : Bytes := f.pad ++ (f.pcBegin ++ (f.pcRange ++ f.rest))

/-- an FDE, with how far before its pointer the CIE is -/
def bytes (f : Fde) (delta : ℕ) : Bytes := leBytes 4 (4 + f.body.length) ++ (leBytes 4 delta ++ f.body)

/-- the fields of an FDE, whose pointers start at an address -/
structure WellFormed (f : Fde) (encoding : UInt8) (addr : UInt64) : Prop where
  pad : Padded encoding addr f.pad
  pcBegin : InFormat encoding f.pcBegin
  pcRange : InFormat (encoding &&& 0x0f) f.pcRange
  short : 4 + f.body.length < 0xffffffff

/-- what an FDE whose pointers start at an address encodes -/
def bounds (f : Fde) (bases : Bases) (encoding : UInt8) (addr : UInt64) : FunctionBounds :=
  ⟨encoded bases (addr + UInt64.ofNat f.pad.length) encoding f.pcBegin, UInt64.ofInt (rawOf encoding f.pcRange)⟩

end Fde

/-- an FDE at an address of the section, and its CIE before it -/
structure Laid (r : FrameReader) (bases : Bases) (c : Cie) (f : Fde) (cieAt fdeAt : ℕ) : Prop where
  /-- the section is in the address space -/
  fits : r.baseVaddr.toNat + r.view.length ≤ 2 ^ 64
  cie : Holds r.view cieAt c.bytes
  fde : Holds r.view fdeAt (f.bytes (fdeAt + 4 - cieAt))
  before : cieAt < fdeAt + 4
  near : fdeAt + 4 - cieAt < 2 ^ 32
  cieFields : c.WellFormed (r.baseVaddr + UInt64.ofNat cieAt)
  fdeFields : f.WellFormed c.fdeEncoding (r.baseVaddr + UInt64.ofNat (fdeAt + 8))
  /-- so is the function -/
  extent : (f.bounds bases c.fdeEncoding (r.baseVaddr + UInt64.ofNat (fdeAt + 8))).start.toNat +
    (f.bounds bases c.fdeEncoding (r.baseVaddr + UInt64.ofNat (fdeAt + 8))).len.toNat < 2 ^ 64

/-! ## What the reader owes -/

/-- the refusals of what is not implemented: an encoding of pointers, or of a number or a string in more bytes than are read -/
def NotImplemented (e : ElfError) : Prop :=
  (∃ what encoding, e = .unsupportedEhFrameEncoding what encoding) ∨
  (∃ what offset, e = .malformedEhFrame what offset "a LEB128 ran past ten bytes, which no 64-bit value needs") ∨
  ∃ offset, e = .malformedEhFrame "CIE augmentation" offset
    "the augmentation string is not NUL-terminated within 32 bytes"

/-- the bounds are exactly the FDE's, or are refused for what is not implemented -/
def Exact (r : FrameReader) (bases : Bases) (c : Cie) (f : Fde) (fdeAt : ℕ) : Prop :=
  r.fdeBounds (r.baseVaddr + UInt64.ofNat fdeAt) =
      .ok (f.bounds bases c.fdeEncoding (r.baseVaddr + UInt64.ofNat (fdeAt + 8))) ∨
    ∃ e, r.fdeBounds (r.baseVaddr + UInt64.ofNat fdeAt) = .error (.refused e) ∧ NotImplemented e

/-- no letter whose data is read comes after padding -/
def Unpadded : List Letter → Prop
  | [] => True
  | .P _ pad _ :: ls => (pad = [] ∨ ∀ l ∈ ls, ¬l.Read) ∧ Unpadded ls
  | _ :: ls => Unpadded ls

/-- the pointers that come up to the first `R` have a width -/
def Supported : List Letter → Prop
  | [] => True
  | .R :: _ => True
  | .P e _ _ :: ls => widthOf e ≠ none ∧ Supported ls
  | _ :: ls => Supported ls

/-- nothing of a CIE is refused -/
structure Cie.Implemented (c : Cie) : Prop where
  string : c.string.length < 32
  codeAlign : c.codeAlign.length ≤ 10
  dataAlign : c.dataAlign.length ≤ 10
  returnAddress : c.returnAddress.length ≤ 10
  dataLength : c.dataLength.length ≤ 10
  letters : Supported c.letters

/-- the pointers that the reader takes as relative to the data base -/
def Cie.DataRelative (c : Cie) : Prop := c.Implemented ∧ widthOf c.fdeEncoding ≠ none ∧ c.fdeEncoding &&& 0xf0 = 0x30

/-! ## Over any bytes -/

section Ends

variable {view : Bytes} {what : String} {offset : ℕ}

theorem viewU32_le {w : UInt32} (h : viewU32 what view offset = .ok w) : offset + 4 ≤ view.length := by
  by_contra hle
  have hnone : view.get? offset 4 = none := if_neg hle
  simp [viewU32, hnone] at h

theorem refuse_ok {α : Type} {x : Except ElfError α} {a : α} (h : refuse x = .ok a) : x = .ok a := by
  cases x with
  | ok b => simpa [refuse] using h
  | error e => simp [refuse] at h

theorem usize_ok {n m : ℕ} (h : usize n = .ok m) : n = m := by
  unfold usize at h
  split_ifs at h
  exact Except.ok.inj h

theorem uleb128From_ends (n : ℕ) (value : UInt64) (shift used : ℕ) (h : offset + used + n < 2 ^ 64) :
    uleb128From view offset what n value shift used ≠ .error .overflow := by
  induction n generalizing value shift used with
  | zero => simp [uleb128From]
  | succ n ih =>
    refine bind_ends (usize_ends (by omega)) fun at_ _ => bind_ends (refuse_ends _) fun byte _ => ?_
    dsimp only
    split_ifs
    · exact pure_ends _
    · exact ih _ _ _ (by omega)

theorem uleb128From_used (n : ℕ) (value : UInt64) (shift used : ℕ) {v : UInt64} {k : ℕ}
    (h : uleb128From view offset what n value shift used = .ok (v, k)) : k ≤ used + n := by
  induction n generalizing value shift used with
  | zero => simp [uleb128From] at h
  | succ n ih =>
    obtain ⟨at_, -, h⟩ := except_bind_ok.1 h
    obtain ⟨byte, -, h⟩ := except_bind_ok.1 h
    dsimp only at h
    split_ifs at h
    · cases h
      omega
    · have := ih _ _ _ h
      omega

theorem uleb128_ends (h : offset + 10 < 2 ^ 64) : uleb128 view offset what ≠ .error .overflow :=
  uleb128From_ends 10 0 0 0 (by omega)

theorem uleb128_used {v : UInt64} {k : ℕ} (h : uleb128 view offset what = .ok (v, k)) : k ≤ 10 := by
  have := uleb128From_used 10 0 0 0 h
  omega

theorem augmentationFrom_ends (n len : ℕ) (h : offset + len + n < 2 ^ 64) :
    augmentationFrom view offset n len ≠ .error .overflow := by
  induction n generalizing len with
  | zero => simp [augmentationFrom]
  | succ n ih =>
    refine bind_ends (usize_ends (by omega)) fun at_ _ => bind_ends (refuse_ends _) fun byte _ => ?_
    split_ifs
    · cases view.get? offset len with
      | none => simp
      | some aug => exact pure_ends _
    · exact ih _ (by omega)

theorem augmentationFrom_used (n len : ℕ) {aug : Bytes} {k : ℕ} (h : augmentationFrom view offset n len = .ok (aug, k)) :
    k = aug.length + 1 ∧ k ≤ len + n := by
  induction n generalizing len with
  | zero => simp [augmentationFrom] at h
  | succ n ih =>
    obtain ⟨at_, -, h⟩ := except_bind_ok.1 h
    obtain ⟨byte, -, h⟩ := except_bind_ok.1 h
    split_ifs at h
    · cases hget : view.get? offset len with
      | none => simp [hget] at h
      | some found =>
        simp only [hget] at h
        cases h
        obtain ⟨hle, rfl⟩ := get?_eq_some.1 hget
        rw [length_slice hle]
        omega
    · have := ih _ h
      omega

theorem formatOf_bytes {encoding : UInt8} {format : Format} (h : formatOf encoding what = .ok format) :
    (format.bytes = 2 ∨ format.bytes = 4 ∨ format.bytes = 8) ∧ widthOf encoding = some format.bytes := by
  unfold formatOf at h
  unfold widthOf
  split at h <;> cases h <;> simp [*]

theorem readEncoded_ends (viewVaddr : UInt64) (encoding : UInt8) (hdrVaddr : UInt64) :
    readEncoded view viewVaddr offset encoding hdrVaddr what ≠ .error .overflow := by
  refine bind_ends (refuse_ends _) fun format hformat => ?_
  have hbytes := (formatOf_bytes (refuse_ok hformat)).1
  refine bind_ends ?_ fun raw _ => bind_ends (refuse_ends _) fun apply _ => pure_ends _
  obtain ⟨bytes, signed⟩ := format
  obtain rfl | rfl | rfl := hbytes <;> cases signed <;> exact refuse_ends _

theorem readEncoded_used {viewVaddr : UInt64} {encoding : UInt8} {hdrVaddr value : UInt64} {k : ℕ}
    (h : readEncoded view viewVaddr offset encoding hdrVaddr what = .ok (value, k)) : k ≤ 8 := by
  obtain ⟨format, hformat, h⟩ := except_bind_ok.1 h
  have hbytes := (formatOf_bytes (refuse_ok hformat)).1
  obtain ⟨raw, -, h⟩ := except_bind_ok.1 h
  obtain ⟨apply, -, h⟩ := except_bind_ok.1 h
  cases h
  omega

end Ends

namespace FrameReader

variable (r : FrameReader)

theorem letters_ends (cieAt at_ : ℕ) (cs : Bytes) (h : at_ + 9 * cs.length < 2 ^ 64) :
    r.letters cieAt at_ cs ≠ .error .overflow := by
  induction cs generalizing at_ with
  | nil => simp [letters]
  | cons c cs ih =>
    rw [List.length_cons] at h
    unfold letters
    split_ifs
    · exact refuse_ends _
    · refine bind_ends (usize_ends (by omega)) fun next hnext => ih next ?_
      have := usize_ok hnext
      omega
    · exact ih at_ (by omega)
    · refine bind_ends (refuse_ends _) fun encoding _ => bind_ends (usize_ends (by omega)) fun next hnext => ?_
      refine bind_ends (refuse_ends _) fun format hformat => ?_
      have hbytes := (formatOf_bytes (refuse_ok hformat)).1
      have hnext := usize_ok hnext
      refine bind_ends (usize_ends (by omega)) fun next' hnext' => ih next' ?_
      have := usize_ok hnext'
      omega
    · simp

theorem returnAddressBytes_ends {at_ : ℕ} (h : at_ + 10 < 2 ^ 64) (version : UInt8) :
    r.returnAddressBytes at_ version ≠ .error .overflow := by
  unfold returnAddressBytes
  split_ifs
  · simp
  · intro hn
    cases hra : uleb128 r.view at_ "CIE return_address_register" with
    | ok p => simp [hra, Except.map] at hn
    | error e =>
      simp only [hra, Except.map] at hn
      cases hn
      exact uleb128_ends h hra

theorem returnAddressBytes_used {at_ n : ℕ} {version : UInt8} (h : r.returnAddressBytes at_ version = .ok n) : n ≤ 10 := by
  unfold returnAddressBytes at h
  split_ifs at h
  · cases h
    omega
  · cases hra : uleb128 r.view at_ "CIE return_address_register" with
    | ok p =>
      simp only [hra, Except.map] at h
      cases h
      exact uleb128_used hra
    | error e => simp [hra, Except.map] at h

theorem cieFdeEncoding_ends (hlen : r.view.length < 2 ^ 63) (cieAt : ℕ) :
    r.cieFdeEncoding cieAt ≠ .error .overflow := by
  refine bind_ends (refuse_ends _) fun length hlength => ?_
  have hle := viewU32_le (refuse_ok hlength)
  split_ifs
  · simp
  refine bind_ends (usize_ends (by omega)) fun idAt _ => bind_ends (refuse_ends _) fun id _ => ?_
  split_ifs
  · simp
  refine bind_ends (usize_ends (by omega)) fun versionAt _ => bind_ends (refuse_ends _) fun version _ => ?_
  split_ifs
  · simp
  refine bind_ends (usize_ends (by omega)) fun at₀ h₀ => ?_
  have h₀ := usize_ok h₀
  refine bind_ends (augmentationFrom_ends 32 0 (by omega)) fun ⟨aug, augLen⟩ haug => ?_
  obtain ⟨haug, haugLen⟩ := augmentationFrom_used 32 0 haug
  refine bind_ends (usize_ends (by omega)) fun at₁ h₁ => ?_
  have h₁ := usize_ok h₁
  refine bind_ends (uleb128_ends (by omega)) fun ⟨_, n₂⟩ hn₂ => ?_
  have hn₂ := uleb128_used hn₂
  refine bind_ends (usize_ends (by omega)) fun at₂ h₂ => ?_
  have h₂ := usize_ok h₂
  refine bind_ends (uleb128_ends (by omega)) fun ⟨_, n₃⟩ hn₃ => ?_
  have hn₃ := uleb128_used hn₃
  refine bind_ends (usize_ends (by omega)) fun at₃ h₃ => ?_
  have h₃ := usize_ok h₃
  refine bind_ends (r.returnAddressBytes_ends (by omega) version) fun n₄ hn₄ => ?_
  have hn₄ := r.returnAddressBytes_used hn₄
  refine bind_ends (usize_ends (by omega)) fun at₄ h₄ => ?_
  have h₄ := usize_ok h₄
  cases aug with
  | nil => exact pure_ends _
  | cons z rest =>
    dsimp only
    split_ifs
    · exact pure_ends _
    rw [List.length_cons] at haug
    refine bind_ends (uleb128_ends (by omega)) fun ⟨_, n₅⟩ hn₅ => ?_
    have hn₅ := uleb128_used hn₅
    refine bind_ends (usize_ends (by omega)) fun at₅ h₅ => ?_
    have h₅ := usize_ok h₅
    exact r.letters_ends cieAt at₅ rest (by omega)

/-- over any bytes the reader ends, and bounds that it returns do not wrap -/
theorem fdeBounds_ends (hlen : r.view.length < 2 ^ 63) (fdeVaddr : UInt64) :
    r.fdeBounds fdeVaddr ≠ .error .overflow ∧
      ∀ bounds, r.fdeBounds fdeVaddr = .ok bounds → bounds.start.toNat + bounds.len.toNat < 2 ^ 64 := by
  constructor
  · refine bind_ends (refuse_ends _) fun at_ _ => bind_ends (refuse_ends _) fun length hlength => ?_
    have hle := viewU32_le (refuse_ok hlength)
    split_ifs
    · simp
    · simp
    refine bind_ends (usize_ends (by omega)) fun ciePointerAt h₀ => bind_ends (refuse_ends _) fun delta _ => ?_
    have h₀ := usize_ok h₀
    split_ifs
    · simp
    · simp
    refine bind_ends (r.cieFdeEncoding_ends hlen _) fun fdeEncoding _ => ?_
    refine bind_ends (usize_ends (by omega)) fun pcBeginAt h₁ => ?_
    have h₁ := usize_ok h₁
    refine bind_ends (readEncoded_ends _ _ _) fun ⟨start, pcBeginLen⟩ hstart => ?_
    have hused := readEncoded_used hstart
    refine bind_ends (usize_ends (by omega)) fun pcRangeAt _ => ?_
    refine bind_ends (readEncoded_ends _ _ _) fun ⟨len, _⟩ _ => ?_
    dsimp only
    split_ifs
    · simp
    · exact pure_ends _
  · intro bounds h
    unfold fdeBounds at h
    obtain ⟨at_, -, h⟩ := except_bind_ok.1 h
    obtain ⟨length, -, h⟩ := except_bind_ok.1 h
    split at h
    · cases h
    split at h
    · cases h
    obtain ⟨ciePointerAt, -, h⟩ := except_bind_ok.1 h
    obtain ⟨delta, -, h⟩ := except_bind_ok.1 h
    split at h
    · cases h
    split at h
    · cases h
    obtain ⟨fdeEncoding, -, h⟩ := except_bind_ok.1 h
    obtain ⟨pcBeginAt, -, h⟩ := except_bind_ok.1 h
    obtain ⟨⟨start, pcBeginLen⟩, -, h⟩ := except_bind_ok.1 h
    obtain ⟨pcRangeAt, -, h⟩ := except_bind_ok.1 h
    obtain ⟨⟨len, _⟩, -, h⟩ := except_bind_ok.1 h
    dsimp only at h
    split_ifs at h with hwrap
    cases h
    exact Nat.lt_of_not_le hwrap

end FrameReader

/-! ## Fields, as they were laid out -/

/-- what is implemented is read, as `Q` says, and what is not is refused for it -/
def Reads {α : Type} (implemented : Prop) (x : Except Stop α) (Q : α → Prop) : Prop :=
  (implemented ∧ ∃ a, x = .ok a ∧ Q a) ∨ (¬implemented ∧ ∃ e, x = .error (.refused e) ∧ NotImplemented e)

namespace Reads

variable {α β : Type} {p p' q : Prop} {x : Except Stop α} {f : α → Except Stop β} {Q : α → Prop} {R : β → Prop}

theorem bind (h : Reads p x Q) (hf : ∀ a, Q a → Reads q (f a) R) : Reads (p ∧ q) (x >>= f) R := by
  obtain ⟨hp, a, rfl, hQ⟩ | ⟨hp, e, rfl, he⟩ := h
  · obtain ⟨hq, b, hb, hR⟩ | ⟨hq, e, he, he'⟩ := hf a hQ
    · exact .inl ⟨⟨hp, hq⟩, b, hb, hR⟩
    · exact .inr ⟨fun hpq => hq hpq.2, e, he, he'⟩
  · exact .inr ⟨fun hpq => hp hpq.1, e, rfl, he⟩

/-- a step that succeeds, before the rest -/
theorem step {a : α} (h : x = .ok a) (hf : Reads q (f a) R) : Reads q (x >>= f) R := by
  subst h
  exact hf

theorem congr (h : Reads p x Q) (hp : p ↔ p') : Reads p' x Q := by
  unfold Reads at h ⊢
  rwa [← hp]

theorem ok {a : α} (h : x = .ok a) (hQ : Q a) : Reads True x Q := .inl ⟨trivial, a, h, hQ⟩

theorem refused {e : ElfError} (h : x = .error (.refused e)) (he : NotImplemented e) (hp : ¬p) : Reads p x Q :=
  .inr ⟨hp, e, h, he⟩

end Reads

theorem not_leb_nil : ¬Leb [] := by
  rintro ⟨init, last, h, -⟩
  cases init <;> cases h

theorem leb_cons {b : UInt8} {bs : Bytes} : Leb (b :: bs) ↔ (bs = [] ∧ b &&& 0x80 = 0) ∨ (b &&& 0x80 ≠ 0 ∧ Leb bs) := by
  constructor
  · rintro ⟨init, last, h, hinit, hlast⟩
    cases init with
    | nil =>
      cases h
      exact .inl ⟨rfl, hlast⟩
    | cons b' init =>
      cases h
      exact .inr ⟨hinit b List.mem_cons_self, init, last, rfl, fun c hc => hinit c (List.mem_cons_of_mem _ hc), hlast⟩
  · rintro (⟨rfl, hb⟩ | ⟨hb, init, last, rfl, hinit, hlast⟩)
    · exact ⟨[], b, rfl, by simp, hb⟩
    · refine ⟨b :: init, last, rfl, fun c hc => ?_, hlast⟩
      obtain rfl | hc := List.mem_cons.1 hc
      · exact hb
      · exact hinit c hc

section Fields

variable {view : Bytes} {what : String} {offset : ℕ}

theorem viewU8_of_holds {b : UInt8} (h : Holds view offset [b]) : viewU8 what view offset = .ok b := by
  unfold Holds at h
  rw [List.length_singleton] at h
  simp [viewU8, h, leNat]

theorem uleb128From_leb (hlen : view.length < 2 ^ 63) (bs : Bytes) (n : ℕ) (value : UInt64) (shift used : ℕ)
    (h : Holds view (offset + used) bs) (hleb : Leb bs) :
    Reads (bs.length ≤ n) (uleb128From view offset what n value shift used) fun a => a.2 = used + bs.length := by
  induction bs generalizing n value shift used with
  | nil => exact absurd hleb not_leb_nil
  | cons b bs ih =>
    cases n with
    | zero => exact .refused rfl (.inr (.inl ⟨what, offset, rfl⟩)) (by simp)
    | succ n =>
      obtain ⟨hb, hrest⟩ := holds_append.1 (show Holds view (offset + used) ([b] ++ bs) from h)
      have hle := hb.le
      rw [List.length_singleton] at hle hrest
      refine .step (usize_of_lt (by omega)) (.step (by rw [viewU8_of_holds hb]; rfl) ?_)
      dsimp only
      obtain ⟨rfl, hstop⟩ | ⟨hmore, hleb⟩ := leb_cons.1 hleb
      · rw [if_pos hstop]
        exact Reads.congr (p := True) (.ok rfl rfl) (by simp)
      · rw [if_neg hmore]
        have hread := ih n (value ||| (b &&& 0x7f).toUInt64 <<< UInt64.ofNat (min shift 63)) (shift + 7) (used + 1)
          (by rwa [← add_assoc]) hleb
        have hsum : ∀ a : UInt64 × ℕ, a.2 = used + 1 + bs.length ↔ a.2 = used + (b :: bs).length := fun a => by
          rw [List.length_cons]
          omega
        simpa only [hsum] using hread.congr (by simp)

/-- a LEB128 number of up to ten bytes is read, and a longer one refused -/
theorem uleb128_leb (what : String) (hlen : view.length < 2 ^ 63) {bs : Bytes} (h : Holds view offset bs) (hleb : Leb bs) :
    Reads (bs.length ≤ 10) (uleb128 view offset what) fun a => a.2 = bs.length := by
  unfold uleb128
  simpa using uleb128From_leb hlen bs 10 0 0 0 h hleb

theorem augmentationFrom_string (hlen : view.length < 2 ^ 63) (todo : Bytes) (hnul : (0 : UInt8) ∉ todo) (n : ℕ)
    (done : Bytes) (h : Holds view offset (done ++ (todo ++ [0]))) :
    Reads (todo.length < n) (augmentationFrom view offset n done.length)
      fun a => a = (done ++ todo, (done ++ todo).length + 1) := by
  induction n generalizing done todo with
  | zero => exact .refused rfl (.inr (.inr ⟨offset, rfl⟩)) (by simp)
  | succ n ih =>
    obtain ⟨hdone, hrest⟩ := holds_append.1 h
    have hle := hrest.le
    rw [List.length_append, List.length_singleton] at hle
    cases todo with
    | nil =>
      refine .step (usize_of_lt (by omega)) (.step (by rw [viewU8_of_holds hrest]; rfl) ?_)
      rw [if_pos rfl, show view.get? offset done.length = some done from hdone]
      exact (Reads.ok rfl (by simp)).congr (by simp)
    | cons c todo =>
      obtain ⟨hc, hrest⟩ := holds_append.1 (show Holds view (offset + done.length) ([c] ++ (todo ++ [0])) from hrest)
      have hne : c ≠ 0 := fun h0 => hnul (h0 ▸ List.mem_cons_self)
      refine .step (usize_of_lt (by omega)) (.step (by rw [viewU8_of_holds hc]; rfl) ?_)
      rw [if_neg hne]
      have hread := ih todo (fun h0 => hnul (List.mem_cons_of_mem _ h0)) (done ++ [c]) (by simpa using h)
      simp only [List.append_assoc, List.singleton_append, List.length_append, List.length_singleton] at hread ⊢
      exact hread.congr (by simp)

/-- a string of up to 31 bytes is read, and a longer one refused -/
theorem augmentation_string (hlen : view.length < 2 ^ 63) {string : Bytes} (hnul : (0 : UInt8) ∉ string)
    (h : Holds view offset (string ++ [0])) :
    Reads (string.length < 32) (augmentation view offset) fun a => a = (string, string.length + 1) :=
  augmentationFrom_string hlen string hnul 32 [] h

/-! ### Values -/

theorem toBitVec_ofInt (z : ℤ) : (UInt64.ofInt z).toBitVec = BitVec.ofInt 64 z := by
  apply BitVec.eq_of_toNat_eq
  have h : (UInt64.ofInt z).toBitVec.toNat = (z % 2 ^ 64).toNat % 2 ^ 64 := by
    rw [UInt64.ofInt, UInt64.toNat_toBitVec, UInt64.toNat_ofNat']
  rw [h, BitVec.toNat_ofInt]
  push_cast
  omega

theorem signed16 {n : ℕ} (hn : n < 2 ^ 16) :
    (UInt16.ofNat n).toInt16.toInt64.toUInt64 = UInt64.ofInt (if n < 2 ^ 15 then n else n - 2 ^ 16) := by
  apply UInt64.toBitVec_inj.1
  have h : (UInt16.ofNat n).toInt16.toInt64.toUInt64.toBitVec = BitVec.ofInt 64 (BitVec.ofNat 16 n).toInt := rfl
  rw [h, toBitVec_ofInt, BitVec.toInt_eq_toNat_cond, BitVec.toNat_ofNat, Nat.mod_eq_of_lt hn]
  congr 1
  split_ifs <;> first | rfl | omega

theorem signed32 {n : ℕ} (hn : n < 2 ^ 32) :
    (UInt32.ofNat n).toInt32.toInt64.toUInt64 = UInt64.ofInt (if n < 2 ^ 31 then n else n - 2 ^ 32) := by
  apply UInt64.toBitVec_inj.1
  have h : (UInt32.ofNat n).toInt32.toInt64.toUInt64.toBitVec = BitVec.ofInt 64 (BitVec.ofNat 32 n).toInt := rfl
  rw [h, toBitVec_ofInt, BitVec.toInt_eq_toNat_cond, BitVec.toNat_ofNat, Nat.mod_eq_of_lt hn]
  congr 1
  split_ifs <;> first | rfl | omega

theorem signed64 (n : ℕ) : UInt64.ofNat n = UInt64.ofInt (if n < 2 ^ 63 then n else n - 2 ^ 64) := by
  apply UInt64.toNat_inj.1
  rw [UInt64.ofInt, UInt64.toNat_ofNat', UInt64.toNat_ofNat']
  split_ifs <;> omega

theorem unsigned64 (n : ℕ) : UInt64.ofNat n = UInt64.ofInt n := by
  apply UInt64.toNat_inj.1
  rw [UInt64.ofInt, UInt64.toNat_ofNat', UInt64.toNat_ofNat']
  omega

theorem unsigned16 {n : ℕ} (hn : n < 2 ^ 16) : (UInt16.ofNat n).toUInt64 = UInt64.ofInt n := by
  apply UInt64.toNat_inj.1
  rw [← unsigned64, UInt16.toNat_toUInt64, UInt16.toNat_ofNat', UInt64.toNat_ofNat']
  omega

theorem unsigned32 {n : ℕ} (hn : n < 2 ^ 32) : (UInt32.ofNat n).toUInt64 = UInt64.ofInt n := by
  apply UInt64.toNat_inj.1
  rw [← unsigned64, UInt32.toNat_toUInt64, UInt32.toNat_ofNat', UInt64.toNat_ofNat']
  omega

/-- a value's number is read by its format -/
theorem rawAt_value (what : String) {encoding : UInt8} {format : Format} {bs : Bytes} {why : String}
    (hformat : formatOf encoding why = .ok format) (hin : InFormat encoding bs) (h : Holds view offset bs) :
    rawAt view offset format what = .ok (UInt64.ofInt (rawOf encoding bs)) ∧ format.bytes = bs.length := by
  have hlt := leNat_lt bs
  have hget : view.get? offset bs.length = some bs := h
  unfold formatOf at hformat
  unfold InFormat widthOf at hin
  unfold rawOf
  split at hformat <;> rename_i hnibble <;> cases hformat <;> simp only [hnibble] at hin ⊢ <;> rw [hin] at hget hlt
  · simp [rawAt, viewU64, hget, refuse, unsigned64, hin]
  · simp [rawAt, viewU16, hget, refuse, Except.map, hin, unsigned16 hlt]
  · simp [rawAt, viewU32, hget, refuse, Except.map, hin, unsigned32 hlt]
  · simp [rawAt, viewU64, hget, refuse, unsigned64, hin]
  · exact ⟨by simp only [rawAt, viewU16, hget, refuse, Except.map, signed16 hlt], hin.symm⟩
  · exact ⟨by simp only [rawAt, viewU32, hget, refuse, Except.map, signed32 hlt], hin.symm⟩
  · exact ⟨by simp only [rawAt, viewU64, hget, refuse, signed64], hin.symm⟩

theorem formatOf_cases (encoding : UInt8) (why : String) :
    (∃ format, formatOf encoding why = .ok format ∧ widthOf encoding = some format.bytes) ∨
      (formatOf encoding why = .error (.unsupportedEhFrameEncoding why encoding) ∧ widthOf encoding = none) := by
  unfold formatOf widthOf
  generalize (encoding &&& 0x0f).toNat = nibble
  split <;> simp [*]

/-- what a value is relative to is one of the three that are implemented -/
def Applied (encoding : UInt8) : Prop :=
  encoding &&& 0x80 = 0 ∧
    ((encoding &&& 0x70).toNat = 0x00 ∨ (encoding &&& 0x70).toNat = 0x10 ∨ (encoding &&& 0x70).toNat = 0x30)

theorem applyOf_cases (encoding : UInt8) (why : String) (bases : Bases) (addr : UInt64) :
    (Applied encoding ∧ ∃ apply, applyOf encoding why = .ok apply ∧
      (match apply with
        | .absolute => 0
        | .pcRelative => addr
        | .dataRelative => bases.data) = baseOf bases addr encoding) ∨
    (¬Applied encoding ∧ applyOf encoding why = .error (.unsupportedEhFrameEncoding why encoding)) := by
  unfold Applied applyOf baseOf
  generalize (encoding &&& 0x70).toNat = application
  by_cases h : encoding &&& 0x80 = 0
  · rw [if_neg (not_not.2 h)]
    split
    · simp [h]
    · simp [h]
    · simp [h]
    · rename_i h0 h1 h3
      exact .inr ⟨fun hh => hh.2.elim h0 fun hh => hh.elim h1 h3, rfl⟩
  · exact .inr ⟨fun hh => h hh.1, if_pos h⟩

/-- a value of an encoding that is implemented is read, with what it is relative to -/
theorem readEncoded_value (what : String) {encoding : UInt8} {pad bs : Bytes} {addr : UInt64} (viewVaddr : UInt64)
    (bases : Bases) (h : Holds view offset (pad ++ bs)) (hpad : Padded encoding addr pad) (hin : InFormat encoding bs) :
    Reads (widthOf encoding ≠ none ∧ Applied encoding) (readEncoded view viewVaddr offset encoding bases.data what)
      fun a => pad = [] ∧
        a = (baseOf bases (viewVaddr + UInt64.ofNat offset) encoding + UInt64.ofInt (rawOf encoding bs), bs.length) := by
  have hle := h.le
  rw [List.length_append] at hle
  obtain ⟨format, hformat, hwidth⟩ | ⟨hformat, hwidth⟩ := formatOf_cases encoding what
  · have hlen : format.bytes = bs.length := by
      unfold InFormat at hin
      rw [hwidth] at hin
      exact hin.symm
    -- there are as many bytes at the offset, if not the value's where it is padded
    have hslice : (slice view offset bs.length).length = bs.length := length_slice (by omega)
    have hheld : Holds view offset (slice view offset bs.length) := by
      unfold Holds
      rw [hslice]
      exact if_pos (by omega)
    have hin' : InFormat encoding (slice view offset bs.length) := by
      unfold InFormat
      rw [hwidth]
      exact hslice.trans hlen.symm
    have hraw := (rawAt_value what hformat hin' hheld).1
    refine .step (by rw [hformat]; rfl) (.step hraw ?_)
    obtain ⟨happlied, apply, happly, hbase⟩ | ⟨hnot, hrefused⟩ :=
      applyOf_cases encoding what bases (viewVaddr + UInt64.ofNat offset)
    · refine .step (by rw [happly]; rfl) ?_
      have hunpadded : pad = [] := by
        unfold Padded at hpad
        rw [if_neg] at hpad
        · exact List.length_eq_zero_iff.1 hpad
        · intro h50
          have := happlied.2
          rw [h50] at this
          revert this
          decide
      have hbs : slice view offset bs.length = bs := by
        rw [hunpadded] at h
        exact (get?_eq_some.1 h).2
      rw [hbs, hlen]
      refine Reads.congr (p := True) (.ok rfl ⟨hunpadded, ?_⟩) (by simp [hwidth, happlied])
      rewrite [← hbase]
      cases apply <;> rfl
    · refine .refused (e := .unsupportedEhFrameEncoding what encoding) (by rw [hrefused]; rfl) (.inl ⟨_, _, rfl⟩)
        fun hh => hnot hh.2
  · exact .refused (e := .unsupportedEhFrameEncoding what encoding) (by simp only [readEncoded, hformat]; rfl)
      (.inl ⟨_, _, rfl⟩) fun hh => hh.1 hwidth

end Fields

namespace FrameReader

variable (r : FrameReader)

theorem not_mem_of_not_read {ls : List Letter} (h : ∀ l ∈ ls, ¬l.Read) : Letter.R ∉ ls ∧ Supported ls := by
  refine ⟨fun hmem => h _ hmem trivial, ?_⟩
  induction ls with
  | nil => trivial
  | cons l ls ih =>
    have ih := ih fun l' hl' => h l' (List.mem_cons_of_mem _ hl')
    cases l with
    | R => trivial
    | P e pad pointer => exact absurd trivial (h _ List.mem_cons_self)
    | L e => exact ih
    | S => exact ih
    | B => exact ih
    | G => exact ih

/-- letters whose data is not read are stepped over, from wherever -/
theorem letters_unread (cieAt : ℕ) (encoding : UInt8) (ls : List Letter) (h : ∀ l ∈ ls, ¬l.Read) (at_ : ℕ)
    (hlt : at_ + (dataOf encoding ls).length < 2 ^ 64) : r.letters cieAt at_ (ls.map Letter.char) = .ok 0 := by
  induction ls generalizing at_ with
  | nil => rfl
  | cons l ls ih =>
    have ih := ih fun l' hl' => h l' (List.mem_cons_of_mem _ hl')
    rw [dataOf, List.flatMap_cons, List.length_append] at hlt
    cases l with
    | R => exact absurd trivial (h _ List.mem_cons_self)
    | P e pad pointer => exact absurd trivial (h _ List.mem_cons_self)
    | L e =>
      have hone : ((Letter.L e).data encoding).length = 1 := rfl
      rw [hone] at hlt
      rw [List.map_cons, letters]
      simp only [Letter.char, show ¬(0x4c : UInt8) = 0x52 by decide, if_false, if_true, bind, Except.bind,
        usize_of_lt (show at_ + 1 < 2 ^ 64 by omega)]
      exact ih _ (by rw [dataOf]; omega)
    | S =>
      rw [List.map_cons, letters]
      simp only [Letter.char, show ¬(0x53 : UInt8) = 0x52 by decide, show ¬(0x53 : UInt8) = 0x4c by decide, if_false,
        true_or, if_true]
      exact ih _ (by rw [dataOf]; omega)
    | B =>
      rw [List.map_cons, letters]
      simp only [Letter.char, show ¬(0x42 : UInt8) = 0x52 by decide, show ¬(0x42 : UInt8) = 0x4c by decide, if_false,
        true_or, or_true, if_true]
      exact ih _ (by rw [dataOf]; omega)
    | G =>
      rw [List.map_cons, letters]
      simp only [Letter.char, show ¬(0x47 : UInt8) = 0x52 by decide, show ¬(0x47 : UInt8) = 0x4c by decide, if_false,
        or_true, if_true]
      exact ih _ (by rw [dataOf]; omega)

/-- the letters up to the first `R` are walked, and its encoding is the one that was laid out -/
theorem letters_laid (hlen : r.view.length < 2 ^ 63) (cieAt : ℕ) (encoding : UInt8) (ls : List Letter) (at_ : ℕ)
    (addr : UInt64) (rest : Bytes) (h : Holds r.view at_ (dataOf encoding ls ++ rest))
    (hlaid : LettersLaid encoding addr ls) (hpad : Unpadded ls) :
    Reads (Supported ls) (r.letters cieAt at_ (ls.map Letter.char)) fun e => e = if .R ∈ ls then encoding else 0 := by
  induction ls generalizing at_ addr with
  | nil => exact .ok rfl rfl
  | cons l ls ih =>
    have hle := h.le
    rw [dataOf, List.flatMap_cons, List.append_assoc] at h
    obtain ⟨hdata, hrest⟩ := holds_append.1 h
    have hnext := ih _ _ hrest hlaid.2
    rw [dataOf, List.flatMap_cons, List.length_append, List.length_append] at hle
    rw [List.map_cons, letters]
    cases l with
    | R =>
      have hread : viewU8 "CIE augmentation R" r.view at_ = .ok encoding := viewU8_of_holds hdata
      simp only [Letter.char, if_true, hread, refuse]
      exact Reads.congr (p := True) (.ok rfl (by simp)) (by simp [Supported])
    | L e =>
      simp only [Letter.char, show ¬(0x4c : UInt8) = 0x52 by decide, if_false, if_true]
      refine .step (usize_of_lt (by omega)) ?_
      simpa [Supported, Letter.data] using hnext hpad
    | S =>
      simp only [Letter.char, show ¬(0x53 : UInt8) = 0x52 by decide, show ¬(0x53 : UInt8) = 0x4c by decide, if_false,
        true_or, if_true]
      simpa [Supported, Letter.data] using hnext hpad
    | B =>
      simp only [Letter.char, show ¬(0x42 : UInt8) = 0x52 by decide, show ¬(0x42 : UInt8) = 0x4c by decide, if_false,
        true_or, or_true, if_true]
      simpa [Supported, Letter.data] using hnext hpad
    | G =>
      simp only [Letter.char, show ¬(0x47 : UInt8) = 0x52 by decide, show ¬(0x47 : UInt8) = 0x4c by decide, if_false,
        or_true, if_true]
      simpa [Supported, Letter.data] using hnext hpad
    | P e pad pointer =>
      have he : Holds r.view at_ ([e] ++ (pad ++ pointer)) := hdata
      have hread : viewU8 "CIE augmentation P" r.view at_ = .ok e := viewU8_of_holds (holds_append.1 he).1
      have hsize : ((Letter.P e pad pointer).data encoding).length = 1 + (pad.length + pointer.length) := by
        simp [Letter.data]
        omega
      rw [hsize] at hle hrest hnext
      simp only [Letter.char, show ¬(0x50 : UInt8) = 0x52 by decide, show ¬(0x50 : UInt8) = 0x4c by decide,
        show ¬((0x50 : UInt8) = 0x53 ∨ (0x50 : UInt8) = 0x42 ∨ (0x50 : UInt8) = 0x47) by decide, if_false, if_true]
      refine .step (by rw [hread]; rfl) (.step (usize_of_lt (by omega)) ?_)
      obtain ⟨format, hformat, hwidth⟩ | ⟨hformat, hwidth⟩ := formatOf_cases e "CIE personality pointer"
      · have hbytes := (formatOf_bytes hformat).1
        refine .step (by rw [hformat]; rfl) (.step (usize_of_lt (by omega)) ?_)
        have hR : (Letter.R ∈ Letter.P e pad pointer :: ls) ↔ Letter.R ∈ ls := by simp
        obtain ⟨rfl | hunread, hpad⟩ := hpad
        · have hpointer : pointer.length = format.bytes := by
            obtain hin | ⟨rfl, -⟩ := hlaid.1.2
            · unfold InFormat at hin
              rwa [hwidth] at hin
            · cases hwidth
          have hat : at_ + (1 + (([] : Bytes).length + pointer.length)) = at_ + 1 + format.bytes := by
            rw [List.length_nil]
            omega
          rw [hat] at hnext
          simp only [hR]
          exact (hnext hpad).congr (by simp [Supported, hwidth])
        · obtain ⟨hno, hsupported⟩ := not_mem_of_not_read hunread
          refine Reads.congr (p := True)
            (.ok (r.letters_unread cieAt encoding ls hunread _ (by rw [dataOf]; omega)) (by simp [hno])) ?_
          simp [Supported, hwidth, hsupported]
      · exact .refused (e := .unsupportedEhFrameEncoding "CIE personality pointer" e) (by simp only [hformat]; rfl)
          (.inl ⟨_, _, rfl⟩) fun hh => hh.1 hwidth

theorem returnAddressBytes_laid (hlen : r.view.length < 2 ^ 63) {at_ : ℕ} {version : UInt8} {bs : Bytes}
    (h : Holds r.view at_ bs) (hbs : if version = 1 then bs.length = 1 else Leb bs) :
    Reads (bs.length ≤ 10) (r.returnAddressBytes at_ version) fun n => n = bs.length := by
  unfold returnAddressBytes
  by_cases hv : version = 1
  · rw [if_pos hv] at hbs ⊢
    exact Reads.congr (p := True) (.ok rfl hbs.symm) (by simp [hbs])
  · rw [if_neg hv] at hbs ⊢
    obtain ⟨hle, a, ha, hn⟩ | ⟨hle, e, he, hn⟩ :=
      uleb128_leb "CIE return_address_register" hlen h hbs
    · exact .inl ⟨hle, a.2, by rw [ha]; rfl, hn⟩
    · exact .inr ⟨hle, e, by rw [he]; rfl, hn⟩

theorem viewU32_word (what : String) {view : Bytes} {o n : ℕ} (hn : n < 2 ^ 32) (h : Holds view o (leBytes 4 n)) :
    viewU32 what view o = .ok (UInt32.ofNat n) := by
  apply viewU32_of_holds
  rwa [UInt32.toNat_ofNat_of_lt' hn]

theorem nul_not_mem (c : Cie) : (0 : UInt8) ∉ c.string := by
  intro h
  obtain h | h := List.mem_cons.1 h
  · cases h
  · obtain ⟨l, -, hl⟩ := List.mem_map.1 h
    cases l <;> cases hl

/-- a CIE's encoding is read past its fields, or one of them is refused -/
theorem cieFdeEncoding_laid (hlen : r.view.length < 2 ^ 63) {c : Cie} {addr : UInt64} {cieAt : ℕ}
    (h : Holds r.view cieAt c.bytes) (hc : c.WellFormed addr) (hpad : Unpadded c.letters) :
    Reads c.Implemented (r.cieFdeEncoding cieAt) fun e => e = c.fdeEncoding := by
  have hle := h.le
  have hshort := hc.short
  obtain ⟨hlength, h⟩ := holds_append.1 h
  obtain ⟨hfields, hletters⟩ := holds_append.1 (show Holds r.view (cieAt + (leBytes 4 c.body.length).length)
    (c.fields ++ (dataOf c.encoding c.letters ++ c.instructions)) from h)
  obtain ⟨hid, h⟩ := holds_append.1 hfields
  obtain ⟨hversion, h⟩ := holds_append.1 h
  obtain ⟨hstring, h⟩ := holds_append.1 h
  obtain ⟨hcode, h⟩ := holds_append.1 h
  obtain ⟨hdata, h⟩ := holds_append.1 h
  obtain ⟨hra, hdl⟩ := holds_append.1 h
  have hsize : c.fields.length = 4 + (1 + (c.string.length + 1 + (c.codeAlign.length + (c.dataAlign.length +
      (c.returnAddress.length + c.dataLength.length))))) := by
    simp only [Cie.fields, List.length_append, length_leBytes, List.length_singleton]
  simp only [length_leBytes, List.length_append, List.length_singleton] at hid hversion hstring hcode hdata hra hdl hletters
  rw [hsize] at hletters
  have hbody : c.body.length = c.fields.length + ((dataOf c.encoding c.letters).length + c.instructions.length) := by
    simp only [Cie.body, List.length_append]
  rw [Cie.bytes, List.length_append, length_leBytes, hbody, hsize] at hle
  have hword := viewU32_word "CIE length" (by omega) hlength
  have hzero : ¬(UInt32.ofNat c.body.length = 0 ∨ UInt32.ofNat c.body.length = 0xffffffff) := by
    have hnat : (UInt32.ofNat c.body.length).toNat = c.body.length :=
      UInt32.toNat_ofNat_of_lt' (show c.body.length < 2 ^ 32 by omega)
    rintro (h0 | h0)
    · rw [h0] at hnat
      have : (0 : UInt32).toNat = 0 := rfl
      omega
    · rw [h0] at hnat
      have : (0xffffffff : UInt32).toNat = 0xffffffff := rfl
      omega
  refine Reads.congr ?_ (p := c.string.length < 32 ∧ c.codeAlign.length ≤ 10 ∧ c.dataAlign.length ≤ 10 ∧
    c.returnAddress.length ≤ 10 ∧ c.dataLength.length ≤ 10 ∧ Supported c.letters) ⟨fun h => ⟨h.1, h.2.1, h.2.2.1,
      h.2.2.2.1, h.2.2.2.2.1, h.2.2.2.2.2⟩, fun h => ⟨h.1, h.2, h.3, h.4, h.5, h.6⟩⟩
  refine .step (by rw [hword]; rfl) ?_
  rw [if_neg hzero]
  refine .step (usize_of_lt (by omega)) (.step (by rw [viewU32_word _ (by decide) hid]; rfl) ?_)
  rw [if_neg (by decide)]
  refine .step (usize_of_lt (by omega)) (.step (by rw [viewU8_of_holds hversion]; rfl) ?_)
  have hknown : ¬(c.version ≠ 1 ∧ c.version ≠ 3) := by
    obtain h1 | h3 := hc.version
    · simp [h1]
    · simp [h3]
  rw [if_neg hknown]
  refine .step (usize_of_lt (by omega)) (.bind (augmentation_string hlen (nul_not_mem c) hstring) ?_)
  rintro _ rfl
  dsimp only
  refine .step (usize_of_lt (by omega)) (.bind (uleb128_leb _ hlen hcode hc.codeAlign) ?_)
  rintro ⟨_, _⟩ rfl
  dsimp only
  refine .step (usize_of_lt (by omega)) (.bind (uleb128_leb _ hlen hdata hc.dataAlign) ?_)
  rintro ⟨_, _⟩ rfl
  dsimp only
  refine .step (usize_of_lt (by omega)) (.bind (r.returnAddressBytes_laid hlen hra hc.returnAddress) ?_)
  rintro _ rfl
  refine .step (usize_of_lt (by omega)) ?_
  have hat : cieAt + 4 + (4 + (1 + (c.string.length + 1 + (c.codeAlign.length + (c.dataAlign.length +
      (c.returnAddress.length + c.dataLength.length)))))) = cieAt + 9 + (c.string.length + 1) + c.codeAlign.length +
        c.dataAlign.length + c.returnAddress.length + c.dataLength.length := by
    omega
  rw [hat] at hletters
  have hbound := hletters.le
  unfold Cie.string at *
  dsimp only
  rw [if_neg (by decide)]
  refine .bind (uleb128_leb _ hlen hdl hc.dataLength) ?_
  rintro ⟨_, _⟩ rfl
  dsimp only
  refine .step (usize_of_lt (by omega)) ?_
  exact r.letters_laid hlen cieAt c.encoding c.letters _ _ c.instructions hletters hc.letters hpad

/-! ### The two entries -/

theorem offsetOf_laid {fdeAt : ℕ} (hfits : r.baseVaddr.toNat + r.view.length ≤ 2 ^ 64) (hle : fdeAt < r.view.length)
    (what : String) : r.offsetOf (r.baseVaddr + UInt64.ofNat fdeAt) what = .ok fdeAt := by
  have hbase := r.baseVaddr.toNat_lt
  have hnat : (UInt64.ofNat fdeAt).toNat = fdeAt := UInt64.toNat_ofNat_of_lt' (show fdeAt < 2 ^ 64 by omega)
  have hsum : (r.baseVaddr + UInt64.ofNat fdeAt).toNat = r.baseVaddr.toNat + fdeAt := by
    rw [UInt64.toNat_add, hnat, Nat.mod_eq_of_lt (by omega)]
  have hnlt : ¬r.baseVaddr + UInt64.ofNat fdeAt < r.baseVaddr := by
    rw [UInt64.lt_iff_toNat_lt]
    omega
  have hdiff : (r.baseVaddr + UInt64.ofNat fdeAt - r.baseVaddr).toNat = fdeAt := by
    rw [UInt64.toNat_sub_of_le _ _ (by rw [UInt64.le_iff_toNat_le]; omega)]
    omega
  unfold offsetOf
  rw [if_neg hnlt, hdiff]

/-- from a laid out FDE the reader comes to its CIE, and then to its pointers -/
theorem fdeBounds_eq (hlen : r.view.length < 2 ^ 63) {bases : Bases} {c : Cie} {f : Fde} {cieAt fdeAt : ℕ}
    (hl : Laid r bases c f cieAt fdeAt) : r.fdeBounds (r.baseVaddr + UInt64.ofNat fdeAt) = (do
      let fdeEncoding ← r.cieFdeEncoding cieAt
      let (start, pcBeginLen) ← readEncoded r.view r.baseVaddr (fdeAt + 8) fdeEncoding 0 "FDE pc_begin"
      let pcRangeAt ← usize (fdeAt + 8 + pcBeginLen)
      let (len, _) ← readEncoded r.view r.baseVaddr pcRangeAt (fdeEncoding &&& 0x0f) 0 "FDE pc_range"
      if 2 ^ 64 ≤ start.toNat + len.toNat then
        .error (.refused (.malformedEhFrame "FDE pc_range" (r.baseVaddr + UInt64.ofNat fdeAt).toNat
          "the function's extent wraps the address space"))
      else pure ⟨start, len⟩) := by
  have hle := hl.fde.le
  have hshort := hl.fdeFields.short
  have hbefore := hl.before
  have hnear := hl.near
  obtain ⟨hlength, h⟩ := holds_append.1 hl.fde
  obtain ⟨hdelta, -⟩ := holds_append.1 h
  rw [length_leBytes] at hdelta
  simp only [Fde.bytes, List.length_append, length_leBytes] at hle
  have hword : ∀ n w : ℕ, n < 2 ^ 32 → w < 2 ^ 32 → n ≠ w → UInt32.ofNat n ≠ UInt32.ofNat w := fun n w hn hw hne he =>
    hne (by rw [← UInt32.toNat_ofNat_of_lt' hn, he, UInt32.toNat_ofNat_of_lt' hw])
  have hzero : UInt32.ofNat (4 + f.body.length) ≠ 0 := hword _ 0 (by omega) (by omega) (by omega)
  have hwide : UInt32.ofNat (4 + f.body.length) ≠ 0xffffffff := hword _ 0xffffffff (by omega) (by omega) (by omega)
  have hdeltaZero : UInt32.ofNat (fdeAt + 4 - cieAt) ≠ 0 := hword _ 0 hnear (by omega) (by omega)
  have hdeltaNat : (UInt32.ofNat (fdeAt + 4 - cieAt)).toNat = fdeAt + 4 - cieAt := UInt32.toNat_ofNat_of_lt' hnear
  unfold fdeBounds
  simp only [r.offsetOf_laid hl.fits (show fdeAt < r.view.length by omega), refuse, bind, Except.bind,
    viewU32_word _ (by omega) hlength, if_neg hzero, if_neg hwide, usize_of_lt (show fdeAt + 4 < 2 ^ 64 by omega),
    viewU32_word _ hnear hdelta, if_neg hdeltaZero, hdeltaNat, if_neg (show ¬fdeAt + 4 < fdeAt + 4 - cieAt by omega),
    show fdeAt + 4 - (fdeAt + 4 - cieAt) = cieAt by omega, show fdeAt + 4 + 4 = fdeAt + 8 by omega,
    usize_of_lt (show fdeAt + 8 < 2 ^ 64 by omega)]

theorem and_low (encoding : UInt8) : (encoding &&& 0x0f) &&& 0x0f = encoding &&& 0x0f ∧
    (encoding &&& 0x0f) &&& 0x70 = 0 ∧ (encoding &&& 0x0f) &&& 0x80 = 0 := by
  refine ⟨?_, ?_, ?_⟩
  · rw [UInt8.and_assoc]
    rfl
  · rw [UInt8.and_assoc, show (0x0f : UInt8) &&& 0x70 = 0 from rfl, UInt8.and_zero]
  · rw [UInt8.and_assoc, show (0x0f : UInt8) &&& 0x80 = 0 from rfl, UInt8.and_zero]

theorem dataRelative_iff (encoding : UInt8) :
    encoding &&& 0xf0 = 0x30 ↔ encoding &&& 0x80 = 0 ∧ (encoding &&& 0x70).toNat = 0x30 := by
  have hall : ∀ n ∈ List.range 256, (UInt8.ofNat n &&& 0xf0 = 0x30 ↔
      UInt8.ofNat n &&& 0x80 = 0 ∧ (UInt8.ofNat n &&& 0x70).toNat = 0x30) := by
    decide +kernel
  simpa using hall encoding.toNat (List.mem_range.mpr encoding.toNat_lt)

/-- the length is read where the start ends, and is relative to nothing -/
theorem pcRange_laid {c : Cie} {f : Fde} {at_ : ℕ} (hheld : Holds r.view at_ f.pcRange)
    (hin : InFormat (c.fdeEncoding &&& 0x0f) f.pcRange) (hwidth : widthOf c.fdeEncoding ≠ none) :
    readEncoded r.view r.baseVaddr at_ (c.fdeEncoding &&& 0x0f) 0 "FDE pc_range" =
      .ok (UInt64.ofInt (rawOf c.fdeEncoding f.pcRange), f.pcRange.length) := by
  obtain ⟨hlow, happlication, hindirect⟩ := and_low c.fdeEncoding
  have happlied : Applied (c.fdeEncoding &&& 0x0f) := ⟨hindirect, .inl (by rw [happlication]; rfl)⟩
  have hwidth' : widthOf (c.fdeEncoding &&& 0x0f) ≠ none := by
    unfold widthOf at hwidth ⊢
    rwa [hlow]
  have hpad : Padded (c.fdeEncoding &&& 0x0f) 0 [] := by
    unfold Padded
    rw [happlication]
    rfl
  have hread := readEncoded_value "FDE pc_range" r.baseVaddr ⟨0, 0, 0, id⟩
    (show Holds r.view at_ ([] ++ f.pcRange) from hheld) hpad hin
  obtain ⟨-, a, ha, -, rfl⟩ | ⟨hnot, -⟩ := hread
  · rw [ha]
    congr 2
    unfold baseOf rawOf
    rw [happlication, hlow]
    exact UInt64.zero_add _
  · exact absurd ⟨hwidth', happlied⟩ hnot

/-- over entries laid out by the format's rules the bounds are exact where no padding is in the way and the FDE's pointers
are not relative to the data base -/
theorem exact_iff (hlen : r.view.length < 2 ^ 63) {bases : Bases} {c : Cie} {f : Fde} {cieAt fdeAt : ℕ}
    (hl : Laid r bases c f cieAt fdeAt) (hpad : Unpadded c.letters) :
    Exact r bases c f fdeAt ↔ (c.DataRelative → bases.data = 0) := by
  unfold Exact
  rw [r.fdeBounds_eq hlen hl]
  obtain ⟨himpl, e, he, rfl⟩ | ⟨himpl, err, he, hnot⟩ := r.cieFdeEncoding_laid hlen hl.cie hl.cieFields hpad
  swap
  · simp only [he, bind, Except.bind]
    exact ⟨fun _ h => absurd h.1 himpl, fun _ => .inr ⟨err, rfl, hnot⟩⟩
  have hle := hl.fde.le
  obtain ⟨-, h⟩ := holds_append.1 hl.fde
  obtain ⟨-, h⟩ := holds_append.1 h
  simp only [length_leBytes] at h
  obtain ⟨hbegin, h⟩ := holds_append.1 (show Holds r.view (fdeAt + 8) ((f.pad ++ f.pcBegin) ++ (f.pcRange ++ f.rest)) by
    simpa [Fde.body, add_assoc] using h)
  obtain ⟨hrange, -⟩ := holds_append.1 h
  simp only [Fde.bytes, Fde.body, List.length_append, length_leBytes] at hle
  obtain ⟨⟨hwidth, happlied⟩, a, ha, hnil, rfl⟩ | ⟨hnot, err, ha, herr⟩ :=
    readEncoded_value "FDE pc_begin" r.baseVaddr { bases with data := 0 } hbegin
      hl.fdeFields.pad hl.fdeFields.pcBegin
  swap
  · simp only [he, bind, Except.bind, ha]
    refine ⟨fun _ h => absurd ⟨h.2.1, ?_⟩ hnot, fun _ => .inr ⟨err, rfl, herr⟩⟩
    have h30 := (dataRelative_iff _).1 h.2.2
    exact ⟨h30.1, .inr (.inr h30.2)⟩
  rw [List.length_append, hnil, List.length_nil, Nat.zero_add] at hrange
  have hrange := r.pcRange_laid hrange hl.fdeFields.pcRange hwidth
  have hbounds : f.bounds bases c.fdeEncoding (r.baseVaddr + UInt64.ofNat (fdeAt + 8)) =
      ⟨baseOf bases (r.baseVaddr + UInt64.ofNat (fdeAt + 8)) c.fdeEncoding +
        UInt64.ofInt (rawOf c.fdeEncoding f.pcBegin), UInt64.ofInt (rawOf c.fdeEncoding f.pcRange)⟩ := by
    unfold Fde.bounds encoded
    rw [hnil, if_pos happlied.1, List.length_nil, show UInt64.ofNat 0 = 0 from rfl, UInt64.add_zero]
  have hextent := hl.extent
  rw [hbounds] at hextent ⊢
  -- what decides is whether the base that the reader takes is the right one
  have hbase : (c.DataRelative → bases.data = 0) ↔
      baseOf { bases with data := 0 } (r.baseVaddr + UInt64.ofNat (fdeAt + 8)) c.fdeEncoding =
        baseOf bases (r.baseVaddr + UInt64.ofNat (fdeAt + 8)) c.fdeEncoding := by
    unfold Cie.DataRelative baseOf
    rw [dataRelative_iff]
    obtain h0 | h0 | h0 := happlied.2 <;> simp [h0, himpl, hwidth, happlied.1, eq_comm]
  rw [hbase]
  simp only [he, bind, Except.bind, ha, usize_of_lt (show fdeAt + 8 + f.pcBegin.length < 2 ^ 64 by omega), hrange]
  constructor
  · rintro (hok | ⟨err, herr, hnot⟩)
    · split_ifs at hok
      have hstart := congrArg FunctionBounds.start (Except.ok.inj hok)
      exact (UInt64.add_left_inj _).1 hstart
    · split_ifs at herr
      · cases herr
        obtain ⟨_, _, h⟩ | ⟨_, _, h⟩ | ⟨_, h⟩ := hnot
        · cases h
        · simp at h
        · simp at h
      · cases herr
  · intro heq
    dsimp only at hextent
    rw [heq, if_neg (by omega)]
    exact .inl rfl

/-- a version 1 CIE with the given letters, whose FDEs have `pcrel | sdata4` pointers -/
def sampleCie (letters : List Letter) (dataLength : UInt8) (instructions : Bytes) : Cie :=
  ⟨1, letters, 0x1b, [0x01], [0x78], [30], [dataLength], instructions⟩

/-- a function of 64 bytes, 0x1000 past its FDE's first pointer -/
def sampleFde : Fde := ⟨[], [0x00, 0x10, 0x00, 0x00], [0x40, 0x00, 0x00, 0x00], []⟩

/-- the section of the two at 0x4000 -/
def section_ (c : Cie) : FrameReader := ⟨c.bytes ++ sampleFde.bytes (c.bytes.length + 4), 0x4000⟩

theorem leb_single {b : UInt8} (h : b &&& 0x80 = 0) : Leb [b] := leb_cons.2 (.inl ⟨rfl, h⟩)

theorem section_laid {letters : List Letter} {dataLength : UInt8} {instructions : Bytes} {n : ℕ} {c : Cie}
    (hc : c = sampleCie letters dataLength instructions) (hn : c.bytes.length = n) (hsmall : n < 2 ^ 16)
    (hdl : dataLength &&& 0x80 = 0) (hR : .R ∈ letters)
    (hletters : LettersLaid 0x1b (0x4000 + UInt64.ofNat 0 + 4 + UInt64.ofNat c.fields.length) letters)
    (hextent : (sampleFde.bounds ⟨0, 0, 0, id⟩ 0x1b (0x4000 + UInt64.ofNat (n + 8))).start.toNat + 64 < 2 ^ 64) :
    Laid (section_ c) ⟨0, 0, 0, id⟩ c sampleFde 0 n := by
  have hview : (section_ c).view.length = n + 16 := by
    simp [section_, Fde.bytes, Fde.body, sampleFde, hn]
  have hencoding : c.fdeEncoding = 0x1b := by
    subst hc
    exact if_pos hR
  have hheld : Holds (section_ c).view 0 (c.bytes ++ sampleFde.bytes (c.bytes.length + 4)) := holds_self _
  obtain ⟨hcie, hfde⟩ := holds_append.1 hheld
  have hbody : c.body.length < 0xffffffff := by
    have : c.bytes.length = 4 + c.body.length := by rw [Cie.bytes, List.length_append, length_leBytes]
    omega
  have hbase : (section_ c).baseVaddr = 0x4000 := rfl
  refine ⟨?_, hcie, ?_, by omega, by omega, ?_, ?_, ?_⟩
  · rw [hview, hbase]
    have : (0x4000 : UInt64).toNat = 0x4000 := rfl
    omega
  · rw [hn, Nat.zero_add] at hfde
    exact hfde
  · subst hc
    refine ⟨.inl rfl, leb_single rfl, leb_single rfl, rfl, leb_single hdl, hletters, hbody⟩
  · rw [hencoding]
    exact ⟨rfl, rfl, rfl, by decide⟩
  · rw [hencoding]
    exact hextent

/-- the CIE of the FDEs of most objects: `zR` -/
def plainCie : Cie := sampleCie [.R] 1 [0, 0, 0]

/-- `zPR`, with an aligned personality pointer: six bytes of padding stand before it -/
def alignedCie : Cie := sampleCie [.P 0x50 (List.replicate 6 0) [0, 0, 3, 0, 0, 0, 0, 0], .R] 16 [0, 0, 0]

end FrameReader

end Omnidroid.Elf
