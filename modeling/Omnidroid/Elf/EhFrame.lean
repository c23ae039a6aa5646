/-
The bounds of a function as its FDE in `.eh_frame` has them (`omni-elf/src/eh_frame.rs`).
- `readEncoded`: a value by its encoding byte, which has a width and sign, and what the value is relative to.
- `cieFdeEncoding`: the encoding byte of a CIE's FDEs, past the fields of the CIE that come before it.
- `fdeBounds`: the start and the length that an FDE has.
-/
import Omnidroid.Elf.Symbols

namespace Omnidroid.Elf

open Bytes

structure FunctionBounds where
  start : UInt64
  len : UInt64
deriving DecidableEq, Repr

/-- how an encoding byte is applied -/
inductive Apply where
  | absolute
  /-- to the address of the field itself -/
  | pcRelative
  /-- to the start of `.eh_frame_hdr` -/
  | dataRelative
deriving DecidableEq, Repr

/-- a value's size and sign -/
structure Format where
  bytes : ℕ
  signed : Bool
deriving DecidableEq, Repr

def formatOf (encoding : UInt8) (what : String) : Except ElfError Format :=
  match (encoding &&& 0x0f).toNat with
  | 0x00 => .ok ⟨8, false⟩
  | 0x02 => .ok ⟨2, false⟩
  | 0x03 => .ok ⟨4, false⟩
  | 0x04 => .ok ⟨8, false⟩
  | 0x0a => .ok ⟨2, true⟩
  | 0x0b => .ok ⟨4, true⟩
  | 0x0c => .ok ⟨8, true⟩
  | _ => .error (.unsupportedEhFrameEncoding what encoding)

def applyOf (encoding : UInt8) (what : String) : Except ElfError Apply :=
  if encoding &&& 0x80 ≠ 0 then .error (.unsupportedEhFrameEncoding what encoding)
  else
    match (encoding &&& 0x70).toNat with
    | 0x00 => .ok .absolute
    | 0x10 => .ok .pcRelative
    | 0x30 => .ok .dataRelative
    | _ => .error (.unsupportedEhFrameEncoding what encoding)

/-- the number of a value, before what it is relative to -/
def rawAt (view : Bytes) (offset : ℕ) (format : Format) (what : String) : Except Stop UInt64 :=
  match format.bytes, format.signed with
  | 2, false => refuse ((viewU16 what view offset).map (·.toUInt64))
  | 4, false => refuse ((viewU32 what view offset).map (·.toUInt64))
  | 8, false => refuse (viewU64 what view offset)
  | 2, true => refuse ((viewU16 what view offset).map (·.toInt16.toInt64.toUInt64))
  | 4, true => refuse ((viewU32 what view offset).map (·.toInt32.toInt64.toUInt64))
  | 8, true => refuse (viewU64 what view offset)
  -- `unreachable!`
  | _, _ => .error .overflow

/-- the value at an offset of a view that starts at an address, and how many bytes it has -/
def readEncoded (view : Bytes) (viewVaddr : UInt64) (offset : ℕ) (encoding : UInt8) (hdrVaddr : UInt64) (what : String) :
    Except Stop (UInt64 × ℕ) := do
  let format ← refuse (formatOf encoding what)
  let raw ← rawAt view offset format what
  let apply ← refuse (applyOf encoding what)
  let base := match apply with
    | .absolute => 0
    | .pcRelative => viewVaddr + UInt64.ofNat offset
    | .dataRelative => hdrVaddr
  pure (base + raw, format.bytes)

/-- so many more bytes of a LEB128 number, what those read come to and how many they are -/
def uleb128From (view : Bytes) (offset : ℕ) (what : String) : ℕ → UInt64 → ℕ → ℕ → Except Stop (UInt64 × ℕ)
  | 0, _, _, _ =>
    .error (.refused (.malformedEhFrame what offset "a LEB128 ran past ten bytes, which no 64-bit value needs"))
  | n + 1, value, shift, used => do
    let at_ ← usize (offset + used)
    let byte ← refuse (viewU8 what view at_)
    let value := value ||| (byte &&& 0x7f).toUInt64 <<< UInt64.ofNat (min shift 63)
    if byte &&& 0x80 = 0 then pure (value, used + 1) else uleb128From view offset what n value (shift + 7) (used + 1)

def uleb128 (view : Bytes) (offset : ℕ) (what : String) : Except Stop (UInt64 × ℕ) :=
  uleb128From view offset what 10 0 0 0

/-- a string's end looked for in so many more bytes, after those looked at -/
def augmentationFrom (view : Bytes) (offset : ℕ) : ℕ → ℕ → Except Stop (Bytes × ℕ)
  | 0, _ =>
    .error (.refused (.malformedEhFrame "CIE augmentation" offset
      "the augmentation string is not NUL-terminated within 32 bytes"))
  | n + 1, len => do
    let at_ ← usize (offset + len)
    let byte ← refuse (viewU8 "CIE augmentation" view at_)
    if byte = 0 then
      match view.get? offset len with
      | some aug => pure (aug, len + 1)
      | none => .error (.refused (.outOfBounds "CIE augmentation" offset len (bytesLeft view offset len)))
    else augmentationFrom view offset n (len + 1)

def augmentation (view : Bytes) (offset : ℕ) : Except Stop (Bytes × ℕ) := augmentationFrom view offset 32 0

/-- `.eh_frame`, from its address on -/
structure FrameReader where
  view : Bytes
  baseVaddr : UInt64

namespace FrameReader

def offsetOf (r : FrameReader) (vaddr : UInt64) (what : String) : Except ElfError ℕ :=
  if vaddr < r.baseVaddr then
    .error (.malformedEhFrame what vaddr.toNat "the entry lies before the start of .eh_frame")
  else .ok (vaddr - r.baseVaddr).toNat

/-- the augmentation data, a letter at a time, up to that of `R` -/
def letters (r : FrameReader) (cieAt : ℕ) : ℕ → Bytes → Except Stop UInt8
  | _, [] => .ok 0x00
  | at_, c :: rest =>
    if c = 0x52 then refuse (viewU8 "CIE augmentation R" r.view at_)
    else if c = 0x4c then do
      let next ← usize (at_ + 1)
      r.letters cieAt next rest
    else if c = 0x53 ∨ c = 0x42 ∨ c = 0x47 then r.letters cieAt at_ rest
    else if c = 0x50 then do
      let encoding ← refuse (viewU8 "CIE augmentation P" r.view at_)
      let next ← usize (at_ + 1)
      let format ← refuse (formatOf encoding "CIE personality pointer")
      let next ← usize (next + format.bytes)
      r.letters cieAt next rest
    else .error (.refused (.malformedEhFrame "CIE augmentation" cieAt
      "an augmentation character this module does not know, so the augmentation data cannot be walked to reach 'R'"))

/-- how many bytes the return address register has: one in version 1 -/
def returnAddressBytes (r : FrameReader) (at_ : ℕ) (version : UInt8) : Except Stop ℕ :=
  if version = 1 then .ok 1 else (uleb128 r.view at_ "CIE return_address_register").map Prod.snd

/-- the encoding that a CIE declares for the pointers of its FDEs -/
def cieFdeEncoding (r : FrameReader) (cieAt : ℕ) : Except Stop UInt8 := do
  let length ← refuse (viewU32 "CIE length" r.view cieAt)
  if length = 0 ∨ length = 0xffffffff then
    .error (.refused (.malformedEhFrame "CIE" cieAt "a CIE with a terminator or 64-bit DWARF length"))
  else
    let idAt ← usize (cieAt + 4)
    let id ← refuse (viewU32 "CIE id" r.view idAt)
    if id ≠ 0 then
      .error (.refused (.malformedEhFrame "CIE" cieAt
        "the CIE id is not zero, so the FDE's CIE_pointer does not point at a CIE"))
    else
      let versionAt ← usize (cieAt + 8)
      let version ← refuse (viewU8 "CIE version" r.view versionAt)
      if version ≠ 1 ∧ version ≠ 3 then
        .error (.refused (.malformedEhFrame "CIE version" cieAt "only CIE versions 1 and 3 are implemented"))
      else
        let at_ ← usize (cieAt + 9)
        let (aug, augLen) ← augmentation r.view at_
        let at_ ← usize (at_ + augLen)
        let (_, n) ← uleb128 r.view at_ "CIE code_alignment_factor"
        let at_ ← usize (at_ + n)
        let (_, n) ← uleb128 r.view at_ "CIE data_alignment_factor"
        let at_ ← usize (at_ + n)
        let n ← r.returnAddressBytes at_ version
        let at_ ← usize (at_ + n)
        match aug with
        | [] => pure 0x00
        | z :: rest =>
          if z ≠ 0x7a then pure 0x00
          else
            let (_, n) ← uleb128 r.view at_ "CIE augmentation data length"
            let at_ ← usize (at_ + n)
            r.letters cieAt at_ rest

def fdeBounds (r : FrameReader) (fdeVaddr : UInt64) : Except Stop FunctionBounds := do
  let at_ ← refuse (r.offsetOf fdeVaddr "FDE")
  let length ← refuse (viewU32 "FDE length" r.view at_)
  if length = 0 then
    .error (.refused (.malformedEhFrame "FDE" fdeVaddr.toNat
      "a zero length marks the end of .eh_frame, so this is not an FDE"))
  else if length = 0xffffffff then
    .error (.refused (.malformedEhFrame "FDE" fdeVaddr.toNat "64-bit DWARF lengths are not implemented"))
  else
    let ciePointerAt ← usize (at_ + 4)
    let cieDelta ← refuse (viewU32 "FDE CIE_pointer" r.view ciePointerAt)
    if cieDelta = 0 then
      .error (.refused (.malformedEhFrame "FDE" fdeVaddr.toNat "a zero CIE_pointer makes this a CIE, not an FDE"))
    else if ciePointerAt < cieDelta.toNat then
      .error (.refused (.malformedEhFrame "FDE CIE_pointer" fdeVaddr.toNat
        "the CIE_pointer reaches back before the start of .eh_frame"))
    else
      let fdeEncoding ← r.cieFdeEncoding (ciePointerAt - cieDelta.toNat)
      let pcBeginAt ← usize (ciePointerAt + 4)
      let (start, pcBeginLen) ← readEncoded r.view r.baseVaddr pcBeginAt fdeEncoding 0 "FDE pc_begin"
      let pcRangeAt ← usize (pcBeginAt + pcBeginLen)
      -- the same format, and relative to nothing
      let (len, _) ← readEncoded r.view r.baseVaddr pcRangeAt (fdeEncoding &&& 0x0f) 0 "FDE pc_range"
      if 2 ^ 64 ≤ start.toNat + len.toNat then
        .error (.refused (.malformedEhFrame "FDE pc_range" fdeVaddr.toNat
          "the function's extent wraps the address space"))
      else pure ⟨start, len⟩

end FrameReader

end Omnidroid.Elf
