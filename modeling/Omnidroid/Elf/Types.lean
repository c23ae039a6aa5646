/-
What the parsers of `omni-elf` read and return: one relocation, one program header, and the errors, each with what it
names, and the loader's errors. Sizes and addresses are the source's `u64` values as numbers, with its checked and saturating sums.
-/
import Omnidroid.Lib.Bytes

namespace Omnidroid.Elf

/-- one dynamic relocation, always in `Elf64_Rela` shape -/
structure Rela where
  r_offset : UInt64
  r_info : UInt64
  r_addend : Int64
deriving DecidableEq, Repr

/-- the low 32 bits of `r_info` -/
def Rela.r_type (r : Rela) : UInt64 := r.r_info &&& 0xffffffff

/-- the high 32 bits of `r_info` -/
def Rela.r_sym (r : Rela) : UInt64 := r.r_info >>> 32

def checkedAdd (a b : ℕ) : Option ℕ := if a + b < 2 ^ 64 then some (a + b) else none

def saturatingAdd (a b : ℕ) : ℕ := min (a + b) (2 ^ 64 - 1)

inductive ElfError where
  | outOfBounds (what : String) (offset need have_ : ℕ)
  | noLoadSegments
  | segmentFileRangeOverflow (index offset filesz : ℕ)
  | segmentOutsideFile (index offset filesz fileLen : ℕ)
  | segmentFileSizeExceedsMemSize (index filesz memsz : ℕ)
  | segmentMemRangeOverflow (index vaddr memsz : ℕ)
  | segmentAlignNotPowerOfTwo (index align : ℕ)
  | segmentAlignMismatch (index vaddr offset align : ℕ)
  | imageSpanOverflow (baseVaddr endVaddr : ℕ)
  | imageSpanTooLarge (span limit : ℕ)
  | missingDynamicTag (tag : String)
  | duplicateDynamicTag (tag : String) (count : ℕ)
  | unmappedVaddr (vaddr : ℕ)
  | unmappedVaddrRange (vaddr end_ len : ℕ)
  | badEntrySize (what : String) (actual expected : ℕ)
  | unalignedTableSize (what : String) (size entsize : ℕ)
  | allocationFailed (bytes : ℕ)
  | relocationCountExceedsLimit (what : String) (count limit : ℕ)
  | badPltRel (value : ℕ)
  | symbolIndexOutOfBounds (index count : ℕ)
  | relocationSinkStopped
  | stringOffsetOutOfBounds (offset strsz : ℕ)
  | unterminatedString (offset : ℕ)
  | badGnuHash (why : String)
  | badSysvHash (why : String)
  | unsupportedEhFrameEncoding (what : String) (encoding : UInt8)
  | malformedEhFrame (what : String) (offset : ℕ) (reason : String)
  | aps2TooShort (len : ℕ)
  | aps2BadMagic (magic : Bytes)
  | aps2Truncated (offset total : ℕ)
  | aps2NegativeCount (count : Int64)
  | aps2CountExceedsLimit (declared limit : ℕ)
  | aps2BadGroupSize (groupIndex : ℕ) (size : Int64)
  | aps2GroupOverrun (groupIndex size wouldBe declared : ℕ)
  | aps2UnknownGroupFlags (groupIndex : ℕ) (unknown : UInt64)
  | aps2AddendInRelFormat (groupIndex : ℕ)
  | aps2GroupLargerThanStream (groupIndex size minBytesEach needed remaining : ℕ)
  | aps2DeadGroup (groupIndex size : ℕ)
  | aps2GroupExceedsImage (groupIndex size stride reach imageSpan : ℕ)
  | aps2CountMismatch (declared decoded : ℕ)
  | aps2TrailingBytes (consumed total remaining : ℕ)
deriving DecidableEq, Repr

/-- what the loader refuses an object or a relocation for -/
inductive LoadError where
  | elf (e : ElfError)
  /-- the space refused the operation -/
  | mem (operation : String) (address len : ℕ)
  | addressOverflow (what : String) (base vaddr : ℕ)
  | backingLengthMismatch (backing parsed : ℕ)
  | anonymousMemoryTooLarge (requested limit : ℕ)
  | relroOutsideImage (vaddr end_ memsz : ℕ)
  | segmentsOverlap (first firstStart firstEnd second secondStart secondEnd : ℕ)
  | alignBelowPageSize (index align pageSize : ℕ)
  | alignTooLarge (index align limit : ℕ)
  | writableExecutableSegment (index : ℕ) (flags : UInt32)
  | segmentOffsetBelowPageBias (index offset vaddr bias : ℕ)
  | segmentOffsetNotCongruent (index offset vaddr pageSize : ℕ)
  | relocationTargetUnmapped (ty : UInt64) (typeName : String) (rOffset target end_ : ℕ)
  | relocationTargetSpansRanges (ty : UInt64) (rOffset target end_ rangeEnd : ℕ)
  | unsupportedRelocation (ty : UInt64) (typeName : String) (rOffset : ℕ) (why : String)
  | relocationWithoutSymbol (ty : UInt64) (typeName : String) (rOffset : ℕ)
  | ifuncUnsupported (name : String)
  | invalidWindow (size : ℕ) (why : String)
  /-- no refusal: the process stops at an access that the page does not allow -/
  | fault (address : ℕ)
deriving DecidableEq, Repr

end Omnidroid.Elf
