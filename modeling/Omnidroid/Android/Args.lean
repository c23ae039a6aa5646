/-
How the thunks find a guest call's arguments (`abi.rs` and `varargs.rs` of `omni-android`, the reads of `mem.rs`).
- `Args`: the cursor over the named arguments. `VarArgs`: over those after them, of a call to the host.
- `GuestVaList`: over those of a list that the guest made.
A read keeps count of what it looks at, the refused one too.
-/
import Omnidroid.Lib.Aapcs64
import Omnidroid.Lib.Bytes

namespace Omnidroid.Android

open Aapcs64

structure Blame where
  symbol : String
  address : ℕ
  argument : ℕ

inductive Refusal where
  | notMapped
  | protection
  | commit
deriving DecidableEq, Repr

inductive AbiError where
  | badPointer (symbol : String) (address argument pointer len : ℕ) (access : String) (refusal : Refusal)
  | badVaList (symbol : String) (address pointer : ℕ) (field : String) (value low high : ℤ)
deriving DecidableEq, Repr

/-- what is read, start and length -/
abbrev Reads := EStateM AbiError (List (ℕ × ℕ))

structure GuestMem where
  bytes : ℕ → UInt8
  /-- why `admit` refuses to read so many bytes at an address, where it does -/
  admission : ℕ → ℕ → Option Refusal
  inside : ∀ address len, admission address len = none → address + len < 2 ^ 64
  part : ∀ address len len', admission address len = none → len' ≤ len → admission address len' = none

/-- `usize::checked_add` -/
def checkedAdd (a b : ℕ) : Option ℕ := if a + b < 2 ^ 64 then some (a + b) else none

namespace GuestMem

def at' (m : GuestMem) (address len : ℕ) : Bytes := (List.range len).map fun i => m.bytes (address + i)

def readBytes (m : GuestMem) (address len : ℕ) (blame : Blame) : Reads Bytes := fun log =>
  if len = 0 then .ok [] log
  else
    match m.admission address len with
    | some refusal =>
      .error (.badPointer blame.symbol blame.address blame.argument address len "reading" refusal) (log ++ [(address, len)])
    | none => .ok (m.at' address len) (log ++ [(address, len)])

def readU64 (m : GuestMem) (address : ℕ) (blame : Blame) : Reads UInt64 := do
  let bytes ← m.readBytes address 8 blame
  pure (UInt64.ofNat bytes.leNat)

def readI32 (m : GuestMem) (address : ℕ) (blame : Blame) : Reads Int32 := do
  let bytes ← m.readBytes address 4 blame
  pure (UInt32.ofNat bytes.leNat).toInt32

end GuestMem

/-- the registers of a call -/
structure ArgSource where
  x : ℕ → UInt64
  v : ℕ → BitVec 128
  sp : ℕ

def ARG_REGISTERS : ℕ := 8

/-! ## The named arguments -/

structure Args where
  call : ArgSource
  mem : GuestMem
  blame : Blame
  ngrn : ℕ
  nsrn : ℕ
  nsaa : ℕ
  taken : ℕ

namespace Args

def new (call : ArgSource) (mem : GuestMem) (blame : Blame) : Args := ⟨call, mem, blame, 0, 0, call.sp, 0⟩

def argumentBlame (a : Args) : Blame := { a.blame with argument := a.taken }

def overflow (a : Args) : ℕ := a.nsaa

def consumed (a : Args) : ℕ × ℕ := (a.ngrn, a.nsrn)

def nsaaOutOfSpace (a : Args) (pointer len : ℕ) : AbiError :=
  .badPointer a.blame.symbol a.blame.address a.taken pointer len "reading" .notMapped

/-- up to the next multiple, of eight at least -/
def alignNsaa (a : Args) (align : ℕ) : Reads ℕ :=
  match checkedAdd a.nsaa (max align 8 - 1) with
  | some sum => pure (sum / max align 8 * max align 8)
  | none => throw (a.nsaaOutOfSpace a.nsaa (max align 8))

def advanceNsaa (a : Args) (at_ step : ℕ) : Reads ℕ :=
  match checkedAdd at_ step with
  | some sum => pure sum
  | none => throw (a.nsaaOutOfSpace at_ step)

def nextU64 (a : Args) : Reads (UInt64 × Args) :=
  if a.ngrn < ARG_REGISTERS then pure (a.call.x a.ngrn, { a with ngrn := a.ngrn + 1, taken := a.taken + 1 })
  else do
    let at_ ← a.alignNsaa 8
    let value ← a.mem.readU64 at_ a.argumentBlame
    let nsaa ← a.advanceNsaa at_ 8
    pure (value, { a with nsaa := nsaa, taken := a.taken + 1 })

def nextI32 (a : Args) : Reads (Int32 × Args) := do
  let (value, a) ← a.nextU64
  pure (value.toUInt32.toInt32, a)

def nextFpBits (a : Args) (size : ℕ) : Reads (BitVec 128 × Args) :=
  if a.nsrn < ARG_REGISTERS then pure (a.call.v a.nsrn, { a with nsrn := a.nsrn + 1, taken := a.taken + 1 })
  else do
    let at_ ← a.alignNsaa (max size 8)
    let bytes ← a.mem.readBytes at_ size a.argumentBlame
    let nsaa ← a.advanceNsaa at_ (max size 8)
    pure (BitVec.ofNat 128 bytes.leNat, { a with nsaa := nsaa, taken := a.taken + 1 })

/-- a `double` by its bits -/
def nextF64 (a : Args) : Reads (UInt64 × Args) := do
  let (bits, a) ← a.nextFpBits 8
  pure (UInt64.ofNat bits.toNat, a)

/-- a `float` by its bits -/
def nextF32 (a : Args) : Reads (UInt32 × Args) := do
  let (bits, a) ← a.nextFpBits 4
  pure (UInt32.ofNat bits.toNat, a)

end Args

/-! ## The variadic part of a call -/

structure VarArgs where
  call : ArgSource
  mem : GuestMem
  blame : Blame
  ngrn : ℕ
  nsrn : ℕ
  overflow : ℕ
  index : ℕ

namespace VarArgs

def GR_SLOT : ℕ := 8
def VR_SLOT : ℕ := 16
def GR_SAVE_BYTES : ℕ := ARG_REGISTERS * GR_SLOT
def VR_SAVE_BYTES : ℕ := ARG_REGISTERS * VR_SLOT

def new (call : ArgSource) (mem : GuestMem) (blame : Blame) (consumed : ℕ × ℕ) (overflow : ℕ) : VarArgs :=
  ⟨call, mem, blame, consumed.1, consumed.2, overflow, 0⟩

def argumentBlame (a : VarArgs) : Blame := { a.blame with argument := a.blame.argument + a.index }

def overflowOutOfSpace (a : VarArgs) (pointer len : ℕ) : AbiError :=
  .badPointer a.blame.symbol a.blame.address a.index pointer len "reading" .notMapped

def alignedOverflow (a : VarArgs) (align : ℕ) : Reads ℕ :=
  match checkedAdd a.overflow (align - 1) with
  | some sum => pure (sum / align * align)
  | none => throw (a.overflowOutOfSpace a.overflow align)

def advanceOverflow (a : VarArgs) (at_ step : ℕ) : Reads ℕ :=
  match checkedAdd at_ step with
  | some sum => pure sum
  | none => throw (a.overflowOutOfSpace at_ step)

def nextU64 (a : VarArgs) : Reads (UInt64 × VarArgs) :=
  if a.ngrn < ARG_REGISTERS then pure (a.call.x a.ngrn, { a with ngrn := a.ngrn + 1, index := a.index + 1 })
  else do
    let at_ ← a.alignedOverflow GR_SLOT
    let value ← a.mem.readU64 at_ a.argumentBlame
    let overflow ← a.advanceOverflow at_ GR_SLOT
    pure (value, { a with overflow := overflow, index := a.index + 1 })

def nextI32 (a : VarArgs) : Reads (Int32 × VarArgs) := do
  let (value, a) ← a.nextU64
  pure (value.toUInt32.toInt32, a)

/-- a `double` by its bits, what a `float` was promoted to -/
def nextF64 (a : VarArgs) : Reads (UInt64 × VarArgs) :=
  if a.nsrn < ARG_REGISTERS then
    pure (UInt64.ofNat (a.call.v a.nsrn).toNat, { a with nsrn := a.nsrn + 1, index := a.index + 1 })
  else do
    let at_ ← a.alignedOverflow GR_SLOT
    let value ← a.mem.readU64 at_ a.argumentBlame
    let overflow ← a.advanceOverflow at_ GR_SLOT
    pure (value, { a with overflow := overflow, index := a.index + 1 })

end VarArgs

/-! ## A list that the guest made -/

namespace Field

def STACK : ℕ := 0
def GR_TOP : ℕ := 8
def VR_TOP : ℕ := 16
def GR_OFFS : ℕ := 24
def VR_OFFS : ℕ := 28

end Field

inductive SaveBank where
  | general
  | simd

def SaveBank.field : SaveBank → String
  | general => "__gr_top"
  | simd => "__vr_top"

def SaveBank.saveBytes : SaveBank → ℕ
  | general => VarArgs.GR_SAVE_BYTES
  | simd => VarArgs.VR_SAVE_BYTES

structure GuestVaList where
  mem : GuestMem
  blame : Blame
  at_ : ℕ
  stack : ℕ
  grTop : ℕ
  vrTop : ℕ
  grOffs : ℤ
  vrOffs : ℤ
  index : ℕ

namespace GuestVaList

open VarArgs

def checkOffset (value : ℤ) (saveBytes : ℕ) (field : String) (at_ : ℕ) (blame : Blame) : Reads Unit :=
  if value < -saveBytes ∨ saveBytes < value then
    throw (.badVaList blame.symbol blame.address at_ field value (-saveBytes) saveBytes)
  else pure ()

/-- a field's address, a sum that nothing checks -/
def fieldAt (at_ field : ℕ) : ℕ := (at_ + field) % 2 ^ 64

def read (mem : GuestMem) (at_ : ℕ) (blame : Blame) : Reads GuestVaList := do
  let stack ← mem.readU64 (fieldAt at_ Field.STACK) blame
  let grTop ← mem.readU64 (fieldAt at_ Field.GR_TOP) blame
  let vrTop ← mem.readU64 (fieldAt at_ Field.VR_TOP) blame
  let grOffs ← mem.readI32 (fieldAt at_ Field.GR_OFFS) blame
  let vrOffs ← mem.readI32 (fieldAt at_ Field.VR_OFFS) blame
  checkOffset grOffs.toInt GR_SAVE_BYTES "__gr_offs" at_ blame
  checkOffset vrOffs.toInt VR_SAVE_BYTES "__vr_offs" at_ blame
  pure ⟨mem, blame, at_, stack.toNat, grTop.toNat, vrTop.toNat, min grOffs.toInt 0, min vrOffs.toInt 0, 0⟩

def offsetFrom (l : GuestVaList) (top : ℕ) (offs : ℤ) (bank : SaveBank) : Reads ℕ :=
  if 0 ≤ (top : ℤ) + offs ∧ (top : ℤ) + offs < 2 ^ 64 then pure ((top : ℤ) + offs).toNat
  else throw (.badVaList l.blame.symbol l.blame.address l.at_ bank.field offs (-bank.saveBytes) 0)

def stackOutOfSpace (l : GuestVaList) (pointer len : ℕ) : AbiError :=
  .badPointer l.blame.symbol l.blame.address l.index pointer len "reading" .notMapped

def alignedStack (l : GuestVaList) (align : ℕ) : Reads ℕ :=
  match checkedAdd l.stack (align - 1) with
  | some sum => pure (sum / align * align)
  | none => throw (l.stackOutOfSpace l.stack align)

def advanceStack (l : GuestVaList) (at_ step : ℕ) : Reads ℕ :=
  match checkedAdd at_ step with
  | some sum => pure sum
  | none => throw (l.stackOutOfSpace at_ step)

def nextU64 (l : GuestVaList) : Reads (UInt64 × GuestVaList) :=
  if l.grOffs < 0 then do
    let at_ ← l.offsetFrom l.grTop l.grOffs .general
    let value ← l.mem.readU64 at_ l.blame
    pure (value, { l with grOffs := l.grOffs + GR_SLOT, index := l.index + 1 })
  else do
    let at_ ← l.alignedStack GR_SLOT
    let value ← l.mem.readU64 at_ l.blame
    let stack ← l.advanceStack at_ GR_SLOT
    pure (value, { l with stack := stack, index := l.index + 1 })

def nextI32 (l : GuestVaList) : Reads (Int32 × GuestVaList) := do
  let (value, l) ← l.nextU64
  pure (value.toUInt32.toInt32, l)

/-- a `double` by its bits, the low half of its slot -/
def nextF64 (l : GuestVaList) : Reads (UInt64 × GuestVaList) :=
  if l.vrOffs < 0 then do
    let at_ ← l.offsetFrom l.vrTop l.vrOffs .simd
    let value ← l.mem.readU64 at_ l.blame
    pure (value, { l with vrOffs := l.vrOffs + VR_SLOT, index := l.index + 1 })
  else do
    let at_ ← l.alignedStack GR_SLOT
    let value ← l.mem.readU64 at_ l.blame
    let stack ← l.advanceStack at_ GR_SLOT
    pure (value, { l with stack := stack, index := l.index + 1 })

end GuestVaList

/-! ## A handler's reads -/

/-- arguments of these kinds, one after the other -/
def readAll {σ : Type} (next : σ → Kind → Reads (Arg × σ)) (s : σ) : List Kind → Reads (List Arg × σ)
  | [] => pure ([], s)
  | k :: kinds => do
    let (a, s) ← next s k
    let (as, s) ← readAll next s kinds
    pure (a :: as, s)

def Args.next (a : Args) : Kind → Reads (Arg × Args)
  | .long => do let (value, a) ← a.nextU64; pure (.long value, a)
  | .int => do let (value, a) ← a.nextI32; pure (.int value, a)
  | .double => do let (bits, a) ← a.nextF64; pure (.double bits, a)
  | .float => do let (bits, a) ← a.nextF32; pure (.float bits, a)

/-- no `float` is among the variadic arguments -/
def VarArgs.next (a : VarArgs) : Kind → Reads (Arg × VarArgs)
  | .long => do let (value, a) ← a.nextU64; pure (.long value, a)
  | .int => do let (value, a) ← a.nextI32; pure (.int value, a)
  | .double | .float => do let (bits, a) ← a.nextF64; pure (.double bits, a)

def GuestVaList.next (l : GuestVaList) : Kind → Reads (Arg × GuestVaList)
  | .long => do let (value, l) ← l.nextU64; pure (.long value, l)
  | .int => do let (value, l) ← l.nextI32; pure (.int value, l)
  | .double | .float => do let (bits, l) ← l.nextF64; pure (.double bits, l)

/-- a call to the host: the named arguments, and then the others from where these stopped -/
def readCall (call : ArgSource) (mem : GuestMem) (blame : Blame) (named variadic : List Kind) :
    Reads ((List Arg × List Arg) × VarArgs) := do
  let (names, a) ← readAll Args.next (Args.new call mem blame) named
  let (rest, a) ← readAll VarArgs.next (VarArgs.new call mem a.argumentBlame a.consumed a.overflow) variadic
  pure ((names, rest), a)

/-- a call with a list -/
def readList (mem : GuestMem) (at_ : ℕ) (blame : Blame) (kinds : List Kind) : Reads (List Arg × GuestVaList) := do
  let l ← GuestVaList.read mem at_ blame
  readAll GuestVaList.next l kinds

end Omnidroid.Android
