/-
The signal frame (`placement` and `Frame`, `omni-linux/src/signal.rs`): where it goes, what is written there, and what
`rt_sigreturn` reads back.

- `parse_build`: a frame is read as it was written: every register, the flags, the vector registers and the mask.
- `placement_below`: where a frame below a stack pointer starts, as a number.
-/
import Omnidroid.Lib.Layout

namespace Omnidroid.Signal

instance neZero_registers : NeZero 31 := ⟨by decide⟩

open Bytes Layout

def SIGINFO_BYTES : ℕ := 128
/-- `uc_mcontext` within `ucontext` -/
def MCONTEXT_OFFSET : ℕ := 176
/-- `__reserved` within `sigcontext` -/
def RESERVED_OFFSET : ℕ := 288
def RESERVED_BYTES : ℕ := 4096
def UCONTEXT_BYTES : ℕ := MCONTEXT_OFFSET + RESERVED_OFFSET + RESERVED_BYTES
def FRAME_BYTES : ℕ := SIGINFO_BYTES + UCONTEXT_BYTES + 16
def UCONTEXT_OFFSET : ℕ := SIGINFO_BYTES
/-- the frame record within the frame -/
def RECORD_OFFSET : ℕ := SIGINFO_BYTES + UCONTEXT_BYTES

def FPSIMD_MAGIC : UInt32 := 0x46508001
def FPSIMD_BYTES : UInt32 := 528
def SS_ONSTACK : UInt32 := 1
def SS_DISABLE : UInt32 := 2

structure Regs where
  x : Fin 31 → UInt64 := fun _ => 0
  sp : UInt64 := 0
  pc : UInt64 := 0
  pstate : UInt64 := 0
  v : Fin 32 → BitVec 128 := fun _ => 0
  faultAddress : UInt64 := 0
deriving DecidableEq

structure SigInfo where
  signo : Int32
  code : Int32
  addr : UInt64 := 0
  pid : Int32 := 0
  uid : UInt32 := 0
  errno : Int32 := 0
  syscall : Int32 := 0
  arch : UInt32 := 0
  timer : Int32 := 0
  overrun : Int32 := 0
  value : UInt64 := 0
deriving DecidableEq

def SI_QUEUE : Int32 := -1
def SI_TIMER : Int32 := -2
def SYS_SECCOMP : Int32 := 1

/-- `stack_t` -/
structure StackT where
  sp : UInt64
  flags : UInt32
  pad : UInt32 := 0
  size : UInt64
deriving DecidableEq

def le32 (v : UInt32) : Bytes := leBytes 4 v.toNat
def le64 (v : UInt64) : Bytes := leBytes 8 v.toNat

def StackT.bytes (s : StackT) : Bytes := le64 s.sp ++ le32 s.flags ++ le32 s.pad ++ le64 s.size

/-- there is one, and not `SS_DISABLE` -/
def StackT.enabled (s : StackT) : Bool := s.flags &&& SS_DISABLE = 0

/-- the stack pointer is on it -/
def StackT.on (s : StackT) (sp : UInt64) : Bool := s.sp < sp && sp ≤ s.sp + s.size

/-- a frame goes to its top -/
def StackT.entered (s : StackT) (sp : UInt64) (onstack : Bool) : Bool := onstack && s.enabled && s.size ≠ 0 && !s.on sp

def placement (sp : UInt64) (altstack : StackT) (onstack : Bool) : UInt64 :=
  ((if altstack.entered sp onstack then altstack.sp + altstack.size else sp) - UInt64.ofNat FRAME_BYTES) &&& ~~~15

def ucStack (altstack : StackT) (sp : UInt64) : Bytes :=
  (if altstack.enabled && altstack.on sp then { altstack with flags := SS_ONSTACK } else altstack).bytes

/-- what a `siginfo_t` says, and where -/
def infoPieces (info : SigInfo) : List (ℕ × Bytes) :=
  [(0, le32 info.signo.toUInt32), (4, le32 info.errno.toUInt32), (8, le32 info.code.toUInt32)] ++
    if info.signo = 31 ∧ info.code = SYS_SECCOMP then
      [(16, le64 info.addr), (24, le32 info.syscall.toUInt32), (28, le32 info.arch)]
    else if 0 < info.code ∧ info.signo ∈ [4, 5, 7, 8, 11] then [(16, le64 info.addr)]
    else if info.code = SI_TIMER then
      [(16, le32 info.timer.toUInt32), (20, le32 info.overrun.toUInt32), (24, le64 info.value)]
    else
      [(16, le32 info.pid.toUInt32), (20, le32 info.uid)] ++ if info.code = SI_QUEUE then [(24, le64 info.value)] else []

def encode (info : SigInfo) : Bytes := lay (List.replicate SIGINFO_BYTES 0) (infoPieces info)

/-- `uc_mcontext` and `__reserved` within the frame -/
def MC : ℕ := UCONTEXT_OFFSET + MCONTEXT_OFFSET
def RES : ℕ := MC + RESERVED_OFFSET

/-- what a frame holds, and where -/
def framePieces (regs : Regs) (info : SigInfo) (mask : UInt64) (altstack : StackT) : List (ℕ × Bytes) :=
  [(0, encode info), (UCONTEXT_OFFSET + 16, ucStack altstack regs.sp), (UCONTEXT_OFFSET + 40, le64 mask), (MC, le64 regs.faultAddress)] ++
    (List.ofFn fun i : Fin 31 => (MC + 8 + i * 8, le64 (regs.x i))) ++
    -- `fpsr` and `fpcr`, at `RES + 8` and `RES + 12`, are 0
    [(MC + 8 + 31 * 8, le64 regs.sp), (MC + 8 + 32 * 8, le64 regs.pc), (MC + 8 + 33 * 8, le64 regs.pstate), (RES, le32 FPSIMD_MAGIC),
      (RES + 4, le32 FPSIMD_BYTES)] ++
    (List.ofFn fun i : Fin 32 => (RES + 16 + i * 16, leBytes 16 (regs.v i).toNat)) ++
    [(RECORD_OFFSET, le64 (regs.x 29)), (RECORD_OFFSET + 8, le64 (regs.x 30))]

/-- `Frame::build` -/
def build (regs : Regs) (info : SigInfo) (mask : UInt64) (altstack : StackT) : Bytes :=
  lay (List.replicate FRAME_BYTES 0) (framePieces regs info mask altstack)

def u64At (b : Bytes) (at_ : ℕ) : UInt64 := UInt64.ofNat (leNat (slice b at_ 8))

/-- `Frame::parse`, of a frame's bytes -/
def parse (b : Bytes) : Regs × UInt64 :=
  ({ x := fun i => u64At b (MC + 8 + i * 8)
     sp := u64At b (MC + 8 + 31 * 8)
     pc := u64At b (MC + 8 + 32 * 8)
     pstate := u64At b (MC + 8 + 33 * 8)
     v :=
       if leNat (slice b RES 4) = FPSIMD_MAGIC.toNat then fun i => BitVec.ofNat 128 (leNat (slice b (RES + 16 + i * 16) 16))
       else fun _ => 0
     faultAddress := u64At b MC },
    u64At b (UCONTEXT_OFFSET + 40))

/-! ## What is written is read -/

@[simp] theorem length_le32 (v : UInt32) : (le32 v).length = 4 := length_leBytes 4 _

@[simp] theorem length_le64 (v : UInt64) : (le64 v).length = 8 := length_leBytes 8 _

@[simp] theorem length_stack (s : StackT) : s.bytes.length = 24 := by simp [StackT.bytes]

theorem leNat_le64 (v : UInt64) : UInt64.ofNat (leNat (le64 v)) = v := by
  unfold le64
  rw [leNat_leBytes, show 256 ^ 8 = 2 ^ 64 by norm_num, Nat.mod_eq_of_lt v.toNat_lt, UInt64.ofNat_toNat]

theorem length_encode (info : SigInfo) : (encode info).length = SIGINFO_BYTES := by
  unfold encode
  rw [length_lay, List.length_replicate]
  unfold infoPieces
  rw [List.length_replicate]
  split_ifs <;> simp [SIGINFO_BYTES]

/-- a frame's pieces lie one after another, whatever they say -/
theorem framePieces_lie (regs : Regs) (info : SigInfo) (mask : UInt64) (altstack : StackT) :
    Lies FRAME_BYTES 0 ((framePieces regs info mask altstack).map extent) := by
  have hstack : (ucStack altstack regs.sp).length = 24 := length_stack _
  have hextents : (framePieces regs info mask altstack).map extent =
      [(0, SIGINFO_BYTES), (UCONTEXT_OFFSET + 16, 24), (UCONTEXT_OFFSET + 40, 8), (MC, 8)] ++
        (List.ofFn fun i : Fin 31 => (MC + 8 + i.val * 8, 8)) ++
        [(MC + 8 + 31 * 8, 8), (MC + 8 + 32 * 8, 8), (MC + 8 + 33 * 8, 8), (RES, 4), (RES + 4, 4)] ++
        (List.ofFn fun i : Fin 32 => (RES + 16 + i.val * 16, 16)) ++ [(RECORD_OFFSET, 8), (RECORD_OFFSET + 8, 8)] := by
    simp [framePieces, extent, length_encode, hstack]
  rw [hextents]
  decide

theorem length_build (regs : Regs) (info : SigInfo) (mask : UInt64) (altstack : StackT) :
    (build regs info mask altstack).length = FRAME_BYTES := by
  unfold build
  rw [length_lay, List.length_replicate]
  intro p hp
  rw [List.length_replicate]
  exact (mem_lies (framePieces_lie regs info mask altstack) (extent p) (List.mem_map_of_mem hp)).2

variable {regs : Regs} {info : SigInfo} {mask : UInt64} {altstack : StackT}

theorem slice_build {o : ℕ} {bs : Bytes} (h : (o, bs) ∈ framePieces regs info mask altstack) :
    slice (build regs info mask altstack) o bs.length = bs := by
  have hlie := framePieces_lie regs info mask altstack
  rw [← List.length_replicate (n := FRAME_BYTES) (a := (0 : UInt8))] at hlie
  exact slice_lay hlie h

theorem u64At_build {o : ℕ} {v : UInt64} (h : (o, le64 v) ∈ framePieces regs info mask altstack) :
    u64At (build regs info mask altstack) o = v := by
  have hs := slice_build h
  rw [length_le64] at hs
  unfold u64At
  rw [hs, leNat_le64]

theorem x_build (i : Fin 31) : u64At (build regs info mask altstack) (MC + 8 + i * 8) = regs.x i := by
  refine u64At_build ?_
  simp only [framePieces, List.mem_append]
  exact .inl (.inl (.inl (.inr (List.mem_ofFn.mpr ⟨i, rfl⟩))))

theorem v_build (i : Fin 32) : BitVec.ofNat 128 (leNat (slice (build regs info mask altstack) (RES + 16 + i * 16) 16)) = regs.v i := by
  have hmem : (RES + 16 + i * 16, leBytes 16 (regs.v i).toNat) ∈ framePieces regs info mask altstack := by
    simp only [framePieces, List.mem_append]
    exact .inl (.inr (List.mem_ofFn.mpr ⟨i, rfl⟩))
  have hs := slice_build hmem
  rw [length_leBytes] at hs
  rw [hs, leNat_leBytes, show 256 ^ 16 = 2 ^ 128 by norm_num, Nat.mod_eq_of_lt (regs.v i).isLt, BitVec.ofNat_toNat, BitVec.setWidth_eq]

theorem magic_build : leNat (slice (build regs info mask altstack) RES 4) = FPSIMD_MAGIC.toNat := by
  have hmem : (RES, le32 FPSIMD_MAGIC) ∈ framePieces regs info mask altstack := by simp [framePieces]
  have hs := slice_build hmem
  rw [length_le32] at hs
  rw [hs]
  decide

/-- **A frame is read as it was written.** -/
theorem parse_build (regs : Regs) (info : SigInfo) (mask : UInt64) (altstack : StackT) :
    parse (build regs info mask altstack) = (regs, mask) := by
  have hone : ∀ {o : ℕ} {v : UInt64}, (o, le64 v) ∈ framePieces regs info mask altstack →
      u64At (build regs info mask altstack) o = v := fun h => u64At_build h
  unfold parse
  rw [if_pos magic_build, hone (o := MC + 8 + 31 * 8) (v := regs.sp) (by simp [framePieces]),
    hone (o := MC + 8 + 32 * 8) (v := regs.pc) (by simp [framePieces]),
    hone (o := MC + 8 + 33 * 8) (v := regs.pstate) (by simp [framePieces]),
    hone (o := MC) (v := regs.faultAddress) (by simp [framePieces]),
    hone (o := UCONTEXT_OFFSET + 40) (v := mask) (by simp [framePieces])]
  congr 1
  cases regs
  congr 1
  · exact funext x_build
  · exact funext v_build

/-! ## Where it goes -/

/-- the tag of an address is no part of where it is -/
def untag (addr : UInt64) : ℕ := addr.toNat % 2 ^ 56

/-- `FRAME_BYTES` below `top`, aligned -/
def below (top : ℕ) : ℕ := (top - FRAME_BYTES) / 16 * 16

theorem and_not15 (a : UInt64) : (a &&& ~~~15).toNat = a.toNat / 16 * 16 := by
  have h15 : (~~~(15 : UInt64)).toNat = 2 ^ 64 - 16 := by decide
  have hb : a.toNat &&& (2 ^ 64 - 16) = a.toNat / 16 * 16 := by
    apply Nat.eq_of_testBit_eq
    intro i
    rw [Nat.testBit_and, show (2 : ℕ) ^ 64 - 16 = (2 ^ 60 - 1) * 2 ^ 4 by norm_num, show a.toNat / 16 * 16 = a.toNat / 2 ^ 4 * 2 ^ 4 by norm_num,
      Nat.testBit_mul_two_pow, Nat.testBit_mul_two_pow, Nat.testBit_two_pow_sub_one, Nat.testBit_div_two_pow]
    by_cases h : 4 ≤ i
    · rw [Nat.sub_add_cancel h]
      by_cases h60 : i - 4 < 60
      · simp [h, h60]
      · have hhigh : a.toNat.testBit i = false := Nat.testBit_lt_two_pow (a.toNat_lt.trans_le (Nat.pow_le_pow_right (by decide) (by omega)))
        simp [h60, hhigh]
    · simp [h]
  rw [UInt64.toNat_and, h15, hb]

theorem frame_bytes : FRAME_BYTES = 4704 := rfl

/-- aligned, and `FRAME_BYTES` below its top where there is that much; else where no user address is -/
theorem untag_frame (top : UInt64) :
    (FRAME_BYTES ≤ untag top → untag ((top - UInt64.ofNat FRAME_BYTES) &&& ~~~15) = below (untag top)) ∧
      (untag top < FRAME_BYTES → 2 ^ 55 ≤ untag ((top - UInt64.ofNat FRAME_BYTES) &&& ~~~15)) := by
  have hsub : (top - UInt64.ofNat FRAME_BYTES).toNat = (2 ^ 64 - 4704 + top.toNat) % 2 ^ 64 := by
    rw [UInt64.toNat_sub]
    rfl
  have htop := top.toNat_lt
  unfold untag below
  rw [and_not15, hsub, frame_bytes]
  constructor <;> intro h <;> omega

theorem placement_aligned (sp : UInt64) (altstack : StackT) (onstack : Bool) : (placement sp altstack onstack).toNat % 16 = 0 := by
  unfold placement
  rw [and_not15]
  omega

theorem below_le {top : ℕ} (h : FRAME_BYTES ≤ top) : below top + FRAME_BYTES ≤ top := by
  unfold below
  omega

end Omnidroid.Signal
