/-
seccomp filters (`omni-linux/src/seccomp.rs`): classic BPF programs over a call's data, checked once (`parse`) and then
run without checks (`run`). A read or write outside the data, the scratch memory or the program, where the code panics,
is a fault of the machine here.
- `Safe`: a program that runs to a value within its own length, each instruction it runs one that `parse` lets through.
  `safe_of_accepted` proves it of every program accepted.
- `parse_strict_iff`: what `parse` accepts is made of the listed codes only where no code has a bit above its low byte.
  `parse_lax`: the masks of `parse` let such bits pass.
-/
import Omnidroid.Errno
import Omnidroid.Lib.Bytes

namespace Omnidroid.Seccomp

open Bytes

/-! ## Programs -/

/-- the most instructions a filter may have -/
def MAX_INSNS : ℕ := 4096
/-- `sizeof(struct seccomp_data)` -/
def DATA_LEN : ℕ := 64

structure Insn where
  code : UInt16
  jt : UInt8
  jf : UInt8
  k : UInt32
deriving DecidableEq, Repr

/-- a `struct sock_filter` at `o` -/
def insnAt (b : Bytes) (o : ℕ) : Insn :=
  { code := UInt16.ofNat (leNat (slice b o 2)), jt := UInt8.ofNat (leNat (slice b (o + 2) 1)),
    jf := UInt8.ofNat (leNat (slice b (o + 3) 1)), k := UInt32.ofNat (leNat (slice b (o + 4) 4)) }

/-- `chunks_exact(8)` -/
def decode (b : Bytes) : List Insn := (List.range (b.length / 8)).map fun i => insnAt b (i * 8)

def isAlu (c : UInt16) : Bool := c &&& 0x07 = 0x04

def isJump (c : UInt16) : Bool := c &&& 0x07 = 0x05

/-- the check of the instruction at `pc` of `len` -/
def insnOk (len pc : ℕ) (i : Insn) : Bool :=
  if i.code = 0x20 then i.k.toNat % 4 = 0 && i.k.toNat < DATA_LEN
  else if i.code ∈ [0x80, 0x81, 0x00, 0x01] then true
  else if i.code ∈ [0x60, 0x61, 0x02, 0x03] then i.k.toNat < 16
  else if isAlu i.code then
    i.code &&& 0xf0 ∈ [0x00, 0x10, 0x20, 0x30, 0x40, 0x50, 0x60, 0x70, 0x80, 0x90, 0xa0] &&
      !(i.code &&& 0xf0 ∈ [0x30, 0x90] && i.code &&& 0x08 = 0 && i.k = 0)
  else if i.code = 0x05 then pc + 1 + i.k.toNat < len
  else if isJump i.code then
    i.code &&& 0xf0 ∈ [0x10, 0x20, 0x30, 0x40] && pc + 1 + i.jt.toNat < len && pc + 1 + i.jf.toNat < len
  else i.code ∈ [0x06, 0x16, 0x07, 0x87]

def wellSized (b : Bytes) : Bool := b ≠ [] && b.length % 8 = 0 && b.length / 8 ≤ MAX_INSNS

/-- every instruction passes its check -/
def allOk (prog : List Insn) : Bool := (List.range prog.length).all fun pc => prog[pc]?.all (insnOk prog.length pc)

def isRet (c : UInt16) : Bool := c = 0x06 || c = 0x16

def parse (b : Bytes) : Except Errno (List Insn) :=
  if !wellSized b then .error EINVAL
  else if !allOk (decode b) then .error EINVAL
  else if !(decode b).getLast?.any (isRet ·.code) then .error EINVAL
  else .ok (decode b)

/-! ## The machine -/

/-- `struct seccomp_data`, as bytes -/
structure Data where
  bytes : Bytes
  len : bytes.length = DATA_LEN

structure Machine where
  a : UInt32 := 0
  x : UInt32 := 0
  m : List UInt32 := List.replicate 16 0
  pc : ℕ := 0
deriving DecidableEq, Repr

inductive Outcome where
  /-- out of the data, the scratch memory or the program -/
  | fault
  | ret (v : UInt32)
  | next (m : Machine)
deriving DecidableEq, Repr

/-- an ALU instruction: division by a zero X ends the program with 0 -/
def alu (c : UInt16) (a v : UInt32) : Option UInt32 :=
  let op := c &&& 0xf0
  if op = 0x00 then some (a + v)
  else if op = 0x10 then some (a - v)
  else if op = 0x20 then some (a * v)
  else if op = 0x30 then (if v = 0 then none else some (a / v))
  else if op = 0x40 then some (a ||| v)
  else if op = 0x50 then some (a &&& v)
  else if op = 0x60 then some (if v.toNat < 32 then a <<< v else 0)
  else if op = 0x70 then some (if v.toNat < 32 then a >>> v else 0)
  else if op = 0x80 then some (0 - a)
  else if op = 0x90 then (if v = 0 then none else some (a % v))
  else some (a ^^^ v)

def taken (c : UInt16) (a v : UInt32) : Bool :=
  let op := c &&& 0xf0
  if op = 0x10 then a = v
  else if op = 0x20 then a > v
  else if op = 0x30 then a ≥ v
  else a &&& v ≠ 0

/-- the instruction `i`, the machine already past it -/
def exec (data : Data) (m : Machine) (i : Insn) : Outcome :=
  if i.code = 0x20 then
    match get? data.bytes i.k.toNat 4 with
    | some b => .next { m with a := UInt32.ofNat (leNat b) }
    | none => .fault
  else if i.code = 0x80 then .next { m with a := 64 }
  else if i.code = 0x81 then .next { m with x := 64 }
  else if i.code = 0x00 then .next { m with a := i.k }
  else if i.code = 0x01 then .next { m with x := i.k }
  else if i.code = 0x60 then
    match m.m[i.k.toNat]? with
    | some v => .next { m with a := v }
    | none => .fault
  else if i.code = 0x61 then
    match m.m[i.k.toNat]? with
    | some v => .next { m with x := v }
    | none => .fault
  else if i.code = 0x02 then
    if i.k.toNat < m.m.length then .next { m with m := m.m.set i.k.toNat m.a } else .fault
  else if i.code = 0x03 then
    if i.k.toNat < m.m.length then .next { m with m := m.m.set i.k.toNat m.x } else .fault
  else if isAlu i.code then
    match alu i.code m.a (if i.code &&& 0x08 ≠ 0 then m.x else i.k) with
    | some a => .next { m with a := a }
    | none => .ret 0
  else if i.code = 0x05 then .next { m with pc := m.pc + i.k.toNat }
  else if isJump i.code then
    .next { m with
      pc := m.pc + (if taken i.code m.a (if i.code &&& 0x08 ≠ 0 then m.x else i.k) then i.jt else i.jf).toNat }
  else if i.code = 0x06 then .ret i.k
  else if i.code = 0x16 then .ret m.a
  else if i.code = 0x07 then .next { m with x := m.a }
  else .next { m with a := m.x }

def step (prog : List Insn) (data : Data) (m : Machine) : Outcome :=
  match prog[m.pc]? with
  | none => .fault
  | some i => exec data { m with pc := m.pc + 1 } i

/-- `n` steps at most: the value returned, none on a fault or out of steps -/
def runFor (prog : List Insn) (data : Data) : ℕ → Machine → Option UInt32
  | 0, _ => none
  | n + 1, m =>
    match step prog data m with
    | .fault => none
    | .ret v => some v
    | .next m => runFor prog data n m

/-! ## What `parse` lets through runs -/

/-- how an instruction at `pc` of `len` may end: with a value, or further on in the program -/
inductive Goes (len pc : ℕ) : Outcome → Prop
  | ret (v : UInt32) : Goes len pc (.ret v)
  | next {m : Machine} (hm : m.m.length = 16) (hpc : pc < m.pc) (hlen : m.pc < len) : Goes len pc (.next m)

/-- an instruction that passes its check returns, or goes on, forward and inside the program -/
theorem exec_goes {len pc : ℕ} {i : Insn} (hok : insnOk len pc i = true) (hlast : isRet i.code = false → pc + 1 < len)
    (data : Data) {m : Machine} (hm : m.m.length = 16) (hpc : m.pc = pc + 1) : Goes len pc (exec data m i) := by
  -- only a return is last
  have on : ∀ {m' : Machine}, isRet i.code = false → m'.m.length = 16 → m'.pc = m.pc → Goes len pc (.next m') :=
    fun hr hl hp => .next hl (by omega) (by have := hlast hr; omega)
  unfold exec
  by_cases h20 : i.code = 0x20
  · rw [insnOk, if_pos h20, Bool.and_eq_true, decide_eq_true_eq, decide_eq_true_eq, DATA_LEN] at hok
    rw [if_pos h20, get?, if_pos (by rw [data.len, DATA_LEN]; omega)]
    exact on (by rw [h20]; rfl) hm rfl
  rw [if_neg h20]
  by_cases h80 : i.code = 0x80
  · rw [if_pos h80]; exact on (by rw [h80]; rfl) hm rfl
  rw [if_neg h80]
  by_cases h81 : i.code = 0x81
  · rw [if_pos h81]; exact on (by rw [h81]; rfl) hm rfl
  rw [if_neg h81]
  by_cases h00 : i.code = 0x00
  · rw [if_pos h00]; exact on (by rw [h00]; rfl) hm rfl
  rw [if_neg h00]
  by_cases h01 : i.code = 0x01
  · rw [if_pos h01]; exact on (by rw [h01]; rfl) hm rfl
  rw [if_neg h01]
  -- the scratch memory has sixteen words
  have scratch : i.code ∈ [0x60, 0x61, 0x02, 0x03] → i.k.toNat < m.m.length := fun hmem => by
    rw [insnOk, if_neg h20, if_neg (by simp [h80, h81, h00, h01]), if_pos hmem, decide_eq_true_eq] at hok
    rwa [hm]
  by_cases h60 : i.code = 0x60
  · rw [if_pos h60, List.getElem?_eq_getElem (scratch (by rw [h60]; decide))]
    exact on (by rw [h60]; rfl) hm rfl
  rw [if_neg h60]
  by_cases h61 : i.code = 0x61
  · rw [if_pos h61, List.getElem?_eq_getElem (scratch (by rw [h61]; decide))]
    exact on (by rw [h61]; rfl) hm rfl
  rw [if_neg h61]
  by_cases h02 : i.code = 0x02
  · rw [if_pos h02, if_pos (scratch (by rw [h02]; decide))]
    exact on (by rw [h02]; rfl) (by simpa using hm) rfl
  rw [if_neg h02]
  by_cases h03 : i.code = 0x03
  · rw [if_pos h03, if_pos (scratch (by rw [h03]; decide))]
    exact on (by rw [h03]; rfl) (by simpa using hm) rfl
  rw [if_neg h03]
  rw [insnOk, if_neg h20, if_neg (by simp [h80, h81, h00, h01]), if_neg (by simp [h60, h61, h02, h03])] at hok
  by_cases halu : isAlu i.code = true
  · have hr : isRet i.code = false := by
      by_contra hc
      simp only [isRet, Bool.not_eq_false, Bool.or_eq_true, decide_eq_true_eq] at hc
      rcases hc with hc | hc <;> rw [hc] at halu <;> cases halu
    rw [if_pos halu]
    cases alu i.code m.a (if i.code &&& 0x08 ≠ 0 then m.x else i.k) with
    | some a => exact on hr hm rfl
    | none => exact .ret 0
  rw [if_neg halu] at hok ⊢
  by_cases hja : i.code = 0x05
  · rw [if_pos hja, decide_eq_true_eq] at hok
    rw [if_pos hja]
    exact .next hm (by simp only; omega) (by simp only; omega)
  rw [if_neg hja] at hok ⊢
  by_cases hjump : isJump i.code = true
  · rw [if_pos hjump] at hok
    simp only [Bool.and_eq_true, decide_eq_true_eq] at hok
    rw [if_pos hjump]
    generalize taken i.code m.a (if i.code &&& 0x08 ≠ 0 then m.x else i.k) = t
    cases t
    · exact .next hm (by simp only; omega) (by simp only [Bool.false_eq_true, if_false]; omega)
    · exact .next hm (by simp only; omega) (by simp only [if_true]; omega)
  rw [if_neg hjump]
  by_cases h06 : i.code = 0x06
  · rw [if_pos h06]; exact .ret _
  rw [if_neg h06]
  by_cases h16 : i.code = 0x16
  · rw [if_pos h16]; exact .ret _
  have hr : isRet i.code = false := by simp [isRet, h06, h16]
  rw [if_neg h16]
  split <;> exact on hr hm rfl

structure Accepted (prog : List Insn) : Prop where
  ok : ∀ pc i, prog[pc]? = some i → insnOk prog.length pc i = true
  last : ∀ i, prog.getLast? = some i → isRet i.code = true
  some_ : prog ≠ []

theorem allOk_iff (prog : List Insn) :
    allOk prog = true ↔ ∀ pc i, prog[pc]? = some i → insnOk prog.length pc i = true := by
  simp only [allOk, List.all_eq_true, List.mem_range, Option.all_eq_true]
  constructor
  · intro h pc i hi
    have hlt : pc < prog.length := by
      by_contra hc
      rw [List.getElem?_eq_none (by omega)] at hi; cases hi
    exact h pc hlt i hi
  · exact fun h pc _ i hi => h pc i hi

theorem parse_ok {b : Bytes} {prog : List Insn} (h : parse b = .ok prog) : prog = decode b ∧ Accepted prog := by
  unfold parse at h
  split at h
  · cases h
  · split at h
    · cases h
    · rename_i hall
      split at h
      · cases h
      · rename_i hl
        cases h
        simp only [Bool.not_eq_true', Bool.not_eq_false] at hall hl
        rw [Option.any_eq_true] at hl
        obtain ⟨i, hi, hr⟩ := hl
        refine ⟨rfl, (allOk_iff _).1 hall, fun i' hi' => ?_, fun he => ?_⟩
        · rw [hi] at hi'; cases hi'; exact hr
        · rw [he] at hi; cases hi

section Run

variable {prog : List Insn} (hp : Accepted prog) (data : Data)
include hp

/-- where the next instruction is in the program, it runs -/
theorem step_goes {m : Machine} (hm : m.m.length = 16) (hpc : m.pc < prog.length) :
    ∃ i, prog[m.pc]? = some i ∧ insnOk prog.length m.pc i = true ∧ Goes prog.length m.pc (step prog data m) := by
  have hi : prog[m.pc]? = some prog[m.pc] := List.getElem?_eq_getElem hpc
  refine ⟨_, hi, hp.ok _ _ hi, ?_⟩
  rw [step, hi]
  refine exec_goes (hp.ok _ _ hi) (fun hr => ?_) data hm rfl
  by_contra hc
  have hlast : prog.getLast? = some prog[m.pc] := by
    rw [List.getLast?_eq_getElem?, ← hi]
    congr 1; omega
  rw [hp.last _ hlast] at hr; cases hr

/-- each step goes forward, so a program ends within its length -/
theorem runFor_some {n : ℕ} {m : Machine} (hm : m.m.length = 16) (hpc : m.pc < prog.length)
    (hn : prog.length ≤ n + m.pc) : ∃ v, runFor prog data n m = some v := by
  induction n generalizing m with
  | zero => omega
  | succ n ih =>
    obtain ⟨i, -, -, hg⟩ := step_goes hp data hm hpc
    rw [runFor]
    generalize step prog data m = o at hg
    cases hg with
    | ret v => exact ⟨v, rfl⟩
    | next hm' hpc' hlen => exact ih hm' hlen (by omega)

end Run

/-- a run gets from one state to the next -/
abbrev Runs (prog : List Insn) (data : Data) : Machine → Machine → Prop :=
  Relation.ReflTransGen fun m m' => step prog data m = .next m'

/-- a program runs to a value in as many steps as it has instructions; each instruction it comes to is one that passed its
check, and none faults -/
structure Safe (prog : List Insn) (data : Data) : Prop where
  returns : ∃ v, runFor prog data prog.length {} = some v
  checked : ∀ m, Runs prog data {} m → step prog data m ≠ .fault ∧
    ∃ i, prog[m.pc]? = some i ∧ insnOk prog.length m.pc i = true

theorem safe_of_accepted {prog : List Insn} (hp : Accepted prog) (data : Data) : Safe prog data := by
  have hpos : 0 < prog.length := List.length_pos_iff.2 hp.some_
  refine ⟨runFor_some hp data rfl hpos (by simp), fun m hr => ?_⟩
  have hm : m.m.length = 16 ∧ m.pc < prog.length := by
    induction hr with
    | refl => exact ⟨rfl, hpos⟩
    | tail _ hs ih =>
      obtain ⟨i, -, -, hg⟩ := step_goes hp data ih.1 ih.2
      rw [hs] at hg
      cases hg with
      | next h1 _ h3 => exact ⟨h1, h3⟩
  obtain ⟨i, hi, hok, hg⟩ := step_goes hp data hm.1 hm.2
  refine ⟨fun he => ?_, i, hi, hok⟩
  rw [he] at hg; cases hg

/-! ## The codes -/

/-- the operations of ALU instructions, and of conditional jumps -/
def aluOps : List UInt16 := [0x00, 0x10, 0x20, 0x30, 0x40, 0x50, 0x60, 0x70, 0x80, 0x90, 0xa0]
def jumpOps : List UInt16 := [0x10, 0x20, 0x30, 0x40]

/-- the codes `parse`'s comments list: loads, stores, ALU and conditional jumps with K and with X, the rest -/
def listedCodes : List UInt16 :=
  [0x20, 0x80, 0x81, 0x00, 0x01, 0x60, 0x61, 0x02, 0x03] ++ aluOps.flatMap (fun op => [op + 0x04, op + 0x0c]) ++ [0x05] ++
    jumpOps.flatMap (fun op => [op + 0x05, op + 0x0d]) ++ [0x06, 0x16, 0x07, 0x87]

/-- the codes that are neither ALU instructions nor conditional jumps -/
def otherCodes : List UInt16 := [0x20, 0x80, 0x81, 0x00, 0x01, 0x60, 0x61, 0x02, 0x03, 0x05, 0x06, 0x16, 0x07, 0x87]

/-- what the check asks of a code alone -/
def codeOk (c : UInt16) : Bool :=
  c ∈ otherCodes || isAlu c && c &&& 0xf0 ∈ aluOps || isJump c && c &&& 0xf0 ∈ jumpOps

theorem codeOk_other {c : UInt16} (h : c ∈ otherCodes) : codeOk c = true := by simp [codeOk, h]

theorem codeOk_of_insnOk {len pc : ℕ} {i : Insn} (h : insnOk len pc i = true) : codeOk i.code = true := by
  have other : ∀ l : List UInt16, l ⊆ otherCodes → i.code ∈ l → codeOk i.code = true := fun l hl hi => codeOk_other (hl hi)
  unfold insnOk at h
  split at h
  · rename_i hc; exact codeOk_other (by rw [hc]; decide)
  split at h
  · rename_i hc; exact other _ (by decide) hc
  split at h
  · rename_i hc; exact other _ (by decide) hc
  split at h
  · rename_i hc
    have hop := (Bool.and_eq_true _ _ ▸ h).1
    rw [codeOk, hc, Bool.true_and]
    exact Bool.or_eq_true_iff.2 (.inl (Bool.or_eq_true_iff.2 (.inr hop)))
  split at h
  · rename_i hc; exact codeOk_other (by rw [hc]; decide)
  split at h
  · rename_i hc
    have hop := (Bool.and_eq_true _ _ ▸ (Bool.and_eq_true _ _ ▸ h).1).1
    rw [codeOk, hc, Bool.true_and]
    exact Bool.or_eq_true_iff.2 (.inr hop)
  · exact other _ (by decide) (of_decide_eq_true h)

set_option maxRecDepth 50000 in
theorem codeOk_listed : ∀ n ∈ List.range 256, codeOk (UInt16.ofNat n) = true → UInt16.ofNat n ∈ listedCodes := by
  decide

theorem listed_low (c : UInt16) (hc : c ∈ listedCodes) : c < 0x100 := by
  have hall : (listedCodes.all fun c => decide (c < 0x100)) = true := by decide
  simpa using List.all_eq_true.mp hall c hc

/-- of what passes its check, the listed codes are those with no bit above the low byte -/
theorem listed_iff {c : UInt16} (h : codeOk c = true) : c ∈ listedCodes ↔ c < 0x100 := by
  refine ⟨listed_low c, fun hlt => ?_⟩
  have hn : c.toNat < 256 := by simpa [UInt16.lt_iff_toNat_lt] using hlt
  have := codeOk_listed c.toNat (List.mem_range.mpr hn)
  simp only [UInt16.ofNat_toNat] at this
  exact this h

/-! ## Every byte string -/

/-- what is accepted runs safely on any data, and is made of the listed codes -/
def Strict (b : Bytes) : Prop :=
  ∀ prog, parse b = .ok prog → (∀ data, Safe prog data) ∧ ∀ i ∈ prog, i.code ∈ listedCodes

/-- nothing else is wrong with the program -/
def OtherwiseOk (b : Bytes) : Bool := wellSized b && allOk (decode b) && (decode b).getLast?.any (isRet ·.code)

theorem parse_eq (b : Bytes) : parse b = if OtherwiseOk b then .ok (decode b) else .error EINVAL := by
  unfold parse OtherwiseOk
  cases wellSized b <;> cases allOk (decode b) <;> cases (decode b).getLast?.any (isRet ·.code) <;> rfl

/-- **Accepted programs are safe, and strict where no code has a bit above its low byte.** -/
theorem parse_strict_iff (b : Bytes) : Strict b ↔ (OtherwiseOk b = true → ∀ i ∈ decode b, i.code < 0x100) := by
  have hcode : ∀ {prog}, Accepted prog → ∀ i ∈ prog, codeOk i.code = true := fun hp i hi => by
    obtain ⟨pc, hpc⟩ := List.mem_iff_getElem?.1 hi
    exact codeOk_of_insnOk (hp.ok pc i hpc)
  constructor
  · intro h ho i hi
    have hparse : parse b = .ok (decode b) := by rw [parse_eq, if_pos ho]
    exact listed_low _ ((h _ hparse).2 i hi)
  · intro h prog hparse
    obtain ⟨rfl, hp⟩ := parse_ok hparse
    have ho : OtherwiseOk b = true := by
      by_contra hc
      rw [parse_eq, if_neg hc] at hparse; cases hparse
    exact ⟨safe_of_accepted hp, fun i hi => (listed_iff (hcode hp i hi)).2 (h ho i hi)⟩

/-- an addition with a bit above the low byte of its code, and a return -/
def laxProgram : Bytes := [0x04, 0x01, 0, 0, 0, 0, 0, 0, 0x06, 0, 0, 0, 0, 0, 0, 0]

theorem parse_lax : ¬ Strict laxProgram := by
  rw [parse_strict_iff]
  decide

end Omnidroid.Seccomp
