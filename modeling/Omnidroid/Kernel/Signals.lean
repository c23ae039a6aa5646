/-
Signals of a task (`deliver`, `fault` and `sigreturn`, `omni-linux/src/process.rs`; `sys_sigaltstack` and the waits with a mask of
their own, `sys.rs`, `poll.rs`): handlers entered on top of what runs, and returned from.

- `World.step`: guest code, the calls that change mask and alternate stack, deliveries and returns. The action a signal has when it
  is delivered is part of the step, as any thread may change it.
- `frames_nest`: where the frames of the handlers that run lie, and what a return restores, in every run in which handlers keep to
  their stacks, there is room for the frames, no stack that is in use is entered from its top, and a signal that ends a wait
  with a mask of its own has a handler.
- `frames_clash`: a run for each of the last three.
-/
import Mathlib
import Omnidroid.Lib.Run
import Omnidroid.Kernel.SignalFrame

namespace Omnidroid.Signal

open Bytes

structure Nzcv where
  n : Bool
  z : Bool
  c : Bool
  v : Bool
deriving DecidableEq

def Nzcv.toPstate (f : Nzcv) : UInt64 :=
  (if f.n then 0x80000000 else 0) ||| (if f.z then 0x40000000 else 0) ||| (if f.c then 0x20000000 else 0) |||
    (if f.v then 0x10000000 else 0)

def Nzcv.fromPstate (pstate : UInt64) : Nzcv where
  n := pstate.toUInt32 &&& 0xF0000000 &&& 0x80000000 ≠ 0
  z := pstate.toUInt32 &&& 0xF0000000 &&& 0x40000000 ≠ 0
  c := pstate.toUInt32 &&& 0xF0000000 &&& 0x20000000 ≠ 0
  v := pstate.toUInt32 &&& 0xF0000000 &&& 0x10000000 ≠ 0

structure Cpu where
  x : Fin 31 → UInt64 := fun _ => 0
  sp : UInt64 := 0
  pc : UInt64 := 0
  nzcv : Nzcv := ⟨false, false, false, false⟩
  v : Fin 32 → BitVec 128 := fun _ => 0
deriving DecidableEq

/-- `read_regs` -/
def Cpu.regs (cpu : Cpu) (faultAddress : UInt64) : Regs :=
  { x := cpu.x, sp := cpu.sp, pc := cpu.pc, pstate := cpu.nzcv.toPstate, v := cpu.v, faultAddress }

/-- the registers as `sigreturn` sets them -/
def Regs.cpu (regs : Regs) : Cpu := { x := regs.x, sp := regs.sp, pc := regs.pc, nzcv := .fromPstate regs.pstate, v := regs.v }

/-- guest memory, by untagged address; what can be written can be read, and lies among user addresses -/
structure Memory where
  bytes : ℕ → UInt8
  reads : ℕ → Bool
  writes : ℕ → Bool
  readable : ∀ a, writes a → reads a
  user : ∀ a, writes a → a < 2 ^ 48

namespace Memory

def read (m : Memory) (addr : UInt64) (n : ℕ) : Option Bytes :=
  if (List.range n).all fun i => m.reads (untag addr + i) then some ((List.range n).map fun i => m.bytes (untag addr + i)) else none

def written (m : Memory) (addr : UInt64) (bs : Bytes) : Memory :=
  { m with bytes := fun a => if untag addr ≤ a ∧ a < untag addr + bs.length then bs.getD (a - untag addr) 0 else m.bytes a }

def write (m : Memory) (addr : UInt64) (bs : Bytes) : Option Memory :=
  if (List.range bs.length).all fun i => m.writes (untag addr + i) then some (m.written addr bs) else none

end Memory

/-- a handler that runs -/
structure Live where
  /-- its frame -/
  at_ : UInt64
  bytes : Bytes
  /-- what it interrupted: the registers, and the mask that it had -/
  cpu : Cpu
  own : UInt64
  /-- the base of the stack that this was on -/
  base : ℕ
  altstack : StackT
  /-- the frame went to the top of the alternate stack -/
  entered : Bool
  /-- guest code has written into the frame -/
  spoiled : Bool

def Live.mark (f : Live) (spoiled : Bool) : Live := { f with spoiled }

/-- a signal and the action it has -/
structure Delivery where
  info : SigInfo
  handler : UInt64
  flags : UInt64
  restorer : UInt64 := 0
  saMask : UInt64 := 0
  faultAddress : UInt64 := 0
  /-- raised by the task's own instruction -/
  fault : Bool := false

inductive How where
  | block
  | unblock
  | set
deriving DecidableEq

def How.apply (how : How) (mask set : UInt64) : UInt64 :=
  match how with
  | .block => mask ||| set
  | .unblock => mask &&& ~~~set
  | .set => set

inductive Act where
  /-- guest code, up to where it stops -/
  | run (cpu : Cpu) (mem : Memory)
  | sigprocmask (how : How) (set : UInt64)
  | sigaltstack (s : StackT)
  | deliver (d : Delivery)
  /-- a wait with a mask of its own; a signal ends it, or it ends otherwise -/
  | wait (temporary : UInt64) (d : Option Delivery)
  /-- `rt_sigreturn` -/
  | ret

structure World where
  cpu : Cpu := {}
  mem : Memory
  altstack : StackT := { sp := 0, flags := SS_DISABLE, size := 0 }
  sigmask : UInt64 := 0
  /-- `saved_sigmask` -/
  saved : Option UInt64 := none
  /-- the mask that the code which runs has set, not a wait of it -/
  own : UInt64 := 0
  sigtramp : UInt64 := 0
  /-- a signal has ended the process -/
  ended : Bool := false
  /-- the handlers that run, the one entered last first -/
  frames : List Live := []
  /-- the base of the stack in use -/
  base : ℕ := 0

def SA_ONSTACK : UInt64 := 0x08000000
def SA_RESTORER : UInt64 := 0x04000000
def SA_NODEFER : UInt64 := 0x40000000

def SIGKILL_SIGSTOP : UInt64 := (1 : UInt64) <<< 8 ||| (1 : UInt64) <<< 18

def Delivery.bit (d : Delivery) : UInt64 := 1 <<< UInt64.ofNat (d.info.signo.toInt - 1).toNat

def Delivery.onstack (d : Delivery) : Bool := d.flags &&& SA_ONSTACK ≠ 0

/-- what is blocked while the handler runs -/
def Delivery.block (d : Delivery) : UInt64 := d.saMask ||| if d.flags &&& SA_NODEFER = 0 then d.bit else 0

namespace World

variable (w : World)

/-- the mask of what is interrupted -/
def interrupted : UInt64 := w.saved.getD w.sigmask

/-- the frame of a delivery, and where it goes -/
def frame (d : Delivery) : Bytes := build (w.cpu.regs d.faultAddress) d.info w.interrupted w.altstack
def frameAt (d : Delivery) : UInt64 := placement w.cpu.sp w.altstack d.onstack

/-- the handler's registers -/
def handlerCpu (d : Delivery) : Cpu :=
  let at_ := w.frameAt d
  { w.cpu with
    x := fun i =>
      if i = 0 then UInt64.ofInt d.info.signo.toInt
      else if i = 1 then at_
      else if i = 2 then at_ + UInt64.ofNat UCONTEXT_OFFSET
      else if i = 29 then at_ + UInt64.ofNat RECORD_OFFSET
      else if i = 30 then if d.flags &&& SA_RESTORER ≠ 0 then d.restorer else w.sigtramp
      else w.cpu.x i
    sp := at_
    pc := d.handler }

/-- the handler is entered, its frame stored -/
def enter (d : Delivery) (mem : Memory) : World :=
  { w with
    mem
    cpu := w.handlerCpu d
    sigmask := w.interrupted ||| (d.block &&& ~~~SIGKILL_SIGSTOP)
    saved := none
    own := w.interrupted ||| (d.block &&& ~~~SIGKILL_SIGSTOP)
    base := if w.altstack.entered w.cpu.sp d.onstack then untag w.altstack.sp else w.base
    frames :=
      { at_ := w.frameAt d
        bytes := w.frame d
        cpu := w.cpu
        own := w.own
        base := w.base
        altstack := w.altstack
        entered := w.altstack.entered w.cpu.sp d.onstack
        spoiled := false } :: w.frames }

/-- `deliver` -/
def deliver (d : Delivery) : World :=
  if d.handler = 0 then if d.info.signo ∈ [17, 18, 23, 28] then w else { w with ended := true }
  else if d.handler = 1 then w
  else
    match w.mem.write (w.frameAt d) (w.frame d) with
    | none => { w with ended := true, saved := none }
    | some mem => w.enter d mem

/-- `fault`, or a signal that was pending -/
def raise (d : Delivery) : World :=
  if d.fault && (w.sigmask &&& d.bit ≠ 0 || d.handler ≤ 1) then { w with ended := true } else w.deliver d

/-- `sigreturn` -/
def sigreturn : World :=
  match w.mem.read w.cpu.sp FRAME_BYTES with
  | none => w
  | some b =>
    { w with
      cpu := (parse b).1.cpu
      sigmask := (parse b).2 &&& ~~~SIGKILL_SIGSTOP
      own := (parse b).2 &&& ~~~SIGKILL_SIGSTOP
      base := w.frames.head?.elim w.base Live.base
      frames := w.frames.tail }

def step (w : World) : Act → World
  | act =>
    if w.ended then w
    else
      match act with
      | .run cpu mem =>
        { w with cpu, mem, frames := w.frames.map fun f => f.mark (mem.read f.at_ FRAME_BYTES ≠ some f.bytes) }
      | .sigprocmask how set =>
        { w with
          sigmask := how.apply w.sigmask (set &&& ~~~SIGKILL_SIGSTOP)
          own := how.apply w.own (set &&& ~~~SIGKILL_SIGSTOP) }
      | .sigaltstack s => { w with altstack := s }
      | .deliver d => w.raise d
      | .wait _ none => w
      | .wait temporary (some d) => { w with sigmask := temporary &&& ~~~SIGKILL_SIGSTOP, saved := some w.sigmask }.deliver d
      | .ret => w.sigreturn

end World

/-! ## What is to hold -/

namespace Live

variable (f g : Live)

/-- where the frame is, and where it ends -/
def start : ℕ := untag f.at_
def stop : ℕ := f.start + FRAME_BYTES

/-- the alternate stack that the frame was put at the top of -/
def low : ℕ := untag f.altstack.sp
def high : ℕ := f.low + f.altstack.size.toNat

def Apart : Prop := f.stop ≤ g.start ∨ g.stop ≤ f.start

/-- code that this interrupted was not on the alternate stack that `f` entered -/
def Off : Prop := f.entered → ¬(f.low ≤ untag g.cpu.sp ∧ untag g.cpu.sp < f.high)

/-- on the stack that the interrupted code was on, below its stack pointer; or on the alternate stack, within it -/
structure Placed : Prop where
  aligned : f.at_.toNat % 16 = 0
  under : f.entered = false → f.base ≤ f.start ∧ f.stop ≤ untag f.cpu.sp
  inside : f.entered → f.low ≤ f.start ∧ f.stop ≤ f.high
  /-- also when the interrupted code was on it -/
  stays : f.altstack.enabled → f.altstack.on f.cpu.sp → f.low ≤ f.start

end Live

namespace World

variable (w : World)

/-- the frame is in memory as it was written -/
def Intact (f : Live) : Prop := w.mem.read f.at_ FRAME_BYTES = some f.bytes

/-- the handler is to run -/
def Runs (d : Delivery) : Prop := 2 ≤ d.handler ∧ ¬(d.fault ∧ w.sigmask &&& d.bit ≠ 0)

structure Nested : Prop where
  placed : ∀ f ∈ w.frames, f.Placed
  apart : w.frames.Pairwise Live.Apart
  /-- no stack in use is entered from its top -/
  off : (∀ f ∈ w.frames, f.Off f) ∧ w.frames.Pairwise Live.Off
  /-- no frame is written over but by guest code -/
  kept : ∀ f ∈ w.frames, f.spoiled = false → w.Intact f
  /-- a frame that cannot be stored ends the process -/
  refused : w.ended = false → ∀ d, w.Runs d → w.mem.write (w.frameAt d) (w.frame d) = none →
    (w.step (.deliver d)).ended ∧ (w.step (.deliver d)).cpu = w.cpu ∧ (w.step (.deliver d)).frames = w.frames
  /-- a return restores what was interrupted -/
  restored : w.ended = false → ∀ f rest, w.frames = f :: rest → w.cpu.sp = f.at_ → w.Intact f →
    (w.step .ret).cpu = f.cpu ∧ (w.step .ret).sigmask = f.own
  unblocked : w.sigmask &&& SIGKILL_SIGSTOP = 0

/-- the handler's code is on its stack: above the base, and not above its frame -/
def Keeps (base : ℕ) (frames : List Live) (sp : UInt64) : Prop := ∀ f ∈ frames.head?, base ≤ untag sp ∧ untag sp ≤ f.start

/-- there is room for the frame: on the alternate stack that it enters and that nothing is on, or below the stack pointer on the
stack in use -/
def Room (d : Delivery) : Prop :=
  if w.altstack.entered w.cpu.sp d.onstack then
    (FRAME_BYTES ≤ untag w.altstack.sp + w.altstack.size.toNat ∧ untag w.altstack.sp + w.altstack.size.toNat < 2 ^ 56 ∧
      untag w.altstack.sp ≤ below (untag w.altstack.sp + w.altstack.size.toNat)) ∧
    (∀ f ∈ w.frames, f.stop ≤ untag w.altstack.sp ∨ untag w.altstack.sp + w.altstack.size.toNat ≤ f.start) ∧
    ∀ sp ∈ w.cpu.sp :: w.frames.map (·.cpu.sp),
      ¬(untag w.altstack.sp ≤ untag sp ∧ untag sp < untag w.altstack.sp + w.altstack.size.toNat)
  else
    w.base ≤ below (untag w.cpu.sp) ∧ (w.altstack.enabled → w.altstack.on w.cpu.sp → untag w.altstack.sp ≤ below (untag w.cpu.sp))

/-- there is room for it, or it cannot be stored -/
def Roomy (d : Delivery) : Prop := (w.mem.write (w.frameAt d) (w.frame d)).isSome → w.Room d

/-- handlers keep to their stacks, which have room for the frames; a signal that ends a wait with a mask of its own has a handler;
returns are of the handler entered last -/
def steady : Act → Prop
  | .run cpu _ => Keeps w.base w.frames cpu.sp
  | .deliver d => 2 ≤ d.handler → w.Roomy d
  | .wait temporary (some d) =>
    2 ≤ d.handler ∧ { w with sigmask := temporary &&& ~~~SIGKILL_SIGSTOP, saved := some w.sigmask }.Roomy d
  | .ret => ∃ f ∈ w.frames.head?, w.cpu.sp = f.at_ ∧ ∀ b ∈ w.mem.read w.cpu.sp FRAME_BYTES, Keeps f.base w.frames.tail (parse b).1.sp
  | _ => True

end World

/-! ## Memory -/

namespace Memory

variable {m m' : Memory} {a b : UInt64} {bs : Bytes} {n : ℕ}

theorem write_some (h : m.write a bs = some m') :
    (∀ i < bs.length, m.writes (untag a + i)) ∧ m'.reads = m.reads ∧
      m'.bytes = fun x => if untag a ≤ x ∧ x < untag a + bs.length then bs.getD (x - untag a) 0 else m.bytes x := by
  unfold write at h
  split_ifs at h with hall
  cases h
  exact ⟨fun i hi => List.all_eq_true.mp hall i (List.mem_range.mpr hi), rfl, rfl⟩

/-- what is written is at a user address -/
theorem write_user (h : m.write a bs = some m') (hpos : 0 < bs.length) : untag a < 2 ^ 48 := m.user _ ((write_some h).1 0 hpos)

theorem read_apart (h : m.write a bs = some m') (hd : untag b + n ≤ untag a ∨ untag a + bs.length ≤ untag b) :
    m'.read b n = m.read b n := by
  obtain ⟨-, hreads, hbytes⟩ := write_some h
  unfold read
  rw [hreads, hbytes]
  congr 2
  refine List.map_congr_left fun i hi => ?_
  have := List.mem_range.mp hi
  exact if_neg (by omega)

theorem read_same (h : m.write a bs = some m') : m'.read a bs.length = some bs := by
  obtain ⟨hwrites, hreads, hbytes⟩ := write_some h
  unfold read
  rw [if_pos]
  · congr 1
    refine List.ext_getElem (by rw [List.length_map, List.length_range]) fun i hi hi' => ?_
    rw [List.getElem_map, List.getElem_range, hbytes]
    dsimp only
    rw [if_pos ⟨Nat.le_add_right _ _, Nat.add_lt_add_left hi' _⟩, Nat.add_sub_cancel_left, List.getD_eq_getElem _ _ hi']
  · refine List.all_eq_true.mpr fun i hi => ?_
    rw [hreads]
    exact m.readable _ (hwrites i (List.mem_range.mp hi))

end Memory

/-! ## Masks and registers -/

theorem masked_not (a : UInt64) : a &&& ~~~SIGKILL_SIGSTOP &&& SIGKILL_SIGSTOP = 0 := by
  rw [UInt64.and_assoc, UInt64.not_and_self, UInt64.and_zero]

theorem masked_or {a b : UInt64} (ha : a &&& SIGKILL_SIGSTOP = 0) (hb : b &&& SIGKILL_SIGSTOP = 0) : (a ||| b) &&& SIGKILL_SIGSTOP = 0 := by
  have hdistrib : (a ||| b) &&& SIGKILL_SIGSTOP = a &&& SIGKILL_SIGSTOP ||| b &&& SIGKILL_SIGSTOP :=
    UInt64.toBitVec_inj.mp BitVec.and_or_distrib_right
  rw [hdistrib, ha, hb, UInt64.or_self]

theorem masked_and {a : UInt64} (b : UInt64) (ha : a &&& SIGKILL_SIGSTOP = 0) : a &&& b &&& SIGKILL_SIGSTOP = 0 := by
  rw [UInt64.and_assoc, UInt64.and_comm b, ← UInt64.and_assoc, ha, UInt64.zero_and]

/-- a mask without them is as it was -/
theorem and_not_of_masked {a : UInt64} (ha : a &&& SIGKILL_SIGSTOP = 0) : a &&& ~~~SIGKILL_SIGSTOP = a := by
  have hdistrib : a &&& (SIGKILL_SIGSTOP ||| ~~~SIGKILL_SIGSTOP) = a &&& SIGKILL_SIGSTOP ||| a &&& ~~~SIGKILL_SIGSTOP :=
    UInt64.toBitVec_inj.mp BitVec.and_or_distrib_left
  rw [ha, UInt64.zero_or] at hdistrib
  rw [← hdistrib, show SIGKILL_SIGSTOP ||| ~~~SIGKILL_SIGSTOP = -1 by decide, UInt64.and_neg_one]

theorem How.masked (how : How) {mask : UInt64} (set : UInt64) (h : mask &&& SIGKILL_SIGSTOP = 0) :
    how.apply mask (set &&& ~~~SIGKILL_SIGSTOP) &&& SIGKILL_SIGSTOP = 0 := by
  cases how with
  | block => exact masked_or h (masked_not set)
  | unblock => exact masked_and _ h
  | set => exact masked_not set

theorem Nzcv.fromPstate_toPstate (f : Nzcv) : .fromPstate f.toPstate = f := by
  obtain ⟨n, z, c, v⟩ := f
  cases n <;> cases z <;> cases c <;> cases v <;> decide

/-- the registers a frame saves are the registers it restores -/
theorem cpu_regs (cpu : Cpu) (faultAddress : UInt64) : (cpu.regs faultAddress).cpu = cpu := by
  unfold Cpu.regs Regs.cpu
  rw [Nzcv.fromPstate_toPstate]

namespace World

variable {w : World} {d : Delivery} {mem : Memory}

/-! ## The stacks in use -/

/-- nothing of a live frame lies between the base of a handler's stack and its frame, and what it interrupted kept to its own stack -/
def Zones : ℕ → List Live → Prop
  | _, [] => True
  | base, f :: rest => (∀ g ∈ f :: rest, g.stop ≤ base ∨ f.start ≤ g.start) ∧ Keeps f.base rest f.cpu.sp ∧ Zones f.base rest

theorem keeps_mark {base : ℕ} {frames : List Live} {sp : UInt64} (h : Keeps base frames sp) (b : Live → Bool) :
    Keeps base (frames.map fun f => f.mark (b f)) sp := by
  cases frames with
  | nil => exact h
  | cons f rest =>
    intro g hg
    cases hg
    exact h f rfl

theorem zones_mark {base : ℕ} {frames : List Live} (h : Zones base frames) (b : Live → Bool) :
    Zones base (frames.map fun f => f.mark (b f)) := by
  induction frames generalizing base with
  | nil => trivial
  | cons f rest ih =>
    refine ⟨fun g hg => ?_, keeps_mark h.2.1 b, ih h.2.2⟩
    rcases List.mem_cons.mp hg with rfl | hg
    · exact .inr le_rfl
    · obtain ⟨g', hg', rfl⟩ := List.mem_map.mp hg
      exact h.1 g' (List.mem_cons_of_mem _ hg')

structure Core (w : World) : Prop where
  interrupted : w.ended = false → w.interrupted = w.own
  masked : w.own &&& SIGKILL_SIGSTOP = 0
  unblocked : w.sigmask &&& SIGKILL_SIGSTOP = 0
  zones : Zones w.base w.frames
  here : Keeps w.base w.frames w.cpu.sp
  saves : ∀ f ∈ w.frames, f.own &&& SIGKILL_SIGSTOP = 0 ∧
    ∃ faultAddress info altstack, f.bytes = build (f.cpu.regs faultAddress) info f.own altstack
  placed : ∀ f ∈ w.frames, f.Placed
  apart : w.frames.Pairwise Live.Apart
  off : (∀ f ∈ w.frames, f.Off f) ∧ w.frames.Pairwise Live.Off
  kept : ∀ f ∈ w.frames, f.spoiled = false → w.Intact f

/-- no live frame lies below the stack pointer on the stack in use -/
theorem free_below (hc : w.Core) : ∀ g ∈ w.frames, g.stop ≤ w.base ∨ untag w.cpu.sp ≤ g.start := by
  intro g hg
  have hz := hc.zones
  have hh := hc.here
  cases hf : w.frames with
  | nil =>
    rw [hf] at hg
    cases hg
  | cons f rest =>
    rw [hf] at hg hz hh
    rcases hz.1 g hg with h | h
    · exact .inl h
    · exact .inr ((hh f rfl).2.trans h)

/-! ## A delivery -/

theorem length_frame (w : World) (d : Delivery) : (w.frame d).length = FRAME_BYTES := length_build _ _ _ _

theorem untag_frameAt (h : w.mem.write (w.frameAt d) (w.frame d) = some mem) (top : UInt64)
    (hat : w.frameAt d = (top - UInt64.ofNat FRAME_BYTES) &&& ~~~15) :
    FRAME_BYTES ≤ untag top ∧ untag (w.frameAt d) = below (untag top) := by
  have huser := Memory.write_user h (by rw [length_frame]; decide)
  rw [hat] at huser ⊢
  obtain ⟨hin, hwrap⟩ := untag_frame top
  by_cases hle : FRAME_BYTES ≤ untag top
  · exact ⟨hle, hin hle⟩
  · have := hwrap (Nat.not_le.mp hle)
    omega

/-- a stored frame below the stack pointer -/
theorem at_under (h : w.mem.write (w.frameAt d) (w.frame d) = some mem) (he : w.altstack.entered w.cpu.sp d.onstack = false) :
    FRAME_BYTES ≤ untag w.cpu.sp ∧ untag (w.frameAt d) = below (untag w.cpu.sp) :=
  untag_frameAt h _ (by unfold frameAt placement; rw [he]; rfl)

/-- a stored frame at the top of the alternate stack -/
theorem at_top (h : w.mem.write (w.frameAt d) (w.frame d) = some mem) (he : w.altstack.entered w.cpu.sp d.onstack = true)
    (hfits : untag w.altstack.sp + w.altstack.size.toNat < 2 ^ 56) :
    FRAME_BYTES ≤ untag w.altstack.sp + w.altstack.size.toNat ∧
      untag (w.frameAt d) = below (untag w.altstack.sp + w.altstack.size.toNat) := by
  have hsum : untag (w.altstack.sp + w.altstack.size) = untag w.altstack.sp + w.altstack.size.toNat := by
    unfold untag at hfits ⊢
    rw [UInt64.toNat_add]
    omega
  have hat := untag_frameAt h (w.altstack.sp + w.altstack.size) (by unfold frameAt placement; rw [he]; rfl)
  rw [hsum] at hat
  exact hat

/-- the handler that a delivery enters -/
def entry (w : World) (d : Delivery) : Live where
  at_ := w.frameAt d
  bytes := w.frame d
  cpu := w.cpu
  own := w.own
  base := w.base
  altstack := w.altstack
  entered := w.altstack.entered w.cpu.sp d.onstack
  spoiled := false

/-- the base of the stack it runs on -/
def entryBase (w : World) (d : Delivery) : ℕ := if w.altstack.entered w.cpu.sp d.onstack then untag w.altstack.sp else w.base

theorem entry_placed (h : w.mem.write (w.frameAt d) (w.frame d) = some mem) (hroom : w.Room d) : (w.entry d).Placed := by
  have haligned : (w.frameAt d).toNat % 16 = 0 := placement_aligned _ _ _
  unfold Room at hroom
  cases he : w.altstack.entered w.cpu.sp d.onstack with
  | true =>
    rw [if_pos he] at hroom
    obtain ⟨hle, hat⟩ := at_top h he hroom.1.2.1
    have hstart : (w.entry d).start = below (untag w.altstack.sp + w.altstack.size.toNat) := hat
    have hbelow := below_le hle
    refine ⟨haligned, fun hn => ?_, fun _ => ⟨?_, ?_⟩, fun _ hon => ?_⟩
    · exact absurd (he.symm.trans hn) (by decide)
    · rw [hstart]
      exact hroom.1.2.2
    · unfold Live.stop
      rw [hstart]
      exact hbelow
    · -- a stack that is entered is not the one in use
      unfold StackT.entered at he
      simp only [Bool.and_eq_true, Bool.not_eq_true'] at he
      exact absurd (he.2.symm.trans hon) (by decide)
  | false =>
    rw [if_neg (by rw [he]; decide)] at hroom
    obtain ⟨hle, hat⟩ := at_under h he
    have hstart : (w.entry d).start = below (untag w.cpu.sp) := hat
    refine ⟨haligned, fun _ => ⟨?_, ?_⟩, fun hn => absurd (he.symm.trans hn) (by decide), fun hen hon => ?_⟩
    · rw [hstart]
      exact hroom.1
    · unfold Live.stop
      rw [hstart]
      exact below_le hle
    · rw [hstart]
      exact hroom.2 hen hon

/-- the frame meets no live frame, and none lies between it and the base of its stack -/
theorem entry_free (hc : w.Core) (h : w.mem.write (w.frameAt d) (w.frame d) = some mem) (hroom : w.Room d) :
    w.entryBase d ≤ (w.entry d).start ∧
      ∀ g ∈ w.frames, (w.entry d).Apart g ∧ (g.stop ≤ w.entryBase d ∨ (w.entry d).start ≤ g.start) := by
  have hplaced := entry_placed h hroom
  unfold Room at hroom
  unfold entryBase
  cases he : w.altstack.entered w.cpu.sp d.onstack with
  | true =>
    rw [if_pos he] at hroom
    rw [if_pos rfl]
    obtain ⟨hlow, hhigh⟩ := hplaced.inside he
    refine ⟨hlow, fun g hg => ?_⟩
    rcases hroom.2.1 g hg with hg | hg
    · exact ⟨.inr (hg.trans hlow), .inl hg⟩
    · have hstop : (w.entry d).stop ≤ g.start := hhigh.trans hg
      exact ⟨.inl hstop, .inr ((Nat.le_add_right _ _).trans hstop)⟩
  | false =>
    rw [if_neg (by decide)]
    obtain ⟨hbase, hsp⟩ := hplaced.under he
    refine ⟨hbase, fun g hg => ?_⟩
    rcases free_below hc g hg with hg | hg
    · exact ⟨.inr (hg.trans hbase), .inl hg⟩
    · have hstop : (w.entry d).stop ≤ g.start := hsp.trans hg
      exact ⟨.inl hstop, .inr ((Nat.le_add_right _ _).trans hstop)⟩

theorem entry_off (hroom : w.Room d) : (w.entry d).Off (w.entry d) ∧ ∀ g ∈ w.frames, (w.entry d).Off g := by
  have hsp : (w.entry d).entered → ∀ sp ∈ w.cpu.sp :: w.frames.map (·.cpu.sp),
      ¬((w.entry d).low ≤ untag sp ∧ untag sp < (w.entry d).high) := by
    intro he
    have he : w.altstack.entered w.cpu.sp d.onstack = true := he
    unfold Room at hroom
    rw [if_pos he] at hroom
    exact hroom.2.2
  exact ⟨fun he => hsp he _ List.mem_cons_self,
    fun g hg he => hsp he _ (List.mem_cons_of_mem _ (List.mem_map_of_mem (f := (·.cpu.sp)) hg))⟩

theorem deliver_core (hc : w.Core) (hrun : w.ended = false) (hd : 2 ≤ d.handler) (hroomy : w.Roomy d) :
    (w.deliver d).Core ∧ (w.deliver d).saved = none := by
  have h0 : d.handler ≠ 0 := by
    rintro h
    rw [h] at hd
    exact absurd hd (by decide)
  have h1 : d.handler ≠ 1 := by
    rintro h
    rw [h] at hd
    exact absurd hd (by decide)
  unfold deliver
  rw [if_neg h0, if_neg h1]
  cases hwrite : w.mem.write (w.frameAt d) (w.frame d) with
  | none =>
    exact ⟨⟨nofun, hc.masked, hc.unblocked, hc.zones, hc.here, hc.saves, hc.placed, hc.apart, hc.off, hc.kept⟩, rfl⟩
  | some mem =>
    have hroom : w.Room d := hroomy (by rw [hwrite]; rfl)
    obtain ⟨hbase, hfree⟩ := entry_free hc hwrite hroom
    obtain ⟨hoff, hoffs⟩ := entry_off hroom
    have hint := hc.interrupted hrun
    have hmask : (w.interrupted ||| (d.block &&& ~~~SIGKILL_SIGSTOP)) &&& SIGKILL_SIGSTOP = 0 :=
      masked_or (hint ▸ hc.masked) (masked_not _)
    refine ⟨⟨fun _ => rfl, hmask, hmask, ⟨fun g hg => ?_, hc.here, hc.zones⟩, fun f hf => ?_, fun f hf => ?_, fun f hf => ?_, ?_,
      ⟨fun f hf => ?_, ?_⟩, fun f hf hs => ?_⟩, rfl⟩
    · rcases List.mem_cons.mp hg with rfl | hg
      · exact .inr le_rfl
      · exact (hfree g hg).2
    · cases hf
      exact ⟨hbase, le_rfl⟩
    · rcases List.mem_cons.mp hf with rfl | hf
      · exact ⟨hc.masked, d.faultAddress, d.info, w.altstack, by rw [← hint]; rfl⟩
      · exact hc.saves f hf
    · rcases List.mem_cons.mp hf with rfl | hf
      · exact entry_placed hwrite hroom
      · exact hc.placed f hf
    · exact List.pairwise_cons.mpr ⟨fun g hg => (hfree g hg).1, hc.apart⟩
    · rcases List.mem_cons.mp hf with rfl | hf
      · exact hoff
      · exact hc.off.1 f hf
    · exact List.pairwise_cons.mpr ⟨hoffs, hc.off.2⟩
    · unfold Intact
      rcases List.mem_cons.mp hf with rfl | hf
      · rw [← length_frame w d]
        exact Memory.read_same hwrite
      · change mem.read f.at_ FRAME_BYTES = some f.bytes
        rw [Memory.read_apart hwrite]
        · exact hc.kept f hf hs
        · rw [length_frame]
          exact (hfree f hf).1.symm

/-! ## A step -/

/-- guest code runs -/
theorem run_core (hc : w.Core) {cpu : Cpu} (mem : Memory) (hk : Keeps w.base w.frames cpu.sp) (b : Live → Bool)
    (hb : ∀ f ∈ w.frames, b f = false → mem.read f.at_ FRAME_BYTES = some f.bytes) :
    Core { w with cpu, mem, frames := w.frames.map fun f => f.mark (b f) } := by
  have hall : ∀ {p : Live → Prop}, (∀ f ∈ w.frames, p (f.mark (b f))) → ∀ f ∈ w.frames.map fun f => f.mark (b f), p f :=
    fun h => List.forall_mem_map.mpr h
  refine ⟨hc.interrupted, hc.masked, hc.unblocked, zones_mark hc.zones b, keeps_mark hk b, hall fun f hf => hc.saves f hf,
    hall fun f hf => ?_, ?_, ⟨hall fun f hf => hc.off.1 f hf, ?_⟩, hall fun f hf hs => hb f hf hs⟩
  · obtain ⟨h₁, h₂, h₃, h₄⟩ := hc.placed f hf
    exact ⟨h₁, h₂, h₃, h₄⟩
  · exact List.pairwise_map.mpr hc.apart
  · exact List.pairwise_map.mpr hc.off.2

theorem sigreturn_core (hc : w.Core) (hsaved : w.saved = none) {f : Live} {rest : List Live} (hf : w.frames = f :: rest)
    (hk : ∀ b, w.mem.read w.cpu.sp FRAME_BYTES = some b → Keeps f.base rest (parse b).1.sp) :
    w.sigreturn.Core ∧ w.sigreturn.saved = none := by
  unfold sigreturn
  cases hread : w.mem.read w.cpu.sp FRAME_BYTES with
  | none => exact ⟨hc, hsaved⟩
  | some b =>
    obtain ⟨hint, hmasked, hmask, hz, hh, hs, hp, ha, ho, hkept⟩ := hc
    rw [hf] at hz hs hp ha ho hkept
    dsimp only
    rw [hf]
    have hmem : ∀ g ∈ rest, g ∈ f :: rest := fun g hg => List.mem_cons_of_mem _ hg
    refine ⟨⟨fun _ => ?_, masked_not _, masked_not _, hz.2.2, hk b hread, fun g hg => hs g (hmem g hg), fun g hg => hp g (hmem g hg),
      (List.pairwise_cons.mp ha).2, ⟨fun g hg => ho.1 g (hmem g hg), (List.pairwise_cons.mp ho.2).2⟩,
      fun g hg => hkept g (hmem g hg)⟩, hsaved⟩
    unfold interrupted
    dsimp only
    rw [hsaved]
    rfl

/-- a signal without a handler is ignored, or ends the process -/
theorem deliver_default (hd : ¬2 ≤ d.handler) : w.deliver d = w ∨ w.deliver d = { w with ended := true } := by
  have hlt : d.handler.toNat < 2 := Nat.not_le.mp fun h => hd (UInt64.le_iff_toNat_le.mpr h)
  unfold deliver
  by_cases h0 : d.handler = 0
  · rw [if_pos h0]
    split_ifs
    · exact .inl rfl
    · exact .inr rfl
  · have h0' : d.handler.toNat ≠ 0 := fun h => h0 (UInt64.toNat_inj.mp h)
    have h1 : d.handler = 1 := UInt64.toNat_inj.mp (show d.handler.toNat = 1 by omega)
    rw [if_neg h0, if_pos h1]
    exact .inl rfl

theorem step_core (hc : w.Core) (hsaved : w.saved = none) (a : Act) (ho : w.steady a) : (w.step a).Core ∧ (w.step a).saved = none := by
  unfold step
  by_cases hended : w.ended = true
  · rw [if_pos hended]
    exact ⟨hc, hsaved⟩
  · rw [if_neg hended]
    have hrun : w.ended = false := Bool.eq_false_iff.mpr hended
    have hown : w.sigmask = w.own := by
      have h := hc.interrupted hrun
      unfold interrupted at h
      rwa [hsaved] at h
    cases a with
    | run cpu mem =>
      refine ⟨run_core hc mem ho (fun f => mem.read f.at_ FRAME_BYTES ≠ some f.bytes) fun f _ hs => ?_, hsaved⟩
      exact not_not.mp (of_decide_eq_false hs)
    | sigprocmask how set =>
      refine ⟨⟨fun _ => ?_, How.masked how set hc.masked, How.masked how set hc.unblocked, hc.zones, hc.here, hc.saves, hc.placed,
        hc.apart, hc.off, hc.kept⟩, hsaved⟩
      unfold interrupted
      dsimp only
      rw [hsaved, hown]
      rfl
    | sigaltstack s =>
      dsimp only
      exact ⟨⟨hc.interrupted, hc.masked, hc.unblocked, hc.zones, hc.here, hc.saves, hc.placed, hc.apart, hc.off, hc.kept⟩, hsaved⟩
    | deliver d =>
      dsimp only
      unfold raise
      split_ifs with hf
      · exact ⟨⟨nofun, hc.masked, hc.unblocked, hc.zones, hc.here, hc.saves, hc.placed, hc.apart, hc.off, hc.kept⟩, hsaved⟩
      · by_cases hd : 2 ≤ d.handler
        · exact deliver_core hc hrun hd (ho hd)
        · rcases deliver_default (w := w) hd with h | h
          · rw [h]
            exact ⟨hc, hsaved⟩
          · rw [h]
            exact ⟨⟨nofun, hc.masked, hc.unblocked, hc.zones, hc.here, hc.saves, hc.placed, hc.apart, hc.off, hc.kept⟩, hsaved⟩
    | wait temporary d =>
      cases d with
      | none => exact ⟨hc, hsaved⟩
      | some d =>
        have hw : Core { w with sigmask := temporary &&& ~~~SIGKILL_SIGSTOP, saved := some w.sigmask } :=
          ⟨fun _ => hown, hc.masked, masked_not _, hc.zones, hc.here, hc.saves, hc.placed, hc.apart, hc.off, hc.kept⟩
        exact deliver_core hw hrun ho.1 ho.2
    | ret =>
      obtain ⟨f, hf, hsp, hk⟩ := ho
      cases hframes : w.frames with
      | nil =>
        rw [hframes] at hf
        cases hf
      | cons g rest =>
        rw [hframes] at hf hk
        obtain rfl : g = f := Option.some.inj hf
        exact sigreturn_core hc hsaved hframes fun b hb => hk b hb

/-- nothing runs yet but the code that a task starts with -/
def new (cpu : Cpu) (mem : Memory) (altstack : StackT) (mask sigtramp : UInt64) : World :=
  { cpu, mem, altstack, sigmask := mask &&& ~~~SIGKILL_SIGSTOP, own := mask &&& ~~~SIGKILL_SIGSTOP, sigtramp }

theorem new_core (cpu : Cpu) (mem : Memory) (altstack : StackT) (mask sigtramp : UInt64) : (new cpu mem altstack mask sigtramp).Core :=
  ⟨fun _ => rfl, masked_not _, masked_not _, trivial, fun _ h => absurd h (Option.some_ne_none _).symm, List.forall_mem_nil _,
    List.forall_mem_nil _, .nil, ⟨List.forall_mem_nil _, .nil⟩, List.forall_mem_nil _⟩

/-- a frame that was not touched restores what its handler interrupted -/
theorem restored_of (hc : w.Core) (hrun : w.ended = false) {f : Live} {rest : List Live} (hf : w.frames = f :: rest)
    (hsp : w.cpu.sp = f.at_) (hintact : w.Intact f) : (w.step .ret).cpu = f.cpu ∧ (w.step .ret).sigmask = f.own := by
  obtain ⟨hmask, faultAddress, info, altstack, hbytes⟩ := hc.saves f (hf ▸ List.mem_cons_self)
  have hread : w.mem.read w.cpu.sp FRAME_BYTES = some (build (f.cpu.regs faultAddress) info f.own altstack) := by
    rw [hsp, ← hbytes]
    exact hintact
  unfold step
  rw [if_neg (by rw [hrun]; decide)]
  dsimp only
  unfold sigreturn
  rw [hread]
  dsimp only
  rw [parse_build]
  exact ⟨cpu_regs _ _, and_not_of_masked hmask⟩

theorem refused_of (hrun : w.ended = false) (hd : w.Runs d) (hnone : w.mem.write (w.frameAt d) (w.frame d) = none) :
    (w.step (.deliver d)).ended ∧ (w.step (.deliver d)).cpu = w.cpu ∧ (w.step (.deliver d)).frames = w.frames := by
  have h0 : d.handler ≠ 0 := by
    rintro h
    have := hd.1
    rw [h] at this
    exact absurd this (by decide)
  have h1 : d.handler ≠ 1 := by
    rintro h
    have := hd.1
    rw [h] at this
    exact absurd this (by decide)
  unfold step
  rw [if_neg (by rw [hrun]; decide)]
  dsimp only
  unfold raise
  split_ifs
  · exact ⟨rfl, rfl, rfl⟩
  · unfold deliver
    rw [if_neg h0, if_neg h1, hnone]
    exact ⟨rfl, rfl, rfl⟩

end World

/-- **Frames nest.** In every run in which handlers keep to their stacks, there is room for the frames, no stack in use is entered from
its top, and a signal that ends a wait with a mask of its own has a handler. -/
theorem frames_nest {cpu : Cpu} {mem : Memory} {altstack : StackT} {mask sigtramp : UInt64} {w : World}
    (h : Reach World.step World.steady (World.new cpu mem altstack mask sigtramp) w) : w.Nested := by
  have hi : w.Core ∧ w.saved = none :=
    h.invariant (fun w => w.Core ∧ w.saved = none) ⟨World.new_core _ _ _ _ _, rfl⟩ fun _ a _ ho hs => World.step_core hs.1 hs.2 a ho
  exact ⟨hi.1.placed, hi.1.apart, hi.1.off, hi.1.kept, fun hrun d hd hnone => World.refused_of hrun hd hnone,
    fun hrun f rest hf hsp hintact => World.restored_of hi.1 hrun hf hsp hintact, hi.1.unblocked⟩

/-! ## Runs -/

section Runs

variable {w : World} {d : Delivery}

instance decRoom (w : World) (d : Delivery) : Decidable (w.Room d) := by
  unfold World.Room
  -- the stack pointers there are, not every number
  have : Decidable (∀ sp ∈ w.cpu.sp :: w.frames.map (·.cpu.sp),
      ¬(untag w.altstack.sp ≤ untag sp ∧ untag sp < untag w.altstack.sp + w.altstack.size.toNat)) := List.decidableBAll _ _
  infer_instance

/-- all of the user addresses can be read and written -/
def flat : Memory where
  bytes _ := 0
  reads _ := true
  writes a := a < 2 ^ 48
  readable _ _ := rfl
  user _ h := of_decide_eq_true h

def World.entered (w : World) (d : Delivery) : World := w.enter d (w.mem.written (w.frameAt d) (w.frame d))

/-- a frame that ends among the user addresses is stored -/
theorem stored (hall : w.mem.writes = fun a => decide (a < 2 ^ 48)) (hend : untag (w.frameAt d) + FRAME_BYTES ≤ 2 ^ 48) :
    w.mem.write (w.frameAt d) (w.frame d) = some (w.mem.written (w.frameAt d) (w.frame d)) := by
  refine if_pos (List.all_eq_true.mpr fun i hi => ?_)
  have hlt := List.mem_range.mp hi
  rw [World.length_frame] at hlt
  rw [hall]
  exact decide_eq_true (by omega)

theorem deliver_entered (hd : d.handler ≠ 0 ∧ d.handler ≠ 1) (hall : w.mem.writes = fun a => decide (a < 2 ^ 48))
    (hend : untag (w.frameAt d) + FRAME_BYTES ≤ 2 ^ 48) : w.deliver d = w.entered d := by
  unfold World.deliver
  rw [if_neg hd.1, if_neg hd.2, stored hall hend]
  rfl

theorem step_entered (hrun : w.ended = false) (hf : d.fault = false) (hd : d.handler ≠ 0 ∧ d.handler ≠ 1)
    (hall : w.mem.writes = fun a => decide (a < 2 ^ 48)) (hend : untag (w.frameAt d) + FRAME_BYTES ≤ 2 ^ 48) : w.step (.deliver d) = w.entered d := by
  unfold World.step
  rw [if_neg (by rw [hrun]; decide)]
  dsimp only
  unfold World.raise
  rw [if_neg (by rw [hf, Bool.false_and]; decide)]
  exact deliver_entered hd hall hend

theorem frames_entered (w : World) (d : Delivery) : (w.entered d).frames = w.entry d :: w.frames := rfl

theorem frames_sigaltstack (hrun : w.ended = false) (s : StackT) : (w.step (.sigaltstack s)).frames = w.frames := by
  unfold World.step
  rw [if_neg (by rw [hrun]; decide)]

/-- what the frame of a handler just entered holds -/
theorem read_entered (hall : w.mem.writes = fun a => decide (a < 2 ^ 48)) (hend : untag (w.frameAt d) + FRAME_BYTES ≤ 2 ^ 48) :
    (w.entered d).mem.read (w.frameAt d) FRAME_BYTES = some (w.frame d) := by
  have hs := Memory.read_same (stored hall hend)
  rwa [World.length_frame] at hs

end Runs

def start : World := .new { sp := 0x100000 } flat { sp := 0, flags := SS_DISABLE, size := 0 } 0 0

def stack (sp size : UInt64) : StackT := { sp, flags := 0, size }

/-- a signal whose handler runs on the alternate stack, one whose handler does not ask for it, and one that is ignored -/
def onStack : Delivery := { info := { signo := 10, code := -6 }, handler := 0x4000, flags := SA_ONSTACK }
def plain : Delivery := { info := { signo := 12, code := -6 }, handler := 0x5000, flags := 0 }
def ignored : Delivery := { info := { signo := 17, code := -6 }, handler := 0, flags := 0 }

/-- two handlers on the alternate stack, the second interrupting the first, and a return -/
theorem frames_nest_twice :
    ((((start.step (.sigaltstack (stack 0x200000 0x8000))).step (.deliver onStack)).step (.deliver plain)).step .ret).Nested := by
  have h₁ : (start.step (.sigaltstack (stack 0x200000 0x8000))).step (.deliver onStack) =
      (start.step (.sigaltstack (stack 0x200000 0x8000))).entered onStack :=
    step_entered rfl rfl (by decide) rfl (by decide)
  have h₂ : ((start.step (.sigaltstack (stack 0x200000 0x8000))).entered onStack).step (.deliver plain) =
      ((start.step (.sigaltstack (stack 0x200000 0x8000))).entered onStack).entered plain :=
    step_entered rfl rfl (by decide) rfl (by decide)
  refine frames_nest (.next _ (.next _ (.next _ (.next _ .start trivial) fun _ _ => by decide) ?_) ?_)
  · rw [h₁]
    exact fun _ _ => by decide
  · rw [h₁, h₂]
    refine ⟨_, rfl, rfl, fun b hb => ?_⟩
    have hread := read_entered (w := (start.step (.sigaltstack (stack 0x200000 0x8000))).entered onStack) (d := plain) rfl
      (by decide)
    rw [Option.some.inj (hb.symm.trans hread)]
    unfold World.frame
    rw [parse_build]
    intro f hf
    cases hf
    constructor <;> decide

/-- an alternate stack smaller than a frame -/
def tooSmall : List Act := [.sigaltstack (stack 0x200000 0x800), .deliver onStack]

/-- the alternate stack of a handler that runs, set again by one on another stack -/
def inUse : List Act :=
  [.sigaltstack (stack 0x200000 0x8000), .deliver onStack, .sigaltstack (stack 0x300000 0x8000), .deliver onStack,
    .sigaltstack (stack 0x200000 0x8000), .deliver onStack]

/-- a signal that is ignored ends a wait, and a mask is set before the next one -/
def ignoredWait : List Act := [.wait 0 (some ignored), .sigprocmask .set 0x400, .deliver plain]

/-- before the third delivery of `inUse`, and before the one of `ignoredWait` -/
def swapped : World :=
  ((((start.step (.sigaltstack (stack 0x200000 0x8000))).entered onStack).step (.sigaltstack (stack 0x300000 0x8000))).entered
    onStack).step (.sigaltstack (stack 0x200000 0x8000))

def waited : World := (start.step (.wait 0 (some ignored))).step (.sigprocmask .set 0x400)

theorem run_inUse : run World.step start inUse = swapped.entered onStack := by
  have h₁ : (start.step (.sigaltstack (stack 0x200000 0x8000))).step (.deliver onStack) =
      (start.step (.sigaltstack (stack 0x200000 0x8000))).entered onStack :=
    step_entered rfl rfl (by decide) rfl (by decide)
  have h₂ : (((start.step (.sigaltstack (stack 0x200000 0x8000))).entered onStack).step (.sigaltstack (stack 0x300000 0x8000))).step
      (.deliver onStack) =
        (((start.step (.sigaltstack (stack 0x200000 0x8000))).entered onStack).step (.sigaltstack (stack 0x300000 0x8000))).entered
          onStack :=
    step_entered rfl rfl (by decide) rfl (by decide)
  calc run World.step start inUse
      = ((((((start.step (.sigaltstack (stack 0x200000 0x8000))).step (.deliver onStack)).step
          (.sigaltstack (stack 0x300000 0x8000))).step (.deliver onStack)).step (.sigaltstack (stack 0x200000 0x8000))).step
          (.deliver onStack)) := by
        rw [run, inUse, List.foldl_cons, List.foldl_cons, List.foldl_cons, List.foldl_cons, List.foldl_cons, List.foldl_cons,
          List.foldl_nil]
    _ = swapped.step (.deliver onStack) := by rw [h₁, h₂, swapped]
    _ = swapped.entered onStack := step_entered rfl rfl (by decide) rfl (by decide)

/-- **What goes wrong.** A frame below the alternate stack it is for, one over a live frame, and a mask that a return does not restore. -/
theorem frames_clash :
    ¬(run World.step start tooSmall).Nested ∧ ¬(run World.step start inUse).Nested ∧ ¬(run World.step start ignoredWait).Nested := by
  refine ⟨fun h => ?_, fun h => ?_, fun h => ?_⟩
  · have hrun : run World.step start tooSmall = (start.step (.sigaltstack (stack 0x200000 0x800))).entered onStack := by
      rw [run, tooSmall, List.foldl_cons, List.foldl_cons, List.foldl_nil]
      exact step_entered rfl rfl (by decide) rfl (by decide)
    rw [hrun] at h
    have hplaced := h.placed ((start.step (.sigaltstack (stack 0x200000 0x800))).entry onStack)
      (by rw [frames_entered]; exact List.mem_cons_self)
    exact absurd (hplaced.inside (by decide)).1 (by decide)
  · rw [run_inUse] at h
    have hapart := h.apart
    rw [frames_entered] at hapart
    have hfirst : (start.step (.sigaltstack (stack 0x200000 0x8000))).entry onStack ∈ swapped.frames := by
      unfold swapped
      rw [frames_sigaltstack (by decide), frames_entered, frames_sigaltstack (by decide), frames_entered]
      exact List.mem_cons_of_mem _ List.mem_cons_self
    rcases (List.pairwise_cons.mp hapart).1 _ hfirst with hafter | hbefore
    · exact absurd hafter (by decide)
    · exact absurd hbefore (by decide)
  · have hrun : run World.step start ignoredWait = waited.entered plain := by
      rw [run, ignoredWait, List.foldl_cons, List.foldl_cons, List.foldl_cons, List.foldl_nil]
      exact step_entered rfl rfl (by decide) rfl (by decide)
    rw [hrun] at h
    have hread := read_entered (w := waited) (d := plain) rfl (by decide)
    have hmask := (h.restored (by decide) (waited.entry plain) waited.frames (frames_entered _ _) rfl hread).2
    have hret : ((waited.entered plain).step .ret).sigmask = waited.interrupted &&& ~~~SIGKILL_SIGSTOP := by
      unfold World.step
      rw [if_neg (by decide)]
      dsimp only
      unfold World.sigreturn
      rw [show (waited.entered plain).cpu.sp = waited.frameAt plain from rfl, hread]
      dsimp only
      unfold World.frame
      rw [parse_build]
    rw [hret] at hmask
    exact absurd hmask (by decide)

end Omnidroid.Signal
