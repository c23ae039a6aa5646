/-
Every argument is found where the AAPCS64 rules put it, and no read is anywhere else.
- `slot_run`: a read of the next slot of the stack, the same in all three readers.
- `Args.step_ok`, `VarArgs.step_ok`, `GuestVaList.step_ok`: one argument, where the cursor of the rules has it.
- `Walks`: reads in the two save areas and up the stack, slot by slot.
- `arguments_found`: the calls, the lists, and what any of them reads.
-/
import Omnidroid.Android.Args
import Omnidroid.Lib.Answers

namespace Omnidroid.Android

open Aapcs64 EStateM

variable {m m' : GuestMem} {blame : Blame} {call : ArgSource} {c : Cursor} {w : UInt64} {log : List (ℕ × ℕ)} {k : Kind} {p len : ℕ}

/-! ## A slot -/

namespace GuestMem

/-- the word at an address, if it can be read -/
def word (m : GuestMem) (address : ℕ) : Option UInt64 :=
  if m.admission address 8 = none then some (UInt64.ofNat (m.at' address 8).leNat) else none

/-- an `int` at an address, if it can be read -/
def int (m : GuestMem) (address : ℕ) : Option Int32 :=
  if m.admission address 4 = none then some (UInt32.ofNat (m.at' address 4).leNat).toInt32 else none

theorem word_some {address : ℕ} (h : m.word address = some w) :
    m.admission address 8 = none ∧ w = UInt64.ofNat (m.at' address 8).leNat ∧ address + 8 < 2 ^ 64 := by
  unfold GuestMem.word at h
  split at h
  case isTrue hadmission => exact ⟨hadmission, (Option.some.inj h).symm, m.inside _ _ hadmission⟩
  case isFalse => cases h

theorem readU64_ok {address : ℕ} (h : m.word address = some w) :
    m.readU64 address blame log = .ok w (log ++ [(address, 8)]) := by
  obtain ⟨hadmission, rfl, -⟩ := word_some h
  have hread : m.readBytes address 8 blame log = .ok (m.at' address 8) (log ++ [(address, 8)]) := by
    simp only [readBytes, hadmission]
    rfl
  exact bind_of_ok hread _

theorem readI32_ok {address : ℕ} {i : Int32} (h : m.int address = some i) :
    m.readI32 address blame log = .ok i (log ++ [(address, 4)]) ∧ address + 4 < 2 ^ 64 := by
  unfold GuestMem.int at h
  split at h
  case isTrue hadmission =>
    obtain rfl := Option.some.inj h
    have hread : m.readBytes address 4 blame log = .ok (m.at' address 4) (log ++ [(address, 4)]) := by
      simp only [readBytes, hadmission]
      rfl
    exact ⟨bind_of_ok hread _, m.inside _ _ hadmission⟩
  case isFalse => cases h

/-- the low half of a word -/
theorem low_half (address : ℕ) : UInt32.ofNat (m.at' address 4).leNat = (UInt64.ofNat (m.at' address 8).leNat).toUInt32 := by
  have hlow : (m.at' address 8).leNat = (m.at' address 4).leNat + 2 ^ 32 * (m.at' (address + 4) 4).leNat := by
    simp only [at', Bytes.leNat, List.range, List.range.loop, List.map_cons, List.map_nil]
    ring
  rw [← UInt32.toNat_inj, hlow]
  simp

/-- the bits of a few bytes -/
theorem bits_at (address : ℕ) (h : len ≤ 16) : (BitVec.ofNat 128 (m.at' address len).leNat).toNat = (m.at' address len).leNat := by
  have hlength : (m.at' address len).length = len := by simp [at']
  have hlt := Bytes.leNat_lt (m.at' address len)
  have hle : 256 ^ len ≤ 256 ^ 16 := Nat.pow_le_pow_right (by decide) h
  rw [hlength] at hlt
  rw [BitVec.toNat_ofNat]
  exact Nat.mod_eq_of_lt (hlt.trans_le hle)

end GuestMem

/-- what a read of the next slot comes to -/
def slot {α : Type} (m : GuestMem) (p len : ℕ) (early : AbiError) (refused : Refusal → AbiError) (late : AbiError) (f : Bytes → ℕ → α)
    (log : List (ℕ × ℕ)) : Result AbiError (List (ℕ × ℕ)) α :=
  if 2 ^ 64 ≤ p + 7 then .error early log
  else
    match m.admission (roundUp p) len with
    | some refusal => .error (refused refusal) (log ++ [(roundUp p, len)])
    | none =>
      if 2 ^ 64 ≤ roundUp p + 8 then .error late (log ++ [(roundUp p, len)])
      else .ok (f (m.at' (roundUp p) len) (roundUp p + 8)) (log ++ [(roundUp p, len)])

/-- the address is rounded up, the bytes are read, and the cursor goes past them -/
theorem slot_run {α β : Type} {align : Reads ℕ} {advance : ℕ → Reads ℕ} {read : ℕ → Reads β} {early : AbiError} {late : ℕ → AbiError}
    {g : Bytes → β} (f : β → ℕ → α) (hlen : 0 < len)
    (halign : ∀ log, align log = if p + 7 < 2 ^ 64 then .ok (roundUp p) log else .error early log)
    (hadvance : ∀ at_ log, advance at_ log = if at_ + 8 < 2 ^ 64 then .ok (at_ + 8) log else .error (late at_) log)
    (hread : ∀ at_, read at_ = do let bytes ← m.readBytes at_ len blame; pure (g bytes)) (log : List (ℕ × ℕ)) :
    (do let at_ ← align; let value ← read at_; let next ← advance at_; pure (f value next)) log =
      slot m p len early (.badPointer blame.symbol blame.address blame.argument (roundUp p) len "reading") (late (roundUp p))
        (fun bytes next => f (g bytes) next) log := by
  rw [slot]
  simp only [bind, EStateM.bind, halign]
  by_cases hearly : p + 7 < 2 ^ 64
  · rw [if_pos hearly, if_neg (not_le.mpr hearly)]
    simp only [hread, bind, EStateM.bind, GuestMem.readBytes, if_neg (Nat.ne_of_gt hlen)]
    cases hadmission : m.admission (roundUp p) len with
    | some refusal => rfl
    | none =>
      simp only [pure, EStateM.pure, hadvance]
      by_cases hlate : roundUp p + 8 < 2 ^ 64
      · rw [if_pos hlate, if_neg (not_le.mpr hlate)]
      · rw [if_neg hlate, if_pos (not_lt.mp hlate)]
  · rw [if_neg hearly, if_pos (not_lt.mp hearly)]

theorem slot_ok {α : Type} {early late : AbiError} {refused : Refusal → AbiError} {f : Bytes → ℕ → α} (h : m.word (roundUp p) = some w)
    (hlen : len ≤ 8) :
    slot m p len early refused late f log = .ok (f (m.at' (roundUp p) len) (roundUp p + 8)) (log ++ [(roundUp p, len)]) := by
  obtain ⟨hadmission, -, hlt⟩ := GuestMem.word_some h
  have hround := le_roundUp p
  rw [slot, if_neg (by omega), m.part _ _ _ hadmission hlen]
  exact if_neg (by omega)

/-! ## The three readers, a step each -/

namespace Args

variable {a : Args}

theorem alignNsaa_run (a : Args) {align : ℕ} (h : align ≤ 8) (log : List (ℕ × ℕ)) :
    a.alignNsaa align log = if a.nsaa + 7 < 2 ^ 64 then .ok (roundUp a.nsaa) log else .error (a.nsaaOutOfSpace a.nsaa 8) log := by
  rw [alignNsaa, max_eq_right h, checkedAdd]
  by_cases hlt : a.nsaa + 7 < 2 ^ 64
  · rw [if_pos hlt, if_pos hlt]
    rfl
  · rw [if_neg hlt, if_neg hlt]
    rfl

theorem advanceNsaa_run (a : Args) (at_ : ℕ) (log : List (ℕ × ℕ)) :
    a.advanceNsaa at_ 8 log = if at_ + 8 < 2 ^ 64 then .ok (at_ + 8) log else .error (a.nsaaOutOfSpace at_ 8) log := by
  rw [advanceNsaa, checkedAdd]
  by_cases hlt : at_ + 8 < 2 ^ 64
  · rw [if_pos hlt, if_pos hlt]
    rfl
  · rw [if_neg hlt, if_neg hlt]
    rfl

theorem nextU64_spent (h : ¬a.ngrn < 8) (log : List (ℕ × ℕ)) : ∃ early refused late,
    a.nextU64 log = slot a.mem a.nsaa 8 early refused late
      (fun bytes nsaa => (UInt64.ofNat bytes.leNat, { a with nsaa := nsaa, taken := a.taken + 1 })) log := by
  have hread : ∀ at_, a.mem.readU64 at_ a.argumentBlame =
      (do let bytes ← a.mem.readBytes at_ 8 a.argumentBlame; pure (UInt64.ofNat bytes.leNat)) := fun _ => rfl
  rw [nextU64, ARG_REGISTERS, if_neg h]
  exact ⟨_, _, _, slot_run (fun value nsaa => (value, { a with nsaa := nsaa, taken := a.taken + 1 })) (by decide)
    (a.alignNsaa_run le_rfl) a.advanceNsaa_run hread log⟩

theorem nextFpBits_spent (h : ¬a.nsrn < 8) (hlen : 0 < len ∧ len ≤ 8) (log : List (ℕ × ℕ)) : ∃ early refused late,
    a.nextFpBits len log = slot a.mem a.nsaa len early refused late
      (fun bytes nsaa => (BitVec.ofNat 128 bytes.leNat, { a with nsaa := nsaa, taken := a.taken + 1 })) log := by
  rw [nextFpBits, ARG_REGISTERS, if_neg h, max_eq_right hlen.2]
  exact ⟨_, _, _, slot_run (g := id) (fun bytes nsaa => (BitVec.ofNat 128 bytes.leNat, { a with nsaa := nsaa, taken := a.taken + 1 })) hlen.1
    (a.alignNsaa_run le_rfl) a.advanceNsaa_run (fun _ => (bind_pure _).symm) log⟩

end Args

namespace VarArgs

variable {a : VarArgs}

theorem alignedOverflow_run (a : VarArgs) (log : List (ℕ × ℕ)) :
    a.alignedOverflow GR_SLOT log =
      if a.overflow + 7 < 2 ^ 64 then .ok (roundUp a.overflow) log else .error (a.overflowOutOfSpace a.overflow 8) log := by
  rw [alignedOverflow, checkedAdd, GR_SLOT]
  by_cases hlt : a.overflow + 7 < 2 ^ 64
  · rw [if_pos hlt, if_pos hlt]
    rfl
  · rw [if_neg hlt, if_neg hlt]
    rfl

theorem advanceOverflow_run (a : VarArgs) (at_ : ℕ) (log : List (ℕ × ℕ)) :
    a.advanceOverflow at_ GR_SLOT log =
      if at_ + 8 < 2 ^ 64 then .ok (at_ + 8) log else .error (a.overflowOutOfSpace at_ 8) log := by
  rw [advanceOverflow, checkedAdd, GR_SLOT]
  by_cases hlt : at_ + 8 < 2 ^ 64
  · rw [if_pos hlt, if_pos hlt]
    rfl
  · rw [if_neg hlt, if_neg hlt]
    rfl

/-- either bank's overflow is the same -/
theorem next_spent (a : VarArgs) (log : List (ℕ × ℕ)) : ∃ early refused late,
    (8 ≤ a.ngrn → a.nextU64 log = slot a.mem a.overflow 8 early refused late
      (fun bytes overflow => (UInt64.ofNat bytes.leNat, { a with overflow := overflow, index := a.index + 1 })) log) ∧
    (8 ≤ a.nsrn → a.nextF64 log = slot a.mem a.overflow 8 early refused late
      (fun bytes overflow => (UInt64.ofNat bytes.leNat, { a with overflow := overflow, index := a.index + 1 })) log) := by
  have hread : ∀ at_, a.mem.readU64 at_ a.argumentBlame =
      (do let bytes ← a.mem.readBytes at_ 8 a.argumentBlame; pure (UInt64.ofNat bytes.leNat)) := fun _ => rfl
  have hrun := slot_run (fun value overflow => (value, { a with overflow := overflow, index := a.index + 1 })) (by decide)
    a.alignedOverflow_run a.advanceOverflow_run hread log
  refine ⟨_, _, _, fun h => Eq.trans ?_ hrun, fun h => Eq.trans ?_ hrun⟩
  · rw [nextU64, ARG_REGISTERS, if_neg (not_lt.mpr h)]
  · rw [nextF64, ARG_REGISTERS, if_neg (not_lt.mpr h)]

end VarArgs

namespace GuestVaList

open VarArgs

variable {l : GuestVaList}

theorem alignedStack_run (l : GuestVaList) (log : List (ℕ × ℕ)) :
    l.alignedStack GR_SLOT log =
      if l.stack + 7 < 2 ^ 64 then .ok (roundUp l.stack) log else .error (l.stackOutOfSpace l.stack 8) log := by
  rw [alignedStack, checkedAdd, GR_SLOT]
  by_cases hlt : l.stack + 7 < 2 ^ 64
  · rw [if_pos hlt, if_pos hlt]
    rfl
  · rw [if_neg hlt, if_neg hlt]
    rfl

theorem advanceStack_run (l : GuestVaList) (at_ : ℕ) (log : List (ℕ × ℕ)) :
    l.advanceStack at_ GR_SLOT log = if at_ + 8 < 2 ^ 64 then .ok (at_ + 8) log else .error (l.stackOutOfSpace at_ 8) log := by
  rw [advanceStack, checkedAdd, GR_SLOT]
  by_cases hlt : at_ + 8 < 2 ^ 64
  · rw [if_pos hlt, if_pos hlt]
    rfl
  · rw [if_neg hlt, if_neg hlt]
    rfl

/-- the stack, once a save area is spent -/
theorem next_spent (l : GuestVaList) (log : List (ℕ × ℕ)) : ∃ early refused late,
    (0 ≤ l.grOffs → l.nextU64 log = slot l.mem l.stack 8 early refused late
      (fun bytes stack => (UInt64.ofNat bytes.leNat, { l with stack := stack, index := l.index + 1 })) log) ∧
    (0 ≤ l.vrOffs → l.nextF64 log = slot l.mem l.stack 8 early refused late
      (fun bytes stack => (UInt64.ofNat bytes.leNat, { l with stack := stack, index := l.index + 1 })) log) := by
  have hread : ∀ at_, l.mem.readU64 at_ l.blame =
      (do let bytes ← l.mem.readBytes at_ 8 l.blame; pure (UInt64.ofNat bytes.leNat)) := fun _ => rfl
  have hrun := slot_run (fun value stack => (value, { l with stack := stack, index := l.index + 1 })) (by decide)
    l.alignedStack_run l.advanceStack_run hread log
  refine ⟨_, _, _, fun h => Eq.trans ?_ hrun, fun h => Eq.trans ?_ hrun⟩
  · rw [nextU64, if_neg (not_lt.mpr h)]
  · rw [nextF64, if_neg (not_lt.mpr h)]

end GuestVaList

/-! ## An argument where the rules have it -/

/-- what a call's places hold -/
def ArgSource.contents (call : ArgSource) (m : GuestMem) : Contents
  | .x n => some (call.x n)
  | .v n => some (UInt64.ofNat (call.v n).toNat)
  | .stack address => m.word address

/-- a reader that reads one argument reads all of them -/
theorem readAll_laid {σ : Type} {next : σ → Kind → Reads (Arg × σ)} {Agrees : σ → Cursor → Prop} {contents : Contents} {ok : Kind → Prop}
    (hstep : ∀ s c k w log, ok k → Agrees s c → contents (c.place k) = some w →
      ∃ s' log', next s k log = .ok (k.arg w, s') log' ∧ Agrees s' (c.next k))
    {s : σ} {as : List Arg} (hok : ∀ a ∈ as, ok a.kind) (hs : Agrees s c) (hlaid : Laid contents c as) (log : List (ℕ × ℕ)) :
    ∃ s' log', readAll next s (as.map Arg.kind) log = .ok (as, s') log' ∧ Agrees s' (c.after (as.map Arg.kind)) := by
  induction as generalizing s c log with
  | nil => exact ⟨s, log, rfl, hs⟩
  | cons a as ih =>
    obtain ⟨⟨w, hw, hlow⟩, hrest⟩ := hlaid
    obtain ⟨s₁, log₁, hnext, hs₁⟩ := hstep s c a.kind w log (hok a List.mem_cons_self) hs hw
    obtain ⟨s₂, log₂, hall, hs₂⟩ := ih (fun b hb => hok b (List.mem_cons_of_mem _ hb)) hs₁ hrest log₁
    refine ⟨s₂, log₂, ?_, hs₂⟩
    rw [List.map_cons, readAll, bind_of_ok hnext]
    simp only
    rw [bind_of_ok hall, ← hlow.eq]
    rfl

namespace Args

structure Agrees (call : ArgSource) (m : GuestMem) (a : Args) (c : Cursor) : Prop where
  call : a.call = call
  mem : a.mem = m
  cursor : (⟨a.ngrn, a.nsrn, a.nsaa⟩ : Cursor) = c

variable {a : Args}

theorem nextU64_ok (h : Agrees call m a c) (hk : k.simd = false) (hw : call.contents m (c.place k) = some w) (log : List (ℕ × ℕ)) :
    ∃ a' log', a.nextU64 log = .ok (w, a') log' ∧ Agrees call m a' (c.next k) := by
  obtain ⟨rfl, rfl, rfl⟩ := h
  rcases Cursor.takes _ k with ⟨hsimd, -⟩ | ⟨-, hlt, hplace, hnext⟩ | ⟨hspent, hplace, hnext⟩
  · exact absurd (hk.symm.trans hsimd) Bool.false_ne_true
  · rw [hplace] at hw
    obtain rfl := Option.some.inj hw
    rw [hnext, nextU64, ARG_REGISTERS]
    exact ⟨_, log, congrFun (if_pos hlt) log, ⟨rfl, rfl, rfl⟩⟩
  · rw [hk] at hspent
    rw [hplace] at hw
    obtain ⟨early, refused, late, hslot⟩ := a.nextU64_spent (not_lt.mpr hspent) log
    rw [hslot, slot_ok hw le_rfl, hnext, (GuestMem.word_some hw).2.1]
    exact ⟨_, _, rfl, ⟨rfl, rfl, rfl⟩⟩

/-- the bits of a register, or of the low bytes of a slot -/
theorem nextFpBits_ok (h : Agrees call m a c) (hk : k.simd = true) (hlen : 0 < len ∧ len ≤ 8)
    (hw : call.contents m (c.place k) = some w) (log : List (ℕ × ℕ)) :
    ∃ bits a' log', a.nextFpBits len log = .ok (bits, a') log' ∧ Agrees call m a' (c.next k) ∧
      (w = UInt64.ofNat bits.toNat ∨ ∃ address, w = UInt64.ofNat (m.at' address 8).leNat ∧ bits = BitVec.ofNat 128 (m.at' address len).leNat) := by
  obtain ⟨rfl, rfl, rfl⟩ := h
  rcases Cursor.takes _ k with ⟨-, hlt, hplace, hnext⟩ | ⟨hsimd, -⟩ | ⟨hspent, hplace, hnext⟩
  · rw [hplace] at hw
    obtain rfl := Option.some.inj hw
    rw [hnext, nextFpBits, ARG_REGISTERS]
    exact ⟨_, _, log, congrFun (if_pos hlt) log, ⟨rfl, rfl, rfl⟩, .inl rfl⟩
  · exact absurd (hk.symm.trans hsimd) (by decide)
  · rw [hk] at hspent
    rw [hplace] at hw
    obtain ⟨early, refused, late, hslot⟩ := a.nextFpBits_spent (not_lt.mpr hspent) hlen log
    rw [hslot, slot_ok hw hlen.2, hnext]
    exact ⟨_, _, _, rfl, ⟨rfl, rfl, rfl⟩, .inr ⟨_, (GuestMem.word_some hw).2.1, rfl⟩⟩

theorem step_ok (a : Args) (c : Cursor) (k : Kind) (w : UInt64) (log : List (ℕ × ℕ)) (h : Agrees call m a c)
    (hw : call.contents m (c.place k) = some w) : ∃ a' log', a.next k log = .ok (k.arg w, a') log' ∧ Agrees call m a' (c.next k) := by
  cases k with
  | long =>
    obtain ⟨a', log', hnext, h'⟩ := nextU64_ok h rfl hw log
    exact ⟨a', log', bind_of_ok hnext _, h'⟩
  | int =>
    obtain ⟨a', log', hnext, h'⟩ := nextU64_ok h rfl hw log
    have hint : a.nextI32 log = .ok (w.toUInt32.toInt32, a') log' := bind_of_ok hnext _
    exact ⟨a', log', bind_of_ok hint _, h'⟩
  | double =>
    obtain ⟨bits, a', log', hnext, h', hbits⟩ := nextFpBits_ok h rfl (show 0 < 8 ∧ 8 ≤ 8 by decide) hw log
    have hdouble : a.nextF64 log = .ok (UInt64.ofNat bits.toNat, a') log' := bind_of_ok hnext _
    have hvalue : UInt64.ofNat bits.toNat = w := by
      rcases hbits with hbits | ⟨address, hw, rfl⟩
      · exact hbits.symm
      · rw [GuestMem.bits_at address (by decide), hw]
    refine ⟨a', log', (bind_of_ok hdouble _).trans ?_, h'⟩
    rw [hvalue]
    rfl
  | float =>
    obtain ⟨bits, a', log', hnext, h', hbits⟩ := nextFpBits_ok h rfl (show 0 < 4 ∧ 4 ≤ 8 by decide) hw log
    have hfloat : a.nextF32 log = .ok (UInt32.ofNat bits.toNat, a') log' := bind_of_ok hnext _
    have hvalue : UInt32.ofNat bits.toNat = w.toUInt32 := by
      rcases hbits with rfl | ⟨address, hw, rfl⟩
      · exact (UInt64.toUInt32_ofNat' ..).symm
      · rw [GuestMem.bits_at address (by decide), hw]
        exact GuestMem.low_half address
    refine ⟨a', log', (bind_of_ok hfloat _).trans ?_, h'⟩
    rw [hvalue]
    rfl

end Args

namespace VarArgs

structure Agrees (call : ArgSource) (m : GuestMem) (a : VarArgs) (c : Cursor) : Prop where
  call : a.call = call
  mem : a.mem = m
  cursor : (⟨a.ngrn, a.nsrn, a.overflow⟩ : Cursor) = c

variable {a : VarArgs}

theorem nextU64_ok (h : Agrees call m a c) (hk : k.simd = false) (hw : call.contents m (c.place k) = some w) (log : List (ℕ × ℕ)) :
    ∃ a' log', a.nextU64 log = .ok (w, a') log' ∧ Agrees call m a' (c.next k) := by
  obtain ⟨rfl, rfl, rfl⟩ := h
  rcases Cursor.takes _ k with ⟨hsimd, -⟩ | ⟨-, hlt, hplace, hnext⟩ | ⟨hspent, hplace, hnext⟩
  · exact absurd (hk.symm.trans hsimd) Bool.false_ne_true
  · rw [hplace] at hw
    obtain rfl := Option.some.inj hw
    rw [hnext, nextU64, ARG_REGISTERS]
    exact ⟨_, log, congrFun (if_pos hlt) log, ⟨rfl, rfl, rfl⟩⟩
  · rw [hk] at hspent
    rw [hplace] at hw
    obtain ⟨early, refused, late, hslot, -⟩ := a.next_spent log
    rw [hslot hspent, slot_ok hw le_rfl, hnext, (GuestMem.word_some hw).2.1]
    exact ⟨_, _, rfl, ⟨rfl, rfl, rfl⟩⟩

theorem nextF64_ok (h : Agrees call m a c) (hk : k.simd = true) (hw : call.contents m (c.place k) = some w) (log : List (ℕ × ℕ)) :
    ∃ a' log', a.nextF64 log = .ok (w, a') log' ∧ Agrees call m a' (c.next k) := by
  obtain ⟨rfl, rfl, rfl⟩ := h
  rcases Cursor.takes _ k with ⟨-, hlt, hplace, hnext⟩ | ⟨hsimd, -⟩ | ⟨hspent, hplace, hnext⟩
  · rw [hplace] at hw
    obtain rfl := Option.some.inj hw
    rw [hnext, nextF64, ARG_REGISTERS]
    exact ⟨_, log, congrFun (if_pos hlt) log, ⟨rfl, rfl, rfl⟩⟩
  · exact absurd (hk.symm.trans hsimd) (by decide)
  · rw [hk] at hspent
    rw [hplace] at hw
    obtain ⟨early, refused, late, -, hslot⟩ := a.next_spent log
    rw [hslot hspent, slot_ok hw le_rfl, hnext, (GuestMem.word_some hw).2.1]
    exact ⟨_, _, rfl, ⟨rfl, rfl, rfl⟩⟩

theorem step_ok (a : VarArgs) (c : Cursor) (k : Kind) (w : UInt64) (log : List (ℕ × ℕ)) (hk : k ≠ .float) (h : Agrees call m a c)
    (hw : call.contents m (c.place k) = some w) : ∃ a' log', a.next k log = .ok (k.arg w, a') log' ∧ Agrees call m a' (c.next k) := by
  cases k with
  | long =>
    obtain ⟨a', log', hnext, h'⟩ := nextU64_ok h rfl hw log
    exact ⟨a', log', bind_of_ok hnext _, h'⟩
  | int =>
    obtain ⟨a', log', hnext, h'⟩ := nextU64_ok h rfl hw log
    have hint : a.nextI32 log = .ok (w.toUInt32.toInt32, a') log' := bind_of_ok hnext _
    exact ⟨a', log', bind_of_ok hint _, h'⟩
  | double =>
    obtain ⟨a', log', hnext, h'⟩ := nextF64_ok h rfl hw log
    exact ⟨a', log', bind_of_ok hnext _, h'⟩
  | float => exact absurd rfl hk

end VarArgs

namespace GuestVaList

open VarArgs

/-- a list at a cursor: the offsets say how many registers are left, and these are in the save areas -/
structure Agrees (call : ArgSource) (m : GuestMem) (grTop vrTop : ℕ) (l : GuestVaList) (c : Cursor) : Prop where
  mem : l.mem = m
  stack : l.stack = c.nsaa
  top : l.grTop = grTop
  top' : l.vrTop = vrTop
  grOffs : l.grOffs = 8 * c.ngrn - 64
  vrOffs : l.vrOffs = 16 * c.nsrn - 128
  sound : c.Sound
  saved : Saved (call.contents m) m.word c grTop vrTop

variable {l : GuestVaList} {grTop vrTop : ℕ}

theorem offsetFrom_ok {top at_ : ℕ} {offs : ℤ} {bank : SaveBank} (h : (top : ℤ) + offs = at_) (hlt : at_ < 2 ^ 64) :
    l.offsetFrom top offs bank log = .ok at_ log := by
  rw [offsetFrom, h, if_pos ⟨by omega, by omega⟩]
  rfl

theorem nextU64_ok (h : Agrees call m grTop vrTop l c) (hk : k.simd = false) (hw : call.contents m (c.place k) = some w)
    (log : List (ℕ × ℕ)) : ∃ l' log', l.nextU64 log = .ok (w, l') log' ∧ Agrees call m grTop vrTop l' (c.next k) := by
  have hgr := h.grOffs
  have hvr := h.vrOffs
  have hsaved : Saved (call.contents m) m.word (c.next k) grTop vrTop := h.saved.after [k]
  have hsound := h.sound.next k
  rcases c.takes k with ⟨hsimd, -⟩ | ⟨-, hlt, hplace, hnext⟩ | ⟨hspent, hplace, hnext⟩
  · exact absurd (hk.symm.trans hsimd) Bool.false_ne_true
  · rw [hplace] at hw
    rw [hnext] at hsaved hsound ⊢
    obtain ⟨hle, hword⟩ := h.saved.gr c.ngrn le_rfl hlt
    have hread := hword.trans hw
    have hat : l.offsetFrom l.grTop l.grOffs .general log = .ok (grTop - 8 * (8 - c.ngrn)) log := by
      apply offsetFrom_ok
      · rw [h.top, hgr]
        omega
      · have := (GuestMem.word_some hread).2.2
        omega
    have hload := @GuestMem.readU64_ok m l.blame w log _ hread
    rw [nextU64, if_pos (by omega), bind_of_ok hat, h.mem, bind_of_ok hload]
    exact ⟨_, _, rfl, rfl, h.stack, h.top, h.top', by simp only [GR_SLOT, hgr]; omega, hvr, hsound, hsaved⟩
  · rw [hk] at hspent
    rw [hplace, ← h.stack] at hw
    rw [hnext] at hsaved hsound ⊢
    have hbank : 8 ≤ c.ngrn := hspent
    obtain ⟨early, refused, late, hslot, -⟩ := l.next_spent log
    rw [hslot (by omega), h.mem, slot_ok hw le_rfl, (GuestMem.word_some hw).2.1]
    exact ⟨_, _, rfl, rfl, by rw [h.stack], h.top, h.top', hgr, hvr, hsound, hsaved⟩

theorem nextF64_ok (h : Agrees call m grTop vrTop l c) (hk : k.simd = true) (hw : call.contents m (c.place k) = some w)
    (log : List (ℕ × ℕ)) : ∃ l' log', l.nextF64 log = .ok (w, l') log' ∧ Agrees call m grTop vrTop l' (c.next k) := by
  have hgr := h.grOffs
  have hvr := h.vrOffs
  have hsaved : Saved (call.contents m) m.word (c.next k) grTop vrTop := h.saved.after [k]
  have hsound := h.sound.next k
  rcases c.takes k with ⟨-, hlt, hplace, hnext⟩ | ⟨hsimd, -⟩ | ⟨hspent, hplace, hnext⟩
  · rw [hplace] at hw
    rw [hnext] at hsaved hsound ⊢
    obtain ⟨hle, hword⟩ := h.saved.vr c.nsrn le_rfl hlt
    have hread := hword.trans hw
    have hat : l.offsetFrom l.vrTop l.vrOffs .simd log = .ok (vrTop - 16 * (8 - c.nsrn)) log := by
      apply offsetFrom_ok
      · rw [h.top', hvr]
        omega
      · have := (GuestMem.word_some hread).2.2
        omega
    have hload := @GuestMem.readU64_ok m l.blame w log _ hread
    rw [nextF64, if_pos (by omega), bind_of_ok hat, h.mem, bind_of_ok hload]
    exact ⟨_, _, rfl, rfl, h.stack, h.top, h.top', hgr, by simp only [VR_SLOT, hvr]; omega, hsound, hsaved⟩
  · exact absurd (hk.symm.trans hsimd) (by decide)
  · rw [hk] at hspent
    rw [hplace, ← h.stack] at hw
    rw [hnext] at hsaved hsound ⊢
    have hbank : 8 ≤ c.nsrn := hspent
    obtain ⟨early, refused, late, -, hslot⟩ := l.next_spent log
    rw [hslot (by omega), h.mem, slot_ok hw le_rfl, (GuestMem.word_some hw).2.1]
    exact ⟨_, _, rfl, rfl, by rw [h.stack], h.top, h.top', hgr, hvr, hsound, hsaved⟩

theorem step_ok (l : GuestVaList) (c : Cursor) (k : Kind) (w : UInt64) (log : List (ℕ × ℕ)) (hk : k ≠ .float)
    (h : Agrees call m grTop vrTop l c) (hw : call.contents m (c.place k) = some w) :
    ∃ l' log', l.next k log = .ok (k.arg w, l') log' ∧ Agrees call m grTop vrTop l' (c.next k) := by
  cases k with
  | long =>
    obtain ⟨l', log', hnext, h'⟩ := nextU64_ok h rfl hw log
    exact ⟨l', log', bind_of_ok hnext _, h'⟩
  | int =>
    obtain ⟨l', log', hnext, h'⟩ := nextU64_ok h rfl hw log
    have hint : l.nextI32 log = .ok (w.toUInt32.toInt32, l') log' := bind_of_ok hnext _
    exact ⟨l', log', bind_of_ok hint _, h'⟩
  | double =>
    obtain ⟨l', log', hnext, h'⟩ := nextF64_ok h rfl hw log
    exact ⟨l', log', bind_of_ok hnext _, h'⟩
  | float => exact absurd rfl hk

/-- the record has the list's fields -/
structure Record (m : GuestMem) (at_ : ℕ) (l : VaList) : Prop where
  stack : (m.word at_).map UInt64.toNat = some l.stack
  grTop : (m.word (at_ + 8)).map UInt64.toNat = some l.grTop
  vrTop : (m.word (at_ + 16)).map UInt64.toNat = some l.vrTop
  grOffs : (m.int (at_ + 24)).map Int32.toInt = some l.grOffs
  vrOffs : (m.int (at_ + 28)).map Int32.toInt = some l.vrOffs

theorem read_record {at_ : ℕ} (h : Record m at_ (vaStart c grTop vrTop)) (hsound : c.Sound)
    (hsaved : Saved (call.contents m) m.word c grTop vrTop) :
    ∃ l log', read m at_ blame log = .ok l log' ∧ Agrees call m grTop vrTop l c := by
  obtain ⟨stack, hstack, hstack'⟩ := Option.map_eq_some_iff.mp h.stack
  obtain ⟨gr, hgr, hgr'⟩ := Option.map_eq_some_iff.mp h.grTop
  obtain ⟨vr, hvr, hvr'⟩ := Option.map_eq_some_iff.mp h.vrTop
  obtain ⟨go, hgo, hgo'⟩ := Option.map_eq_some_iff.mp h.grOffs
  obtain ⟨vo, hvo, hvo'⟩ := Option.map_eq_some_iff.mp h.vrOffs
  simp only [vaStart] at hstack' hgr' hvr' hgo' hvo'
  obtain ⟨hngrn, hnsrn, hnsaa⟩ := hsound
  have hfield : ∀ field ≤ 28, fieldAt at_ field = at_ + field := by
    intro field hle
    have := (@GuestMem.readI32_ok m blame log _ _ hvo).2
    exact Nat.mod_eq_of_lt (by omega)
  have hlow : ∀ {value : ℤ} {saveBytes : ℕ} {field : String} {log : List (ℕ × ℕ)}, -(saveBytes : ℤ) ≤ value → value ≤ 0 →
      checkOffset value saveBytes field at_ blame log = .ok () log := by
    intro value saveBytes field log hle hzero
    rw [checkOffset, if_neg (by omega)]
    rfl
  have hsave : (GR_SAVE_BYTES : ℤ) = 64 ∧ (VR_SAVE_BYTES : ℤ) = 128 := ⟨rfl, rfl⟩
  rw [read, show fieldAt at_ Field.STACK = at_ from hfield 0 (by decide), show fieldAt at_ Field.GR_TOP = at_ + 8 from hfield 8 (by decide),
    show fieldAt at_ Field.VR_TOP = at_ + 16 from hfield 16 (by decide),
    show fieldAt at_ Field.GR_OFFS = at_ + 24 from hfield 24 (by decide),
    show fieldAt at_ Field.VR_OFFS = at_ + 28 from hfield 28 (by decide)]
  rw [bind_of_ok (GuestMem.readU64_ok hstack), bind_of_ok (GuestMem.readU64_ok hgr), bind_of_ok (GuestMem.readU64_ok hvr),
    bind_of_ok (GuestMem.readI32_ok hgo).1, bind_of_ok (GuestMem.readI32_ok hvo).1, bind_of_ok (hlow (by omega) (by omega)),
    bind_of_ok (hlow (by omega) (by omega))]
  refine ⟨_, _, rfl, rfl, hstack', hgr', hvr', ?_, ?_, ⟨hngrn, hnsrn, hnsaa⟩, hsaved⟩
  · simp only
    omega
  · simp only
    omega

end GuestVaList

/-! ## Where reads are -/

/-- reads below the tops of the save areas, no further than these go, and up the stack, a slot after the other, none of them past
the address space: from one stack pointer to another -/
inductive Walks (gr vr : ℕ) : ℕ → List (ℕ × ℕ) → ℕ → Prop
  | nil (p : ℕ) : Walks gr vr p [] p
  | general {p a q : ℕ} {rest : List (ℕ × ℕ)} (hlow : gr ≤ a + 64) (htop : a < gr) (h : Walks gr vr p rest q) :
    Walks gr vr p ((a, 8) :: rest) q
  | simd {p a q : ℕ} {rest : List (ℕ × ℕ)} (hlow : vr ≤ a + 128) (htop : a < vr) (h : Walks gr vr p rest q) :
    Walks gr vr p ((a, 8) :: rest) q
  | stack {p len q : ℕ} {rest : List (ℕ × ℕ)} (hlen : len ≤ 8) (hin : roundUp p + 8 ≤ 2 ^ 64)
    (h : Walks gr vr (roundUp p + 8) rest q) : Walks gr vr p ((roundUp p, len) :: rest) q

variable {gr vr q : ℕ} {σ τ α β : Type}

theorem Walks.append {r : ℕ} {reads reads' : List (ℕ × ℕ)} (h : Walks gr vr p reads q) (h' : Walks gr vr q reads' r) :
    Walks gr vr p (reads ++ reads') r := by
  induction h with
  | nil => exact h'
  | general hlow htop _ ih => exact .general hlow htop (ih h')
  | simd hlow htop _ ih => exact .simd hlow htop (ih h')
  | stack hlen hin _ ih => exact .stack hlen hin (ih h')

/-- what was read -/
def reads : Result AbiError (List (ℕ × ℕ)) α → List (ℕ × ℕ)
  | .ok _ log => log
  | .error _ log => log

/-- however a reader ends, it walked on from `p`; a reader that goes on is where the walk ended, and as `ok` says -/
def Upward (gr vr : ℕ) (pointer : σ → ℕ) (ok : σ → Prop) (p : ℕ) (log : List (ℕ × ℕ)) : Result AbiError (List (ℕ × ℕ)) (α × σ) → Prop
  | .ok (_, s) log' => ok s ∧ ∃ new, log' = log ++ new ∧ Walks gr vr p new (pointer s)
  | .error _ log' => ∃ new q, log' = log ++ new ∧ Walks gr vr p new q

variable {pointer : σ → ℕ} {pointer' : τ → ℕ} {ok : σ → Prop} {ok' : τ → Prop}

theorem Upward.reads {r : Result AbiError (List (ℕ × ℕ)) (α × σ)} (h : Upward gr vr pointer ok p log r) :
    ∃ new q, Android.reads r = log ++ new ∧ Walks gr vr p new q := by
  cases r with
  | ok a log' =>
    obtain ⟨-, new, hlog, hw⟩ := h
    exact ⟨new, _, hlog, hw⟩
  | error e log' => exact h

theorem upward_pure {a : α} {s : σ} (h : ok s) (hp : pointer s = p) :
    Upward gr vr pointer ok p log ((pure (a, s) : Reads (α × σ)) log) :=
  ⟨h, [], (List.append_nil _).symm, hp ▸ .nil _⟩

/-- one reader after another -/
theorem upward_bind {x : Reads (α × σ)} {f : α × σ → Reads (β × τ)} (hx : Upward gr vr pointer ok p log (x log))
    (hf : ∀ a s log', ok s → Upward gr vr pointer' ok' (pointer s) log' (f (a, s) log')) :
    Upward gr vr pointer' ok' p log ((x >>= f) log) := by
  simp only [bind, EStateM.bind]
  cases hr : x log with
  | ok a log' =>
    rw [hr] at hx
    obtain ⟨hok, new, rfl, hw⟩ := hx
    obtain ⟨a, s⟩ := a
    have hnext := hf a s (log ++ new) hok
    simp only
    cases hr' : f (a, s) (log ++ new) with
    | ok b log'' =>
      rw [hr'] at hnext
      obtain ⟨hok', new', rfl, hw'⟩ := hnext
      exact ⟨hok', new ++ new', List.append_assoc .., hw.append hw'⟩
    | error e log'' =>
      rw [hr'] at hnext
      obtain ⟨new', q, rfl, hw'⟩ := hnext
      exact ⟨new ++ new', q, List.append_assoc .., hw.append hw'⟩
  | error e log' =>
    rw [hr] at hx
    exact hx

theorem slot_upward {early late : AbiError} {refused : Refusal → AbiError} {f : Bytes → ℕ → α × σ} (hlen : len ≤ 8)
    (hf : ∀ bytes q, ok (f bytes q).2 ∧ pointer (f bytes q).2 = q) :
    Upward gr vr pointer ok p log (slot m p len early refused late f log) := by
  rw [slot]
  split
  · exact ⟨[], p, (List.append_nil _).symm, .nil _⟩
  case isFalse hearly =>
    have hround := le_roundUp p
    have hmod := roundUp_mod p
    have hin : roundUp p + 8 ≤ 2 ^ 64 := by omega
    cases m.admission (roundUp p) len with
    | some refusal => exact ⟨[(roundUp p, len)], _, rfl, .stack hlen hin (.nil _)⟩
    | none =>
      simp only
      split
      · exact ⟨[(roundUp p, len)], _, rfl, .stack hlen hin (.nil _)⟩
      · obtain ⟨hok, hq⟩ := hf (m.at' (roundUp p) len) (roundUp p + 8)
        refine ⟨hok, [(roundUp p, len)], rfl, .stack hlen hin ?_⟩
        rw [hq]
        exact .nil _

theorem readAll_upward {next : σ → Kind → Reads (Arg × σ)}
    (hstep : ∀ s k log, ok s → Upward gr vr pointer ok (pointer s) log (next s k log)) {s : σ} (kinds : List Kind) (hs : ok s)
    (log : List (ℕ × ℕ)) : Upward gr vr pointer ok (pointer s) log (readAll next s kinds log) := by
  induction kinds generalizing s log with
  | nil => exact upward_pure hs rfl
  | cons k kinds ih =>
    apply upward_bind (hstep s k log hs)
    intro a s' log' hs'
    apply upward_bind (ih hs' log')
    intro as s'' log'' hs''
    exact upward_pure hs'' rfl

theorem Args.next_upward (a : Args) (k : Kind) (log : List (ℕ × ℕ)) :
    Upward gr vr Args.nsaa (fun _ => True) a.nsaa log (a.next k log) := by
  have hgeneral : ∀ log, Upward gr vr Args.nsaa (fun _ => True) a.nsaa log (a.nextU64 log) := by
    intro log
    by_cases h : a.ngrn < 8
    · rw [nextU64, ARG_REGISTERS, if_pos h]
      exact upward_pure trivial rfl
    · obtain ⟨early, refused, late, hslot⟩ := a.nextU64_spent h log
      rw [hslot]
      exact slot_upward le_rfl fun _ _ => ⟨trivial, rfl⟩
  have hsimd : ∀ len log, 0 < len ∧ len ≤ 8 → Upward gr vr Args.nsaa (fun _ => True) a.nsaa log (a.nextFpBits len log) := by
    intro len log hlen
    by_cases h : a.nsrn < 8
    · rw [nextFpBits, ARG_REGISTERS, if_pos h]
      exact upward_pure trivial rfl
    · obtain ⟨early, refused, late, hslot⟩ := a.nextFpBits_spent h hlen log
      rw [hslot]
      exact slot_upward hlen.2 fun _ _ => ⟨trivial, rfl⟩
  cases k with
  | long => exact upward_bind (hgeneral log) fun _ _ _ _ => upward_pure trivial rfl
  | int =>
    exact upward_bind (upward_bind (hgeneral log) fun _ _ _ _ => upward_pure trivial rfl) fun _ _ _ _ => upward_pure trivial rfl
  | double =>
    exact upward_bind (upward_bind (hsimd 8 log (by decide)) fun _ _ _ _ => upward_pure trivial rfl) fun _ _ _ _ =>
      upward_pure trivial rfl
  | float =>
    exact upward_bind (upward_bind (hsimd 4 log (by decide)) fun _ _ _ _ => upward_pure trivial rfl) fun _ _ _ _ =>
      upward_pure trivial rfl

theorem VarArgs.next_upward (a : VarArgs) (k : Kind) (log : List (ℕ × ℕ)) :
    Upward gr vr VarArgs.overflow (fun _ => True) a.overflow log (a.next k log) := by
  obtain ⟨early, refused, late, hgr, hvr⟩ := a.next_spent log
  have hgeneral : Upward gr vr VarArgs.overflow (fun _ => True) a.overflow log (a.nextU64 log) := by
    by_cases h : a.ngrn < 8
    · rw [nextU64, ARG_REGISTERS, if_pos h]
      exact upward_pure trivial rfl
    · rw [hgr (not_lt.mp h)]
      exact slot_upward le_rfl fun _ _ => ⟨trivial, rfl⟩
  have hsimd : Upward gr vr VarArgs.overflow (fun _ => True) a.overflow log (a.nextF64 log) := by
    by_cases h : a.nsrn < 8
    · rw [nextF64, ARG_REGISTERS, if_pos h]
      exact upward_pure trivial rfl
    · rw [hvr (not_lt.mp h)]
      exact slot_upward le_rfl fun _ _ => ⟨trivial, rfl⟩
  cases k with
  | long => exact upward_bind hgeneral fun _ _ _ _ => upward_pure trivial rfl
  | int =>
    exact upward_bind (upward_bind hgeneral fun _ _ _ _ => upward_pure trivial rfl) fun _ _ _ _ => upward_pure trivial rfl
  | double => exact upward_bind hsimd fun _ _ _ _ => upward_pure trivial rfl
  | float => exact upward_bind hsimd fun _ _ _ _ => upward_pure trivial rfl

namespace GuestVaList

open VarArgs

/-- the offsets reach no lower than the save areas do -/
structure Bounded (gr vr : ℕ) (l : GuestVaList) : Prop where
  grTop : l.grTop = gr
  vrTop : l.vrTop = vr
  grOffs : -64 ≤ l.grOffs
  vrOffs : -128 ≤ l.vrOffs

/-- a read in a save area, with the offset moved a slot -/
theorem save_upward {l l' : GuestVaList} {top : ℕ} {offs : ℤ} {bank : SaveBank} (hl : Bounded gr vr l') (hstack : l'.stack = l.stack)
    (harea : ∀ a : ℕ, (top : ℤ) + offs = a → ∀ rest q, Walks gr vr l.stack rest q → Walks gr vr l.stack ((a, 8) :: rest) q) :
    Upward gr vr GuestVaList.stack (Bounded gr vr) l.stack log
      ((do let at_ ← l.offsetFrom top offs bank; let value ← l.mem.readU64 at_ l.blame; pure (value, l') : Reads _) log) := by
  rw [offsetFrom]
  split
  case isTrue hin =>
    have hwalk := harea ((top : ℤ) + offs).toNat (Int.toNat_of_nonneg hin.1).symm [] l.stack (.nil _)
    simp only [bind, EStateM.bind, pure, EStateM.pure, GuestMem.readU64, GuestMem.readBytes]
    cases l.mem.admission ((top : ℤ) + offs).toNat 8 with
    | some refusal => exact ⟨_, _, rfl, hwalk⟩
    | none => exact ⟨hl, _, rfl, hstack ▸ hwalk⟩
  case isFalse => exact ⟨[], l.stack, (List.append_nil _).symm, .nil _⟩

theorem next_upward (l : GuestVaList) (k : Kind) (log : List (ℕ × ℕ)) (h : Bounded gr vr l) :
    Upward gr vr GuestVaList.stack (Bounded gr vr) l.stack log (l.next k log) := by
  obtain ⟨early, refused, late, hgr, hvr⟩ := l.next_spent log
  have hgrOffs := h.grOffs
  have hvrOffs := h.vrOffs
  have hgeneral : Upward gr vr GuestVaList.stack (Bounded gr vr) l.stack log (l.nextU64 log) := by
    by_cases hlt : l.grOffs < 0
    · rw [nextU64, if_pos hlt]
      refine save_upward ⟨h.grTop, h.vrTop, ?_, hvrOffs⟩ ?_ ?_
      · simp only [GR_SLOT]
        omega
      · rfl
      · intro a ha rest q hw
        have htop := h.grTop
        exact .general (by omega) (by omega) hw
    · rw [hgr (not_lt.mp hlt)]
      exact slot_upward le_rfl fun _ _ => ⟨⟨h.grTop, h.vrTop, hgrOffs, hvrOffs⟩, rfl⟩
  have hsimd : Upward gr vr GuestVaList.stack (Bounded gr vr) l.stack log (l.nextF64 log) := by
    by_cases hlt : l.vrOffs < 0
    · rw [nextF64, if_pos hlt]
      refine save_upward ⟨h.grTop, h.vrTop, hgrOffs, ?_⟩ ?_ ?_
      · simp only [VR_SLOT]
        omega
      · rfl
      · intro a ha rest q hw
        have htop := h.vrTop
        exact .simd (by omega) (by omega) hw
    · rw [hvr (not_lt.mp hlt)]
      exact slot_upward le_rfl fun _ _ => ⟨⟨h.grTop, h.vrTop, hgrOffs, hvrOffs⟩, rfl⟩
  cases k with
  | long => exact upward_bind hgeneral fun _ _ _ hl => upward_pure hl rfl
  | int =>
    exact upward_bind (upward_bind hgeneral fun _ _ _ hl => upward_pure hl rfl) fun _ _ _ hl => upward_pure hl rfl
  | double => exact upward_bind hsimd fun _ _ _ hl => upward_pure hl rfl
  | float => exact upward_bind hsimd fun _ _ _ hl => upward_pure hl rfl

theorem word_of_readU64 {address : ℕ} {log' : List (ℕ × ℕ)} (h : m.readU64 address blame log = .ok w log') : m.word address = some w := by
  obtain ⟨bytes, log₁, hbytes, h⟩ := bind_ok.mp h
  obtain ⟨rfl, -⟩ := pure_ok.mp h
  simp only [GuestMem.readBytes] at hbytes
  rw [GuestMem.word]
  cases hadmission : m.admission address 8 with
  | some refusal =>
    rw [hadmission] at hbytes
    cases hbytes
  | none =>
    rw [hadmission] at hbytes
    cases hbytes
    rfl

theorem checkOffset_ok {value : ℤ} {saveBytes at_ : ℕ} {field : String} {log' : List (ℕ × ℕ)}
    (h : checkOffset value saveBytes field at_ blame log = .ok () log') : -(saveBytes : ℤ) ≤ value := by
  rw [checkOffset] at h
  split at h
  · exact absurd h throw_ok
  · omega

/-- an accepted record: its words, and offsets that the areas allow -/
theorem read_ok {at_ : ℕ} {l : GuestVaList} {log' : List (ℕ × ℕ)} (hat : at_ < 2 ^ 64) (h : read m at_ blame log = .ok l log') :
    ((m.word at_).map UInt64.toNat = some l.stack ∧ (m.word (at_ + 8)).map UInt64.toNat = some l.grTop ∧
      (m.word (at_ + 16)).map UInt64.toNat = some l.vrTop) ∧ Bounded l.grTop l.vrTop l := by
  obtain ⟨stack, log₁, hstack, h⟩ := bind_ok.mp h
  obtain ⟨gr, log₂, hgr, h⟩ := bind_ok.mp h
  obtain ⟨vr, log₃, hvr, h⟩ := bind_ok.mp h
  obtain ⟨go, log₄, -, h⟩ := bind_ok.mp h
  obtain ⟨vo, log₅, -, h⟩ := bind_ok.mp h
  obtain ⟨_, log₆, hgo, h⟩ := bind_ok.mp h
  obtain ⟨_, log₇, hvo, h⟩ := bind_ok.mp h
  obtain ⟨rfl, -⟩ := pure_ok.mp h
  have hgo := checkOffset_ok hgo
  have hvo := checkOffset_ok hvo
  have hsave : (GR_SAVE_BYTES : ℤ) = 64 ∧ (VR_SAVE_BYTES : ℤ) = 128 := ⟨rfl, rfl⟩
  have hstack : m.word at_ = some stack := by
    rw [← word_of_readU64 hstack, fieldAt, Field.STACK, Nat.add_zero, Nat.mod_eq_of_lt hat]
  have hin := (GuestMem.word_some hstack).2.2
  have hgr : m.word (at_ + 8) = some gr := by
    rw [← word_of_readU64 hgr, fieldAt, Field.GR_TOP, Nat.mod_eq_of_lt hin]
  have hin' := (GuestMem.word_some hgr).2.2
  have hvr : m.word (at_ + 16) = some vr := by
    rw [← word_of_readU64 hvr, fieldAt, Field.VR_TOP, Nat.mod_eq_of_lt hin']
  refine ⟨⟨by rw [hstack]; rfl, by rw [hgr]; rfl, by rw [hvr]; rfl⟩, rfl, rfl, ?_, ?_⟩
  · simp only
    omega
  · simp only
    omega

end GuestVaList

/-- however the call's handler ends, its reads are on the walk from SP -/
theorem readCall_walks (call : ArgSource) (m : GuestMem) (blame : Blame) (named variadic : List Kind) :
    ∃ q, Walks 0 0 call.sp (reads (readCall call m blame named variadic [])) q := by
  have hargs : ∀ (a : Args) log, Upward 0 0 Args.nsaa (fun _ => True) a.nsaa log (readAll Args.next a named log) := fun a log =>
    readAll_upward (fun s k log _ => s.next_upward k log) named trivial log
  have hvarargs : ∀ (a : VarArgs) log, Upward 0 0 VarArgs.overflow (fun _ => True) a.overflow log (readAll VarArgs.next a variadic log) :=
    fun a log => readAll_upward (fun s k log _ => s.next_upward k log) variadic trivial log
  have hcall : Upward 0 0 VarArgs.overflow (fun _ => True) call.sp [] (readCall call m blame named variadic []) := by
    apply upward_bind (hargs (Args.new call m blame) [])
    intro names a log _
    apply upward_bind (hvarargs (VarArgs.new call m a.argumentBlame a.consumed a.overflow) log)
    intro rest b log' _
    exact upward_pure trivial rfl
  obtain ⟨new, q, hreads, hw⟩ := hcall.reads
  rw [hreads]
  exact ⟨q, hw⟩

/-- however a list's handler ends, its reads past the record are in the record's save areas and on the walk from its stack -/
theorem readList_walks (m : GuestMem) (blame : Blame) (at_ : ℕ) (hat : at_ < 2 ^ 64) (kinds : List Kind) :
    (∃ e log, GuestVaList.read m at_ blame [] = .error e log ∧ readList m at_ blame kinds [] = .error e log) ∨
    ∃ l log new q, GuestVaList.read m at_ blame [] = .ok l log ∧
      ((m.word at_).map UInt64.toNat = some l.stack ∧ (m.word (at_ + 8)).map UInt64.toNat = some l.grTop ∧
        (m.word (at_ + 16)).map UInt64.toNat = some l.vrTop) ∧
      reads (readList m at_ blame kinds []) = log ++ new ∧ Walks l.grTop l.vrTop l.stack new q := by
  cases hread : GuestVaList.read m at_ blame [] with
  | error e log => exact .inl ⟨e, log, rfl, bind_error.mpr (.inl hread)⟩
  | ok l log =>
    obtain ⟨hrecord, hbounded⟩ := GuestVaList.read_ok hat hread
    obtain ⟨new, q, hreads, hw⟩ := (readAll_upward (fun s k log hs => s.next_upward k log hs) kinds hbounded log).reads
    refine .inr ⟨l, log, new, q, rfl, hrecord, ?_, hw⟩
    rw [← hreads]
    exact congrArg reads (bind_of_ok hread _)

/-- a call whose arguments are laid out -/
theorem readCall_laid {named variadic : List Arg} (hpromoted : ∀ a ∈ variadic, a.kind ≠ .float)
    (h : Laid (call.contents m) (.start call.sp) (named ++ variadic)) :
    ∃ a log, readCall call m blame (named.map Arg.kind) (variadic.map Arg.kind) [] = .ok ((named, variadic), a) log := by
  obtain ⟨hnamed, hvariadic⟩ := laid_append.mp h
  have hstart : Args.Agrees call m (Args.new call m blame) (.start call.sp) := ⟨rfl, rfl, rfl⟩
  obtain ⟨a, log, hargs, ha⟩ := @readAll_laid _ _ _ _ _ (fun _ => True) (fun s c k w log _ hs hw => Args.step_ok s c k w log hs hw) _
    named (fun _ _ => trivial) hstart hnamed []
  have hgoes : VarArgs.Agrees call m (VarArgs.new call m a.argumentBlame a.consumed a.overflow)
      (Cursor.after (.start call.sp) (named.map Arg.kind)) := ⟨rfl, rfl, ha.cursor⟩
  obtain ⟨b, log', hvarargs, -⟩ := readAll_laid VarArgs.step_ok hpromoted hgoes hvariadic log
  refine ⟨b, log', ?_⟩
  rw [readCall, bind_of_ok hargs]
  simp only
  rw [bind_of_ok hvarargs]
  rfl

/-- the list of the same call's callee -/
theorem readList_laid {named taken rest : List Arg} {at_ grTop vrTop : ℕ} (hsp : call.sp % 16 = 0)
    (hpromoted : ∀ a ∈ rest, a.kind ≠ .float) (h : Laid (call.contents m) (.start call.sp) (named ++ (taken ++ rest)))
    (hstack : ∀ a, call.sp ≤ a → a + 8 ≤ (Cursor.after (.start call.sp) ((named ++ (taken ++ rest)).map Arg.kind)).nsaa →
      m'.word a = m.word a)
    (hsaved : Saved (call.contents m') m'.word (Cursor.after (.start call.sp) (named.map Arg.kind)) grTop vrTop)
    (hrecord : GuestVaList.Record m' at_
      ((taken.map Arg.kind).foldl VaList.vaArg (vaStart (Cursor.after (.start call.sp) (named.map Arg.kind)) grTop vrTop))) :
    ∃ l log, readList m' at_ blame (rest.map Arg.kind) [] = .ok (rest, l) log := by
  have hsound := (Cursor.start_sound hsp).after (named.map Arg.kind)
  have hlaid := @Laid.congr _ (call.contents m') _ _ h (fun _ => rfl) (fun _ => rfl) hstack
  obtain ⟨-, hvariadic⟩ := laid_append.mp hlaid
  obtain ⟨-, hrest⟩ := laid_append.mp hvariadic
  rw [vaArgs_vaStart hsound] at hrecord
  obtain ⟨l, log, hread, hl⟩ := @GuestVaList.read_record m' blame call _ [] grTop vrTop at_ hrecord (hsound.after _) (hsaved.after _)
  obtain ⟨l', log', hall, -⟩ := readAll_laid GuestVaList.step_ok hpromoted hl hrest log
  exact ⟨l', log', (bind_of_ok hread _).trans hall⟩

/-- **Arguments are found where the rules put them.** Of a call that is laid out for its arguments, the host reads these; of a list
that the call's callee made, when it had taken any number of them, the ones after these. Whatever the registers, the stack and the
record are, a read is refused, or it is on the way up from SP or the record's stack or at most a save area below the record's tops. -/
theorem arguments_found :
    (∀ (call : ArgSource) (m : GuestMem) (named variadic : List Arg), call.sp % 16 = 0 → (∀ a ∈ variadic, a.kind ≠ .float) →
      Laid (call.contents m) (.start call.sp) (named ++ variadic) →
        (∀ blame, ∃ a log,
          readCall call m blame (named.map Arg.kind) (variadic.map Arg.kind) [] = .ok ((named, variadic), a) log) ∧
        ∀ (m' : GuestMem) (at_ grTop vrTop : ℕ) (taken rest : List Arg), variadic = taken ++ rest →
          (∀ a, call.sp ≤ a → a + 8 ≤ (Cursor.after (.start call.sp) ((named ++ variadic).map Arg.kind)).nsaa →
            m'.word a = m.word a) →
          Saved (call.contents m') m'.word (Cursor.after (.start call.sp) (named.map Arg.kind)) grTop vrTop →
          GuestVaList.Record m' at_
            ((taken.map Arg.kind).foldl VaList.vaArg (vaStart (Cursor.after (.start call.sp) (named.map Arg.kind)) grTop vrTop)) →
          ∀ blame, ∃ l log, readList m' at_ blame (rest.map Arg.kind) [] = .ok (rest, l) log) ∧
    (∀ call m blame named variadic, ∃ q, Walks 0 0 call.sp (reads (readCall call m blame named variadic [])) q) ∧
    ∀ (m : GuestMem) blame at_, at_ < 2 ^ 64 → ∀ kinds,
      (∃ e log, GuestVaList.read m at_ blame [] = .error e log ∧ readList m at_ blame kinds [] = .error e log) ∨
      ∃ l log new q, GuestVaList.read m at_ blame [] = .ok l log ∧
        ((m.word at_).map UInt64.toNat = some l.stack ∧ (m.word (at_ + 8)).map UInt64.toNat = some l.grTop ∧
          (m.word (at_ + 16)).map UInt64.toNat = some l.vrTop) ∧
        reads (readList m at_ blame kinds []) = log ++ new ∧ Walks l.grTop l.vrTop l.stack new q := by
  refine ⟨?_, readCall_walks, readList_walks⟩
  intro call m named variadic hsp hpromoted hlaid
  refine ⟨fun blame => readCall_laid hpromoted hlaid, ?_⟩
  rintro m' at_ grTop vrTop taken rest rfl hstack hsaved hrecord blame
  exact readList_laid hsp (fun a ha => hpromoted a (List.mem_append_right _ ha)) hlaid hstack hsaved hrecord

theorem page_inside (a len : ℕ) (h : (if 4096 ≤ a ∧ a + len < 8192 then none else some Refusal.notMapped) = none) :
    a + len < 2 ^ 64 := by
  split at h
  · omega
  · cases h

theorem page_part (a len len' : ℕ) (h : (if 4096 ≤ a ∧ a + len < 8192 then none else some Refusal.notMapped) = none) (hle : len' ≤ len) :
    (if 4096 ≤ a ∧ a + len' < 8192 then none else some Refusal.notMapped) = none := by
  split at h
  · exact if_pos (by omega)
  · cases h

/-- a page: the save areas of a callee, one below the other's end, and its list at 4608 -/
def page : GuestMem where
  bytes a :=
    if 4288 ≤ a ∧ a < 4352 then if a % 8 = 0 then UInt8.ofNat ((a - 4288) / 8 + 1) else 0
    else if 4352 ≤ a ∧ a < 4480 then if a % 16 = 0 then 5 else 0
    else if 4608 ≤ a then
      ([0, 0x10, 0, 0, 0, 0, 0, 0, 0, 0x11, 0, 0, 0, 0, 0, 0, 0x80, 0x11, 0, 0, 0, 0, 0, 0,
        0xc8, 0xff, 0xff, 0xff, 0x90, 0xff, 0xff, 0xff] : Bytes).getD (a - 4608) 0
    else 0
  admission a len := if 4096 ≤ a ∧ a + len < 8192 then none else some .notMapped
  inside := page_inside
  part := page_part

/-- an `int` in `X0`, a `double` in `V0`, a `long` in `X1`; and the list when the `double` was taken -/
theorem arguments_found_page : (∃ a log, readCall ⟨fun n => UInt64.ofNat (n + 1), fun _ => 5, 4096⟩ page ⟨"vprintf", 0, 0⟩ [.int]
      [.double, .long] [] = .ok (([.int 1], [.double 5, .long 2]), a) log) ∧
    ∃ l log, readList page 4608 ⟨"vprintf", 0, 0⟩ [.long] [] = .ok ([.long 2], l) log := by
  have hlaid : Laid (ArgSource.contents ⟨fun n => UInt64.ofNat (n + 1), fun _ => 5, 4096⟩ page) (.start 4096)
      ([.int 1] ++ [.double 5, .long 2]) := ⟨⟨1, rfl, rfl⟩, ⟨5, rfl, rfl⟩, ⟨2, rfl, rfl⟩, trivial⟩
  obtain ⟨hcall, hlist⟩ := arguments_found.1 _ page [.int 1] [.double 5, .long 2] rfl (by decide) hlaid
  refine ⟨hcall _, hlist page 4608 4352 4480 [.double 5] [.long 2] rfl (fun _ _ _ => rfl) ⟨?_, ?_⟩ ⟨?_, ?_, ?_, ?_, ?_⟩ _⟩
  · intro n hn hlt
    have hn : 1 ≤ n := hn
    interval_cases n <;> decide
  · intro n hn hlt
    interval_cases n <;> decide
  · decide
  · decide
  · decide
  · decide
  · decide

end Omnidroid.Android
