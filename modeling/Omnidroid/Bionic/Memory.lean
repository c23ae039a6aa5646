/-
Guest memory as the bionic functions see it (`omni-bionic/src/memory.rs`): bytes, some mapped, and a fault where they are
not. A guest address is an address of the host process, so what is mapped lies in the lower half and not at null.
- `at'`, `put`, `exchange`: bytes read, written, and two pieces exchanged.
- `CString m addr s`: at `addr` the bytes `s`, none of them NUL, and a NUL.
-/
import Mathlib

namespace Omnidroid.Bionic

structure GuestMemory where
  bytes : ℕ → UInt8
  mapped : ℕ → Bool
  null : mapped 0 = false
  user : ∀ x, mapped x = true → x < 2 ^ 63

/-- one page -/
theorem page_null : decide (4096 ≤ 0 ∧ 0 < 8192) = false := rfl

theorem page_user (x : ℕ) (h : decide (4096 ≤ x ∧ x < 8192) = true) : x < 2 ^ 63 := by
  have := of_decide_eq_true h
  omega

inductive BionicError where
  | fault (addr : ℕ)
  | invalidArgument (why : String)
  /-- an addition or a product past 64 bits -/
  | overflow
deriving DecidableEq, Repr

namespace GuestMemory

variable {m m' : GuestMemory} {a b len n i : ℕ}

@[ext] theorem ext_bytes (hb : ∀ x, m.bytes x = m'.bytes x) (hm : m.mapped = m'.mapped) : m = m' := by
  obtain ⟨bytes, mapped, _, _⟩ := m
  obtain ⟨bytes', mapped', _, _⟩ := m'
  obtain rfl : bytes = bytes' := funext hb
  obtain rfl : mapped = mapped' := hm
  rfl

def at' (m : GuestMemory) (addr len : ℕ) : List UInt8 := (List.range len).map fun i => m.bytes (addr + i)

@[simp] theorem length_at : (m.at' a len).length = len := by simp [at']

theorem getD_at (hi : i < len) : (m.at' a len).getD i 0 = m.bytes (a + i) := by
  rw [at', List.getD_eq_getElem?_getD, List.getElem?_map, List.getElem?_range hi]
  rfl

def put (m : GuestMemory) (addr : ℕ) (buf : List UInt8) : GuestMemory :=
  { m with bytes := fun x => if addr ≤ x ∧ x < addr + buf.length then buf.getD (x - addr) 0 else m.bytes x }

/-- two pieces of memory, each where the other was -/
def exchange (m : GuestMemory) (a b len : ℕ) : GuestMemory :=
  { m with
    bytes := fun x =>
      if a ≤ x ∧ x < a + len then m.bytes (b + (x - a))
      else if b ≤ x ∧ x < b + len then m.bytes (a + (x - b))
      else m.bytes x }

/-- the two reads and the two writes of a piece -/
theorem put_put (hab : a + len ≤ b ∨ b + len ≤ a) :
    (m.put a (m.at' b len)).put b (m.at' a len) = m.exchange a b len := by
  refine ext_bytes (fun x => ?_) rfl
  simp only [put, exchange, length_at]
  rcases em (b ≤ x ∧ x < b + len) with hb | hb
  · rw [if_pos hb, if_neg (by omega), if_pos hb, getD_at (by omega)]
  · rw [if_neg hb]
    rcases em (a ≤ x ∧ x < a + len) with ha | ha
    · rw [if_pos ha, if_pos ha, getD_at (by omega)]
    · rw [if_neg ha, if_neg ha, if_neg hb]

/-- a piece exchanged, and then the rest -/
theorem exchange_exchange (hab : a + (len + n) ≤ b ∨ b + (len + n) ≤ a) :
    (m.exchange a b len).exchange (a + len) (b + len) n = m.exchange a b (len + n) := by
  refine ext_bytes (fun x => ?_) rfl
  simp only [exchange]
  rcases em (a + len ≤ x ∧ x < a + len + n) with h₁ | h₁
  · rw [if_pos h₁, if_pos (show a ≤ x ∧ x < a + (len + n) by omega), if_neg (by omega), if_neg (by omega)]
    congr 1
    omega
  · rw [if_neg h₁]
    rcases em (b + len ≤ x ∧ x < b + len + n) with h₂ | h₂
    · rw [if_pos h₂, if_neg (by omega), if_neg (by omega), if_neg (by omega),
        if_pos (show b ≤ x ∧ x < b + (len + n) by omega)]
      congr 1
      omega
    · rw [if_neg h₂]
      rcases em (a ≤ x ∧ x < a + len) with h₃ | h₃
      · rw [if_pos h₃, if_pos (show a ≤ x ∧ x < a + (len + n) by omega)]
      · rw [if_neg h₃, if_neg (show ¬(a ≤ x ∧ x < a + (len + n)) by omega)]
        rcases em (b ≤ x ∧ x < b + len) with h₄ | h₄
        · rw [if_pos h₄, if_pos (show b ≤ x ∧ x < b + (len + n) by omega)]
        · rw [if_neg h₄, if_neg (show ¬(b ≤ x ∧ x < b + (len + n)) by omega)]

theorem exchange_zero : m.exchange a b 0 = m := by
  refine ext_bytes (fun x => ?_) rfl
  simp only [exchange]
  rw [if_neg (by omega), if_neg (by omega)]

/-! ## Strings -/

/-- one byte -/
def peek (m : GuestMemory) (addr : ℕ) : Except ℕ UInt8 := if m.mapped addr then .ok (m.bytes addr) else .error addr

structure CString (m : GuestMemory) (addr : ℕ) (s : List UInt8) : Prop where
  mapped : ∀ i, i ≤ s.length → m.mapped (addr + i) = true
  bytes : ∀ i, i ≤ s.length → m.bytes (addr + i) = s.getD i 0
  text : ∀ b ∈ s, b ≠ 0

theorem CString.peek {addr : ℕ} {s : List UInt8} (h : CString m addr s) (hi : i ≤ s.length) :
    m.peek (addr + i) = .ok (s.getD i 0) := by
  rw [GuestMemory.peek, if_pos (h.mapped i hi), h.bytes i hi]

theorem peek_lt {addr : ℕ} {b : UInt8} (h : m.peek addr = .ok b) : addr < 2 ^ 63 := by
  unfold peek at h
  split at h
  · exact m.user addr ‹_›
  · cases h

theorem CString.nil {addr : ℕ} (h : CString m addr []) : m.peek addr = .ok 0 := h.peek (i := 0) (le_refl _)

theorem CString.cons {addr : ℕ} {b : UInt8} {s : List UInt8} (h : CString m addr (b :: s)) :
    m.peek addr = .ok b ∧ CString m (addr + 1) s := by
  refine ⟨h.peek (i := 0) (Nat.zero_le _), fun i hi => ?_, fun i hi => ?_, fun c hc => h.text c (List.mem_cons_of_mem _ hc)⟩
  · rw [Nat.add_assoc, Nat.add_comm 1]
    exact h.mapped (i + 1) (Nat.succ_le_succ hi)
  · rw [Nat.add_assoc, Nat.add_comm 1]
    exact h.bytes (i + 1) (Nat.succ_le_succ hi)

theorem CString.drop {addr : ℕ} {s t : List UInt8} (h : CString m addr (t ++ s)) : CString m (addr + t.length) s := by
  induction t generalizing addr with
  | nil => exact h
  | cons b t ih =>
    rw [List.length_cons, Nat.add_comm t.length, ← Nat.add_assoc]
    exact ih h.cons.2

/-- the byte there, or the NUL -/
theorem CString.head {addr : ℕ} {s : List UInt8} (h : CString m addr s) : m.peek addr = .ok (s.headD 0) := by
  cases s with
  | nil => exact h.nil
  | cons b s => exact h.cons.1

theorem CString.ne_zero {addr : ℕ} {s : List UInt8} (h : CString m addr s) : addr ≠ 0 := by
  rintro rfl
  have := h.mapped 0 (Nat.zero_le _)
  rw [Nat.zero_add, m.null] at this
  cases this

end GuestMemory

end Omnidroid.Bionic
