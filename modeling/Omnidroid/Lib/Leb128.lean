/-
Signed LEB128: a number in groups of seven bits, the lowest first, one to a byte; every byte but the last has its high bit
set, and bit 6 of the last has the sign.
- `read`: the number at the start of a byte string, and the bytes after it (`read_shortens`).
- `or_shift`: the step a 64-bit accumulator takes, as a sum.
-/
import Mathlib.Data.Nat.Bitwise
import Omnidroid.Lib.Bytes

namespace Omnidroid.Leb128

/-- the number at the start, and the bytes after it; none when they end inside it -/
def read : Bytes → Option (ℤ × Bytes)
  | [] => none
  | b :: bs =>
    if b.toNat < 128 then some ((b.toNat : ℤ) - (if 64 ≤ b.toNat then 128 else 0), bs)
    else
      match read bs with
      | none => none
      | some (v, rest) => some ((b.toNat - 128 : ℕ) + 128 * v, rest)

theorem read_append {bs rest : Bytes} {v : ℤ} (h : read bs = some (v, rest)) : ∃ g, g ≠ [] ∧ bs = g ++ rest := by
  induction bs generalizing v rest with
  | nil => cases h
  | cons b bs ih =>
    simp only [read] at h
    split at h
    · cases h
      exact ⟨[b], by simp, rfl⟩
    · split at h
      · cases h
      case _ hr =>
        cases h
        obtain ⟨g, -, rfl⟩ := ih hr
        exact ⟨b :: g, by simp, rfl⟩

theorem read_shortens {bs rest : Bytes} {v : ℤ} (h : read bs = some (v, rest)) : rest.length < bs.length := by
  obtain ⟨g, hg, rfl⟩ := read_append h
  have := List.length_pos_of_ne_nil hg
  rw [List.length_append]
  omega

/-! ## A 64-bit accumulator -/

theorem and_low7 (b : UInt8) : (b &&& 0x7f).toNat = b.toNat % 128 := by
  rw [UInt8.toNat_and]
  exact Nat.and_two_pow_sub_one_eq_mod b.toNat 7

/-- a bit on its own: it is there or the result is zero -/
theorem and_two_pow {n i : ℕ} : n &&& 2 ^ i = 0 ↔ n / 2 ^ i % 2 = 0 := by
  rw [Nat.and_two_pow, Nat.testBit_eq_decide_div_mod_eq, Nat.mul_eq_zero, Bool.toNat_eq_zero, decide_eq_false_iff_not]
  have := Nat.two_pow_pos i
  omega

theorem and_high (b : UInt8) : b &&& 0x80 = 0 ↔ b.toNat < 128 := by
  have := b.toNat_lt
  rw [← UInt8.toNat_inj, UInt8.toNat_and]
  refine (and_two_pow (i := 7)).trans ?_
  omega

theorem and_sign (b : UInt8) : b &&& 0x40 ≠ 0 ↔ 64 ≤ b.toNat % 128 := by
  have := b.toNat_lt
  rw [Ne, ← UInt8.toNat_inj, UInt8.toNat_and]
  refine (and_two_pow (i := 6)).not.trans ?_
  omega

/-- seven more bits above those there are; the ones past 64 are dropped -/
theorem or_shift {acc d : UInt64} {s : ℕ} (hs : s < 64) (hacc : acc.toNat < 2 ^ s) :
    (acc ||| d <<< UInt64.ofNat s).toNat = (acc.toNat + 2 ^ s * d.toNat) % 2 ^ 64 := by
  have hshift : (d <<< UInt64.ofNat s).toNat = 2 ^ s * (d.toNat % 2 ^ (64 - s)) := by
    rw [UInt64.toNat_shiftLeft, UInt64.toNat_ofNat', Nat.mod_eq_of_lt (show s < 2 ^ 64 by omega), Nat.mod_eq_of_lt hs,
      Nat.shiftLeft_eq, Nat.mul_comm]
    rw [← Nat.mul_mod_mul_left, ← Nat.pow_add, Nat.add_sub_cancel' hs.le]
  have hbits : 2 ^ s * (d.toNat % 2 ^ (64 - s)) = 2 ^ s * d.toNat % 2 ^ 64 := by
    rw [← Nat.mul_mod_mul_left, ← Nat.pow_add, Nat.add_sub_cancel' hs.le]
  have hroom : acc.toNat + 2 ^ s * (d.toNat % 2 ^ (64 - s)) < 2 ^ 64 := by
    have hd : d.toNat % 2 ^ (64 - s) + 1 ≤ 2 ^ (64 - s) := Nat.mod_lt _ (Nat.two_pow_pos _)
    calc acc.toNat + 2 ^ s * (d.toNat % 2 ^ (64 - s))
      _ < 2 ^ s * (d.toNat % 2 ^ (64 - s) + 1) := by
        rw [Nat.mul_add, Nat.mul_one]
        omega
      _ ≤ 2 ^ s * 2 ^ (64 - s) := Nat.mul_le_mul_left _ hd
      _ = 2 ^ 64 := by rw [← Nat.pow_add, Nat.add_sub_cancel' hs.le]
  rw [UInt64.toNat_or, hshift, Nat.or_comm, ← Nat.two_pow_add_eq_or_of_lt hacc, Nat.add_comm, ← Nat.mod_eq_of_lt hroom,
    hbits, Nat.add_mod_mod]

end Omnidroid.Leb128
