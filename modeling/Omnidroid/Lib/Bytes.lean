/-
Byte strings, the slices read out of them and the patches written into them.

- `leNat`, `leBytes`: a little-endian number and its bytes; each undoes the other (`leNat_leBytes`).
- `get? b o n`: the `n` bytes at `o`, none when they do not all lie inside `b`.
- `patch b o bs`: `bs` written over the bytes at `o`.
A read sees a patch whole (`slice_patch_same`) or, where the two do not meet, not at all (`slice_patch_of_disjoint`);
nothing else about positions is used by what is built on these.
- `Holds b o c`: the bytes at `o` are `c`; a string in two parts is held in two (`holds_append`).
- `leNat_land`, `leNat_lor`, `leNat_shiftLeft`, `leNat_shiftRight`: what a word's bit operations do to its bytes.
-/
import Mathlib.Tactic

namespace Omnidroid

abbrev Bytes := List UInt8

namespace Bytes

/-- the number whose little-endian bytes these are -/
def leNat : Bytes → ℕ
  | [] => 0
  | b :: bs => b.toNat + 256 * leNat bs

/-- the low `w` bytes of `v`, little-endian -/
def leBytes : ℕ → ℕ → Bytes
  | 0, _ => []
  | w + 1, v => UInt8.ofNat (v % 256) :: leBytes w (v / 256)

@[simp] theorem length_leBytes (w v : ℕ) : (leBytes w v).length = w := by
  induction w generalizing v with
  | zero => rfl
  | succ w ih => simp [leBytes, ih]

theorem leNat_lt (bs : Bytes) : leNat bs < 256 ^ bs.length := by
  induction bs with
  | nil => simp [leNat]
  | cons b bs ih =>
    have hb := b.toNat_lt
    simp only [leNat, List.length_cons, pow_succ]
    omega

theorem leNat_leBytes (w v : ℕ) : leNat (leBytes w v) = v % 256 ^ w := by
  induction w generalizing v with
  | zero => simp [leBytes, leNat, Nat.mod_one]
  | succ w ih =>
    have hb : (UInt8.ofNat (v % 256)).toNat = v % 256 := by
      rw [UInt8.toNat_ofNat']; omega
    rw [leBytes, leNat, ih, hb, pow_succ, mul_comm (256 ^ w), Nat.mod_mul]

/-- the bytes from `o` on, `n` of them at most -/
def slice (b : Bytes) (o n : ℕ) : Bytes := (b.drop o).take n

/-- the `n` bytes at `o`, if `b` has them all -/
def get? (b : Bytes) (o n : ℕ) : Option Bytes := if o + n ≤ b.length then some (slice b o n) else none

/-- `bs` written over the bytes at `o` -/
def patch (b : Bytes) (o : ℕ) (bs : Bytes) : Bytes := b.take o ++ bs ++ b.drop (o + bs.length)

theorem length_slice {b : Bytes} {o n : ℕ} (h : o + n ≤ b.length) : (slice b o n).length = n := by
  simp [slice]; omega

theorem get?_eq_some {b : Bytes} {o n : ℕ} {c : Bytes} : get? b o n = some c ↔ o + n ≤ b.length ∧ slice b o n = c := by
  unfold get?; split_ifs with h <;> simp [h]

theorem getElem?_slice (b : Bytes) (o n i : ℕ) : (slice b o n)[i]? = if i < n then b[o + i]? else none := by
  simp [slice, List.getElem?_take, List.getElem?_drop]

/-- a slice of a slice -/
theorem slice_slice {b : Bytes} {o n p m : ℕ} (h : p + m ≤ n) : slice (slice b o n) p m = slice b (o + p) m := by
  apply List.ext_getElem?
  intro i
  simp only [getElem?_slice]
  split_ifs with h1 h2
  · rw [add_assoc]
  · omega
  · rfl

theorem length_patch {b : Bytes} {o : ℕ} {bs : Bytes} (h : o + bs.length ≤ b.length) :
    (patch b o bs).length = b.length := by
  simp [patch]; omega

theorem getElem?_patch {b : Bytes} {o : ℕ} {bs : Bytes} (h : o + bs.length ≤ b.length) (i : ℕ) :
    (patch b o bs)[i]? = if o ≤ i ∧ i < o + bs.length then bs[i - o]? else b[i]? := by
  have ho : (b.take o).length = o := by simp; omega
  unfold patch
  rw [List.append_assoc, List.getElem?_append, ho]
  split_ifs with h1 h2 h2
  · omega
  · simp [h1]
  · rw [List.getElem?_append_left (by omega)]
  · rw [List.getElem?_append_right (by omega), List.getElem?_drop]
    congr 1; omega

/-- a read at a patch sees the patch -/
theorem slice_patch_same {b : Bytes} {o : ℕ} {bs : Bytes} (h : o + bs.length ≤ b.length) :
    slice (patch b o bs) o bs.length = bs := by
  apply List.ext_getElem?
  intro i
  rw [getElem?_slice, getElem?_patch h]
  split_ifs with h1 h2
  · simp
  · omega
  · rw [List.getElem?_eq_none (by omega)]

/-- a read that a patch does not meet sees what was there -/
theorem slice_patch_of_disjoint {b : Bytes} {o p n : ℕ} {bs : Bytes} (h : o + bs.length ≤ b.length)
    (hd : p + n ≤ o ∨ o + bs.length ≤ p) : slice (patch b o bs) p n = slice b p n := by
  apply List.ext_getElem?
  intro i
  simp only [getElem?_slice, getElem?_patch h]
  split_ifs with h1 h2
  · omega
  · rfl
  · rfl

/-- `b` holds the bytes `c` at `o` -/
def Holds (b : Bytes) (o : ℕ) (c : Bytes) : Prop := get? b o c.length = some c

theorem slice_add (b : Bytes) (o n m : ℕ) : slice b o (n + m) = slice b o n ++ slice b (o + n) m := by
  rw [slice, slice, slice, List.take_add, List.drop_drop]

theorem holds_append {b : Bytes} {o : ℕ} {c d : Bytes} :
    Holds b o (c ++ d) ↔ Holds b o c ∧ Holds b (o + c.length) d := by
  unfold Holds
  simp only [get?_eq_some, List.length_append, slice_add]
  constructor
  · rintro ⟨hle, heq⟩
    have hc : (slice b o c.length).length = c.length := length_slice (by omega)
    obtain ⟨h1, h2⟩ := List.append_inj heq hc
    exact ⟨⟨by omega, h1⟩, by omega, h2⟩
  · rintro ⟨⟨-, h1⟩, hle, h2⟩
    exact ⟨by omega, by rw [h1, h2]⟩

theorem holds_self (b : Bytes) : Holds b 0 b := get?_eq_some.2 ⟨by omega, by simp [slice]⟩

theorem Holds.le {b : Bytes} {o : ℕ} {c : Bytes} (h : Holds b o c) : o + c.length ≤ b.length := (get?_eq_some.1 h).1

/-! ### Bit operations, a byte at a time -/

theorem leBytes_leNat (bs : Bytes) : leBytes bs.length (leNat bs) = bs := by
  induction bs with
  | nil => rfl
  | cons b bs ih =>
    have hb := b.toNat_lt
    have hlow : (b.toNat + 256 * leNat bs) % 256 = b.toNat := by omega
    have hhigh : (b.toNat + 256 * leNat bs) / 256 = leNat bs := by omega
    rw [List.length_cons, leBytes, leNat, hlow, hhigh, ih, UInt8.ofNat_toNat]

theorem land_add_mul {a b : ℕ} (ha : a < 256) (hb : b < 256) (x y : ℕ) :
    (a + 256 * x) &&& (b + 256 * y) = (a &&& b) + 256 * (x &&& y) := by
  have hab : a &&& b < 2 ^ 8 := lt_of_le_of_lt Nat.and_le_left ha
  refine Nat.eq_of_testBit_eq fun j => ?_
  rw [Nat.testBit_and, add_comm a, add_comm b, add_comm (a &&& b), Nat.testBit_two_pow_mul_add x (i := 8) ha j,
    Nat.testBit_two_pow_mul_add y (i := 8) hb j, Nat.testBit_two_pow_mul_add (x &&& y) hab j]
  split_ifs
  · rw [Nat.testBit_and]
  · rw [Nat.testBit_and]

theorem lor_add_mul {a b : ℕ} (ha : a < 256) (hb : b < 256) (x y : ℕ) :
    (a + 256 * x) ||| (b + 256 * y) = (a ||| b) + 256 * (x ||| y) := by
  have hab : a ||| b < 2 ^ 8 := Nat.or_lt_two_pow ha hb
  refine Nat.eq_of_testBit_eq fun j => ?_
  rw [Nat.testBit_or, add_comm a, add_comm b, add_comm (a ||| b), Nat.testBit_two_pow_mul_add x (i := 8) ha j,
    Nat.testBit_two_pow_mul_add y (i := 8) hb j, Nat.testBit_two_pow_mul_add (x ||| y) hab j]
  split_ifs
  · rw [Nat.testBit_or]
  · rw [Nat.testBit_or]

theorem leNat_land {as bs : Bytes} (h : as.length = bs.length) :
    leNat as &&& leNat bs = leNat (List.zipWith (· &&& ·) as bs) := by
  induction as generalizing bs with
  | nil => rw [List.length_eq_zero_iff.1 h.symm]; rfl
  | cons a as ih =>
    cases bs with
    | nil => cases h
    | cons b bs =>
      rw [List.zipWith_cons_cons, leNat, leNat, leNat, land_add_mul a.toNat_lt b.toNat_lt, ih (Nat.succ.inj h),
        UInt8.toNat_and]

theorem leNat_lor {as bs : Bytes} (h : as.length = bs.length) :
    leNat as ||| leNat bs = leNat (List.zipWith (· ||| ·) as bs) := by
  induction as generalizing bs with
  | nil => rw [List.length_eq_zero_iff.1 h.symm]; rfl
  | cons a as ih =>
    cases bs with
    | nil => cases h
    | cons b bs =>
      rw [List.zipWith_cons_cons, leNat, leNat, leNat, lor_add_mul a.toNat_lt b.toNat_lt, ih (Nat.succ.inj h),
        UInt8.toNat_or]

theorem leNat_shiftRight (a b : UInt8) (bs : Bytes) : leNat (a :: b :: bs) >>> 16 = leNat bs := by
  have ha := a.toNat_lt
  have hb := b.toNat_lt
  rw [Nat.shiftRight_eq_div_pow, leNat, leNat]
  omega

theorem leNat_shiftLeft (bs : Bytes) : leNat bs <<< 16 = leNat (0 :: 0 :: bs) := by
  rw [Nat.shiftLeft_eq, leNat, leNat]
  show leNat bs * 2 ^ 16 = 0 + 256 * (0 + 256 * leNat bs)
  omega

theorem leNat_append_zeros (bs : Bytes) (n : ℕ) : leNat (bs ++ List.replicate n 0) = leNat bs := by
  induction bs with
  | nil =>
    induction n with
    | zero => rfl
    | succ n ih =>
      show (0 : UInt8).toNat + 256 * leNat (List.replicate n 0) = 0
      rw [show leNat (List.replicate n 0) = 0 from ih]
      rfl
  | cons b bs ih => rw [List.cons_append, leNat, leNat, ih]

theorem leNat_eq_zero {bs : Bytes} : leNat bs = 0 ↔ ∀ b ∈ bs, b = 0 := by
  induction bs with
  | nil => exact iff_of_true rfl (fun _ h => absurd h List.not_mem_nil)
  | cons b bs ih =>
    rw [leNat, List.forall_mem_cons, ← ih, ← UInt8.toNat_inj]
    show b.toNat + 256 * leNat bs = 0 ↔ b.toNat = 0 ∧ leNat bs = 0
    omega

theorem leNat_inj {as bs : Bytes} (h : as.length = bs.length) (he : leNat as = leNat bs) : as = bs := by
  rw [← leBytes_leNat as, ← leBytes_leNat bs, he, h]

end Bytes

end Omnidroid
