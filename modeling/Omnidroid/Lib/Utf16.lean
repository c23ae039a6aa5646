/-
UTF-16: the units of a text, and the text of any units, each surrogate without its partner made U+FFFD.
- `strict`: no text where there is such a surrogate.
- `decode_encode`: the text comes back.
- `length_encode_decode`: a text read from `n` units takes `n` units again, whatever they were.
-/
import Mathlib.Tactic

namespace Omnidroid.Utf16

abbrev Unit16 := BitVec 16

def encodeChar (c : Char) : List Unit16 :=
  if c.toNat < 0x10000 then [BitVec.ofNat 16 c.toNat]
  else [BitVec.ofNat 16 (0xD800 + (c.toNat - 0x10000) / 0x400), BitVec.ofNat 16 (0xDC00 + (c.toNat - 0x10000) % 0x400)]

def encode (s : List Char) : List Unit16 := s.flatMap encodeChar

def isHigh (u : Unit16) : Bool := 0xD800 ≤ u.toNat && u.toNat < 0xDC00
def isLow (u : Unit16) : Bool := 0xDC00 ≤ u.toNat && u.toNat < 0xE000

/-- a unit by itself -/
def one (u : Unit16) : Char := if isHigh u || isLow u then Char.ofNat 0xFFFD else Char.ofNat u.toNat

def pair (u v : Unit16) : Char := Char.ofNat (0x10000 + (u.toNat - 0xD800) * 0x400 + (v.toNat - 0xDC00))

/-- `from_utf16_lossy` -/
def decode : List Unit16 → List Char
  | [] => []
  | [u] => [one u]
  | u :: v :: us => if isHigh u && isLow v then pair u v :: decode us else one u :: decode (v :: us)

/-- `from_utf16` -/
def strict : List Unit16 → Option (List Char)
  | [] => some []
  | [u] => if isHigh u || isLow u then none else some [one u]
  | u :: v :: us =>
    if isHigh u && isLow v then (strict us).map (pair u v :: ·)
    else if isHigh u || isLow u then none
    else (strict (v :: us)).map (one u :: ·)

theorem toNat_ofNat {n : ℕ} (h : n < 0xD800 ∨ 0xDFFF < n ∧ n < 0x110000) : (Char.ofNat n).toNat = n := by
  rw [Char.ofNat, dif_pos h]
  rfl

/-- a unit that is no first half stands for itself -/
theorem decode_cons {u : Unit16} (h : isHigh u = false) (us : List Unit16) : decode (u :: us) = one u :: decode us := by
  cases us with
  | nil => rfl
  | cons v us => rw [decode, h, Bool.false_and, if_neg Bool.false_ne_true]

theorem toNat_cases (c : Char) : c.toNat < 0xD800 ∨ 0xDFFF < c.toNat ∧ c.toNat < 0x110000 := c.valid

theorem decode_encodeChar (c : Char) (us : List Unit16) : decode (encodeChar c ++ us) = c :: decode us := by
  have hc := toNat_cases c
  have back : ∀ n, n = c.toNat → Char.ofNat n = c := fun n hn => by rw [hn, Char.ofNat_toNat]
  unfold encodeChar
  split_ifs with h
  · have hu : (BitVec.ofNat 16 c.toNat).toNat = c.toNat := by rw [BitVec.toNat_ofNat]; omega
    have hh : isHigh (BitVec.ofNat 16 c.toNat) = false := by
      simp only [isHigh, hu, Bool.and_eq_false_iff, decide_eq_false_iff_not]; omega
    have hl : isLow (BitVec.ofNat 16 c.toNat) = false := by
      simp only [isLow, hu, Bool.and_eq_false_iff, decide_eq_false_iff_not]; omega
    rw [List.singleton_append, decode_cons hh, one, hh, hl, hu, Bool.or_false, if_neg Bool.false_ne_true, back _ rfl]
  · have hu : (BitVec.ofNat 16 (0xD800 + (c.toNat - 0x10000) / 0x400)).toNat = 0xD800 + (c.toNat - 0x10000) / 0x400 := by
      rw [BitVec.toNat_ofNat]; omega
    have hv : (BitVec.ofNat 16 (0xDC00 + (c.toNat - 0x10000) % 0x400)).toNat = 0xDC00 + (c.toNat - 0x10000) % 0x400 := by
      rw [BitVec.toNat_ofNat]; omega
    have hh : isHigh (BitVec.ofNat 16 (0xD800 + (c.toNat - 0x10000) / 0x400)) = true := by
      simp only [isHigh, hu, Bool.and_eq_true, decide_eq_true_eq]; omega
    have hl : isLow (BitVec.ofNat 16 (0xDC00 + (c.toNat - 0x10000) % 0x400)) = true := by
      simp only [isLow, hv, Bool.and_eq_true, decide_eq_true_eq]; omega
    rw [List.cons_append, List.singleton_append, decode, hh, hl, Bool.and_true, if_pos rfl, pair, hu, hv,
      back _ (by omega)]

theorem decode_encode (s : List Char) : decode (encode s) = s := by
  induction s with
  | nil => rfl
  | cons c s ih => rw [encode, List.flatMap_cons, decode_encodeChar, ← encode, ih]

theorem length_encodeChar_one (u : Unit16) : (encodeChar (one u)).length = 1 := by
  have hu := u.isLt
  have h : (one u).toNat < 0x10000 := by
    unfold one
    split_ifs with hs
    · rw [toNat_ofNat (by omega)]; omega
    · simp only [isHigh, isLow, Bool.or_eq_true, Bool.and_eq_true, decide_eq_true_eq] at hs
      rw [toNat_ofNat (by omega)]; omega
  rw [encodeChar, if_pos h]
  rfl

theorem length_encodeChar_pair {u v : Unit16} (hu : isHigh u = true) (hv : isLow v = true) :
    (encodeChar (pair u v)).length = 2 := by
  simp only [isHigh, isLow, Bool.and_eq_true, decide_eq_true_eq] at hu hv
  rw [encodeChar, if_neg]
  · rfl
  · rw [pair, toNat_ofNat (by omega)]; omega

theorem length_encode_decode (us : List Unit16) : (encode (decode us)).length = us.length := by
  induction us using decode.induct with
  | case1 => rfl
  | case2 u => simp [decode, encode, length_encodeChar_one]
  | case3 u v us h ih =>
    simp only [Bool.and_eq_true] at h
    rw [decode, h.1, h.2, Bool.and_true, if_pos rfl, encode, List.flatMap_cons, List.length_append,
      length_encodeChar_pair h.1 h.2, ← encode, ih]
    simp only [List.length_cons]
    omega
  | case4 u v us h ih =>
    rw [decode, if_neg h, encode, List.flatMap_cons, List.length_append, length_encodeChar_one, ← encode, ih]
    simp only [List.length_cons]
    omega

end Omnidroid.Utf16
