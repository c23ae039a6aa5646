/-
Text as its UTF-8 bytes: white space, and digits in hexadecimal.

- `whitespace`: the bytes of each character that is white space; `trim` strips them from both ends.
- `hex`: two lower-case digits a byte; `parsePairs` reads it back (`parsePairs_hex`), taking either case.
-/
import Omnidroid.Lib.Bytes

namespace Omnidroid.Text

open Bytes

/-- the UTF-8 of each character that is white space -/
def whitespace : List Bytes :=
  [[9], [10], [11], [12], [13], [32], [0xc2, 0x85], [0xc2, 0xa0], [0xe1, 0x9a, 0x80], [0xe2, 0x80, 0xa8], [0xe2, 0x80, 0xa9],
    [0xe2, 0x80, 0xaf], [0xe2, 0x81, 0x9f], [0xe3, 0x80, 0x80]] ++
    (List.range 11).map fun i => [0xe2, 0x80, UInt8.ofNat (0x80 + i)]

/-- `ws` stripped from the front, `fuel` of them at most -/
def strip (ws : List Bytes) : (fuel : ℕ) → Bytes → Bytes
  | 0, b => b
  | fuel + 1, b =>
    match ws.find? (·.isPrefixOf b) with
    | some w => strip ws fuel (b.drop w.length)
    | none => b

def trim (b : Bytes) : Bytes :=
  let b := strip whitespace b.length b
  (strip (whitespace.map List.reverse) b.length b.reverse).reverse

def hexDigit (n : ℕ) : UInt8 := UInt8.ofNat (if n < 10 then 48 + n else 87 + n)

def hex (b : Bytes) : Bytes := b.flatMap fun x => [hexDigit (x.toNat / 16), hexDigit (x.toNat % 16)]

/-- `to_digit(16)` -/
def digit (c : UInt8) : Option ℕ :=
  if 48 ≤ c ∧ c ≤ 57 then some (c.toNat - 48)
  else if 97 ≤ c ∧ c ≤ 102 then some (c.toNat - 87)
  else if 65 ≤ c ∧ c ≤ 70 then some (c.toNat - 55)
  else none

def parsePairs : Bytes → Option Bytes
  | [] => some []
  | [_] => none
  | h :: l :: rest => do
    let high ← digit h
    let low ← digit l
    let bs ← parsePairs rest
    some (UInt8.ofNat (high * 16 + low) :: bs)

theorem digit_hexDigit {n : ℕ} (h : n < 16) : digit (hexDigit n) = some n := by
  interval_cases n <;> decide

theorem parsePairs_hex (b : Bytes) : parsePairs (hex b) = some b := by
  induction b with
  | nil => rfl
  | cons x b ih =>
    have hx := x.toNat_lt
    have hbyte : UInt8.ofNat (x.toNat / 16 * 16 + x.toNat % 16) = x := by
      rw [Nat.div_add_mod']
      exact UInt8.ofNat_toNat
    change parsePairs (hexDigit (x.toNat / 16) :: hexDigit (x.toNat % 16) :: hex b) = _
    rw [parsePairs, digit_hexDigit (by omega), digit_hexDigit (by omega), ih]
    change some (UInt8.ofNat (x.toNat / 16 * 16 + x.toNat % 16) :: b) = _
    rw [hbyte]

@[simp] theorem length_hex (b : Bytes) : (hex b).length = 2 * b.length := by
  induction b with
  | nil => rfl
  | cons x b ih =>
    change (hex b).length + 1 + 1 = 2 * (b.length + 1)
    rw [ih]
    omega

/-- digits, and nothing that white space begins or ends with -/
def isDigit (c : UInt8) : Bool := (digit c).isSome

theorem hex_digits (b : Bytes) : ∀ c ∈ hex b, isDigit c = true := by
  intro c hc
  obtain ⟨x, -, hx⟩ := List.mem_flatMap.mp hc
  have hlt := x.toNat_lt
  simp only [List.mem_cons, List.not_mem_nil, or_false] at hx
  unfold isDigit
  rcases hx with rfl | rfl
  · rw [digit_hexDigit (by omega)]
    rfl
  · rw [digit_hexDigit (by omega)]
    rfl

/-- no digit begins one of them -/
def blank (ws : List Bytes) : Bool := ws.all fun w => match w with | [] => false | c :: _ => !isDigit c

theorem blank_starts {ws : List Bytes} (h : blank ws = true) : ∀ w ∈ ws, ∃ c rest, w = c :: rest ∧ isDigit c = false := by
  intro w hw
  have := List.all_eq_true.mp h w hw
  cases w with
  | nil => cases this
  | cons c rest => exact ⟨c, rest, rfl, by simpa using this⟩

theorem strip_of_digit {ws : List Bytes} (hws : blank ws = true) {b : Bytes} (hb : ∀ c ∈ b.head?, isDigit c = true) (hne : b ≠ []) (fuel : ℕ) : strip ws fuel b = b := by
  cases fuel with
  | zero => rfl
  | succ fuel =>
    have hnone : ws.find? (·.isPrefixOf b) = none := by
      rw [List.find?_eq_none]
      intro w hw hp
      obtain ⟨c, rest, rfl, hc⟩ := blank_starts hws w hw
      obtain ⟨d, b, rfl⟩ := List.exists_cons_of_ne_nil hne
      have hd := hb d rfl
      rw [List.isPrefixOf_iff_prefix, List.cons_prefix_cons] at hp
      rw [← hp.1, hc] at hd
      cases hd
    rw [strip, hnone]

theorem whitespace_front : blank whitespace = true := by decide

theorem whitespace_back : blank (whitespace.map List.reverse) = true := by decide

/-- digits and the end of a line: the digits are left -/
theorem trim_line {b : Bytes} (hb : ∀ c ∈ b, isDigit c = true) (hne : b ≠ []) : trim (b ++ [10]) = b := by
  have hfront : strip whitespace (b ++ [10]).length (b ++ [10]) = b ++ [10] := by
    refine strip_of_digit whitespace_front ?_ (by simp) _
    intro c hc
    obtain ⟨d, rest, rfl⟩ := List.exists_cons_of_ne_nil hne
    have hd : d = c := Option.some.inj hc
    subst hd
    exact hb d List.mem_cons_self
  have hback : strip (whitespace.map List.reverse) (b ++ [10]).length (b ++ [10]).reverse = b.reverse := by
    have hlen : (b ++ [10]).length = b.length + 1 := List.length_append
    rw [List.reverse_append, hlen]
    change strip (whitespace.map List.reverse) (b.length + 1) (10 :: b.reverse) = _
    have hfind : (whitespace.map List.reverse).find? (·.isPrefixOf (10 :: b.reverse)) = some [10] := by
      rfl
    rw [strip, hfind]
    refine strip_of_digit whitespace_back ?_ (by simpa using hne) _
    intro c hc
    exact hb c (List.mem_reverse.mp (List.mem_of_mem_head? hc))
  unfold trim
  simp only [hfront, hback, List.reverse_reverse]

end Omnidroid.Text
