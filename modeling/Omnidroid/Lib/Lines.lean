/-
Text files of records: a line a record, fields with a byte between them, numbers in some base.

- `lines`: a text's lines, each without its end; the last need not have one. `lines_line`: a line, then the others.
- `List.splitOn` takes a line apart at a byte; fields without that byte come back (`List.splitOn_intercalate`).
- `numeral`, `parseBelow`: a number's digits, and what a number of some width is parsed from; `parseBelow_numeral`.
- `utf8`: whether bytes are UTF-8, as all text is.
-/
import Omnidroid.Lib.Bytes

namespace Omnidroid.Lines

open Bytes

def NEWLINE : UInt8 := 10

/-- a line whose end is `\r\n` -/
def stripCr (l : Bytes) : Bytes := if l.getLast? = some 13 then l.dropLast else l

/-- pieces between line ends: all but the last are lines, and so is the last if there is something on it -/
def ofPieces : List Bytes → List Bytes
  | [] => []
  | [last] => if last = [] then [] else [last]
  | l :: rest => stripCr l :: ofPieces rest

/-- `str::lines` -/
def lines (b : Bytes) : List Bytes := ofPieces (b.splitOn NEWLINE)

theorem stripCr_eq {l : Bytes} (h : l.getLast? ≠ some 13) : stripCr l = l := if_neg h

theorem lines_line {l : Bytes} (h : NEWLINE ∉ l) (rest : Bytes) : lines (l ++ NEWLINE :: rest) = stripCr l :: lines rest := by
  unfold lines
  rw [List.splitOn_append_cons_self_of_not_mem h]
  cases hs : rest.splitOn NEWLINE with
  | nil => exact absurd hs (List.splitOn_ne_nil _ _)
  | cons p ps => rfl

theorem lines_last {l : Bytes} (h : NEWLINE ∉ l) (hne : l ≠ []) : lines l = [l] := by
  unfold lines
  rw [List.splitOn_eq_singleton h]
  exact if_neg hne

/-- one piece more than there are separators -/
theorem length_splitOn (x : UInt8) (l : Bytes) : (l.splitOn x).length = l.count x + 1 := by
  induction l with
  | nil => rfl
  | cons c l ih =>
    rw [List.splitOn_cons_eq_if_modifyHead, List.count_cons]
    by_cases hc : c == x
    · rw [if_pos hc, if_pos hc, List.length_cons, ih]
    · rw [if_neg hc, if_neg hc, List.length_modifyHead, ih, add_zero]

/-! ## Numbers -/

/-- `{}`, and `{:o}` for base 8 -/
def numeral (base n : ℕ) : Bytes :=
  if n = 0 then [48] else ((Nat.digits base n).map fun d => UInt8.ofNat (48 + d)).reverse

/-- `to_digit`, for a base of at most ten -/
def digit (base : ℕ) (c : UInt8) : Option ℕ := if 48 ≤ c ∧ c.toNat < 48 + base then some (c.toNat - 48) else none

/-- a `+` is passed over -/
def unsigned : Bytes → Bytes
  | 43 :: rest => rest
  | b => b

/-- `from_str_radix`, of a type whose values are below `bound` -/
def parseBelow (bound base : ℕ) (b : Bytes) : Option ℕ :=
  if unsigned b = [] then none
  else
    match (unsigned b).mapM (digit base) with
    | none => none
    | some ds => if Nat.ofDigits base ds.reverse < bound then some (Nat.ofDigits base ds.reverse) else none

def parseU32 (base : ℕ) (b : Bytes) : Option UInt32 := (parseBelow (2 ^ 32) base b).map UInt32.ofNat

theorem digit_ofNat {base d : ℕ} (hb : base ≤ 10) (hd : d < base) : digit base (UInt8.ofNat (48 + d)) = some d := by
  have hn : (UInt8.ofNat (48 + d)).toNat = 48 + d := by
    rw [UInt8.toNat_ofNat']
    omega
  unfold digit
  rw [hn, if_pos, Nat.add_sub_cancel_left]
  refine ⟨UInt8.le_iff_toNat_le.mpr ?_, by omega⟩
  rw [hn]
  change 48 ≤ 48 + d
  omega

theorem mapM_digit {base : ℕ} (hb : base ≤ 10) {l : List ℕ} (h : ∀ d ∈ l, d < base) :
    (l.map fun d => UInt8.ofNat (48 + d)).mapM (digit base) = some l := by
  induction l with
  | nil => rfl
  | cons d l ih =>
    rw [List.map_cons, List.mapM_cons, digit_ofNat hb (h d List.mem_cons_self), ih fun d hd => h d (List.mem_cons_of_mem _ hd)]
    rfl

/-- digits, and nothing else -/
theorem numeral_digits {base : ℕ} (hb : 1 < base) (hten : base ≤ 10) (n : ℕ) : ∀ c ∈ numeral base n, 48 ≤ c.toNat ∧ c.toNat < 58 := by
  intro c hc
  unfold numeral at hc
  split_ifs at hc with hn
  · rw [List.mem_singleton] at hc
    subst hc
    decide
  · obtain ⟨d, hd, rfl⟩ := List.mem_map.mp (List.mem_reverse.mp hc)
    have hlt := Nat.digits_lt_base hb hd
    rw [UInt8.toNat_ofNat']
    omega

theorem numeral_ne_nil {base : ℕ} (n : ℕ) : numeral base n ≠ [] := by
  unfold numeral
  split_ifs with hn
  · exact List.cons_ne_nil _ _
  · rw [Ne, List.reverse_eq_nil_iff, List.map_eq_nil_iff, Nat.digits_eq_nil_iff_eq_zero]
    exact hn

theorem unsigned_numeral {base : ℕ} (hb : 1 < base) (hten : base ≤ 10) (n : ℕ) : unsigned (numeral base n) = numeral base n := by
  cases hn : numeral base n with
  | nil => rfl
  | cons c rest =>
    have hc := numeral_digits hb hten n c (by rw [hn]; exact List.mem_cons_self)
    have hne : c ≠ 43 := by
      rintro rfl
      exact absurd hc.1 (by decide)
    unfold unsigned
    split
    · next heq => exact absurd (List.cons.inj heq).1 hne
    · rfl

/-- a number comes back from its digits -/
theorem parseBelow_numeral {bound base n : ℕ} (hb : 1 < base) (hten : base ≤ 10) (hn : n < bound) :
    parseBelow bound base (numeral base n) = some n := by
  unfold parseBelow
  rw [unsigned_numeral hb hten, if_neg (numeral_ne_nil _)]
  unfold numeral
  split_ifs with hz
  · have hzero : [48].mapM (digit base) = some [0] := mapM_digit hten (l := [0]) (by simp; omega)
    rw [hzero]
    simp only [List.reverse_singleton, Nat.ofDigits_singleton]
    rw [← hz, if_pos hn]
  · have hds : ∀ d ∈ (Nat.digits base n).reverse, d < base := fun d hd => Nat.digits_lt_base hb (List.mem_reverse.mp hd)
    rw [← List.map_reverse, mapM_digit hten hds]
    simp only [List.reverse_reverse, Nat.ofDigits_digits]
    rw [if_pos hn]

theorem parseU32_numeral {base : ℕ} (hb : 1 < base) (hten : base ≤ 10) (n : UInt32) : parseU32 base (numeral base n.toNat) = some n := by
  unfold parseU32
  rw [parseBelow_numeral hb hten n.toNat_lt, Option.map_some, UInt32.ofNat_toNat]

/-! ## UTF-8 -/

/-- `str::from_utf8`: whether bytes are text -/
def utf8 (b : Bytes) : Bool := (ByteArray.mk b.toArray).validateUTF8

theorem utf8_append {a b : Bytes} (ha : utf8 a) (hb : utf8 b) : utf8 (a ++ b) := by
  have happ : ByteArray.mk (a ++ b).toArray = ByteArray.mk a.toArray ++ ByteArray.mk b.toArray := by
    ext1
    simp
  unfold utf8 at *
  rw [ByteArray.validateUTF8_eq_true_iff] at *
  rw [happ]
  exact ha.append hb

theorem utf8_nil : utf8 [] := by decide

/-- ASCII is -/
theorem utf8_ascii {b : Bytes} (h : ∀ c ∈ b, c.toNat < 128) : utf8 b := by
  induction b with
  | nil => exact utf8_nil
  | cons c b ih =>
    have hone : utf8 [c] := by
      have hc := h c List.mem_cons_self
      have hsize : (Char.ofNat c.toNat).utf8Size = 1 := by
        generalize c.toNat = n at hc
        interval_cases n <;> rfl
      have hbyte : (Char.ofNat c.toNat).toUInt8 = c := by
        have hn : (Char.ofNat c.toNat).toNat = c.toNat := by
          generalize c.toNat = n at hc
          interval_cases n <;> rfl
        change UInt8.ofNat (Char.ofNat c.toNat).toNat = c
        rw [hn, UInt8.ofNat_toNat]
      have hv := (ByteArray.isValidUTF8_empty).push hsize
      rw [hbyte] at hv
      exact ByteArray.validateUTF8_eq_true_iff.mpr hv
    exact utf8_append (a := [c]) hone (ih fun d hd => h d (List.mem_cons_of_mem _ hd))

theorem utf8_all {b : Bytes} (h : (b.all fun c => decide (c.toNat < 128)) = true) : utf8 b :=
  utf8_ascii fun c hc => of_decide_eq_true (List.all_eq_true.mp h c hc)

theorem utf8_flatMap {α : Type*} {f : α → Bytes} {l : List α} (h : ∀ a ∈ l, utf8 (f a)) : utf8 (l.flatMap f) := by
  induction l with
  | nil => exact utf8_nil
  | cons a l ih =>
    rw [List.flatMap_cons]
    exact utf8_append (h a List.mem_cons_self) (ih fun b hb => h b (List.mem_cons_of_mem _ hb))

end Omnidroid.Lines
