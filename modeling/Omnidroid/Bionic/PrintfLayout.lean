/-
The layout of a `printf` field against C's (C11 7.21.6.1).

- `Pieces`: what C has in a field, its sign, the `0x` before the digits, the digits, and whether the flag `0` has an effect;
  `Pieces.field` puts them into a width. `c11` gives a conversion's pieces, `Defined` the flags and precisions that C gives a
  meaning. The digits of a floating value (before the point, after it, the exponent) are those that the code found.
- `layout_eq`: the code's field by its pieces; then each conversion's pieces beside C's.
- `FloatLaid`: when a floating field is C's, for the code leaves out `+` and the space, drops `0` where there is a precision,
  pads `INF` and `NAN` with zeros, and loses a point that `#` asks for and the sign of a zero.
-/
import Omnidroid.Bionic.Printf

namespace Omnidroid.Bionic.Printf

/-! ## C's field -/

structure Pieces where
  sign : Text := []
  lead : Text := []
  digits : Text
  /-- the flag `0` has an effect -/
  zeros : Bool := false

/-- the pieces in a width -/
def Pieces.field (p : Pieces) (width : Option ℕ) (flags : Flags) : Text :=
  let number := p.sign ++ p.lead ++ p.digits
  let pad := width.getD 0 - number.length
  if flags.left then number ++ List.replicate pad ' '
  else if flags.zero ∧ p.zeros then p.sign ++ p.lead ++ List.replicate pad '0' ++ p.digits
  else List.replicate pad ' ' ++ number

def signFor (negative : Bool) (flags : Flags) : Text :=
  if negative then ['-'] else if flags.plus then ['+'] else if flags.space then [' '] else []

/-- an integer's digits: at least as many as the precision, and none for 0 under 0 -/
def atLeast (n : ℕ) (digits : Text) : Option ℕ → Text
  | none => digits
  | some p => if n = 0 ∧ p = 0 then [] else padZero p digits

/-- `#` under `%o`: a 0 comes first -/
def forceZero (digits : Text) : Text := if digits.head? = some '0' then digits else '0' :: digits

def radixPieces (conv : Char) (n : ℕ) (flags : Flags) (precision : Option ℕ) : Pieces :=
  match conv with
  | 'o' =>
    let digits := atLeast n (Nat.toDigits 8 n) precision
    { digits := if flags.alt then forceZero digits else digits, zeros := precision.isNone }
  | 'x' =>
    { lead := if flags.alt ∧ n ≠ 0 then "0x".toList else []
      digits := atLeast n (hexDigits n) precision
      zeros := precision.isNone }
  | _ =>
    { lead := if flags.alt ∧ n ≠ 0 then "0X".toList else []
      digits := atLeast n ((hexDigits n).map Char.toUpper) precision
      zeros := precision.isNone }

/-- the point and what is after it -/
def pointed (alt : Bool) (precision frac : ℕ) : Text :=
  if precision = 0 then if alt then ['.'] else [] else '.' :: padZero precision (decimal frac)

/-- the same for `%g`: without `#` the zeros at its end are left out, and a point with nothing after it -/
def trimmed (alt : Bool) (precision frac : ℕ) : Text :=
  if alt then pointed true precision frac
  else
    let digits := if precision = 0 then [] else trimEnd '0' (padZero precision (decimal frac))
    if digits = [] then [] else '.' :: digits

/-- which NaNs are negative is the implementation's to say: here none is -/
def isNegative (v : UInt64) : Bool := isSignNegative v && !isNan v

section Floats

variable (fl : F64) (v : UInt64) (precision : ℕ) (alt upper : Bool)

def expDigits : Text :=
  let (int, frac, exp) := fl.expParts v precision
  decimal int ++ pointed alt precision frac ++ expText upper exp

/-- digits past the exact ones are zeros -/
def fixedDigits : Text :=
  let (int, frac) := fl.fixedParts v (min precision EXACT_FRACTION_DIGITS)
  decimal int ++ pointed alt (min precision EXACT_FRACTION_DIGITS) frac ++
    List.replicate (precision - EXACT_FRACTION_DIGITS) '0'

def gDigits : Text :=
  let p := if precision = 0 then 1 else precision
  if isZero v then ['0'] ++ trimmed alt (p - 1) 0
  else if fl.exponent v < -4 ∨ (p : ℤ) ≤ fl.exponent v then
    let (int, frac, exp) := fl.expParts v (p - 1)
    decimal int ++ trimmed alt (p - 1) frac ++ expText upper exp
  else
    let after := ((p : ℤ) - 1 - fl.exponent v).toNat
    let (int, frac) := fl.fixedParts v after
    decimal int ++ trimmed alt after frac

end Floats

/-- a conversion in capitals -/
def isCapital (conv : Char) : Bool := conv = 'E' ∨ conv = 'F' ∨ conv = 'G'

def finiteDigits (fl : F64) (conv : Char) (v : UInt64) (precision : ℕ) (alt : Bool) : Text :=
  match conv with
  | 'e' | 'E' => expDigits fl v precision alt (isCapital conv)
  | 'f' | 'F' => fixedDigits fl v precision alt
  | _ => gDigits fl v precision alt (isCapital conv)

def floatDigits (fl : F64) (conv : Char) (v : UInt64) (precision : Option ℕ) (alt : Bool) : Text :=
  if isNan v then upperIf (isCapital conv) "nan"
  else if isInfinite v then upperIf (isCapital conv) "inf"
  else finiteDigits fl conv v (precision.getD 6) alt

def floatPieces (fl : F64) (conv : Char) (v : UInt64) (flags : Flags) (precision : Option ℕ) : Pieces :=
  { sign := signFor (isNegative v) flags, digits := floatDigits fl conv v precision flags.alt, zeros := isFinite v }

/-- the pieces of a conversion's field -/
def c11 (fl : F64) (conv : Char) (length : Length) (flags : Flags) (precision : Option ℕ) (arg : FormatArg) :
    Except FormatError Pieces :=
  match conv with
  | 'd' | 'i' => do
    let n ← asInt arg length
    return { sign := signFor (n < 0) flags, digits := atLeast n.natAbs (decimal n.natAbs) precision, zeros := precision.isNone }
  | 'u' => do
    let n ← asUint arg length
    return { digits := atLeast n (decimal n) precision, zeros := precision.isNone }
  | 'o' | 'x' | 'X' => do return radixPieces conv (← asUint arg length) flags precision
  | 'c' => do return { digits := [Char.ofNat (unsigned 8 (← asInt arg length))] }
  | 's' =>
    match arg with
    | .str s => .ok { digits := precision.elim s fun p => s.take p }
    | .ptr 0 => .ok { digits := precision.elim "(null)".toList fun p => "(null)".toList.take p }
    | _ => malformed "%s needs a string"
  | 'p' =>
    match arg with
    | .ptr p | .uint p => .ok { digits := if p = 0 then "(nil)".toList else "0x".toList ++ hexDigits p }
    | _ => malformed "%p needs a pointer"
  | 'e' | 'E' | 'f' | 'F' | 'g' | 'G' => do return floatPieces fl conv (← asDouble fl arg) flags precision
  | other => .error (.unknownSpecifier other)

/-- C gives the conversion with these flags and this precision a meaning -/
def Defined (conv : Char) (flags : Flags) (precision : Option ℕ) : Prop :=
  (flags.alt = true → conv ∈ ['o', 'x', 'X', 'e', 'E', 'f', 'F', 'g', 'G']) ∧
    (flags.zero = true → conv ∉ ['c', 's', 'p']) ∧ (precision ≠ none → conv ∉ ['c', 'p'])

/-! ## When it is the code's -/

/-- a point that `#` asks for is not there -/
def PointLost (fl : F64) (conv : Char) (flags : Flags) (precision : Option ℕ) (v : UInt64) : Prop :=
  isFinite v = true ∧ flags.alt = true ∧
    ((conv = 'e' ∨ conv = 'E') ∧ precision = some 0 ∨
      (conv = 'g' ∨ conv = 'G') ∧ (precision = some 0 ∨ precision = some 1) ∧
        (isZero v = true ∨ fl.exponent v < -4 ∨ 1 ≤ fl.exponent v))

/-- the code pads with zeros where the flag asks for it -/
def padsZeros (conv : Char) (precision : Option ℕ) (v : UInt64) : Bool := precision.isNone && (isFinite v || isCapital conv)

/-- the code prints the sign of a negative value, but not of a zero under `%g` -/
def printsMinus (conv : Char) (v : UInt64) : Bool := isNegative v && !((conv = 'g' ∨ conv = 'G') && isZero v)

/-- a floating field is C's: its sign is printed and its zeros go where C has them, or they are too few to show; or the space
for its sign happens to be the padding's last -/
def FloatLaid (fl : F64) (conv : Char) (flags : Flags) (width precision : Option ℕ) (v : UInt64) : Prop :=
  let digits := (floatDigits fl conv v precision flags.alt).length
  let sign := signFor (isNegative v) flags
  ¬PointLost fl conv flags precision v ∧
    (sign = (if printsMinus conv v then ['-'] else []) ∧
        (flags.left = true ∨ flags.zero = false ∨ isFinite v = padsZeros conv precision v ∨
          width.getD 0 ≤ sign.length + digits) ∨
      sign = [' '] ∧ flags.left = false ∧ ¬(flags.zero = true ∧ padsZeros conv precision v = true) ∧
        (if flags.zero = true ∧ isFinite v = true then width.getD 0 = digits + 1 else digits + 1 ≤ width.getD 0))

/-- the field of a conversion is C's -/
def Laid (fl : F64) (conv : Char) (length : Length) (flags : Flags) (width precision : Option ℕ) (arg : FormatArg) : Prop :=
  match conv with
  | 'o' => ¬(flags.alt = true ∧ precision = some 0 ∧ asUint arg length = .ok 0)
  | 'e' | 'E' | 'f' | 'F' | 'g' | 'G' => ∀ v, asDouble fl arg = .ok v → FloatLaid fl conv flags width precision v
  | _ => True

/-! ## The code's field by its pieces -/

variable {fl : F64} {conv : Char} {length : Length} {flags : Flags} {width precision : Option ℕ} {arg : FormatArg} {body : Body}
  {p : Pieces} {sign lead digits : Text} {n : ℕ} {c : Char} {s : Sink} {v : UInt64}

/-- zeros go after the sign and the `0x` where the code finds both -/
theorem layout_eq (hfield : body.field = p.sign ++ p.lead ++ p.digits)
    (hsplit : precision = none → numericNeedsSpaceFirst body.text = false → prefixLen body.text = (p.sign ++ p.lead).length) :
    layout body width flags precision =
      Pieces.field { p with zeros := precision.isNone && !numericNeedsSpaceFirst body.text } width flags := by
  unfold layout Pieces.field
  dsimp only
  rw [hfield]
  by_cases hleft : flags.left = true
  · rw [if_pos hleft, if_pos hleft]
  rw [if_neg hleft, if_neg hleft]
  by_cases hzero : flags.zero = true ∧ precision = none ∧ numericNeedsSpaceFirst body.text = false
  · obtain ⟨hflag, hnone, hneeds⟩ := hzero
    rw [if_pos ⟨hflag, hnone, hneeds⟩, if_pos ⟨hflag, by simp [hnone, hneeds]⟩, hsplit hnone hneeds, List.take_left,
      List.drop_left]
  · rw [if_neg hzero, if_neg]
    rintro ⟨hflag, hboth⟩
    rw [Bool.and_eq_true, Option.isNone_iff_eq_none, Bool.not_eq_true'] at hboth
    exact hzero ⟨hflag, hboth⟩

/-- no sign or `0x` can be read into what begins so -/
def Plain (digits : Text) : Prop :=
  ∃ c rest, digits = c :: rest ∧ c ∉ ['-', '+', ' ', 'i', 'n', '('] ∧ ∀ d, rest.head? = some d → d ≠ 'x' ∧ d ≠ 'X'

def IsSign (sign : Text) : Prop := sign ∈ [[], ['-'], ['+'], [' ']]

theorem isSign_nil : IsSign [] := List.mem_cons_self

theorem signFor_isSign (negative : Bool) (flags : Flags) : IsSign (signFor negative flags) := by
  unfold signFor IsSign
  split
  · simp
  · split
    · simp
    · split <;> simp

theorem prefixLen_plain (hsign : IsSign sign) (h : Plain digits) : prefixLen (sign ++ digits) = sign.length := by
  obtain ⟨c, rest, rfl, hc, hrest⟩ := h
  simp only [List.mem_cons, List.not_mem_nil, or_false, not_or] at hc
  have hx : ∀ x tail, x = 'x' ∨ x = 'X' → c :: rest ≠ '0' :: x :: tail := by
    rintro x tail hx heq
    obtain ⟨-, rfl⟩ := List.cons.inj heq
    obtain rfl | rfl := hx
    · exact (hrest 'x' rfl).1 rfl
    · exact (hrest 'X' rfl).2 rfl
  unfold IsSign at hsign
  simp only [List.mem_cons, List.not_mem_nil, or_false] at hsign
  obtain rfl | rfl | rfl | rfl := hsign
  all_goals
    unfold prefixLen
    simp [hc]
    split
    · next heq => exact absurd heq (hx 'x' _ (.inl rfl))
    · next heq => exact absurd heq (hx 'X' _ (.inr rfl))
    · rfl

theorem prefixLen_lead (hsign : IsSign sign) {x : Char} (hx : x = 'x' ∨ x = 'X') :
    prefixLen (sign ++ '0' :: x :: digits) = sign.length + 2 := by
  unfold IsSign at hsign
  simp only [List.mem_cons, List.not_mem_nil, or_false] at hsign
  obtain rfl | rfl | rfl | rfl := hsign <;> obtain rfl | rfl := hx <;> rfl

theorem needsSpace_number (hsign : IsSign sign) (hc : c ∉ ['-', '+', ' ', 'i', 'n', '(']) :
    numericNeedsSpaceFirst (sign ++ c :: digits) = false := by
  simp only [List.mem_cons, List.not_mem_nil, or_false, not_or] at hc
  obtain ⟨h₁, h₂, h₃, h₄, h₅, h₆⟩ := hc
  unfold IsSign at hsign
  simp only [List.mem_cons, List.not_mem_nil, or_false] at hsign
  obtain rfl | rfl | rfl | rfl := hsign
  all_goals
    simp [numericNeedsSpaceFirst, startsWith, List.isPrefixOf, Ne.symm h₁, Ne.symm h₂, Ne.symm h₄, Ne.symm h₅, Ne.symm h₆]

/-- destinations tell texts apart -/
theorem add_eq_iff {a b : Text} : (∀ s : Sink, s.add a = s.add b) ↔ a = b := by
  constructor
  · intro h
    have hout := congrArg Sink.out (h { budget := a.length + b.length })
    unfold Sink.add Sink.room at hout
    dsimp only at hout
    rwa [List.nil_append, List.nil_append, Nat.sub_zero, List.take_of_length_le (Nat.le_add_right _ _),
      List.take_of_length_le (Nat.le_add_left _ _)] at hout
  · rintro rfl s
    rfl

/-! ## Integers -/

def hexChars : List Char := "0123456789abcdef".toList

theorem digitChar_mem : ∀ d < 16, d.digitChar ∈ hexChars := by decide

theorem mem_toDigits {b : ℕ} (hb : 2 ≤ b) (hb' : b ≤ 16) (h : c ∈ Nat.toDigits b n) : c ∈ hexChars := by
  induction n using Nat.strong_induction_on with
  | _ n ih =>
    rw [Nat.toDigits_eq_if (by omega)] at h
    split at h
    · rw [List.mem_singleton.1 h]
      exact digitChar_mem n (by omega)
    · rw [List.mem_append, List.mem_singleton] at h
      obtain h | h := h
      · exact ih _ (Nat.div_lt_self (by omega) (by omega)) h
      · rw [h]
        exact digitChar_mem _ ((Nat.mod_lt _ (by omega)).trans_le hb')

/-- the characters of a number, in either case -/
def IsNumeral (digits : Text) : Prop := digits ≠ [] ∧ ∀ c ∈ digits, c ∈ hexChars ∨ c ∈ hexChars.map Char.toUpper

theorem toDigits_numeral {b : ℕ} (hb : 2 ≤ b) (hb' : b ≤ 16) : IsNumeral (Nat.toDigits b n) :=
  ⟨Nat.toDigits_ne_nil, fun _ hc => .inl (mem_toDigits hb hb' hc)⟩

theorem upper_numeral : IsNumeral ((hexDigits n).map Char.toUpper) := by
  refine ⟨by simp [hexDigits, Nat.toDigits_ne_nil], fun c hc => ?_⟩
  obtain ⟨d, hd, rfl⟩ := List.mem_map.1 hc
  exact .inr (List.mem_map_of_mem (mem_toDigits (by decide) (by decide) hd))

theorem hexChars_plain (h : c ∈ hexChars ++ hexChars.map Char.toUpper) : c ∉ ['-', '+', ' ', 'i', 'n', '(', 'x', 'X'] := by
  have hall : (hexChars ++ hexChars.map Char.toUpper).all (· ∉ ['-', '+', ' ', 'i', 'n', '(', 'x', 'X']) = true := by decide
  exact of_decide_eq_true (List.all_eq_true.1 hall c h)

theorem IsNumeral.plain (h : IsNumeral digits) : Plain digits := by
  have hall : ∀ c ∈ digits, c ∉ ['-', '+', ' ', 'i', 'n', '(', 'x', 'X'] := fun c hc =>
    hexChars_plain (List.mem_append.2 (h.2 c hc))
  cases digits with
  | nil => exact absurd rfl h.1
  | cons c rest =>
    refine ⟨c, rest, rfl, ?_, ?_⟩
    · have hc := hall c List.mem_cons_self
      simp only [List.mem_cons, List.not_mem_nil, or_false, not_or] at hc ⊢
      tauto
    · intro d hd
      have hc := hall d (List.mem_cons_of_mem _ (List.mem_of_mem_head? hd))
      simp only [List.mem_cons, List.not_mem_nil, or_false, not_or] at hc
      tauto

theorem precise_eq (n : ℕ) (digits : Text) (precision : Option ℕ) :
    List.replicate (precise n digits precision).2 '0' ++ (precise n digits precision).1 = atLeast n digits precision := by
  cases precision with
  | none => rfl
  | some p =>
    show List.replicate (p - digits.length) '0' ++ (if n = 0 ∧ p = 0 then [] else digits) = _
    unfold atLeast padZero
    dsimp only
    split
    · next h =>
      rw [h.2, Nat.zero_sub]
      rfl
    · rfl

theorem run_field (a b : Text) (k : ℕ) :
    Body.field { text := a ++ b, runAt := a.length, runLen := k } = a ++ (List.replicate k '0' ++ b) := by
  unfold Body.field
  dsimp only
  split
  · next h =>
    rw [h]
    rfl
  · rw [List.take_left, List.drop_left, List.append_assoc]

/-- a number's field: without a precision zeros go where C has them -/
theorem number_field (hfield : body.field = p.sign ++ p.lead ++ p.digits)
    (hsplit : precision = none → numericNeedsSpaceFirst body.text = false ∧ prefixLen body.text = (p.sign ++ p.lead).length)
    (hzeros : p.zeros = precision.isNone) : layout body width flags precision = p.field width flags := by
  rw [layout_eq hfield fun hnone _ => (hsplit hnone).2]
  congr 1
  obtain ⟨sign, lead, digits, zeros⟩ := p
  dsimp only at hzeros ⊢
  rw [hzeros]
  congr 1
  cases hp : precision with
  | some q => rfl
  | none => rw [(hsplit hp).1]; rfl

theorem plain_split (hsign : IsSign sign) (h : Plain digits) :
    numericNeedsSpaceFirst (sign ++ digits) = false ∧ prefixLen (sign ++ digits) = sign.length := by
  refine ⟨?_, prefixLen_plain hsign h⟩
  obtain ⟨c, rest, rfl, hc, -⟩ := h
  exact needsSpace_number hsign hc

theorem int_field {n : ℤ} :
    layout (intBody n flags precision) width flags precision =
      Pieces.field
        { sign := signFor (n < 0) flags, digits := atLeast n.natAbs (decimal n.natAbs) precision, zeros := precision.isNone }
        width flags := by
  have hsign : (if n < 0 then ['-'] else if flags.plus then ['+'] else if flags.space then [' '] else []) =
      signFor (n < 0) flags := by
    unfold signFor
    simp only [decide_eq_true_eq]
  unfold intBody
  dsimp only
  rw [hsign]
  apply number_field
  · rw [run_field, precise_eq]
    simp
  · rintro rfl
    dsimp only
    rw [List.append_nil]
    exact plain_split (signFor_isSign (n < 0) flags) (toDigits_numeral (by decide) (by decide)).plain
  · rfl

theorem uint_field :
    layout (uintBody n precision) width flags precision =
      Pieces.field { digits := atLeast n (decimal n) precision, zeros := precision.isNone } width flags := by
  unfold uintBody
  apply number_field
  · exact (run_field [] _ _).trans (precise_eq _ _ _)
  · rintro rfl
    exact @plain_split [] _ isSign_nil (toDigits_numeral (by decide) (by decide)).plain
  · rfl

theorem head_atLeast (h : digits.head? = some '0') (hn : ¬(n = 0 ∧ precision = some 0)) :
    (atLeast n digits precision).head? = some '0' := by
  cases precision with
  | none => exact h
  | some p =>
    have hcond : ¬(n = 0 ∧ p = 0) := fun ⟨hn', hp⟩ => hn ⟨hn', by rw [hp]⟩
    unfold atLeast padZero
    dsimp only
    rw [if_neg hcond]
    cases p - digits.length with
    | zero => exact h
    | succ k => rfl

/-- what `#` puts before a number -/
def alternateOf (a : String) (asked : Bool) (number : Text × ℕ) : String :=
  let alternate := if asked then a else ""
  if alternate = "0" ∧ (0 < number.2 ∨ number.1.head? = some '0') then "" else alternate

def radixRun (alternate : String) (number : Text × ℕ) : Body :=
  { text := alternate.toList ++ number.1, runAt := alternate.length, runLen := number.2 }

def octalLead (n : ℕ) (flags : Flags) (precision : Option ℕ) : String :=
  alternateOf "0" (flags.alt && (Nat.toDigits 8 n).head? ≠ some '0') (precise n (Nat.toDigits 8 n) precision)

theorem octal_body :
    radixBody 'o' n flags precision = radixRun (octalLead n flags precision) (precise n (Nat.toDigits 8 n) precision) := rfl

theorem lower_body :
    radixBody 'x' n flags precision =
      radixRun (alternateOf "0x" (flags.alt && n ≠ 0) (precise n (hexDigits n) precision)) (precise n (hexDigits n) precision) :=
  rfl

theorem upper_body :
    radixBody 'X' n flags precision =
      radixRun (alternateOf "0X" (flags.alt && n ≠ 0) (precise n ((hexDigits n).map Char.toUpper) precision))
        (precise n ((hexDigits n).map Char.toUpper) precision) := rfl

theorem octalLead_cases : octalLead n flags precision = "" ∨ octalLead n flags precision = "0" := by
  unfold octalLead alternateOf
  dsimp only
  split_ifs <;> simp

/-- only a lone `0` is left out where zeros come first already -/
theorem alternateOf_hex (a : String) (ha : a = "0x" ∨ a = "0X") (asked : Bool) (number : Text × ℕ) :
    alternateOf a asked number = if asked then a else "" := by
  apply if_neg
  rintro ⟨h, -⟩
  obtain rfl | rfl := ha <;> cases asked <;> revert h <;> decide

/-- the `0` that the code puts first is the one C asks for, but for a zero without digits -/
theorem octal_digits (h : ¬(flags.alt = true ∧ precision = some 0 ∧ n = 0)) :
    (octalLead n flags precision).toList ++ atLeast n (Nat.toDigits 8 n) precision =
      if flags.alt then forceZero (atLeast n (Nat.toDigits 8 n) precision) else atLeast n (Nat.toDigits 8 n) precision := by
  have heq := precise_eq n (Nat.toDigits 8 n) precision
  unfold octalLead alternateOf
  generalize precise n (Nat.toDigits 8 n) precision = number at heq ⊢
  obtain ⟨body, zeros⟩ := number
  dsimp only at heq ⊢
  by_cases halt : flags.alt = true
  · rw [if_pos halt]
    unfold forceZero
    by_cases hhead : (Nat.toDigits 8 n).head? = some '0'
    · have hfirst := head_atLeast hhead fun hn => h ⟨halt, hn.2, hn.1⟩
      rw [if_pos hfirst]
      simp [hhead]
    · have hleads : (0 < zeros ∨ body.head? = some '0') ↔ (atLeast n (Nat.toDigits 8 n) precision).head? = some '0' := by
        rw [← heq]
        cases zeros with
        | zero => simp
        | succ k => simp [List.replicate_succ]
      by_cases hl : 0 < zeros ∨ body.head? = some '0'
      · rw [if_pos (hleads.1 hl)]
        simp [halt, hhead, hl]
      · rw [if_neg fun hfirst => hl (hleads.2 hfirst)]
        simp [halt, hhead, hl]
  · rw [if_neg halt]
    simp [halt]

theorem radixRun_field (a : String) : (radixRun a (precise n digits precision)).field = a.toList ++ atLeast n digits precision := by
  unfold radixRun
  rw [← String.length_toList, run_field, precise_eq]

theorem octal_field (h : ¬(flags.alt = true ∧ precision = some 0 ∧ n = 0)) :
    layout (radixBody 'o' n flags precision) width flags precision =
      (radixPieces 'o' n flags precision).field width flags := by
  rw [octal_body]
  apply number_field
  · rw [radixRun_field]
    exact octal_digits h
  · rintro rfl
    have hdigits : IsNumeral (Nat.toDigits 8 n) := toDigits_numeral (by decide) (by decide)
    have hnumeral : IsNumeral ((octalLead n flags none).toList ++ Nat.toDigits 8 n) := by
      refine ⟨List.append_ne_nil_of_right_ne_nil _ hdigits.1, fun c hc => ?_⟩
      obtain hc | hc := List.mem_append.1 hc
      · obtain hlead | hlead := @octalLead_cases flags none n
        · rw [hlead] at hc
          exact absurd hc List.not_mem_nil
        · rw [hlead] at hc
          rw [show c = '0' from List.mem_singleton.1 hc]
          exact .inl (by decide)
      · exact hdigits.2 c hc
    exact @plain_split [] _ isSign_nil hnumeral.plain
  · rfl

/-- `#` on a zero without digits: C has one -/
theorem octal_zero (halt : flags.alt = true) :
    layout (radixBody 'o' 0 flags (some 0)) width flags (some 0) ≠ (radixPieces 'o' 0 flags (some 0)).field width flags := by
  intro h
  have hmem : '0' ∈ (radixPieces 'o' 0 flags (some 0)).field width flags := by
    unfold Pieces.field
    dsimp only
    split
    · simp [radixPieces, halt, atLeast, forceZero]
    · split <;> simp [radixPieces, halt, atLeast, forceZero]
  rw [← h, octal_body] at hmem
  unfold layout at hmem
  rw [radixRun_field] at hmem
  simp [octalLead, alternateOf, atLeast] at hmem

/-- with a `0x` of either case, or none -/
theorem lead_split (a : Text) (ha : a = "0x".toList ∨ a = "0X".toList) (t : Prop) [Decidable t] (h : Plain digits) :
    numericNeedsSpaceFirst ((if t then a else []) ++ digits) = false ∧
      prefixLen ((if t then a else []) ++ digits) = (if t then a else []).length := by
  split
  · obtain rfl | rfl := ha
    · exact ⟨@needsSpace_number [] _ '0' isSign_nil (by decide), @prefixLen_lead [] digits isSign_nil 'x' (.inl rfl)⟩
    · exact ⟨@needsSpace_number [] _ '0' isSign_nil (by decide), @prefixLen_lead [] digits isSign_nil 'X' (.inr rfl)⟩
  · exact @plain_split [] digits isSign_nil h

theorem hex_field (a : String) (ha : a = "0x" ∨ a = "0X") (h : IsNumeral digits) :
    layout (radixRun (alternateOf a (flags.alt && n ≠ 0) (precise n digits precision)) (precise n digits precision)) width flags
        precision =
      Pieces.field
        { lead := if flags.alt ∧ n ≠ 0 then a.toList else [], digits := atLeast n digits precision, zeros := precision.isNone }
        width flags := by
  have hlead : (if flags.alt && n ≠ 0 then a else "").toList = if flags.alt = true ∧ n ≠ 0 then a.toList else [] := by
    by_cases hc : flags.alt = true ∧ n ≠ 0
    · rw [if_pos hc, if_pos (by simpa using hc)]
    · rw [if_neg hc, if_neg (by simpa using hc)]
      rfl
  rw [alternateOf_hex a ha]
  apply number_field
  · rw [radixRun_field, hlead]
    rfl
  · rintro rfl
    unfold radixRun
    dsimp only
    rw [hlead]
    exact lead_split a.toList (by obtain rfl | rfl := ha <;> simp) _ h.plain
  · rfl

theorem radix_field {conv : Char} (hconv : conv = 'x' ∨ conv = 'X') :
    layout (radixBody conv n flags precision) width flags precision =
      (radixPieces conv n flags precision).field width flags := by
  obtain rfl | rfl := hconv
  · rw [lower_body]
    exact hex_field "0x" (.inl rfl) (toDigits_numeral (by decide) (by decide))
  · rw [upper_body]
    exact hex_field "0X" (.inr rfl) upper_numeral

/-! ## Text -/

/-- what is not a number is padded with spaces only -/
theorem plain_field (text : Text) (hzero : flags.zero = false) :
    layout { text } width flags precision = Pieces.field { digits := text } width flags := by
  have hfield : Body.field { text } = text := if_pos rfl
  unfold layout Pieces.field
  rw [hfield]
  simp [hzero]

end Omnidroid.Bionic.Printf
