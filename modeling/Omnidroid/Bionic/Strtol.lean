/-
`strtol`, `strtoll`, `strtoul` and `strtoull` (`omni-bionic/src/numerics.rs`): an integer read off the front of a string.

- `skipWs`, `consumePrefix`, `consumeDigits`, `strtolImpl`, `strtoulImpl`: the code, over guest memory.
- `Numeral`, `Matches`: the grammar: white space, a sign, `0x`, digits. `Longest`: the longest prefix of a string that is one.
- `Numeral.read`: the one the code finds. `longest_iff`: it is the longest there is, and there is no other.
- `consumeDigits_spec`: the accumulator holds the number, or the overflow is known, for any number of digits.
- `strtol_family`: what each of the four stores, returns and leaves in `errno`.
-/
import Omnidroid.Bionic.Memory
import Omnidroid.Errno
import Omnidroid.Lib.Answers
import Omnidroid.Lib.Bytes

namespace Omnidroid.Bionic.Numerics

open GuestMemory

def ERANGE : Errno := ⟨34⟩

/-! ## The code -/

def LONG_MAX : ℕ := 2 ^ 63 - 1
def LONG_MIN_NEG : ℕ := 2 ^ 63
def ULONG_MAX : ℕ := 2 ^ 64 - 1

/-- guest memory and the guest's errno -/
structure Context where
  mem : GuestMemory
  errno : Errno

abbrev M := EStateM BionicError Context

def isSpace (b : UInt8) : Bool := b = 0x20 || b = 0x09 || b = 0x0A || b = 0x0B || b = 0x0C || b = 0x0D

def digitValue (b : UInt8) (base : ℕ) : Option ℕ :=
  let v :=
    if 0x30 ≤ b.toNat ∧ b.toNat ≤ 0x39 then some (b.toNat - 0x30)
    else if 0x61 ≤ b.toNat ∧ b.toNat ≤ 0x7A then some (b.toNat - 0x61 + 10)
    else if 0x41 ≤ b.toNat ∧ b.toNat ≤ 0x5A then some (b.toNat - 0x41 + 10)
    else none
  v.bind fun v => if v < base then some v else none

def skipWs (m : GuestMemory) (cursor : ℕ) : Except ℕ ℕ :=
  match h : m.peek cursor with
  | .error addr => .error addr
  | .ok b => if isSpace b then skipWs m (cursor + 1) else .ok cursor
termination_by 2 ^ 63 - cursor
decreasing_by
  have := peek_lt h
  omega

/-- the prefix, past the sign: the cursor after it, the sign, the base, and where the digits start -/
def consumeHex (m : GuestMemory) (cursor base : ℕ) (negative : Bool) : Except ℕ (ℕ × Bool × ℕ × ℕ) := do
  if base = 0 ∨ base = 16 then
    if (← m.peek cursor) = 0x30 then
      let next ← m.peek (cursor + 1)
      if next = 0x78 ∨ next = 0x58 then
        -- a prefix is only consumed when a hex digit follows
        let third ← m.peek (cursor + 2)
        if (digitValue third 16).isSome then pure (cursor + 2, negative, 16, cursor + 2)
        else if base = 0 then pure (cursor, negative, 8, cursor)
        else pure (cursor, negative, 16, cursor)
      else if base = 0 then pure (cursor, negative, 8, cursor)
      else pure (cursor, negative, base, cursor)
    else if base = 0 then pure (cursor, negative, 10, cursor)
    else pure (cursor, negative, base, cursor)
  else pure (cursor, negative, base, cursor)

def consumePrefix (m : GuestMemory) (cursor base : ℕ) : Except ℕ (ℕ × Bool × ℕ × ℕ) := do
  let b ← m.peek cursor
  consumeHex m (if b = 0x2B ∨ b = 0x2D then cursor + 1 else cursor) base (decide (b = 0x2D))

/-- one digit more, saturating, and whether it has ever passed 64 bits -/
def accumulate (acc value base : ℕ) (overflow : Bool) : ℕ × Bool :=
  if overflow then (ULONG_MAX, true)
  else if acc * base < 2 ^ 64 ∧ acc * base + value < 2 ^ 64 then (acc * base + value, false)
  else (ULONG_MAX, true)

/-- the cursor after the digits, the magnitude, whether there was any, and whether it passed 64 bits -/
def consumeDigits (m : GuestMemory) (cursor base acc : ℕ) (any overflow : Bool) : Except ℕ (ℕ × ℕ × Bool × Bool) :=
  match _h : m.peek cursor with
  | .error addr => .error addr
  | .ok b =>
    match digitValue b base with
    | some v =>
      consumeDigits m (cursor + 1) base (accumulate acc v base overflow).1 true (accumulate acc v base overflow).2
    | none => .ok (cursor, acc, any, overflow)
termination_by 2 ^ 63 - cursor
decreasing_by
  have := peek_lt (by assumption)
  omega

def reads {α : Type} (f : GuestMemory → Except ℕ α) : M α := fun c =>
  match f c.mem with
  | .ok a => .ok a c
  | .error addr => .error (.fault addr) c

def setErrno (e : Errno) : M Unit := modify fun c => { c with errno := e }

def writeEndptr (slot value : ℕ) : M Unit := fun c =>
  if slot = 0 then .ok () c
  else if ∀ i : ℕ, i < 8 → c.mem.mapped (slot + i) = true then .ok () { c with mem := c.mem.put slot (Bytes.leBytes 8 value) }
  else .error (.fault slot) c

def strtolImpl (nptr endptr : ℕ) (base : ℤ) : M ℤ := do
  if base ≠ 0 ∧ ¬(2 ≤ base ∧ base ≤ 36) then
    setErrno EINVAL
    writeEndptr endptr nptr
    return 0
  if nptr = 0 then throw (.invalidArgument "strtol: null nptr")
  let afterWs ← reads fun m => skipWs m nptr
  let (cursor, negative, effective, _) ← reads fun m => consumePrefix m afterWs base.toNat
  let (afterDigits, magnitude, any, overflow) ← reads fun m => consumeDigits m cursor effective 0 false false
  if any = false then
    writeEndptr endptr nptr
    return 0
  writeEndptr endptr afterDigits
  if overflow then
    setErrno ERANGE
    return if negative then -2 ^ 63 else 2 ^ 63 - 1
  if negative then
    if LONG_MIN_NEG ≤ magnitude then
      if magnitude = LONG_MIN_NEG then return -2 ^ 63
      setErrno ERANGE
      return -2 ^ 63
    return -magnitude
  if LONG_MAX < magnitude then
    setErrno ERANGE
    return 2 ^ 63 - 1
  return magnitude

def strtoulImpl (nptr endptr : ℕ) (base : ℤ) : M ℕ := do
  if base ≠ 0 ∧ ¬(2 ≤ base ∧ base ≤ 36) then
    setErrno EINVAL
    writeEndptr endptr nptr
    return 0
  if nptr = 0 then throw (.invalidArgument "strtoul: null nptr")
  let afterWs ← reads fun m => skipWs m nptr
  let (cursor, negative, effective, _) ← reads fun m => consumePrefix m afterWs base.toNat
  let (afterDigits, magnitude, any, overflow) ← reads fun m => consumeDigits m cursor effective 0 false false
  if any = false then
    writeEndptr endptr nptr
    return 0
  writeEndptr endptr afterDigits
  if overflow then
    setErrno ERANGE
    return ULONG_MAX
  -- negated in unsigned arithmetic
  return if negative then (2 ^ 64 - magnitude) % 2 ^ 64 else magnitude

def strtol (nptr endptr : ℕ) (base : ℤ) : M ℤ := strtolImpl nptr endptr base

def strtoll (nptr endptr : ℕ) (base : ℤ) : M ℤ := strtol nptr endptr base

def strtoul (nptr endptr : ℕ) (base : ℤ) : M ℕ := strtoulImpl nptr endptr base

def strtoull (nptr endptr : ℕ) (base : ℤ) : M ℕ := strtoul nptr endptr base

/-! ## The grammar -/

/-- the letters of an integer: its digits with what each is worth -/
@[ext] structure Numeral where
  space : List UInt8
  sign : Option UInt8
  hex : Option UInt8
  digits : List UInt8
  values : List ℕ

namespace Numeral

def text (n : Numeral) : List UInt8 :=
  n.space ++ (n.sign.toList ++ ((n.hex.elim [] fun x => [0x30, x]) ++ n.digits))

def negative (n : Numeral) : Bool := n.sign = some 0x2D

/-- the base of the digits: told, or from how the number begins -/
def radix (n : Numeral) (base : ℕ) : ℕ :=
  if base ≠ 0 then base else if n.hex.isSome then 16 else if n.digits.head? = some 0x30 then 8 else 10

def magnitude (n : Numeral) (base : ℕ) : ℕ := Nat.ofDigits (n.radix base) n.values.reverse

end Numeral

/-- `b` is the digit worth `v` in base `r`, a letter in either case -/
def IsDigit (r : ℕ) (b : UInt8) (v : ℕ) : Prop :=
  v < r ∧ (v < 10 ∧ b.toNat = 0x30 + v ∨ 10 ≤ v ∧ v < 36 ∧ (b.toNat = 0x61 + (v - 10) ∨ b.toNat = 0x41 + (v - 10)))

structure Matches (base : ℕ) (n : Numeral) : Prop where
  space : ∀ b ∈ n.space, isSpace b = true
  sign : ∀ b ∈ n.sign, b = 0x2B ∨ b = 0x2D
  hex : ∀ x ∈ n.hex, (x = 0x78 ∨ x = 0x58) ∧ (base = 0 ∨ base = 16)
  digits : n.digits ≠ [] ∧ List.Forall₂ (IsDigit (n.radix base)) n.digits n.values

/-- the longest prefix of `s` that is a numeral -/
structure Longest (base : ℕ) (s : List UInt8) (n : Numeral) : Prop where
  isNumeral : Matches base n
  isPrefix : n.text <+: s
  longest : ∀ n', Matches base n' → n'.text <+: s → n'.text.length ≤ n.text.length

/-! ## What the code finds -/

theorem digitValue_eq_some {b : UInt8} {r v : ℕ} : digitValue b r = some v ↔ IsDigit r b v := by
  have hlt : ∀ w : ℕ, (if w < r then some w else none) = some v ↔ w < r ∧ w = v := by
    intro w
    split
    · simp [*]
    · simp [*]
  unfold digitValue IsDigit
  split
  · rw [Option.bind_some, hlt]
    omega
  · split
    · rw [Option.bind_some, hlt]
      omega
    · split
      · rw [Option.bind_some, hlt]
        omega
      · rw [Option.bind_none]
        exact ⟨nofun, fun h => by omega⟩

theorem isDigit_not_space {b : UInt8} {r v : ℕ} (h : IsDigit r b v) : isSpace b = false := by
  have hb : 0x30 ≤ b.toNat := by
    unfold IsDigit at h
    omega
  have hne : ∀ c : UInt8, c.toNat < 0x30 → b ≠ c := by
    rintro c hc rfl
    omega
  simp only [isSpace, Bool.or_eq_false_iff, decide_eq_false_iff_not]
  exact ⟨⟨⟨⟨⟨hne _ (by decide), hne _ (by decide)⟩, hne _ (by decide)⟩, hne _ (by decide)⟩, hne _ (by decide)⟩,
    hne _ (by decide)⟩

theorem isDigit_not_sign {b : UInt8} {r v : ℕ} (h : IsDigit r b v) : b ≠ 0x2B ∧ b ≠ 0x2D := by
  constructor
  all_goals
    rintro rfl
    simp [IsDigit] at h
    omega

namespace Numeral

variable {base r : ℕ} {s t u ds : List UInt8} {n : Numeral}

def signOf : List UInt8 → Option UInt8
  | [] => none
  | b :: _ => if b = 0x2B ∨ b = 0x2D then some b else none

def afterSign (t : List UInt8) : List UInt8 := t.drop (signOf t).toList.length

def hexOf (base : ℕ) : List UInt8 → Option UInt8
  | z :: x :: d :: _ =>
    if (base = 0 ∨ base = 16) ∧ z = 0x30 ∧ (x = 0x78 ∨ x = 0x58) ∧ (digitValue d 16).isSome then some x else none
  | _ => none

def afterHex (base : ℕ) (t : List UInt8) : List UInt8 := if (hexOf base t).isSome then t.drop 2 else t

def radixOf (base : ℕ) (t : List UInt8) : ℕ :=
  if base ≠ 0 then base else if (hexOf base t).isSome then 16 else if t.head? = some 0x30 then 8 else 10

def isDigitOf (r : ℕ) (b : UInt8) : Bool := (digitValue b r).isSome

def digitsOf (r : ℕ) (t : List UInt8) : List UInt8 := t.takeWhile (isDigitOf r)

def valuesOf (r : ℕ) (ds : List UInt8) : List ℕ := ds.filterMap fun b => digitValue b r

/-- what follows the white space and the sign -/
def body (s : List UInt8) : List UInt8 := afterSign (s.dropWhile isSpace)

/-- the numeral at the front of `s`, if it has digits -/
def read (base : ℕ) (s : List UInt8) : Numeral where
  space := s.takeWhile isSpace
  sign := signOf (s.dropWhile isSpace)
  hex := hexOf base (body s)
  digits := digitsOf (radixOf base (body s)) (afterHex base (body s))
  values := valuesOf (radixOf base (body s)) (digitsOf (radixOf base (body s)) (afterHex base (body s)))

theorem sign_append (t : List UInt8) : (signOf t).toList ++ afterSign t = t := by
  cases t with
  | nil => rfl
  | cons b t =>
    by_cases hb : b = 0x2B ∨ b = 0x2D
    · simp [afterSign, signOf, hb]
    · simp [afterSign, signOf, hb]

theorem hexOf_eq_some {x : UInt8} :
    hexOf base t = some x ↔ (base = 0 ∨ base = 16) ∧ (x = 0x78 ∨ x = 0x58) ∧
      ∃ d u, t = 0x30 :: x :: d :: u ∧ (digitValue d 16).isSome = true := by
  constructor
  · intro h
    unfold hexOf at h
    split at h
    · rename_i z y d u
      split at h
      · rename_i hc
        cases h
        obtain ⟨hb, rfl, hx, hd⟩ := hc
        exact ⟨hb, hx, d, u, rfl, hd⟩
      · cases h
    · cases h
  · rintro ⟨hb, hx, d, u, rfl, hd⟩
    exact if_pos ⟨hb, rfl, hx, hd⟩

theorem hex_append (base : ℕ) (t : List UInt8) : (hexOf base t).elim [] (fun x => [0x30, x]) ++ afterHex base t = t := by
  cases h : hexOf base t with
  | none => simp [afterHex, h]
  | some x =>
    obtain ⟨_, _, d, u, rfl, _⟩ := hexOf_eq_some.1 h
    simp [afterHex, h]

theorem forall₂_values (ds : List UInt8) (h : ∀ b ∈ ds, isDigitOf r b = true) :
    List.Forall₂ (IsDigit r) ds (valuesOf r ds) := by
  induction ds with
  | nil => exact .nil
  | cons b ds ih =>
    obtain ⟨v, hv⟩ := Option.isSome_iff_exists.1 (h b List.mem_cons_self)
    have hcons : valuesOf r (b :: ds) = v :: valuesOf r ds := by simp [valuesOf, hv]
    rw [hcons]
    exact .cons (digitValue_eq_some.1 hv) (ih fun c hc => h c (List.mem_cons_of_mem _ hc))

theorem values_eq {vs : List ℕ} (h : List.Forall₂ (IsDigit r) ds vs) : valuesOf r ds = vs := by
  induction h with
  | nil => rfl
  | cons hb _ ih =>
    rw [← ih]
    simp [valuesOf, digitValue_eq_some.2 hb]

theorem digits_all {vs : List ℕ} (h : List.Forall₂ (IsDigit r) ds vs) : ∀ b ∈ ds, isDigitOf r b = true := by
  induction h with
  | nil => exact nofun
  | cons hb _ ih =>
    intro c hc
    rcases List.mem_cons.1 hc with rfl | hc
    · rw [isDigitOf, digitValue_eq_some.2 hb]
      rfl
    · exact ih c hc

/-- where all of a prefix passes and what follows it does not, it is what is taken -/
theorem takeWhile_append {p : UInt8 → Bool} (h : ∀ b ∈ t, p b = true) (hu : u.head?.all (fun b => !p b) = true) :
    (t ++ u).takeWhile p = t ∧ (t ++ u).dropWhile p = u := by
  induction t with
  | nil =>
    cases u with
    | nil => exact ⟨rfl, rfl⟩
    | cons b u =>
      have hb : p b = false := by simpa using hu
      exact ⟨List.takeWhile_cons_of_neg (by simp [hb]), List.dropWhile_cons_of_neg (by simp [hb])⟩
  | cons b t ih =>
    have hb := h b List.mem_cons_self
    obtain ⟨h₁, h₂⟩ := ih fun c hc => h c (List.mem_cons_of_mem _ hc)
    rw [List.cons_append, List.takeWhile_cons_of_pos hb, List.dropWhile_cons_of_pos hb, h₁, h₂]
    exact ⟨rfl, rfl⟩

/-! ### It is a numeral, and the text of the front of `s` -/

theorem read_starts (base : ℕ) (s : List UInt8) : (read base s).text <+: s := by
  have h : s = s.takeWhile isSpace ++ (signOf (s.dropWhile isSpace)).toList ++
      (hexOf base (body s)).elim [] (fun x => [0x30, x]) ++ afterHex base (body s) := by
    rw [List.append_assoc, hex_append, List.append_assoc, body, sign_append, List.takeWhile_append_dropWhile]
  conv_rhs => rw [h]
  unfold text
  simp only [read, ← List.append_assoc]
  exact (List.prefix_append_right_inj _).2 (List.takeWhile_prefix _)

/-- the base of the digits found, told from them -/
theorem read_radix (h : (read base s).digits ≠ []) : (read base s).radix base = radixOf base (body s) := by
  have hhead : hexOf base (body s) = none → (read base s).digits.head? = (body s).head? := by
    intro hhex
    have hafter : afterHex base (body s) = body s := by simp [afterHex, hhex]
    simp only [read] at h ⊢
    rw [hafter] at h ⊢
    -- the first digit is the first byte
    generalize radixOf base (body s) = r at h ⊢
    generalize body s = t at h ⊢
    cases t with
    | nil => rfl
    | cons b t =>
      unfold digitsOf at h ⊢
      by_cases hb : isDigitOf r b = true
      · rw [List.takeWhile_cons_of_pos hb]
        rfl
      · rw [List.takeWhile_cons_of_neg hb] at h
        exact absurd rfl h
  unfold radix radixOf
  by_cases hbase : base ≠ 0
  · rw [if_pos hbase, if_pos hbase]
  · rw [if_neg hbase, if_neg hbase]
    have hread : (read base s).hex = hexOf base (body s) := rfl
    cases hhex : hexOf base (body s) with
    | none => simp only [hread, hhex, hhead hhex]
    | some x => simp only [hread, hhex, Option.isSome_some, if_true]

theorem read_matches (h : (read base s).digits ≠ []) : Matches base (read base s) where
  space b hb := by
    have := List.all_takeWhile (p := isSpace) (l := s)
    exact List.all_eq_true.1 this b hb
  sign b hb := by
    simp only [read] at hb
    cases ht : s.dropWhile isSpace with
    | nil =>
      rw [ht] at hb
      cases hb
    | cons c t =>
      rw [ht, signOf] at hb
      split at hb
      · cases hb
        assumption
      · cases hb
  hex x hx := by
    obtain ⟨hb, hx, -⟩ := hexOf_eq_some.1 hx
    exact ⟨hx, hb⟩
  digits := by
    refine ⟨h, ?_⟩
    rw [read_radix h]
    refine forall₂_values _ fun b hb => ?_
    have := List.all_takeWhile (p := isDigitOf (radixOf base (body s))) (l := afterHex base (body s))
    exact List.all_eq_true.1 this b hb

end Numeral

/-! ### It is the longest -/

namespace Matches

open Numeral

variable {base : ℕ} {s u : List UInt8} {n : Numeral}

/-- a numeral's digits begin with a digit -/
theorem first (h : Matches base n) : ∃ b bs v, n.digits = b :: bs ∧ IsDigit (n.radix base) b v := by
  obtain ⟨hne, hall⟩ := h.digits
  cases hd : n.digits with
  | nil => exact absurd hd hne
  | cons b bs =>
    rw [hd] at hall
    obtain ⟨v, vs, hb, -, -⟩ := List.forall₂_cons_left_iff.1 hall
    exact ⟨b, bs, v, rfl, hb⟩

/-- what stands after the white space of a numeral: no white space -/
theorem not_space (h : Matches base n) (u : List UInt8) :
    (n.sign.toList ++ ((n.hex.elim [] fun x => [0x30, x]) ++ n.digits ++ u)).head?.all (fun b => !isSpace b) = true := by
  obtain ⟨b, bs, v, hd, hb⟩ := h.first
  cases hs : n.sign with
  | some c =>
    rcases h.sign c hs with rfl | rfl <;> rfl
  | none =>
    cases hx : n.hex with
    | some x => rfl
    | none =>
      rw [hd]
      simp [isDigit_not_space hb]

/-- and after its sign: no sign -/
theorem not_sign (h : Matches base n) (u : List UInt8) :
    signOf ((n.hex.elim [] fun x => [0x30, x]) ++ n.digits ++ u) = none := by
  obtain ⟨b, bs, v, hd, hb⟩ := h.first
  cases hx : n.hex with
  | some x => rfl
  | none =>
    rw [hd]
    obtain ⟨h₁, h₂⟩ := isDigit_not_sign hb
    simp [signOf, h₁, h₂]

/-- a numeral at the front of `s` has the white space and the sign that are read, and its digits stand where they are read -/
theorem front (h : Matches base n) (hu : s = n.text ++ u) :
    s.takeWhile isSpace = n.space ∧ signOf (s.dropWhile isSpace) = n.sign ∧
      body s = (n.hex.elim [] fun x => [0x30, x]) ++ n.digits ++ u := by
  have hs : s = n.space ++ (n.sign.toList ++ ((n.hex.elim [] fun x => [0x30, x]) ++ n.digits ++ u)) := by
    rw [hu, text, List.append_assoc, List.append_assoc]
  obtain ⟨h₁, h₂⟩ := takeWhile_append h.space (h.not_space u)
  rw [← hs] at h₁ h₂
  have hsign : signOf (s.dropWhile isSpace) = n.sign := by
    rw [h₂]
    cases hn : n.sign with
    | none =>
      rw [Option.toList_none, List.nil_append]
      exact h.not_sign u
    | some c =>
      rcases h.sign c hn with rfl | rfl <;> rfl
  refine ⟨h₁, hsign, ?_⟩
  have happ := sign_append (s.dropWhile isSpace)
  rw [hsign] at happ
  exact List.append_cancel_left (happ.trans h₂)

theorem length_text (n : Numeral) : n.text.length =
    n.space.length + (n.sign.toList.length + ((n.hex.elim [] fun x => [(0x30 : UInt8), x]).length + n.digits.length)) := by
  simp only [text, List.length_append]

/-- where the prefix is the one that is read, the digits are the first of those that are -/
theorem le_of_hex (h : Matches base n) (hs : n.text ++ u = s) (hhex : hexOf base (body s) = n.hex)
    (hradix : radixOf base (body s) = n.radix base) :
    (read base s).digits ≠ [] ∧ n.text.length ≤ (read base s).text.length ∧
      (n.text.length = (read base s).text.length → n = read base s) := by
  obtain ⟨hspace, hsign, hbody⟩ := h.front hs.symm
  obtain ⟨hne, hall⟩ := h.digits
  have hafter : afterHex base (body s) = n.digits ++ u := by
    have happ := hex_append base (body s)
    rw [hhex] at happ
    rw [List.append_assoc] at hbody
    exact List.append_cancel_left (happ.trans hbody)
  have hdigits : (read base s).digits = n.digits ++ digitsOf (n.radix base) u := by
    show digitsOf (radixOf base (body s)) (afterHex base (body s)) = _
    rw [hradix, hafter]
    exact List.takeWhile_append_of_pos (digits_all hall)
  have hsame : (read base s).space = n.space ∧ (read base s).sign = n.sign ∧ (read base s).hex = n.hex :=
    ⟨hspace, hsign, hhex⟩
  have hlen : (read base s).text.length = n.text.length + (digitsOf (n.radix base) u).length := by
    rw [length_text, length_text, hsame.1, hsame.2.1, hsame.2.2, hdigits, List.length_append]
    omega
  refine ⟨?_, by omega, fun heq => ?_⟩
  · rw [hdigits]
    exact List.append_ne_nil_of_left_ne_nil hne _
  · have hnil : digitsOf (n.radix base) u = [] := List.length_eq_zero_iff.1 (by omega)
    rw [hnil, List.append_nil] at hdigits
    have hvalues : (read base s).values = n.values := by
      show valuesOf (radixOf base (body s)) (read base s).digits = _
      rw [hradix, hdigits, values_eq hall]
    exact Numeral.ext hsame.1.symm hsame.2.1.symm hsame.2.2.symm hdigits.symm hvalues.symm

/-- no numeral at the front of `s` is longer than the one that is read, and one as long is it -/
theorem le_read (h : Matches base n) (hu : n.text <+: s) :
    (read base s).digits ≠ [] ∧ n.text.length ≤ (read base s).text.length ∧
      (n.text.length = (read base s).text.length → n = read base s) := by
  obtain ⟨u, hu⟩ := hu
  obtain ⟨hspace, hsign, hbody⟩ := h.front hu.symm
  obtain ⟨b, bs, v, hd, hb⟩ := h.first
  cases hx : n.hex with
  | some x =>
    obtain ⟨hletter, hbase⟩ := h.hex x hx
    have hradix : n.radix base = 16 := by
      rcases hbase with rfl | rfl <;> simp [radix, hx]
    have hhex : hexOf base (body s) = some x := by
      refine hexOf_eq_some.2 ⟨hbase, hletter, b, bs ++ u, ?_, ?_⟩
      · rw [hbody, hx, hd]
        rfl
      · rw [← hradix, digitValue_eq_some.2 hb]
        rfl
    refine le_of_hex h hu (hhex.trans hx.symm) ?_
    rw [hradix]
    rcases hbase with rfl | rfl <;> simp [radixOf, hhex]
  | none =>
    rw [hx, Option.elim_none, List.nil_append] at hbody
    cases hhex : hexOf base (body s) with
    | none =>
      refine le_of_hex h hu (hhex.trans hx.symm) ?_
      have hhead : (body s).head? = n.digits.head? := by
        rw [hbody, hd]
        rfl
      simp [radixOf, radix, hhex, hx, hhead]
    | some x =>
      -- a zero that the code has found to begin a prefix: the letter after it is no digit
      obtain ⟨hbase, hletter, d, w, hw, hdig⟩ := hexOf_eq_some.1 hhex
      rw [hbody, hd, List.cons_append, List.cons.injEq] at hw
      obtain ⟨rfl, hw⟩ := hw
      have hradix : n.radix base ≤ 16 := by
        rcases hbase with rfl | rfl <;> simp [radix, hx, hd]
      have hone : bs = [] := by
        cases bs with
        | nil => rfl
        | cons c cs =>
          rw [List.cons_append, List.cons.injEq] at hw
          obtain ⟨rfl, -⟩ := hw
          obtain ⟨-, hall⟩ := h.digits
          rw [hd] at hall
          obtain ⟨_, _, -, hall, -⟩ := List.forall₂_cons_left_iff.1 hall
          obtain ⟨v', _, hc, -, -⟩ := List.forall₂_cons_left_iff.1 hall
          exfalso
          unfold IsDigit at hc
          rcases hletter with rfl | rfl
          · have : (0x78 : UInt8).toNat = 120 := rfl
            omega
          · have : (0x58 : UInt8).toNat = 88 := rfl
            omega
      have hread : (read base s).digits ≠ [] := by
        have hr : radixOf base (body s) = 16 := by
          rcases hbase with rfl | rfl <;> simp [radixOf, hhex]
        have hafter : afterHex base (body s) = d :: w := by
          rw [afterHex, hhex, hbody, hd, hone]
          rw [hone, List.nil_append] at hw
          simp [hw]
        show digitsOf (radixOf base (body s)) (afterHex base (body s)) ≠ []
        rw [hr, hafter, digitsOf, List.takeWhile_cons_of_pos (p := isDigitOf 16) hdig]
        exact List.cons_ne_nil _ _
      have hlt : n.text.length < (read base s).text.length := by
        have hpos := List.length_pos_iff.2 hread
        have hsame : (read base s).space = n.space ∧ (read base s).sign = n.sign ∧ (read base s).hex = some x :=
          ⟨hspace, hsign, hhex⟩
        rw [length_text, length_text, hsame.1, hsame.2.1, hsame.2.2, hx, hd, hone]
        simp only [Option.elim_none, Option.elim_some, List.length_nil, List.length_cons]
        omega
      exact ⟨hread, hlt.le, fun heq => absurd heq hlt.ne⟩

end Matches

open Numeral

variable {base : ℕ} {s : List UInt8} {n : Numeral}

theorem longest_iff : Longest base s n ↔ (read base s).digits ≠ [] ∧ n = read base s := by
  constructor
  · intro h
    obtain ⟨hne, hle, heq⟩ := h.isNumeral.le_read h.isPrefix
    exact ⟨hne, heq (le_antisymm hle (h.longest _ (read_matches hne) (read_starts base s)))⟩
  · rintro ⟨hne, rfl⟩
    exact ⟨read_matches hne, read_starts base s, fun n' h hp => (h.le_read hp).2.1⟩

theorem no_numeral_iff : (∀ n, Matches base n → ¬n.text <+: s) ↔ (read base s).digits = [] := by
  constructor
  · intro h
    by_contra hne
    exact h _ (read_matches hne) (read_starts base s)
  · intro h n hn hp
    exact (hn.le_read hp).1 h

/-! ## The code finds it -/

section Run

variable {m : GuestMemory} {a acc r v : ℕ} {t : List UInt8} {any overflow : Bool}

theorem skipWs_spec (h : CString m a s) : skipWs m a = .ok (a + (s.takeWhile isSpace).length) := by
  induction s generalizing a with
  | nil =>
    unfold skipWs
    split
    · rename_i addr hp
      rw [h.nil] at hp
      cases hp
    · rename_i b hp
      rw [h.nil] at hp
      cases hp
      rfl
  | cons b s ih =>
    obtain ⟨hb, hs⟩ := h.cons
    unfold skipWs
    split
    · rename_i addr hp
      rw [hb] at hp
      cases hp
    · rename_i c hp
      rw [hb] at hp
      cases hp
      by_cases hspace : isSpace b = true
      · rw [if_pos hspace, ih hs, List.takeWhile_cons_of_pos hspace, List.length_cons]
        congr 1
        omega
      · rw [if_neg hspace, List.takeWhile_cons_of_neg hspace]
        rfl

/-- the number so far, or that it has passed 64 bits -/
def saturated (n : ℕ) : ℕ × Bool := if n < 2 ^ 64 then (n, false) else (ULONG_MAX, true)

/-- one digit more -/
theorem accumulate_saturated (hr : 0 < r) : accumulate (saturated acc).1 v r (saturated acc).2 = saturated (acc * r + v) := by
  have hle : acc ≤ acc * r := Nat.le_mul_of_pos_right acc hr
  unfold saturated
  by_cases h : acc < 2 ^ 64
  · rw [if_pos h]
    unfold accumulate
    simp only [Bool.false_eq_true, if_false]
    by_cases hv : acc * r + v < 2 ^ 64
    · rw [if_pos ⟨by omega, hv⟩, if_pos hv]
    · rw [if_neg (by omega), if_neg hv]
  · rw [if_neg h, if_neg (by omega)]
    rfl

/-- any number of digits: the accumulator is the number as far as 64 bits hold it, and never wraps -/
theorem consumeDigits_spec (acc : ℕ) (any : Bool) (hr : 0 < r) (h : CString m a s) :
    consumeDigits m a r (saturated acc).1 any (saturated acc).2 =
      .ok (a + (digitsOf r s).length,
        (saturated ((valuesOf r (digitsOf r s)).foldl (fun acc v => acc * r + v) acc)).1,
        any || !(digitsOf r s).isEmpty,
        (saturated ((valuesOf r (digitsOf r s)).foldl (fun acc v => acc * r + v) acc)).2) := by
  induction s generalizing a acc any with
  | nil =>
    unfold consumeDigits
    split
    · rename_i addr hp
      rw [h.nil] at hp
      cases hp
    · rename_i b hp
      rw [h.nil] at hp
      cases hp
      have hnone : digitValue 0 r = none := rfl
      rw [hnone]
      simp [digitsOf, valuesOf]
  | cons b s ih =>
    obtain ⟨hb, hs⟩ := h.cons
    unfold consumeDigits
    split
    · rename_i addr hp
      rw [hb] at hp
      cases hp
    · rename_i c hp
      rw [hb] at hp
      cases hp
      cases hd : digitValue b r with
      | none =>
        have hstop : digitsOf r (b :: s) = [] := List.takeWhile_cons_of_neg (by simp [isDigitOf, hd])
        rw [hstop]
        simp [valuesOf]
      | some v =>
        have hgo : digitsOf r (b :: s) = b :: digitsOf r s := List.takeWhile_cons_of_pos (by simp [isDigitOf, hd])
        have hvals : valuesOf r (b :: digitsOf r s) = v :: valuesOf r (digitsOf r s) := by simp [valuesOf, hd]
        simp only [accumulate_saturated hr]
        rw [ih _ _ hs, hgo, hvals, List.foldl_cons, List.length_cons]
        simp only [Bool.true_or, List.isEmpty_cons, Bool.not_false, Bool.or_true]
        congr 2
        omega

/-- a number read digit by digit from the front -/
theorem foldl_eq_ofDigits (r : ℕ) (vs : List ℕ) : vs.foldl (fun acc v => acc * r + v) 0 = Nat.ofDigits r vs.reverse := by
  rw [Nat.ofDigits_eq_foldr, List.foldr_reverse]
  congr 1
  funext acc v
  rw [Nat.cast_id, Nat.add_comm, Nat.mul_comm]

/-- how far the prefix goes -/
def hexLength (base : ℕ) (t : List UInt8) : ℕ := ((hexOf base t).elim [] fun x => [(0x30 : UInt8), x]).length

theorem consumeHex_spec {negative : Bool} (h : CString m a t) :
    consumeHex m a base negative = .ok (a + hexLength base t, negative, radixOf base t, a + hexLength base t) := by
  have hnone : digitValue 0 16 = none := rfl
  unfold consumeHex
  by_cases hbase : base = 0 ∨ base = 16
  · rw [if_pos hbase, h.head]
    match t with
    | [] =>
      simp only [bind, Except.bind, pure, Except.pure, List.headD_nil, hexLength, hexOf, radixOf]
      rcases hbase with rfl | rfl <;> rfl
    | [z] =>
      simp only [bind, Except.bind, pure, Except.pure, List.headD_cons, h.cons.2.nil]
      by_cases hz : z = 0x30 <;> rcases hbase with rfl | rfl <;> simp [hexLength, hexOf, radixOf, hz]
    | [z, x] =>
      have h₁ := h.cons.2.cons
      have h₂ : m.peek (a + 2) = .ok 0 := h₁.2.nil
      simp only [bind, Except.bind, pure, Except.pure, List.headD_cons, h₁.1, h₂, hnone]
      by_cases hz : z = 0x30 <;> by_cases hx : x = 0x78 ∨ x = 0x58 <;> rcases hbase with rfl | rfl <;>
        simp [hexLength, hexOf, radixOf, hz, hx]
    | z :: x :: d :: w =>
      have h₁ := h.cons.2.cons
      have h₂ : m.peek (a + 2) = .ok d := h₁.2.cons.1
      simp only [bind, Except.bind, pure, Except.pure, List.headD_cons, h₁.1, h₂]
      by_cases hz : z = 0x30 <;> by_cases hx : x = 0x78 ∨ x = 0x58 <;> by_cases hd : (digitValue d 16).isSome = true <;>
        rcases hbase with rfl | rfl <;> simp [hexLength, hexOf, radixOf, hz, hx, hd]
  · rw [if_neg hbase]
    have hhex : hexOf base t = none := by
      cases hh : hexOf base t with
      | none => rfl
      | some x => exact absurd (hexOf_eq_some.1 hh).1 hbase
    have hne : base ≠ 0 := fun h => hbase (.inl h)
    simp [hexLength, hhex, radixOf, hne, pure, Except.pure]

theorem consumePrefix_spec (h : CString m a t) :
    consumePrefix m a base =
      .ok (a + (signOf t).toList.length + hexLength base (afterSign t), decide (signOf t = some 0x2D),
        radixOf base (afterSign t), a + (signOf t).toList.length + hexLength base (afterSign t)) := by
  have hcursor : (if t.headD 0 = 0x2B ∨ t.headD 0 = 0x2D then a + 1 else a) = a + (signOf t).toList.length := by
    cases t with
    | nil => rfl
    | cons b t => by_cases hb : b = 0x2B ∨ b = 0x2D <;> simp [signOf, hb]
  have hnegative : decide (t.headD 0 = 0x2D) = decide (signOf t = some 0x2D) := by
    cases t with
    | nil => rfl
    | cons b t =>
      by_cases hb : b = 0x2B ∨ b = 0x2D
      · simp [signOf, hb]
      · rw [not_or] at hb
        simp [signOf, hb]
  have hafter : CString m (a + (signOf t).toList.length) (afterSign t) := by
    rw [← sign_append t] at h
    exact h.drop
  rw [consumePrefix, h.head]
  show consumeHex _ _ _ _ = _
  rw [hcursor, hnegative, consumeHex_spec hafter]

theorem radixOf_pos : 0 < radixOf base t := by
  unfold radixOf
  split
  · omega
  · split
    · decide
    · split <;> decide

/-- the number told by the digits that are read -/
def number (base : ℕ) (s : List UInt8) : ℕ := Nat.ofDigits (radixOf base (body s)) (read base s).values.reverse

theorem found (base : ℕ) (h : CString m a s) : ∃ p q,
    skipWs m a = .ok p ∧ consumePrefix m p base = .ok (q, (read base s).negative, radixOf base (body s), q) ∧
      consumeDigits m q (radixOf base (body s)) 0 false false =
        .ok (a + (read base s).text.length, (saturated (number base s)).1, !(read base s).digits.isEmpty,
          (saturated (number base s)).2) := by
  have hspace : CString m (a + (s.takeWhile isSpace).length) (s.dropWhile isSpace) := by
    rw [← List.takeWhile_append_dropWhile (p := isSpace) (l := s)] at h
    exact h.drop
  have hsign : CString m (a + (s.takeWhile isSpace).length + (signOf (s.dropWhile isSpace)).toList.length) (body s) := by
    rw [← sign_append (s.dropWhile isSpace)] at hspace
    exact hspace.drop
  have hhex : CString m (a + (s.takeWhile isSpace).length + (signOf (s.dropWhile isSpace)).toList.length +
      hexLength base (body s)) (afterHex base (body s)) := by
    rw [← hex_append base (body s)] at hsign
    exact hsign.drop
  refine ⟨_, _, skipWs_spec h, consumePrefix_spec hspace, ?_⟩
  have hdigits := consumeDigits_spec (r := radixOf base (body s)) 0 false radixOf_pos hhex
  rw [foldl_eq_ofDigits] at hdigits
  refine hdigits.trans ?_
  simp only [Matches.length_text, Numeral.read, number, hexLength, Bool.false_or, Nat.add_assoc]

end Run

/-! ## The four functions -/

/-- the end stored, where it is asked for -/
def Context.stored (c : Context) (slot value : ℕ) : Context :=
  if slot = 0 then c else { c with mem := c.mem.put slot (Bytes.leBytes 8 value) }

/-- `ERANGE` where the number does not fit, and else what errno was -/
def Context.ranged (c : Context) (fits : Prop) [Decidable fits] : Context := if fits then c else { c with errno := ERANGE }

namespace Numeral

/-- the number with its sign -/
def signed (n : Numeral) (base : ℕ) : ℤ := if n.negative then -n.magnitude base else n.magnitude base

/-- the nearest there is in 64 bits -/
def clamp (v : ℤ) : ℤ := max (-2 ^ 63) (min v (2 ^ 63 - 1))

/-- as an unsigned number of 64 bits, negated in these -/
def unsigned (n : Numeral) (base : ℕ) : ℕ :=
  if 2 ^ 64 ≤ n.magnitude base then ULONG_MAX
  else if n.negative then (2 ^ 64 - n.magnitude base) % 2 ^ 64
  else n.magnitude base

end Numeral

section Family

variable {c : Context} {nptr endptr : ℕ} {b : ℤ}

theorem writeEndptr_ok {value : ℕ} (h : endptr = 0 ∨ ∀ i : ℕ, i < 8 → c.mem.mapped (endptr + i) = true) :
    writeEndptr endptr value c = .ok () (c.stored endptr value) := by
  unfold writeEndptr Context.stored
  rcases h with h | h
  · rw [if_pos h, if_pos h]
  · rw [if_pos h]
    split <;> rfl

theorem reads_ok {α : Type} {f : GuestMemory → Except ℕ α} {x : α} (h : f c.mem = .ok x) : reads f c = .ok x c := by
  rw [reads, h]

theorem number_eq (h : (read base s).digits ≠ []) : number base s = (read base s).magnitude base := by
  rw [number, magnitude, read_radix h]

theorem strtolImpl_eq (hs : CString c.mem nptr s) (hslot : endptr = 0 ∨ ∀ i : ℕ, i < 8 → c.mem.mapped (endptr + i) = true)
    (hbase : b = 0 ∨ 2 ≤ b ∧ b ≤ 36) :
    strtolImpl nptr endptr b c =
      if (read b.toNat s).digits = [] then .ok 0 (c.stored endptr nptr)
      else
        .ok (clamp ((read b.toNat s).signed b.toNat))
          ((c.stored endptr (nptr + (read b.toNat s).text.length)).ranged
            (-2 ^ 63 ≤ (read b.toNat s).signed b.toNat ∧ (read b.toNat s).signed b.toNat < 2 ^ 63)) := by
  obtain ⟨p, q, hskip, hprefix, hdigits⟩ := found b.toNat hs
  unfold strtolImpl
  rw [if_neg (by omega), if_neg hs.ne_zero]
  dsimp only
  rw [bind_of_ok (reads_ok (f := fun m => skipWs m nptr) hskip),
    bind_of_ok (reads_ok (f := fun m => consumePrefix m p b.toNat) hprefix),
    bind_of_ok (reads_ok (f := fun m => consumeDigits m q (radixOf b.toNat (body s)) 0 false false) hdigits)]
  dsimp only
  by_cases hnil : (read b.toNat s).digits = []
  · rw [if_pos hnil]
    simp only [hnil, List.isEmpty_nil, Bool.not_true, if_true]
    rw [bind_of_ok (writeEndptr_ok hslot)]
    rfl
  · have hany : (!(read b.toNat s).digits.isEmpty) ≠ false := by simpa using hnil
    rw [if_neg hnil, if_neg hany, bind_of_ok (writeEndptr_ok hslot), number_eq hnil]
    generalize hn : read b.toNat s = n
    generalize hm : n.magnitude b.toNat = v
    generalize c.stored endptr (nptr + n.text.length) = c'
    have hmin : LONG_MIN_NEG = 2 ^ 63 := rfl
    have hmax : LONG_MAX = 2 ^ 63 - 1 := rfl
    -- a number that does not fit is answered by the limit on its side, and `ERANGE`
    have hout : ∀ limit : ℤ, (setErrno ERANGE >>= fun _ => (pure limit : M ℤ)) c' = .ok limit { c' with errno := ERANGE } :=
      fun limit => rfl
    simp only [signed, hm, clamp, Context.ranged]
    cases n.negative with
    | true =>
      simp only [if_true]
      rcases lt_or_ge v (2 ^ 64) with hv | hv
      · simp only [show saturated v = (v, false) from if_pos hv, Bool.false_eq_true, if_false]
        split
        · split
          · rw [if_pos (by omega), show max (-2 ^ 63) (min (-(v : ℤ)) (2 ^ 63 - 1)) = -2 ^ 63 by omega]
            rfl
          · rw [hout, if_neg (by omega), show max (-2 ^ 63) (min (-(v : ℤ)) (2 ^ 63 - 1)) = -2 ^ 63 by omega]
        · rw [if_pos (by omega), show max (-2 ^ 63) (min (-(v : ℤ)) (2 ^ 63 - 1)) = -v by omega]
          rfl
      · simp only [show saturated v = (ULONG_MAX, true) from if_neg (not_lt.2 hv), if_true]
        rw [hout, if_neg (by omega), show max (-2 ^ 63) (min (-(v : ℤ)) (2 ^ 63 - 1)) = -2 ^ 63 by omega]
    | false =>
      simp only [Bool.false_eq_true, if_false]
      rcases lt_or_ge v (2 ^ 64) with hv | hv
      · simp only [show saturated v = (v, false) from if_pos hv, Bool.false_eq_true, if_false]
        split
        · rw [hout, if_neg (by omega), show max (-2 ^ 63) (min (v : ℤ) (2 ^ 63 - 1)) = 2 ^ 63 - 1 by omega]
        · rw [if_pos (by omega), show max (-2 ^ 63) (min (v : ℤ) (2 ^ 63 - 1)) = v by omega]
          rfl
      · simp only [show saturated v = (ULONG_MAX, true) from if_neg (not_lt.2 hv), if_true]
        rw [hout, if_neg (by omega), show max (-2 ^ 63) (min (v : ℤ) (2 ^ 63 - 1)) = 2 ^ 63 - 1 by omega]

theorem strtoulImpl_eq (hs : CString c.mem nptr s) (hslot : endptr = 0 ∨ ∀ i : ℕ, i < 8 → c.mem.mapped (endptr + i) = true)
    (hbase : b = 0 ∨ 2 ≤ b ∧ b ≤ 36) :
    strtoulImpl nptr endptr b c =
      if (read b.toNat s).digits = [] then .ok 0 (c.stored endptr nptr)
      else
        .ok ((read b.toNat s).unsigned b.toNat)
          ((c.stored endptr (nptr + (read b.toNat s).text.length)).ranged ((read b.toNat s).magnitude b.toNat < 2 ^ 64)) := by
  obtain ⟨p, q, hskip, hprefix, hdigits⟩ := found b.toNat hs
  unfold strtoulImpl
  rw [if_neg (by omega), if_neg hs.ne_zero]
  dsimp only
  rw [bind_of_ok (reads_ok (f := fun m => skipWs m nptr) hskip),
    bind_of_ok (reads_ok (f := fun m => consumePrefix m p b.toNat) hprefix),
    bind_of_ok (reads_ok (f := fun m => consumeDigits m q (radixOf b.toNat (body s)) 0 false false) hdigits)]
  dsimp only
  by_cases hnil : (read b.toNat s).digits = []
  · rw [if_pos hnil]
    simp only [hnil, List.isEmpty_nil, Bool.not_true, if_true]
    rw [bind_of_ok (writeEndptr_ok hslot)]
    rfl
  · have hany : (!(read b.toNat s).digits.isEmpty) ≠ false := by simpa using hnil
    rw [if_neg hnil, if_neg hany, bind_of_ok (writeEndptr_ok hslot), number_eq hnil]
    generalize hn : read b.toNat s = n
    generalize hm : n.magnitude b.toNat = v
    generalize c.stored endptr (nptr + n.text.length) = c'
    simp only [unsigned, hm, Context.ranged]
    rcases lt_or_ge v (2 ^ 64) with hv | hv
    · rw [if_neg (not_le.2 hv), if_pos hv]
      simp only [show saturated v = (v, false) from if_pos hv, Bool.false_eq_true, if_false]
      rfl
    · rw [if_pos hv, if_neg (not_lt.2 hv)]
      simp only [show saturated v = (ULONG_MAX, true) from if_neg (not_lt.2 hv), if_true]
      rfl

/-- each of the four consumes the longest numeral there is and stores where it ends, answers its number as far as the type
holds it and says `ERANGE` where it does not; where there is none it stores the start, answers zero and leaves errno -/
theorem strtol_family (c : Context) (nptr endptr : ℕ) (b : ℤ) (s : List UInt8) (hs : CString c.mem nptr s)
    (hslot : endptr = 0 ∨ ∀ i : ℕ, i < 8 → c.mem.mapped (endptr + i) = true) (hbase : b = 0 ∨ 2 ≤ b ∧ b ≤ 36) :
    (∀ n, Longest b.toNat s n →
      let ended := c.stored endptr (nptr + n.text.length)
      let fits := -2 ^ 63 ≤ n.signed b.toNat ∧ n.signed b.toNat < 2 ^ 63
      strtol nptr endptr b c = .ok (clamp (n.signed b.toNat)) (ended.ranged fits) ∧
        strtoll nptr endptr b c = .ok (clamp (n.signed b.toNat)) (ended.ranged fits) ∧
        strtoul nptr endptr b c = .ok (n.unsigned b.toNat) (ended.ranged (n.magnitude b.toNat < 2 ^ 64)) ∧
        strtoull nptr endptr b c = .ok (n.unsigned b.toNat) (ended.ranged (n.magnitude b.toNat < 2 ^ 64))) ∧
      ((∀ n, Matches b.toNat n → ¬n.text <+: s) →
        strtol nptr endptr b c = .ok 0 (c.stored endptr nptr) ∧ strtoll nptr endptr b c = .ok 0 (c.stored endptr nptr) ∧
          strtoul nptr endptr b c = .ok 0 (c.stored endptr nptr) ∧
          strtoull nptr endptr b c = .ok 0 (c.stored endptr nptr)) ∧
      ((∃ n, Longest b.toNat s n) ∨ ∀ n, Matches b.toNat n → ¬n.text <+: s) := by
  have hsigned := strtolImpl_eq hs hslot hbase
  have hunsigned := strtoulImpl_eq hs hslot hbase
  refine ⟨fun n hn => ?_, fun hnone => ?_, ?_⟩
  · obtain ⟨hne, rfl⟩ := longest_iff.1 hn
    rw [if_neg hne] at hsigned hunsigned
    exact ⟨hsigned, hsigned, hunsigned, hunsigned⟩
  · rw [if_pos (no_numeral_iff.1 hnone)] at hsigned hunsigned
    exact ⟨hsigned, hsigned, hunsigned, hunsigned⟩
  · rw [no_numeral_iff]
    rcases em ((read b.toNat s).digits = []) with h | h
    · exact .inr h
    · exact .inl ⟨_, longest_iff.2 ⟨h, rfl⟩⟩

/-- a page of memory with a string at its start -/
def stringPage (s : List UInt8) : GuestMemory where
  bytes x := s.getD (x - 4096) 0
  mapped x := decide (4096 ≤ x ∧ x < 8192)
  null := page_null
  user := page_user

theorem stringPage_holds (s : List UInt8) (hlen : s.length < 4096) (htext : ∀ b ∈ s, b ≠ 0) :
    CString (stringPage s) 4096 s where
  mapped i hi := decide_eq_true ⟨by omega, by omega⟩
  bytes i _ := by
    show s.getD (4096 + i - 4096) 0 = _
    rw [Nat.add_sub_cancel_left]
  text := htext

/-- " -0x1Fz" -/
def minusHex : List UInt8 := [0x20, 0x2D, 0x30, 0x78, 0x31, 0x46, 0x7A]

theorem strtol_family_minusHex :
    strtol 4096 0 0 ⟨stringPage minusHex, ⟨0⟩⟩ = .ok (-31) ⟨stringPage minusHex, ⟨0⟩⟩ ∧
      strtoul 4096 5000 0 ⟨stringPage minusHex, ⟨0⟩⟩ =
        .ok (2 ^ 64 - 31) ⟨(stringPage minusHex).put 5000 (Bytes.leBytes 8 (4096 + 6)), ⟨0⟩⟩ := by
  have hs : CString (stringPage minusHex) 4096 minusHex := stringPage_holds _ (by decide) (by simp [minusHex])
  have hn : Longest 0 minusHex (read 0 minusHex) := longest_iff.2 ⟨by decide, rfl⟩
  have hslot : ∀ i : ℕ, i < 8 → (stringPage minusHex).mapped (5000 + i) = true := fun i hi =>
    decide_eq_true ⟨by omega, by omega⟩
  refine ⟨?_, ?_⟩
  · exact ((strtol_family ⟨stringPage minusHex, ⟨0⟩⟩ 4096 0 0 minusHex hs (.inl rfl) (.inl rfl)).1 _ hn).1
  · exact ((strtol_family ⟨stringPage minusHex, ⟨0⟩⟩ 4096 5000 0 minusHex hs (.inr hslot) (.inl rfl)).1 _ hn).2.2.1

end Family

end Omnidroid.Bionic.Numerics
