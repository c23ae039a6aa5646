/-
The `printf` engine (`omni-bionic/src/printf.rs`): a format string and a list of arguments to text.

A counted run of one character (a width's padding, an integer's precision) is never built: it is emitted as far as the budget
reaches. Floating-point arithmetic and the language's own formatting of a number are taken from outside (`F64`); the language
formats with counts of 16 bits and panics on a greater one (`count`).
- `parseSpec`, `plan`, `iter`, `formatBounded`, `format`: the code, a turn of the loop at a time.
- `Sink.add`, `Body.field`, `layout`: what a field is, whatever the budget; `emitPadded_eq`: `emit_padded` adds that field.
-/
import Mathlib.Data.List.DropRight
import Omnidroid.Lib.Answers

namespace Omnidroid.Bionic.Printf

/-! ## The code -/

abbrev Text := List Char

def MAX_FIELD_WIDTH : ℕ := 64 * 1024
def MAX_OUTPUT : ℕ := 1024 * 1024
def EXACT_FRACTION_DIGITS : ℕ := 1074
/-- `usize::MAX`: a budget that is none -/
def usizeMax : ℕ := 2 ^ 64 - 1

def utf8Len (s : Text) : ℕ := (s.map Char.utf8Size).sum

inductive FormatArg where
  | int (n : ℤ)
  | uint (n : ℕ)
  | ptr (n : ℕ)
  | double (bits : UInt64)
  | str (s : Text)

inductive FormatError where
  | nNotSupported
  | missingArgument
  | unknownSpecifier (c : Char)
  | malformedFormat (why : String)
  | longDoubleUnsupported (c : Char)
  | fieldTooWide (conversion : Char) (requested limit : ℕ)
  | outputTooLarge (limit : ℕ)
  | wideUnsupported (c : Char)
deriving DecidableEq

/-- how a call ends that does not come to its end -/
inductive Stop where
  | error (e : FormatError)
  | panic
deriving DecidableEq

structure Flags where
  left : Bool := false
  plus : Bool := false
  space : Bool := false
  alt : Bool := false
  zero : Bool := false
deriving DecidableEq

inductive Length where
  | none | hh | h | l | ll | z | j | t | q | L
deriving DecidableEq

inductive Count where
  | absent
  | fixed (n : ℕ)
  | star
deriving DecidableEq

structure Spec where
  flags : Flags
  width : Count
  precision : Count
  length : Length
  conv : Char
deriving DecidableEq

/-! ### The parser -/

def malformed {α : Type} (why : String) : Except FormatError α := .error (.malformedFormat why)

def char (b : UInt8) : Char := Char.ofNat b.toNat

def isDigit (b : UInt8) : Bool := 48 ≤ b ∧ b ≤ 57

def parseFlags (flags : Flags) : List UInt8 → Except FormatError (Flags × List UInt8)
  | [] => malformed "flags run to end"
  | b :: rest =>
    match char b with
    | '-' => parseFlags { flags with left := true } rest
    | '+' => parseFlags { flags with plus := true } rest
    | ' ' => parseFlags { flags with space := true } rest
    | '#' => parseFlags { flags with alt := true } rest
    | '0' => parseFlags { flags with zero := true } rest
    | _ => .ok (flags, b :: rest)

/-- digits as a number, which stays at the end of its type -/
def parseDigits (n : ℕ) : List UInt8 → ℕ × List UInt8
  | [] => (n, [])
  | b :: rest =>
    if isDigit b then parseDigits (min (min (n * 10) usizeMax + (b.toNat - 48)) usizeMax) rest else (n, b :: rest)

def parseWidth (rest : List UInt8) : Count × List UInt8 :=
  match rest with
  | [] => (.absent, [])
  | b :: after =>
    if char b = '*' then (.star, after)
    else if isDigit b then
      let digits := parseDigits 0 (b :: after)
      (.fixed digits.1, digits.2)
    else (.absent, b :: after)

def parsePrecision : List UInt8 → Except FormatError (Count × List UInt8)
  | [] => malformed "width runs to end"
  | b :: rest =>
    if char b = '.' then
      match rest with
      | [] => malformed "precision runs to end"
      | c :: after =>
        if char c = '*' then .ok (.star, after)
        else
          let digits := parseDigits 0 (c :: after)
          .ok (.fixed digits.1, digits.2)
    else .ok (.absent, b :: rest)

def lengthOf : Char → Option Length
  | 'h' => some .h
  | 'l' => some .l
  | 'z' => some .z
  | 'j' => some .j
  | 't' => some .t
  | 'q' => some .q
  | 'L' => some .L
  | _ => Option.none

/-- the last modifier counts; `hh` and `ll` are one -/
def parseLength (length : Length) : List UInt8 → Except FormatError (Length × UInt8 × List UInt8)
  | [] => malformed "length runs to end"
  | b :: rest =>
    match lengthOf (char b) with
    | Option.none => .ok (length, b, rest)
    | some single =>
      match rest with
      | [] => malformed "length runs to end"
      | c :: after =>
        if (single = .h ∨ single = .l) ∧ c = b then parseLength (if single = .h then .hh else .ll) after
        else parseLength single (c :: after)

def conversions : List Char := ['d', 'i', 'u', 'o', 'x', 'X', 'c', 's', 'p', 'e', 'E', 'f', 'F', 'g', 'G', 'a', 'A']

def parseSpec (rest : List UInt8) : Except FormatError (Spec × List UInt8) := do
  let (flags, rest) ← parseFlags {} rest
  let width := parseWidth rest
  let (precision, rest) ← parsePrecision width.2
  if rest = [] then malformed "spec runs to end"
  else
    let (length, b, rest) ← parseLength .none rest
    let conv := char b
    if conv = 'n' then .error .nNotSupported
    else if conv ≠ '%' ∧ conv ∉ conversions then .error (.unknownSpecifier conv)
    else .ok (⟨flags, width.1, precision, length, conv⟩, rest)

/-! ### The pre-scan -/

inductive ArgKind where
  | int | uint | ptr | double | str
deriving DecidableEq

def kindOf (conv : Char) (length : Length) : Except FormatError ArgKind :=
  match conv with
  | 'e' | 'E' | 'f' | 'F' | 'g' | 'G' | 'a' | 'A' =>
    if length = .L then .error (.longDoubleUnsupported conv) else .ok .double
  | 's' => if length = .l then .error (.wideUnsupported conv) else .ok .str
  | 'c' => if length = .l then .error (.wideUnsupported conv) else .ok .int
  | 'd' | 'i' => .ok .int
  | 'u' | 'o' | 'x' | 'X' => .ok .uint
  | 'p' => .ok .ptr
  | other => .error (.unknownSpecifier other)

/-- the arguments that a specification's counts take -/
def Count.kinds : Count → List ArgKind
  | .star => [.int]
  | _ => []

/-- the kinds a specification takes -/
def Spec.kinds (spec : Spec) : Except FormatError (List ArgKind) :=
  if spec.conv = '%' then .ok (spec.width.kinds ++ spec.precision.kinds)
  else do return spec.width.kinds ++ spec.precision.kinds ++ [← kindOf spec.conv spec.length]

/-- at most `fuel` turns of the loop; each takes a byte or more -/
def planLoop : ℕ → List UInt8 → Except FormatError (List ArgKind)
  | _, [] => .ok []
  | 0, _ => .ok []
  | fuel + 1, b :: rest =>
    if char b ≠ '%' then planLoop fuel rest
    else if rest = [] then malformed "trailing %"
    else do
      let (spec, rest) ← parseSpec rest
      let kinds ← spec.kinds
      return kinds ++ (← planLoop fuel rest)

def plan (fmt : List UInt8) : Except FormatError (List ArgKind) := planLoop fmt.length fmt

/-! ### The destination -/

/-- what a call has appended, and its `Bound` -/
structure Sink where
  out : Text := []
  budget : ℕ
  kept : ℕ := 0
  full : ℕ := 0

namespace Sink

variable (s : Sink)

def isBounded : Bool := s.budget ≠ usizeMax

def room : ℕ := s.budget - s.kept

def count (n : ℕ) : ℕ := min (s.full + n) usizeMax

def text (text : Text) : Sink :=
  let asked := text.length
  if asked ≤ s.room then { s with out := s.out ++ text, kept := s.kept + asked, full := s.count asked }
  else { s with out := s.out ++ text.take s.room, kept := s.kept + s.room, full := s.count asked }

def ch (c : Char) : Sink :=
  if 0 < s.room then { s with out := s.out ++ [c], kept := s.kept + 1, full := s.count 1 }
  else { s with full := s.count 1 }

def fill (c : Char) (n : ℕ) : Sink :=
  let take := min s.room n
  { s with out := s.out ++ List.replicate take c, kept := s.kept + take, full := s.count n }

end Sink

/-- without a budget always; under one, where the digits of a precision could not be placed -/
def refusesWide (bounded isPrecision : Bool) (conv : Char) : Bool :=
  if bounded then isPrecision && decide (conv ∈ ['e', 'E', 'g', 'G', 'a', 'A']) else true

structure Body where
  text : Text
  runAt : ℕ := 0
  run : Char := '0'
  runLen : ℕ := 0

def Body.len (b : Body) : ℕ := min (b.text.length + b.runLen) usizeMax

def Body.emit (b : Body) (s : Sink) (start : ℕ) : Sink :=
  if b.runLen = 0 then s.text (b.text.drop start)
  else ((s.text ((b.text.take b.runAt).drop start)).fill b.run b.runLen).text (b.text.drop b.runAt)

def startsWith (body : Text) (s : String) : Bool := s.toList.isPrefixOf body

def numericNeedsSpaceFirst (body : Text) : Bool :=
  startsWith body "inf" || startsWith body "-inf" || startsWith body "+inf" || startsWith body "nan" ||
    startsWith body "-nan" || startsWith body "+nan" || startsWith body "(nil)" || body.isEmpty

def prefixLen (body : Text) : ℕ :=
  let i := if body.head? = some '-' ∨ body.head? = some '+' ∨ body.head? = some ' ' then 1 else 0
  match body.drop i with
  | '0' :: 'x' :: _ | '0' :: 'X' :: _ => i + 2
  | _ => i

def emitPadded (s : Sink) (body : Body) (width : Option ℕ) (flags : Flags) (precision : Option ℕ) : Sink :=
  let pad := width.getD 0 - body.len
  if pad = 0 then body.emit s 0
  else
    let zeroOk := flags.zero && precision.isNone && !numericNeedsSpaceFirst body.text
    if flags.left then (body.emit s 0).fill ' ' pad
    else if zeroOk then
      let split := prefixLen body.text
      body.emit ((s.text (body.text.take split)).fill '0' pad) split
    else body.emit (s.fill ' ' pad) 0

/-! ### Floating-point bodies -/

/-- the arithmetic and the formatting of `f64` that the code uses -/
structure F64 where
  /-- the digits of `format!("{:.*}", precision, v)`: those before the point, and those after it, as numbers -/
  fixedParts : UInt64 → ℕ → ℕ × ℕ
  /-- `format_exp`: the digit before the point, those after it as a number, and the exponent, rounded to the precision -/
  expParts : UInt64 → ℕ → ℕ × ℕ × ℤ
  /-- the exponent that `decimal_decompose` finds for `v.abs()` -/
  exponent : UInt64 → ℤ
  /-- `as f64` -/
  ofInt : ℤ → UInt64

def biased (v : UInt64) : ℕ := v.toNat / 2 ^ 52 % 2 ^ 11

def mantissa (v : UInt64) : ℕ := v.toNat % 2 ^ 52

def isNan (v : UInt64) : Bool := biased v = 0x7FF ∧ mantissa v ≠ 0

def isInfinite (v : UInt64) : Bool := biased v = 0x7FF ∧ mantissa v = 0

def isSignNegative (v : UInt64) : Bool := 2 ^ 63 ≤ v.toNat

def isFinite (v : UInt64) : Bool := biased v ≠ 0x7FF

def isZero (v : UInt64) : Bool := biased v = 0 ∧ mantissa v = 0

/-- a width or a precision handed to the language's formatter, which panics on one past 16 bits -/
def count (n : ℕ) : Except Stop ℕ := if n < 2 ^ 16 then .ok n else .error .panic

def decimal (n : ℕ) : Text := Nat.toDigits 10 n

/-- `{:0width$}` -/
def padZero (width : ℕ) (digits : Text) : Text := List.replicate (width - digits.length) '0' ++ digits

def upperIf (upper : Bool) (s : String) : Text := if upper then s.toList.map Char.toUpper else s.toList

/-- what is printed for no number, or none that is finite -/
def special (v : UInt64) (upper : Bool) : Text :=
  if isNan v then upperIf upper "nan" else upperIf upper (if isSignNegative v then "-inf" else "inf")

def signOf (v : UInt64) : Text := if isSignNegative v then ['-'] else []

/-- `format!("{:.*}", precision, v)` -/
def fixed (fl : F64) (v : UInt64) (precision : ℕ) : Text :=
  let (int, frac) := fl.fixedParts v precision
  signOf v ++ decimal int ++ if precision = 0 then [] else '.' :: padZero precision (decimal frac)

def expText (upper : Bool) (exp : ℤ) : Text :=
  (if upper then 'E' else 'e') :: (if exp < 0 then '-' else '+') :: padZero 2 (decimal exp.natAbs)

def formatExp (fl : F64) (v : UInt64) (precision : ℕ) (upper : Bool) : Except Stop Text :=
  if ¬isFinite v then .ok (special v upper)
  else
    let (int, frac, exp) := fl.expParts v precision
    if precision = 0 then .ok (signOf v ++ decimal int ++ expText upper exp)
    else do
      let width ← count precision
      return signOf v ++ decimal int ++ ['.'] ++ padZero width (decimal frac) ++ expText upper exp

def formatFixed (fl : F64) (v : UInt64) (precision : ℕ) (alt upper : Bool) : Except Stop Text :=
  if ¬isFinite v then .ok (special v upper)
  else do
    let s := fixed fl v (← count precision)
    return if alt ∧ precision = 0 ∧ '.' ∉ s then s ++ ['.'] else s

def trimEnd (c : Char) (s : Text) : Text := s.rdropWhile (· = c)

/-- `trim_end_matches('0').trim_end_matches('.')` where there is a point -/
def stripZeros (s : Text) : Text := if '.' ∈ s then trimEnd '.' (trimEnd '0' s) else s

def stripExpZeros (s : Text) (eChar : Char) : Text :=
  if eChar ∈ s then stripZeros (s.takeWhile (· ≠ eChar)) ++ s.dropWhile (· ≠ eChar) else s

def formatG (fl : F64) (v : UInt64) (precision : ℕ) (alt upper : Bool) : Except Stop Text :=
  if ¬isFinite v then .ok (special v upper)
  else
    let p := if precision = 0 then 1 else precision
    if isZero v then
      if alt then do return "0.".toList ++ padZero (← count (p - 1)) ['0'] else .ok ['0']
    else
      let exp := fl.exponent v
      if exp < -4 ∨ (p : ℤ) ≤ exp then do
        let s ← formatExp fl v (p - 1) upper
        return if alt then s else stripExpZeros s (if upper then 'E' else 'e')
      else do
        let s ← formatFixed fl v ((p : ℤ) - 1 - exp).toNat alt upper
        return if alt then s else stripZeros s

def hexDigits (n : ℕ) : Text := Nat.toDigits 16 n

def hexExp (upper : Bool) (exp : ℤ) : Text :=
  (if upper then 'P' else 'p') :: (if exp < 0 then '-' else '+') :: decimal exp.natAbs

def formatHexFloat (v : UInt64) (upper : Bool) : Text :=
  if ¬isFinite v then special v upper
  else
    let lead := signOf v ++ (if upper then "0X" else "0x").toList
    let nibbles := trimEnd '0' (padZero 13 (hexDigits (mantissa v)))
    if biased v = 0 then
      if mantissa v = 0 then lead ++ ['0'] ++ hexExp upper 0 else lead ++ "0.".toList ++ nibbles ++ hexExp upper (-1022)
    else
      let exp := (biased v : ℤ) - 1023
      if nibbles = [] then lead ++ ['1'] ++ hexExp upper exp else lead ++ "1.".toList ++ nibbles ++ hexExp upper exp

/-! ### The conversions -/

/-- the low `bits` bits as a signed number -/
def signed (bits : ℕ) (n : ℤ) : ℤ := (n + 2 ^ (bits - 1)) % 2 ^ bits - 2 ^ (bits - 1)

def unsigned (bits : ℕ) (n : ℤ) : ℕ := (n % 2 ^ bits).toNat

def asInt (arg : FormatArg) (length : Length) : Except FormatError ℤ := do
  let raw ← match arg with
    | .int n => .ok n
    | .uint n | .ptr n => .ok (signed 64 n)
    | _ => malformed "argument is not an integer"
  return match length with
    | .hh => signed 8 raw
    | .h => signed 16 raw
    | .none => signed 32 raw
    | _ => raw

def asUint (arg : FormatArg) (length : Length) : Except FormatError ℕ := do
  let raw ← match arg with
    | .int n => .ok (unsigned 64 n)
    | .uint n | .ptr n => .ok n
    | _ => malformed "argument is not an integer"
  return match length with
    | .hh => raw % 2 ^ 8
    | .h => raw % 2 ^ 16
    | .none => raw % 2 ^ 32
    | _ => raw

def asDouble (fl : F64) : FormatArg → Except FormatError UInt64
  | .double v => .ok v
  | .int n => .ok (fl.ofInt n)
  | .uint n => .ok (fl.ofInt n)
  | _ => malformed "argument is not a float"

/-- the digits of an integer under a precision, and how many zeros go before them -/
def precise (n : ℕ) (digits : Text) : Option ℕ → Text × ℕ
  | Option.none => (digits, 0)
  | some p => (if n = 0 ∧ p = 0 then [] else digits, p - digits.length)

def intBody (n : ℤ) (flags : Flags) (precision : Option ℕ) : Body :=
  let (digits, zeros) := precise n.natAbs (decimal n.natAbs) precision
  let sign : Text := if n < 0 then ['-'] else if flags.plus then ['+'] else if flags.space then [' '] else []
  { text := sign ++ digits, runAt := sign.length, runLen := zeros }

def uintBody (n : ℕ) (precision : Option ℕ) : Body :=
  let (digits, zeros) := precise n (decimal n) precision
  { text := digits, runLen := zeros }

def radixBody (conv : Char) (n : ℕ) (flags : Flags) (precision : Option ℕ) : Body :=
  let digits := match conv with
    | 'o' => Nat.toDigits 8 n
    | 'x' => hexDigits n
    | _ => (hexDigits n).map Char.toUpper
  let alternate := match conv with
    | 'o' => if flags.alt && digits.head? ≠ some '0' then "0" else ""
    | 'x' => if flags.alt && n ≠ 0 then "0x" else ""
    | _ => if flags.alt && n ≠ 0 then "0X" else ""
  let (body, zeros) := precise n digits precision
  let leadsWithZero := 0 < zeros ∨ body.head? = some '0'
  let alternate := if alternate = "0" ∧ leadsWithZero then "" else alternate
  { text := alternate.toList ++ body, runAt := alternate.length, runLen := zeros }

def pointerBody (ptr : ℕ) : Body := { text := if ptr = 0 then "(nil)".toList else "0x".toList ++ hexDigits ptr }

def fixedBody (fl : F64) (v : UInt64) (precision : Option ℕ) (alt upper : Bool) : Except Stop Body := do
  let asked := precision.getD 6
  let computed := min asked EXACT_FRACTION_DIGITS
  let s ← formatFixed fl v computed alt upper
  return { text := s, runAt := s.length, runLen := if isFinite v then asked - computed else 0 }

def lift {α : Type} (x : Except FormatError α) : Except Stop α := x.mapError .error

def bodyOf (fl : F64) (conv : Char) (length : Length) (flags : Flags) (precision : Option ℕ) (arg : FormatArg) :
    Except Stop Body :=
  match conv with
  | 'd' | 'i' => do return intBody (← lift (asInt arg length)) flags precision
  | 'u' => do return uintBody (← lift (asUint arg length)) precision
  | 'o' | 'x' | 'X' => do return radixBody conv (← lift (asUint arg length)) flags precision
  | 'c' => do return { text := [Char.ofNat (unsigned 8 (← lift (asInt arg length)))] }
  | 's' =>
    match arg with
    | .str s => .ok { text := (precision.elim s fun p => s.take p) }
    | .ptr 0 => .ok { text := (precision.elim "(null)".toList fun p => "(null)".toList.take p) }
    | _ => lift (malformed "%s needs a string")
  | 'p' =>
    match arg with
    | .ptr p | .uint p => .ok (pointerBody p)
    | _ => lift (malformed "%p needs a pointer")
  | 'e' | 'E' => do return { text := ← formatExp fl (← lift (asDouble fl arg)) (precision.getD 6) (conv = 'E') }
  | 'f' | 'F' => do fixedBody fl (← lift (asDouble fl arg)) precision flags.alt (conv = 'F')
  | 'g' | 'G' => do return { text := ← formatG fl (← lift (asDouble fl arg)) (precision.getD 6) flags.alt (conv = 'G') }
  | 'a' | 'A' => do return { text := formatHexFloat (← lift (asDouble fl arg)) (conv = 'A') }
  | other => .error (.error (.unknownSpecifier other))

/-! ### The loop -/

def nextArg : List FormatArg → Except FormatError (FormatArg × List FormatArg)
  | [] => .error .missingArgument
  | a :: rest => .ok (a, rest)

/-- the width, and the flags: a negative one is a positive one and `-` -/
def fetchWidth (flags : Flags) (args : List FormatArg) :
    Count → Except FormatError (Flags × Option ℕ × List FormatArg)
  | .absent => .ok (flags, Option.none, args)
  | .fixed n => .ok (flags, some n, args)
  | .star => do
    match ← nextArg args with
    | (.int n, rest) =>
      if 0 ≤ signed 32 n then .ok (flags, some (signed 32 n).toNat, rest)
      else .ok ({ flags with left := true }, some (signed 32 n).natAbs, rest)
    | _ => malformed "'*' width needs an int"

/-- the precision; a negative one is none -/
def fetchPrecision (args : List FormatArg) : Count → Except FormatError (Option ℕ × List FormatArg)
  | .absent => .ok (Option.none, args)
  | .fixed n => .ok (some n, args)
  | .star => do
    match ← nextArg args with
    | (.int n, rest) => .ok (if 0 ≤ signed 32 n then some (signed 32 n).toNat else Option.none, rest)
    | _ => malformed "'*' precision needs an int"

/-- a count past the cap, where it is still refused -/
def tooWide (bounded : Bool) (conv : Char) (isPrecision : Bool) : Option ℕ → Except FormatError Unit
  | Option.none => .ok ()
  | some n =>
    if MAX_FIELD_WIDTH < n ∧ refusesWide bounded isPrecision conv then .error (.fieldTooWide conv n MAX_FIELD_WIDTH) else .ok ()

structure St where
  rest : List UInt8
  args : List FormatArg
  sink : Sink

/-- one conversion, its specification parsed -/
def convert (fl : F64) (spec : Spec) (args : List FormatArg) (s : Sink) : Except Stop (List FormatArg × Sink) := do
  let (flags, width, args) ← lift (fetchWidth spec.flags args spec.width)
  let (precision, args) ← lift (fetchPrecision args spec.precision)
  lift (tooWide s.isBounded spec.conv false width)
  lift (tooWide s.isBounded spec.conv true precision)
  if spec.conv = '%' then return (args, s.ch '%')
  else
    let (arg, args) ← lift (nextArg args)
    let body ← bodyOf fl spec.conv spec.length flags precision arg
    return (args, emitPadded s body width flags precision)

/-- one turn of the loop -/
def iter (fl : F64) (s : St) : Except Stop St :=
  if MAX_OUTPUT < utf8Len s.sink.out then .error (.error (.outputTooLarge MAX_OUTPUT))
  else
    match s.rest with
    | [] => .ok s
    | b :: rest =>
      if char b ≠ '%' then .ok { s with rest, sink := s.sink.ch (char b) }
      else if rest = [] then lift (malformed "trailing %")
      else do
        let (spec, rest) ← lift (parseSpec rest)
        let (args, sink) ← convert fl spec s.args s.sink
        return ⟨rest, args, sink⟩

/-- at most `fuel` turns -/
def loop (fl : F64) : ℕ → St → Except Stop St
  | 0, s => .ok s
  | fuel + 1, s => if s.rest = [] then .ok s else do loop fl fuel (← iter fl s)

structure Produced where
  kept : ℕ
  full : ℕ
deriving DecidableEq

def formatBounded (fl : F64) (fmt : List UInt8) (args : List FormatArg) (out : Text) (budget : ℕ) :
    Except Stop (Produced × Text) := do
  let s ← loop fl fmt.length ⟨fmt, args, { budget }⟩
  return (⟨s.sink.kept, s.sink.full⟩, out ++ s.sink.out)

/-- the length is the host's, in bytes -/
def format (fl : F64) (fmt : List UInt8) (args : List FormatArg) (out : Text) : Except Stop (ℕ × Text) := do
  let (_, out') ← formatBounded fl fmt args out usizeMax
  return (utf8Len out' - utf8Len out, out')

/-! ## Fields -/

/-- the field of a body: the body with its run -/
def Body.field (b : Body) : Text :=
  if b.runLen = 0 then b.text else b.text.take b.runAt ++ List.replicate b.runLen b.run ++ b.text.drop b.runAt

/-- the field that is printed, whatever the destination -/
def layout (body : Body) (width : Option ℕ) (flags : Flags) (precision : Option ℕ) : Text :=
  let pad := width.getD 0 - body.field.length
  if flags.left then body.field ++ List.replicate pad ' '
  else if flags.zero ∧ precision = Option.none ∧ numericNeedsSpaceFirst body.text = false then
    body.field.take (prefixLen body.text) ++ List.replicate pad '0' ++ body.field.drop (prefixLen body.text)
  else List.replicate pad ' ' ++ body.field

/-- more text is asked for: what fits is appended, and all is counted -/
def Sink.add (s : Sink) (text : Text) : Sink :=
  { s with
    out := s.out ++ text.take s.room
    kept := s.kept + min s.room text.length
    full := min (s.full + text.length) usizeMax }

section Fields

variable {s : Sink} {a b : Text} {c : Char} {n : ℕ} {body : Body}

theorem Sink.text_eq : s.text a = s.add a := by
  unfold Sink.text Sink.add Sink.count
  dsimp only
  split
  · next h => rw [List.take_of_length_le h, min_eq_right h]
  · next h => rw [min_eq_left (not_le.1 h).le]

theorem Sink.ch_eq : s.ch c = s.add [c] := by
  unfold Sink.ch Sink.add Sink.count
  split
  · next h =>
    have hle : [c].length ≤ s.room := h
    rw [List.take_of_length_le hle, List.length_singleton, min_eq_right (a := s.room) h]
  · next h =>
    rw [Nat.eq_zero_of_not_pos h]
    simp

theorem Sink.fill_eq : s.fill c n = s.add (List.replicate n c) := by
  unfold Sink.fill Sink.add Sink.count
  dsimp only
  rw [List.take_replicate, List.length_replicate]

/-- one text after another is one text -/
theorem Sink.add_add : (s.add a).add b = s.add (a ++ b) := by
  have hroom : (s.add a).room = s.room - a.length := by
    unfold Sink.room Sink.add
    dsimp only
    unfold Sink.room
    omega
  unfold Sink.add at hroom ⊢
  dsimp only at hroom ⊢
  rw [hroom, List.append_assoc, List.take_append, List.length_append]
  congr 1
  · omega
  · omega

theorem Body.length_field (h : body.runAt ≤ body.text.length) :
    body.field.length = body.text.length + body.runLen := by
  unfold Body.field
  split
  · next hzero => rw [hzero, Nat.add_zero]
  · rw [List.length_append, List.length_append, List.length_take, List.length_replicate, List.length_drop]
    omega

theorem Body.emit_eq : body.emit s 0 = s.add body.field := by
  unfold Body.emit Body.field
  split
  · rw [List.drop_zero, Sink.text_eq]
  · rw [List.drop_zero, Sink.text_eq, Sink.fill_eq, Sink.text_eq, Sink.add_add, Sink.add_add, ← List.append_assoc]

/-- what a destination is asked for does not depend on its size -/
theorem emitPadded_eq {width precision : Option ℕ} {flags : Flags}
    (hrun : body.runAt ≤ body.text.length) (hprec : precision = Option.none → body.runLen = 0)
    (hw : width.getD 0 ≤ usizeMax) :
    emitPadded s body width flags precision = s.add (layout body width flags precision) := by
  have hpad : width.getD 0 - body.len = width.getD 0 - body.field.length := by
    rw [Body.length_field hrun, Body.len]
    omega
  unfold emitPadded layout
  rw [hpad]
  dsimp only
  by_cases hzero : width.getD 0 - body.field.length = 0
  · rw [if_pos hzero, hzero, Body.emit_eq]
    simp
  rw [if_neg hzero]
  by_cases hleft : flags.left = true
  · rw [if_pos hleft, if_pos hleft, Body.emit_eq, Sink.fill_eq, Sink.add_add]
  rw [if_neg hleft, if_neg hleft]
  by_cases hok : flags.zero = true ∧ precision = Option.none ∧ numericNeedsSpaceFirst body.text = false
  · have hlen := hprec hok.2.1
    rw [if_pos hok, if_pos (by simp [hok.1, hok.2.1, hok.2.2])]
    unfold Body.emit Body.field
    rw [if_pos hlen, if_pos hlen, Sink.text_eq, Sink.fill_eq, Sink.text_eq, Sink.add_add, Sink.add_add, ← List.append_assoc]
  · rw [if_neg hok, if_neg (by simpa using hok), Sink.fill_eq, Body.emit_eq, Sink.add_add]

end Fields

/-! ## Bodies -/

section Bodies

variable {fl : F64} {conv : Char} {length : Length} {flags : Flags} {precision : Option ℕ} {arg : FormatArg} {body : Body}
  {n : ℤ} {k : ℕ} {v : UInt64} {digits : Text}

/-- the run lies in the body, and there is none without a precision -/
def Body.Placed (body : Body) (precision : Option ℕ) : Prop :=
  body.runAt ≤ body.text.length ∧ (precision = Option.none → body.runLen = 0)

theorem plain_placed (text : Text) : Body.Placed { text } precision := ⟨Nat.zero_le _, fun _ => rfl⟩

theorem precise_none (h : precision = Option.none) : (precise k digits precision).2 = 0 := by
  rw [h]
  rfl

theorem intBody_placed : (intBody n flags precision).Placed precision := by
  refine ⟨?_, precise_none⟩
  show _ ≤ List.length (_ ++ _)
  rw [List.length_append]
  exact Nat.le_add_right _ _

theorem radixBody_placed : (radixBody conv k flags precision).Placed precision := by
  refine ⟨?_, precise_none⟩
  unfold radixBody
  dsimp only
  rw [List.length_append, String.length_toList]
  exact Nat.le_add_right _ _

theorem fixedBody_placed {alt upper : Bool} (h : fixedBody fl v precision alt upper = .ok body) : body.Placed precision := by
  unfold fixedBody at h
  dsimp only at h
  cases hs : formatFixed fl v (min (precision.getD 6) EXACT_FRACTION_DIGITS) alt upper with
  | error e =>
    rw [hs] at h
    cases h
  | ok s =>
    rw [hs] at h
    cases h
    refine ⟨le_refl _, fun hnone => ?_⟩
    rw [hnone]
    split <;> rfl

theorem uintBody_placed : (uintBody k precision).Placed precision := ⟨Nat.zero_le _, precise_none⟩

theorem bodyOf_placed (h : bodyOf fl conv length flags precision arg = .ok body) : body.Placed precision := by
  unfold bodyOf at h
  split at h
  case h_1 | h_2 =>
    obtain ⟨n, -, hn⟩ := except_bind_ok.1 h
    cases hn
    exact intBody_placed
  case h_3 =>
    obtain ⟨n, -, hn⟩ := except_bind_ok.1 h
    cases hn
    exact uintBody_placed
  case h_4 | h_5 | h_6 =>
    obtain ⟨n, -, hn⟩ := except_bind_ok.1 h
    cases hn
    exact radixBody_placed
  case h_7 | h_16 | h_17 =>
    obtain ⟨n, -, hn⟩ := except_bind_ok.1 h
    cases hn
    exact plain_placed _
  case h_8 =>
    split at h
    · cases h
      exact plain_placed _
    · cases h
      exact plain_placed _
    · cases h
  case h_9 =>
    split at h
    · cases h
      exact plain_placed _
    · cases h
      exact plain_placed _
    · cases h
  case h_10 | h_11 | h_14 | h_15 =>
    obtain ⟨v, -, hv⟩ := except_bind_ok.1 h
    obtain ⟨text, -, htext⟩ := except_bind_ok.1 hv
    cases htext
    exact plain_placed _
  case h_12 | h_13 =>
    obtain ⟨v, -, hv⟩ := except_bind_ok.1 h
    exact fixedBody_placed hv
  case h_18 => cases h

end Bodies

/-! ## Specifications -/

section Specs

variable {rest rest' : List UInt8} {spec : Spec} {flags flags' : Flags} {length length' : Length} {b : UInt8} {n : ℕ}
  {args args' : List FormatArg} {width precision : Option ℕ}

theorem parseFlags_le (h : parseFlags flags rest = .ok (flags', rest')) : rest'.length ≤ rest.length := by
  induction rest generalizing flags with
  | nil => cases h
  | cons b rest ih =>
    unfold parseFlags at h
    split at h
    all_goals first
      | exact (ih h).trans (Nat.le_succ _)
      | (cases h; exact le_refl _)

theorem parseDigits_le (n : ℕ) (rest : List UInt8) : (parseDigits n rest).2.length ≤ rest.length := by
  induction rest generalizing n with
  | nil => exact le_refl _
  | cons b rest ih =>
    unfold parseDigits
    split
    · exact (ih _).trans (Nat.le_succ _)
    · exact le_refl _

/-- a count stays in its type -/
theorem parseDigits_max (hn : n ≤ usizeMax) (rest : List UInt8) : (parseDigits n rest).1 ≤ usizeMax := by
  induction rest generalizing n with
  | nil => exact hn
  | cons b rest ih =>
    unfold parseDigits
    split
    · exact ih (min_le_right _ _)
    · exact hn

theorem parseWidth_le (rest : List UInt8) : (parseWidth rest).2.length ≤ rest.length := by
  unfold parseWidth
  split
  · exact le_refl _
  · split
    · exact Nat.le_succ _
    · split
      · exact parseDigits_le _ _
      · exact le_refl _

theorem parseWidth_max (h : (parseWidth rest).1 = .fixed n) : n ≤ usizeMax := by
  unfold parseWidth at h
  split at h
  · cases h
  · split at h
    · cases h
    · split at h
      · rw [← Count.fixed.inj h]
        exact parseDigits_max (Nat.zero_le _) _
      · cases h

theorem parsePrecision_le {precision : Count} (h : parsePrecision rest = .ok (precision, rest')) :
    rest'.length ≤ rest.length := by
  unfold parsePrecision at h
  split at h
  · cases h
  · split at h
    · split at h
      · cases h
      · split at h
        · cases h
          simp only [List.length_cons]
          omega
        · obtain ⟨-, rfl⟩ := Prod.mk.inj (Except.ok.inj h)
          exact (parseDigits_le _ _).trans (Nat.le_succ _)
    · cases h
      exact le_refl _

theorem parseLength_lt (h : parseLength length rest = .ok (length', b, rest')) : rest'.length < rest.length := by
  fun_induction parseLength length rest with
  | case1 => cases h
  | case2 length b rest hlen =>
    cases h
    exact Nat.lt_succ_self _
  | case3 => cases h
  | case4 length b single hlen c after hboth ih =>
    have := ih h
    simp only [List.length_cons]
    omega
  | case5 length b single hlen c after hboth ih => exact (ih h).trans (Nat.lt_succ_self _)

/-- a specification takes a byte at least, and its width is in its type -/
theorem parseSpec_spec (h : parseSpec rest = .ok (spec, rest')) :
    rest'.length < rest.length ∧ ∀ n, spec.width = .fixed n → n ≤ usizeMax := by
  unfold parseSpec at h
  obtain ⟨⟨flags, rest₁⟩, hflags, h⟩ := except_bind_ok.1 h
  have h₁ := parseFlags_le hflags
  have h₂ := parseWidth_le rest₁
  obtain ⟨⟨precision, rest₂⟩, hprecision, h⟩ := except_bind_ok.1 h
  dsimp only at h
  split at h
  · cases h
  · obtain ⟨⟨length, b, rest₃⟩, hlength, h⟩ := except_bind_ok.1 h
    have h₃ := parsePrecision_le hprecision
    have h₄ := parseLength_lt hlength
    dsimp only at h
    split at h
    · cases h
    · split at h
      · cases h
      · cases h
        exact ⟨by omega, fun n hn => parseWidth_max hn⟩

theorem signed_bounds {bits : ℕ} (hb : 0 < bits) (n : ℤ) : -2 ^ (bits - 1) ≤ signed bits n ∧ signed bits n < 2 ^ (bits - 1) := by
  obtain ⟨k, rfl⟩ : ∃ k, bits = k + 1 := ⟨bits - 1, by omega⟩
  have hpos : (0 : ℤ) < 2 ^ (k + 1) := by positivity
  have h₀ := Int.emod_nonneg (n + 2 ^ k) hpos.ne'
  have h₁ := Int.emod_lt_of_pos (n + 2 ^ k) hpos
  unfold signed
  rw [Nat.add_sub_cancel]
  rw [pow_succ] at h₁ ⊢
  rw [pow_succ] at h₀
  omega

theorem fetchWidth_max (h : fetchWidth flags args spec.width = .ok (flags', width, args'))
    (hspec : ∀ n, spec.width = .fixed n → n ≤ usizeMax) : width.getD 0 ≤ usizeMax := by
  unfold fetchWidth at h
  split at h
  · cases h
    exact Nat.zero_le _
  · next n heq =>
    cases h
    exact hspec n heq
  · obtain ⟨⟨arg, rest⟩, -, h⟩ := except_bind_ok.1 h
    split at h
    · next n _ heq =>
      have hb := @signed_bounds 32 (by decide) n
      split at h
      · cases h
        show (signed 32 n).toNat ≤ usizeMax
        unfold usizeMax
        omega
      · cases h
        show (signed 32 n).natAbs ≤ usizeMax
        unfold usizeMax
        omega
    · cases h

end Specs

end Omnidroid.Bionic.Printf
