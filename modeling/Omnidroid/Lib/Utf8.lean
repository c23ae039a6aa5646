/-
UTF-8, as bytes are taken for it.

- `step a rest`: the scalar that the bytes `a :: rest` begin with and what is left after it, or no scalar and what is left after the
  longest part of one.
- `lossy`: every such part read as U+FFFD. `strict`: no text where there is one.
-/
import Omnidroid.Lib.Bytes

namespace Omnidroid.Utf8

/-- a byte of a character that is not its first -/
def isTail (b : UInt8) : Bool := 0x80 ≤ b.toNat && b.toNat < 0xC0

/-- how many bytes follow a first one; none follow what is not a first byte -/
def tails (a : UInt8) : ℕ :=
  if 0xC2 ≤ a.toNat ∧ a.toNat < 0xE0 then 1
  else if 0xE0 ≤ a.toNat ∧ a.toNat < 0xF0 then 2
  else if 0xF0 ≤ a.toNat ∧ a.toNat < 0xF5 then 3
  else 0

/-- a second byte that, with this first one, neither encodes what is shorter nor a surrogate, nor passes U+10FFFF -/
def isSecond (a b : UInt8) : Bool :=
  isTail b && (a.toNat ≠ 0xE0 || 0xA0 ≤ b.toNat) && (a.toNat ≠ 0xED || b.toNat < 0xA0) && (a.toNat ≠ 0xF0 || 0x90 ≤ b.toNat)
    && (a.toNat ≠ 0xF4 || b.toNat < 0x90)

/-- so many tail bytes, after the bits `n` -/
def follow : ℕ → ℕ → Bytes → Option ℕ × Bytes
  | 0, n, rest => (some n, rest)
  | _ + 1, _, [] => (none, [])
  | k + 1, n, b :: rest => if isTail b then follow k (n * 64 + b.toNat % 64) rest else (none, b :: rest)

/-- the character that begins with `a`, and the rest -/
def step (a : UInt8) (rest : Bytes) : Option ℕ × Bytes :=
  if a.toNat < 0x80 then (some a.toNat, rest)
  else match tails a, rest with
    | 0, rest => (none, rest)
    | _ + 1, [] => (none, [])
    | k + 1, b :: rest => if isSecond a b then follow k (a.toNat % 2 ^ (5 - k) * 64 + b.toNat % 64) rest else (none, b :: rest)

def lossyAux : ℕ → Bytes → List Char
  | _, [] => []
  | 0, _ => []
  | fuel + 1, a :: rest =>
    match step a rest with
    | (some n, rest) => Char.ofNat n :: lossyAux fuel rest
    | (none, rest) => '\uFFFD' :: lossyAux fuel rest

/-- the text of a byte string, each part that is not UTF-8 replaced -/
def lossy (b : Bytes) : List Char := lossyAux b.length b

def strictAux : ℕ → Bytes → Option (List Char)
  | _, [] => some []
  | 0, _ => none
  | fuel + 1, a :: rest =>
    match step a rest with
    | (some n, rest) => (strictAux fuel rest).map (Char.ofNat n :: ·)
    | (none, _) => none

/-- the text of a byte string, all of which is UTF-8 -/
def strict (b : Bytes) : Option (List Char) := strictAux b.length b

end Omnidroid.Utf8
