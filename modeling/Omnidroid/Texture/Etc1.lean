/-
One block of ETC1 (`omni-texture/src/etc1.rs`), and the specification's block it is to be.

- `decodeBlock`: the code's, sixteen texels of four bytes in rows, or the ETC2 mode that the block is of.
- `Spec`: the specification's, by the numbered bits of the block as one word of 64: `Spec.colour`, `Spec.Escapes`.
- `decodeBlock_ok`, `decodeBlock_error`: the code refuses exactly the blocks that escape, by the first channel that does, and every
  texel of another is the specification's.
-/
import Omnidroid.Lib.Bytes

namespace Omnidroid.Texture

/-! ## The code -/

inductive Etc2Mode
  | T
  | H
  | Planar
deriving DecidableEq

inductive TextureError
  | ZeroExtent (width height : ℕ)
  | ExtentTooLarge (width height : ℕ)
  | TruncatedBlockData (needed provided : ℕ)
  | OutputTooSmall (needed provided : ℕ)
  | Etc2ModeInEtc1Data (blockIndex : ℕ) (mode : Etc2Mode)
deriving DecidableEq

/-- `[u8; BLOCK_BYTES]` -/
abbrev Block := { b : Bytes // b.length = 8 }

def Block.byte (b : Block) (i : ℕ) : UInt8 := b.1.getD i 0

def MODIFIER_SETS : List (List ℤ) :=
  [[-8, -2, 2, 8], [-17, -5, 5, 17], [-29, -9, 9, 29], [-42, -13, 13, 42], [-60, -18, 18, 60], [-80, -24, 24, 80],
    [-106, -33, 33, 106], [-183, -47, 47, 183]]

def PIXEL_INDEX_TO_SET_ELEMENT : List ℕ := [2, 3, 1, 0]

def BLOCK_EXTENT : ℕ := 4

def BLOCK_BYTES : ℕ := 8

def signed3 (bits : UInt8) : ℤ := if bits ≥ 4 then bits.toNat - 8 else bits.toNat

def extend4 (value : UInt8) : UInt8 := (value <<< 4) ||| value

def extend5 (value : UInt8) : UInt8 := (value <<< 3) ||| (value >>> 2)

def modify (base : UInt8) (modifier : ℤ) : UInt8 :=
  let value : ℤ := base.toNat + modifier
  if value < 0 then 0 else if value > 255 then 255 else UInt8.ofNat value.toNat

structure Rgb where
  r : UInt8
  g : UInt8
  b : UInt8
deriving DecidableEq

structure BaseColours where
  first : Rgb
  second : Rgb

/-- a turn of `base_colours`' loop: one channel's base and its sum with the delta -/
def differential (byte : UInt8) (mode : Etc2Mode) : Except Etc2Mode (UInt8 × UInt8) :=
  let base := byte >>> 3
  let sum : ℤ := base.toNat + signed3 (byte &&& 0x07)
  if 0 ≤ sum ∧ sum ≤ 31 then .ok (extend5 base, extend5 (UInt8.ofNat sum.toNat)) else .error mode

def baseColours (block : Block) : Except Etc2Mode BaseColours :=
  if (block.byte 3 >>> 1) &&& 1 = 0 then
    .ok ⟨⟨extend4 (block.byte 0 >>> 4), extend4 (block.byte 1 >>> 4), extend4 (block.byte 2 >>> 4)⟩,
      ⟨extend4 (block.byte 0 &&& 0x0F), extend4 (block.byte 1 &&& 0x0F), extend4 (block.byte 2 &&& 0x0F)⟩⟩
  else do
    let r ← differential (block.byte 0) .T
    let g ← differential (block.byte 1) .H
    let b ← differential (block.byte 2) .Planar
    .ok ⟨⟨r.1, g.1, b.1⟩, ⟨r.2, g.2, b.2⟩⟩

/-- the last four bytes, big-endian -/
def indices (block : Block) : ℕ :=
  (((block.byte 4).toNat * 256 + (block.byte 5).toNat) * 256 + (block.byte 6).toNat) * 256 + (block.byte 7).toNat

/-- the body of `decode_block`'s loops -/
def texel (block : Block) (colours : BaseColours) (x y : ℕ) : Bytes :=
  let flip := block.byte 3 &&& 1 = 1
  let first := MODIFIER_SETS.getD ((block.byte 3 >>> 5) &&& 0x07).toNat []
  let second := MODIFIER_SETS.getD ((block.byte 3 >>> 2) &&& 0x07).toNat []
  -- pixels are numbered column first
  let i := x * BLOCK_EXTENT + y
  let lsb := (indices block >>> i) &&& 1
  let msb := (indices block >>> (i + 16)) &&& 1
  let pixelIndex := (msb <<< 1) ||| lsb
  let sub : Bool := if flip then 2 ≤ y else 2 ≤ x
  let modifier := (if sub then second else first).getD (PIXEL_INDEX_TO_SET_ELEMENT.getD pixelIndex 0) 0
  let base := if sub then colours.second else colours.first
  [modify base.r modifier, modify base.g modifier, modify base.b modifier, 0xFF]

/-- `decode_block`: rows of texels, four bytes each, every byte of the array written once -/
def decodeBlock (block : Block) (blockIndex : ℕ) : Except TextureError Bytes :=
  match baseColours block with
  | .error mode => .error (.Etc2ModeInEtc1Data blockIndex mode)
  | .ok colours =>
    .ok ((List.range BLOCK_EXTENT).flatMap fun y => (List.range BLOCK_EXTENT).flatMap fun x => texel block colours x y)

/-! ## The specification -/

namespace Spec

/-- a block as a word, its most significant byte first -/
def word (block : Block) : ℕ := block.1.foldl (fun n b => n * 256 + b.toNat) 0

/-- bits `hi` to `lo` of a word -/
def bits (w hi lo : ℕ) : ℕ := w / 2 ^ lo % 2 ^ (hi + 1 - lo)

/-- the diffbit -/
def diff (w : ℕ) : Prop := bits w 33 33 = 1

instance (w : ℕ) : Decidable (diff w) := inferInstanceAs (Decidable (_ = _))

/-- a channel's three-bit delta, in two's complement; the channels are 0, 1 and 2 -/
def delta (w c : ℕ) : ℤ := if bits w (58 - 8 * c) (58 - 8 * c) = 1 then (bits w (58 - 8 * c) (56 - 8 * c) : ℤ) - 8
  else bits w (58 - 8 * c) (56 - 8 * c)

/-- a channel of the second sub-block's base, before it is extended -/
def sum (w c : ℕ) : ℤ := bits w (63 - 8 * c) (59 - 8 * c) + delta w c

/-- the block is differential, and a channel's sum is not one of five bits: ETC2 has it for a mode of its own -/
def Escapes (w c : ℕ) : Prop := diff w ∧ ¬(0 ≤ sum w c ∧ sum w c ≤ 31)

instance (w c : ℕ) : Decidable (Escapes w c) := inferInstanceAs (Decidable (_ ∧ _))

/-- four bits, twice -/
def extend4to8 (v : ℕ) : ℕ := 16 * v + v

/-- five bits, and the upper three of them again -/
def extend5to8 (v : ℕ) : ℕ := 8 * v + v / 4

/-- a channel of a sub-block's base colour -/
def base (w : ℕ) (second : Bool) (c : ℕ) : ℕ :=
  if diff w then if second then extend5to8 (sum w c).toNat else extend5to8 (bits w (63 - 8 * c) (59 - 8 * c))
  else if second then extend4to8 (bits w (59 - 8 * c) (56 - 8 * c)) else extend4to8 (bits w (63 - 8 * c) (60 - 8 * c))

/-- whether a texel is of the second sub-block: the lower half if the flipbit is set, else the right one -/
def inSecond (w x y : ℕ) : Bool := if bits w 32 32 = 1 then 2 ≤ y else 2 ≤ x

/-- the modifiers `a` and `b` of a table codeword -/
def modifiers : ℕ → ℤ × ℤ
  | 0 => (2, 8)
  | 1 => (5, 17)
  | 2 => (9, 29)
  | 3 => (13, 42)
  | 4 => (18, 60)
  | 5 => (24, 80)
  | 6 => (33, 106)
  | _ => (47, 183)

def codeword (w : ℕ) (second : Bool) : ℕ := if second then bits w 36 34 else bits w 39 37

/-- what a pixel's two bits, the more significant first, make of the modifiers -/
def modifier (w x y : ℕ) : ℤ :=
  let m := modifiers (codeword w (inSecond w x y))
  let i := 4 * x + y
  match bits w (16 + i) (16 + i), bits w i i with
  | 0, 0 => m.1
  | 0, _ => m.2
  | _, 0 => -m.1
  | _, _ => -m.2

def clamp (v : ℤ) : ℕ := (max 0 (min 255 v)).toNat

/-- a channel of a texel of a block -/
def colour (w x y c : ℕ) : ℕ := clamp (base w (inSecond w x y) c + modifier w x y)

end Spec

/-! ## Bits of a word and of its bytes -/

theorem Block.eight (block : Block) : ∃ a b c d e f g h, block.1 = [a, b, c, d, e, f, g, h] := by
  obtain ⟨bytes, hlen⟩ := block
  match bytes, hlen with
  | [a, b, c, d, e, f, g, h], _ => exact ⟨a, b, c, d, e, f, g, h, rfl⟩

theorem word_byte (block : Block) {i : ℕ} (hi : i < 8) : Spec.word block / 2 ^ (8 * (7 - i)) % 256 = (block.byte i).toNat := by
  obtain ⟨a, b, c, d, e, f, g, h, hblock⟩ := block.eight
  have ha := a.toNat_lt
  have hb := b.toNat_lt
  have hc := c.toNat_lt
  have hd := d.toNat_lt
  have he := e.toNat_lt
  have hf := f.toNat_lt
  have hg := g.toNat_lt
  have hh := h.toNat_lt
  simp only [Spec.word, Block.byte, hblock, List.foldl_cons, List.foldl_nil]
  interval_cases i <;> norm_num [List.getD] <;> omega

theorem word_indices (block : Block) : Spec.word block % 2 ^ 32 = indices block := by
  obtain ⟨a, b, c, d, e, f, g, h, hblock⟩ := block.eight
  have he := e.toNat_lt
  have hf := f.toNat_lt
  have hg := g.toNat_lt
  have hh := h.toNat_lt
  simp only [Spec.word, indices, Block.byte, hblock, List.foldl_cons, List.foldl_nil]
  norm_num [List.getD]
  omega

/-- a field of the low bits is a field of the number -/
theorem field_mod (w m lo k : ℕ) (h : lo + k ≤ m) : w % 2 ^ m / 2 ^ lo % 2 ^ k = w / 2 ^ lo % 2 ^ k := by
  have hm : 2 ^ m = 2 ^ lo * 2 ^ (m - lo) := by rw [← pow_add]; congr 1; omega
  rw [hm, Nat.mod_mul_right_div_self, Nat.mod_mod_of_dvd _ (pow_dvd_pow 2 (by omega))]

/-- a field of the word that lies within a byte -/
theorem bits_byte (block : Block) {i : ℕ} (hi lo : ℕ) (hi8 : i < 8) (hhi : hi < 8) (hlo : lo ≤ hi) :
    Spec.bits (Spec.word block) (8 * (7 - i) + hi) (8 * (7 - i) + lo) = (block.byte i).toNat / 2 ^ lo % 2 ^ (hi + 1 - lo) := by
  have hk : 8 * (7 - i) + hi + 1 - (8 * (7 - i) + lo) = hi + 1 - lo := by omega
  rw [← word_byte block hi8, Spec.bits, hk, show (256 : ℕ) = 2 ^ 8 from rfl, field_mod _ _ _ _ (by omega), Nat.div_div_eq_div_mul,
    ← pow_add]

theorem bits_channel (block : Block) {c : ℕ} (hi lo : ℕ) (hc : c < 3) (hhi : hi < 8) (hlo : lo ≤ hi) :
    Spec.bits (Spec.word block) (56 + hi - 8 * c) (56 + lo - 8 * c) = (block.byte c).toNat / 2 ^ lo % 2 ^ (hi + 1 - lo) := by
  have h7 : 56 + hi - 8 * c = 8 * (7 - c) + hi := by omega
  have h0 : 56 + lo - 8 * c = 8 * (7 - c) + lo := by omega
  rw [h7, h0, bits_byte block hi lo (by omega) hhi hlo]

theorem bits_index (block : Block) {i : ℕ} (hi : i < 32) : (indices block >>> i) &&& 1 = Spec.bits (Spec.word block) i i := by
  have hk : i + 1 - i = 1 := by omega
  rw [Nat.shiftRight_eq_div_pow, Nat.and_one_is_mod, ← word_indices, Spec.bits, hk, ← field_mod _ 32 i 1 (by omega), pow_one]

/-! ## Bytes -/

theorem toNat_and_pow (b : UInt8) (m : UInt8) (k : ℕ) (hm : m.toNat = 2 ^ k - 1) : (b &&& m).toNat = b.toNat % 2 ^ k := by
  rw [UInt8.toNat_and, hm, Nat.and_two_pow_sub_one_eq_mod]

theorem toNat_shiftRight (b s : UInt8) (hs : s.toNat < 8) : (b >>> s).toNat = b.toNat / 2 ^ s.toNat := by
  rw [UInt8.toNat_shiftRight, Nat.mod_eq_of_lt hs, Nat.shiftRight_eq_div_pow]

theorem toNat_extend4 {v : UInt8} (hv : v.toNat < 16) : (extend4 v).toNat = Spec.extend4to8 v.toNat := by
  have h4 : (4 : UInt8).toNat % 8 = 4 := rfl
  rw [extend4, UInt8.toNat_or, UInt8.toNat_shiftLeft, h4, Nat.shiftLeft_eq, Nat.mod_eq_of_lt (by omega), ← Nat.shiftLeft_eq,
    ← Nat.shiftLeft_add_eq_or_of_lt (by omega), Nat.shiftLeft_eq, Spec.extend4to8]
  omega

theorem toNat_extend5 {v : UInt8} (hv : v.toNat < 32) : (extend5 v).toNat = Spec.extend5to8 v.toNat := by
  have h3 : (3 : UInt8).toNat % 8 = 3 := rfl
  have h2 : (v >>> 2).toNat = v.toNat / 4 := toNat_shiftRight v 2 (by decide)
  rw [extend5, UInt8.toNat_or, UInt8.toNat_shiftLeft, h2, h3, Nat.shiftLeft_eq, Nat.mod_eq_of_lt (by omega), ← Nat.shiftLeft_eq,
    ← Nat.shiftLeft_add_eq_or_of_lt (by omega), Nat.shiftLeft_eq, Spec.extend5to8]
  omega

theorem toNat_modify (base : UInt8) (m : ℤ) : (modify base m).toNat = Spec.clamp (base.toNat + m) := by
  simp only [modify, Spec.clamp]
  split_ifs with hneg hbig
  · rw [max_eq_left (by omega)]
    rfl
  · rw [min_eq_left (by omega)]
    rfl
  · rw [min_eq_right (by omega), max_eq_right (by omega), UInt8.toNat_ofNat', Nat.mod_eq_of_lt]
    omega

/-! ## Base colours -/

def Rgb.channel (p : Rgb) : ℕ → UInt8
  | 0 => p.r
  | 1 => p.g
  | _ => p.b

def BaseColours.sub (colours : BaseColours) (second : Bool) : Rgb := if second then colours.second else colours.first

/-- the mode that a channel's escape selects -/
def modeOf : ℕ → Etc2Mode
  | 0 => .T
  | 1 => .H
  | _ => .Planar

theorem diff_iff (block : Block) : Spec.diff (Spec.word block) ↔ (block.byte 3 >>> 1) &&& 1 ≠ 0 := by
  have hbits := bits_byte block (i := 3) 1 1 (by omega) (by omega) (by omega)
  have hcode : ((block.byte 3 >>> 1) &&& 1).toNat = (block.byte 3).toNat / 2 % 2 := by
    rw [toNat_and_pow _ 1 1 rfl, toNat_shiftRight _ 1 (by decide)]
    rfl
  norm_num at hbits
  rw [Spec.diff, hbits, ← hcode, Ne, ← UInt8.toNat_inj, hcode]
  have h0 : (0 : UInt8).toNat = 0 := rfl
  omega

section
variable {block : Block} {c : ℕ} (hc : c < 3)
include hc

theorem sum_byte : ((block.byte c >>> 3).toNat : ℤ) + signed3 (block.byte c &&& 0x07) = Spec.sum (Spec.word block) c := by
  have hbase := bits_channel block 7 3 hc (by omega) (by omega)
  have hdelta := bits_channel block 2 0 hc (by omega) (by omega)
  have hsign := bits_channel block 2 2 hc (by omega) (by omega)
  have hlow : (block.byte c &&& 0x07).toNat = (block.byte c).toNat % 8 := toNat_and_pow _ 7 3 rfl
  have hhigh : (block.byte c >>> 3).toNat = (block.byte c).toNat / 8 := toNat_shiftRight _ 3 (by decide)
  have hlt := (block.byte c).toNat_lt
  norm_num at hbase hdelta hsign
  have hge : (block.byte c &&& 0x07 ≥ 4) ↔ 4 ≤ (block.byte c &&& 0x07).toNat := UInt8.le_iff_toNat_le
  simp only [Spec.sum, Spec.delta, hbase, hdelta, hsign, signed3, hge, hlow, hhigh]
  split_ifs <;> omega

theorem differential_ok {mode : Etc2Mode} {v : UInt8 × UInt8} (hdiff : Spec.diff (Spec.word block))
    (h : differential (block.byte c) mode = .ok v) :
    ¬Spec.Escapes (Spec.word block) c ∧ v.1.toNat = Spec.base (Spec.word block) false c ∧
      v.2.toNat = Spec.base (Spec.word block) true c := by
  have hbase := bits_channel block 7 3 hc (by omega) (by omega)
  have hhigh : (block.byte c >>> 3).toNat = (block.byte c).toNat / 8 := toNat_shiftRight _ 3 (by decide)
  have hlt := (block.byte c).toNat_lt
  norm_num at hbase
  simp only [differential, sum_byte hc] at h
  split_ifs at h with hsum
  obtain rfl := Except.ok.inj h
  refine ⟨fun he => he.2 hsum, ?_, ?_⟩
  · rw [toNat_extend5 (by omega), Spec.base, if_pos hdiff, if_neg (by decide), hbase, hhigh]
    congr 1
    omega
  · have hto : (UInt8.ofNat (Spec.sum (Spec.word block) c).toNat).toNat = (Spec.sum (Spec.word block) c).toNat := by
      rw [UInt8.toNat_ofNat', Nat.mod_eq_of_lt]
      omega
    rw [toNat_extend5 (by omega), Spec.base, if_pos hdiff, if_pos rfl, hto]

theorem differential_error {mode m : Etc2Mode} (hdiff : Spec.diff (Spec.word block))
    (h : differential (block.byte c) mode = .error m) : Spec.Escapes (Spec.word block) c ∧ m = mode := by
  simp only [differential, sum_byte hc] at h
  split_ifs at h with hsum
  exact ⟨⟨hdiff, hsum⟩, (Except.error.inj h).symm⟩

theorem individual_byte (hdiff : ¬Spec.diff (Spec.word block)) :
    (extend4 (block.byte c >>> 4)).toNat = Spec.base (Spec.word block) false c ∧
      (extend4 (block.byte c &&& 0x0F)).toNat = Spec.base (Spec.word block) true c := by
  have hfirst := bits_channel block 7 4 hc (by omega) (by omega)
  have hsecond := bits_channel block 3 0 hc (by omega) (by omega)
  have hlow : (block.byte c &&& 0x0F).toNat = (block.byte c).toNat % 16 := toNat_and_pow _ 15 4 rfl
  have hhigh : (block.byte c >>> 4).toNat = (block.byte c).toNat / 16 := toNat_shiftRight _ 4 (by decide)
  have hlt := (block.byte c).toNat_lt
  norm_num at hfirst hsecond
  rw [toNat_extend4 (by omega), toNat_extend4 (by omega), Spec.base, Spec.base, if_neg hdiff, if_neg hdiff, if_neg (by decide),
    if_pos rfl, hfirst, hsecond, hlow, hhigh, Nat.mod_eq_of_lt (by omega : (block.byte c).toNat / 16 < 16)]
  exact ⟨rfl, rfl⟩

end

theorem baseColours_ok {block : Block} {colours : BaseColours} (h : baseColours block = .ok colours) :
    ∀ c < 3, ¬Spec.Escapes (Spec.word block) c ∧
      ∀ second, ((colours.sub second).channel c).toNat = Spec.base (Spec.word block) second c := by
  unfold baseColours at h
  split_ifs at h with hcode
  · have hdiff : ¬Spec.diff (Spec.word block) := fun hd => (diff_iff block).mp hd hcode
    obtain rfl := Except.ok.inj h
    intro c hc
    refine ⟨fun he => hdiff he.1, fun second => ?_⟩
    obtain ⟨hfirst, hsecond⟩ := individual_byte hc hdiff
    interval_cases c <;> cases second
    all_goals first | exact hfirst | exact hsecond
  · have hdiff : Spec.diff (Spec.word block) := (diff_iff block).mpr hcode
    cases hr : differential (block.byte 0) .T with
    | error m => simp [hr, bind, Except.bind] at h
    | ok r =>
    cases hg : differential (block.byte 1) .H with
    | error m => simp [hr, hg, bind, Except.bind] at h
    | ok g =>
    cases hb : differential (block.byte 2) .Planar with
    | error m => simp [hr, hg, hb, bind, Except.bind] at h
    | ok b =>
    obtain rfl : _ = colours := by simpa [hr, hg, hb, bind, Except.bind] using h
    obtain ⟨hr0, hr1, hr2⟩ := differential_ok (c := 0) (by omega) hdiff hr
    obtain ⟨hg0, hg1, hg2⟩ := differential_ok (c := 1) (by omega) hdiff hg
    obtain ⟨hb0, hb1, hb2⟩ := differential_ok (c := 2) (by omega) hdiff hb
    intro c hc
    interval_cases c
    · exact ⟨hr0, fun second => by cases second <;> assumption⟩
    · exact ⟨hg0, fun second => by cases second <;> assumption⟩
    · exact ⟨hb0, fun second => by cases second <;> assumption⟩

/-- the mode is that of the first channel that escapes -/
theorem baseColours_error {block : Block} {mode : Etc2Mode} (h : baseColours block = .error mode) :
    ∃ c < 3, Spec.Escapes (Spec.word block) c ∧ (∀ c' < c, ¬Spec.Escapes (Spec.word block) c') ∧ mode = modeOf c := by
  unfold baseColours at h
  split_ifs at h with hcode
  have hdiff : Spec.diff (Spec.word block) := (diff_iff block).mpr hcode
  cases hr : differential (block.byte 0) .T with
  | error m =>
    obtain rfl : m = mode := by simpa [hr, bind, Except.bind] using h
    obtain ⟨he, hm⟩ := differential_error (c := 0) (by omega) hdiff hr
    exact ⟨0, by omega, he, fun c' h => absurd h (by omega), hm⟩
  | ok r =>
  have hr0 := (differential_ok (c := 0) (by omega) hdiff hr).1
  cases hg : differential (block.byte 1) .H with
  | error m =>
    obtain rfl : m = mode := by simpa [hr, hg, bind, Except.bind] using h
    obtain ⟨he, hm⟩ := differential_error (c := 1) (by omega) hdiff hg
    refine ⟨1, by omega, he, fun c' h => ?_, hm⟩
    obtain rfl : c' = 0 := by omega
    exact hr0
  | ok g =>
  have hg0 := (differential_ok (c := 1) (by omega) hdiff hg).1
  cases hb : differential (block.byte 2) .Planar with
  | error m =>
    obtain rfl : m = mode := by simpa [hr, hg, hb, bind, Except.bind] using h
    obtain ⟨he, hm⟩ := differential_error (c := 2) (by omega) hdiff hb
    refine ⟨2, by omega, he, fun c' h => ?_, hm⟩
    obtain rfl | rfl : c' = 0 ∨ c' = 1 := by omega
    · exact hr0
    · exact hg0
  | ok b => simp [hr, hg, hb, bind, Except.bind] at h

/-! ## Texels -/

/-- the code's two tables together are the specification's modifiers -/
theorem modifier_sets : ∀ k < 8, ∀ msb < 2, ∀ lsb < 2,
    (MODIFIER_SETS.getD k []).getD (PIXEL_INDEX_TO_SET_ELEMENT.getD ((msb <<< 1) ||| lsb) 0) 0 =
      (match msb, lsb with
        | 0, 0 => (Spec.modifiers k).1
        | 0, _ => (Spec.modifiers k).2
        | _, 0 => -(Spec.modifiers k).1
        | _, _ => -(Spec.modifiers k).2) := by
  decide

theorem codeword_byte (block : Block) (second : Bool) :
    Spec.codeword (Spec.word block) second =
      (if second then (block.byte 3 >>> 2) &&& 0x07 else (block.byte 3 >>> 5) &&& 0x07).toNat := by
  have hfirst := bits_byte block (i := 3) 7 5 (by omega) (by omega) (by omega)
  have hsecond := bits_byte block (i := 3) 4 2 (by omega) (by omega) (by omega)
  norm_num at hfirst hsecond
  cases second with
  | true =>
    rw [Spec.codeword, if_pos rfl, if_pos rfl, hsecond, toNat_and_pow _ 7 3 rfl, toNat_shiftRight _ 2 (by decide)]
    rfl
  | false =>
    rw [Spec.codeword, if_neg (by decide), if_neg (by decide), hfirst, toNat_and_pow _ 7 3 rfl, toNat_shiftRight _ 5 (by decide)]
    rfl

theorem inSecond_byte (block : Block) (x y : ℕ) :
    Spec.inSecond (Spec.word block) x y = if block.byte 3 &&& 1 = 1 then decide (2 ≤ y) else decide (2 ≤ x) := by
  have hflip := bits_byte block (i := 3) 0 0 (by omega) (by omega) (by omega)
  have hcode : (block.byte 3 &&& 1).toNat = (block.byte 3).toNat % 2 := toNat_and_pow _ 1 1 rfl
  norm_num at hflip
  have hiff : block.byte 3 &&& 1 = 1 ↔ Spec.bits (Spec.word block) 32 32 = 1 := by
    rw [hflip, ← hcode, ← UInt8.toNat_inj]
    rfl
  simp only [Spec.inSecond, hiff]

/-- the four bytes the specification has for a texel -/
def Spec.texel (w x y : ℕ) : Bytes :=
  [UInt8.ofNat (Spec.colour w x y 0), UInt8.ofNat (Spec.colour w x y 1), UInt8.ofNat (Spec.colour w x y 2), 255]

theorem texel_spec {block : Block} {colours : BaseColours}
    (h : ∀ c < 3, ∀ second, ((colours.sub second).channel c).toNat = Spec.base (Spec.word block) second c) {x y : ℕ} (hx : x < 4)
    (hy : y < 4) : texel block colours x y = Spec.texel (Spec.word block) x y := by
  set w := Spec.word block with hw
  set second := Spec.inSecond w x y with hsecond
  have hi : x * BLOCK_EXTENT + y = 4 * x + y := by rw [BLOCK_EXTENT, Nat.mul_comm]
  have hmodifier : ((if second then MODIFIER_SETS.getD ((block.byte 3 >>> 2) &&& 0x07).toNat []
      else MODIFIER_SETS.getD ((block.byte 3 >>> 5) &&& 0x07).toNat []).getD (PIXEL_INDEX_TO_SET_ELEMENT.getD
        ((((indices block >>> (4 * x + y + 16)) &&& 1) <<< 1) ||| ((indices block >>> (4 * x + y)) &&& 1)) 0) 0) =
      Spec.modifier w x y := by
    have hcode := codeword_byte block second
    have hlt : Spec.codeword w second < 8 := by
      rw [Spec.codeword, Spec.bits, Spec.bits]
      split_ifs <;> exact Nat.mod_lt _ (by decide)
    have hget : (if second then MODIFIER_SETS.getD ((block.byte 3 >>> 2) &&& 0x07).toNat []
        else MODIFIER_SETS.getD ((block.byte 3 >>> 5) &&& 0x07).toNat []) = MODIFIER_SETS.getD (Spec.codeword w second) [] := by
      rw [hcode]
      cases second <;> rfl
    have hbit : ∀ i, Spec.bits w i i < 2 := fun i => by
      have hk : i + 1 - i = 1 := by omega
      rw [Spec.bits, hk]
      exact Nat.mod_lt _ (by decide)
    rw [hget, bits_index block (by omega), bits_index block (by omega), ← hw, Nat.add_comm (4 * x + y) 16,
      modifier_sets _ hlt _ (hbit _) _ (hbit _), Spec.modifier]
  have hchannel : ∀ c < 3, modify ((colours.sub second).channel c) (Spec.modifier w x y) = UInt8.ofNat (Spec.colour w x y c) := by
    intro c hc
    rw [Spec.colour, ← hsecond, ← h c hc second, ← toNat_modify, UInt8.ofNat_toNat]
  have hsub : (if block.byte 3 &&& 1 = 1 then decide (2 ≤ y) else decide (2 ≤ x)) = second := (inSecond_byte block x y).symm
  simp only [texel, hi, hsub, hmodifier, Spec.texel]
  rw [← hchannel 0 (by omega), ← hchannel 1 (by omega), ← hchannel 2 (by omega)]
  rfl

/-! ## A block -/

theorem length_flatMap_range {f : ℕ → Bytes} {m : ℕ} (n : ℕ) (hf : ∀ i < n, (f i).length = m) :
    ((List.range n).flatMap f).length = n * m := by
  induction n with
  | zero => simp
  | succ n ih =>
    rw [List.range_succ, List.flatMap_append, List.length_append, ih fun i hi => hf i (by omega), List.flatMap_singleton,
      hf n (by omega), Nat.succ_mul]

/-- one of the pieces of equal length that a string is made of -/
theorem slice_flatMap_range {f : ℕ → Bytes} {m : ℕ} (n : ℕ) (hf : ∀ i < n, (f i).length = m) {i : ℕ} (hi : i < n) :
    Bytes.slice ((List.range n).flatMap f) (i * m) m = f i := by
  induction n with
  | zero => omega
  | succ n ih =>
    have hlen := length_flatMap_range n fun i hi => hf i (by omega)
    rw [List.range_succ, List.flatMap_append, List.flatMap_singleton, Bytes.slice]
    obtain hlt | rfl := Nat.lt_succ_iff_lt_or_eq.mp hi
    · have hle : i * m + m ≤ n * m := by
        rw [← Nat.succ_mul]
        exact Nat.mul_le_mul_right m hlt
      rw [List.drop_append_of_le_length (by omega), List.take_append_of_le_length (by rw [List.length_drop]; omega)]
      exact ih (fun i hi => hf i (by omega)) hlt
    · rw [← hlen, List.drop_left, List.take_of_length_le (by rw [hf i (by omega)])]

/-- **A block the code decodes is the specification's, texel by texel.** -/
theorem decodeBlock_ok {block : Block} {index : ℕ} {texels : Bytes} (h : decodeBlock block index = .ok texels) :
    (∀ c < 3, ¬Spec.Escapes (Spec.word block) c) ∧ texels.length = 64 ∧
      ∀ x < 4, ∀ y < 4, Bytes.slice texels ((y * 4 + x) * 4) 4 = Spec.texel (Spec.word block) x y := by
  unfold decodeBlock at h
  cases hcolours : baseColours block with
  | error mode => simp [hcolours] at h
  | ok colours =>
    simp only [hcolours, Except.ok.injEq, BLOCK_EXTENT] at h
    have hbase := baseColours_ok hcolours
    have htexel : ∀ x y, (texel block colours x y).length = 4 := fun _ _ => rfl
    have hrow : ∀ y < 4, ((List.range 4).flatMap fun x => texel block colours x y).length = 16 := fun y _ =>
      length_flatMap_range 4 fun x _ => htexel x y
    refine ⟨fun c hc => (hbase c hc).1, ?_, fun x hx y hy => ?_⟩
    · rw [← h, length_flatMap_range 4 hrow]
    · have hat : (y * 4 + x) * 4 = y * 16 + x * 4 := by omega
      rw [← h, hat, ← Bytes.slice_slice (n := 16) (by omega), slice_flatMap_range 4 hrow hy,
        slice_flatMap_range 4 (fun x _ => htexel x y) hx]
      exact texel_spec (fun c hc => (hbase c hc).2) hx hy

/-- **The blocks that it refuses are those of ETC2**, by the first of the channels that leaves its range. -/
theorem decodeBlock_error {block : Block} {index : ℕ} {e : TextureError} (h : decodeBlock block index = .error e) :
    ∃ c < 3, Spec.Escapes (Spec.word block) c ∧ (∀ c' < c, ¬Spec.Escapes (Spec.word block) c') ∧
      e = .Etc2ModeInEtc1Data index (modeOf c) := by
  unfold decodeBlock at h
  cases hcolours : baseColours block with
  | error mode =>
    obtain ⟨c, hc, hescapes, hfirst, rfl⟩ := baseColours_error hcolours
    exact ⟨c, hc, hescapes, hfirst, by simpa [hcolours] using h.symm⟩
  | ok colours => simp [hcolours] at h

end Omnidroid.Texture
