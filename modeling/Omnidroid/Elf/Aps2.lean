/-
Android's packed relocations (`omni-elf/src/aps2.rs`): a blob of signed LEB128 values in groups, each with a header that
says which fields its relocations share.
- `popFront`, `decodeWith`: the decoder, every relocation handed to a sink as it is produced.
- `reading`: the format's own reading, one relocation after another, with no limit and no error of its own.
- `popFront_eq`: a value is decoded as `Leb128.read` reads it.
- `follows_decodeWith`: what a decode does with one sink it does with another that follows it.
- `aps2_decoding`: a decode that succeeds has handed over the reading, the whole blob read; one that fails stops within the
  declared count and the limit.
-/
import Omnidroid.Elf.Types
import Omnidroid.Lib.Answers
import Omnidroid.Lib.Leb128

namespace Omnidroid.Elf

/-- "APS2" -/
def APS2_MAGIC : Bytes := [0x41, 0x50, 0x53, 0x32]

def RELOCATION_GROUPED_BY_INFO_FLAG : UInt64 := 1
def RELOCATION_GROUPED_BY_OFFSET_DELTA_FLAG : UInt64 := 2
def RELOCATION_GROUPED_BY_ADDEND_FLAG : UInt64 := 4
def RELOCATION_GROUP_HAS_ADDEND_FLAG : UInt64 := 8

def ALL_GROUP_FLAGS : UInt64 :=
  RELOCATION_GROUPED_BY_INFO_FLAG ||| RELOCATION_GROUPED_BY_OFFSET_DELTA_FLAG ||| RELOCATION_GROUPED_BY_ADDEND_FLAG |||
    RELOCATION_GROUP_HAS_ADDEND_FLAG

/-- which tag the blob came from -/
inductive PackedFormat where
  | rela | rel
deriving DecidableEq, Repr

structure Aps2Limits where
  maxRelocations : ℕ
  imageSpan : ℕ

structure Aps2Summary where
  declaredCount : ℕ
  decodedCount : ℕ
  bytesConsumed : ℕ
  bytesTotal : ℕ
  groupCount : ℕ
  initialOffset : Int64
  observedGroupFlags : UInt64
deriving DecidableEq, Repr

/-! ## The decoder -/

structure Sleb128Decoder where
  data : Bytes
  pos : ℕ

namespace Sleb128Decoder

def remaining (d : Sleb128Decoder) : ℕ := d.data.length - d.pos

/-- the accumulator with one more byte's bits; bits past 64 are dropped -/
def gather (value : UInt64) (shift : ℕ) (byte : UInt8) : UInt64 :=
  if shift < 64 then value ||| (byte &&& 0x7f).toUInt64 <<< UInt64.ofNat shift else value

/-- the loop of `pop_front`, over the bytes not yet read: the value and where the next one starts -/
def popLoop (total : ℕ) : Bytes → ℕ → UInt64 → ℕ → Except ElfError (UInt64 × ℕ)
  | [], pos, _, _ => .error (.aps2Truncated pos total)
  | byte :: rest, pos, value, shift =>
    let value := gather value shift byte
    let shift := min (shift + 7) (2 ^ 32 - 1)
    if byte &&& 0x80 = 0 then
      .ok (if shift < 64 ∧ byte &&& 0x40 ≠ 0 then value ||| (~~~0) <<< UInt64.ofNat shift else value, pos + 1)
    else popLoop total rest (pos + 1) value shift

def popFront (d : Sleb128Decoder) : Except ElfError (Int64 × Sleb128Decoder) :=
  match popLoop d.data.length (d.data.drop d.pos) d.pos 0 0 with
  | .error e => .error e
  | .ok (value, pos) => .ok (value.toInt64, { d with pos := pos })

end Sleb128Decoder

/-- what of a group's header its relocations go by -/
structure Group where
  byOffsetDelta : Bool
  byInfo : Bool
  perRelocAddend : Bool
  offsetDelta : Int64

/-- a decode under way: the decoder and the sink's state -/
structure Decoding (σ : Type) where
  dec : Sleb128Decoder
  sink : σ

section Decode

variable {σ : Type} (sink : Rela → EStateM ElfError σ Unit)

def pop : EStateM ElfError (Decoding σ) Int64 := fun s =>
  match s.dec.popFront with
  | .ok (w, dec) => .ok w { s with dec := dec }
  | .error e => .error e s

def remaining : EStateM ElfError (Decoding σ) ℕ := fun s => .ok s.dec.remaining s

def hand (r : Rela) : EStateM ElfError (Decoding σ) Unit := fun s =>
  match sink r s.sink with
  | .ok () t => .ok () { s with sink := t }
  | .error e t => .error e { s with sink := t }

/-- a field that is read where `isRead` is set, and what stands where it is not -/
def popOr {α : Type} (isRead : Bool) (stands : α) (f : Int64 → α) : EStateM ElfError (Decoding σ) α :=
  if isRead then do pure (f (← pop)) else pure stands

def refuseIf (c : Prop) [Decidable c] (e : ElfError) : EStateM ElfError (Decoding σ) Unit := if c then throw e else pure ()

/-- the relocations of one group -/
def decodeGroup (g : Group) : ℕ → Rela → EStateM ElfError (Decoding σ) Rela
  | 0, r => pure r
  | n + 1, r => do
    let r_offset ← popOr (!g.byOffsetDelta) (r.r_offset + g.offsetDelta.toUInt64) fun w => r.r_offset + w.toUInt64
    let r_info ← popOr (!g.byInfo) r.r_info fun w => w.toUInt64
    let r_addend ← popOr g.perRelocAddend r.r_addend fun w => r.r_addend + w
    hand sink ⟨r_offset, r_info, r_addend⟩
    decodeGroup g n ⟨r_offset, r_info, r_addend⟩

/-- layers 1 to 3 of the limits -/
def checkGroup (limits : Aps2Limits) (index size : ℕ) (g : Group) : EStateM ElfError (Decoding σ) Unit :=
  let minBytesEach := (!g.byOffsetDelta).toNat + (!g.byInfo).toNat + g.perRelocAddend.toNat
  if 0 < minBytesEach then do
    let needed := min (size * minBytesEach) (2 ^ 64 - 1)
    let left ← remaining
    refuseIf (left < needed) (.aps2GroupLargerThanStream index size minBytesEach needed left)
  else if g.offsetDelta = 0 then refuseIf (1 < size) (.aps2DeadGroup index size)
  else
    let stride := g.offsetDelta.toInt.natAbs
    let reach := (size - 1) * stride
    if 2 ^ 64 ≤ reach then throw (.aps2GroupExceedsImage index size stride (2 ^ 64 - 1) limits.imageSpan)
    else refuseIf (limits.imageSpan < reach) (.aps2GroupExceedsImage index size stride reach limits.imageSpan)

/-- a group's header after its size and flags: what its relocations go by, and the running totals it sets -/
def decodeHeader (format : PackedFormat) (index : ℕ) (flags : UInt64) (r : Rela) :
    EStateM ElfError (Decoding σ) (Group × Rela) := do
  let byOffsetDelta := flags &&& RELOCATION_GROUPED_BY_OFFSET_DELTA_FLAG != 0
  let byInfo := flags &&& RELOCATION_GROUPED_BY_INFO_FLAG != 0
  let offsetDelta ← popOr byOffsetDelta 0 id
  let r_info ← popOr byInfo r.r_info fun w => w.toUInt64
  let addendBits := flags &&& (RELOCATION_GROUP_HAS_ADDEND_FLAG ||| RELOCATION_GROUPED_BY_ADDEND_FLAG)
  let perRelocAddend := addendBits == RELOCATION_GROUP_HAS_ADDEND_FLAG
  refuseIf (format = .rel ∧ flags &&& RELOCATION_GROUP_HAS_ADDEND_FLAG ≠ 0) (.aps2AddendInRelFormat index)
  -- an addend delta the group shares; with neither bit, or the grouped one alone, the addend starts again
  let r_addend ← popOr (addendBits == RELOCATION_GROUP_HAS_ADDEND_FLAG ||| RELOCATION_GROUPED_BY_ADDEND_FLAG)
    (if perRelocAddend then r.r_addend else 0) fun w => r.r_addend + w
  pure (⟨byOffsetDelta, byInfo, perRelocAddend, offsetDelta⟩, ⟨r.r_offset, r_info, r_addend⟩)

/-- the groups: how many relocations and groups there were, and the flags seen -/
def decodeGroups (format : PackedFormat) (limits : Aps2Limits) (declared decoded groupCount : ℕ) (observed : UInt64)
    (r : Rela) : EStateM ElfError (Decoding σ) (ℕ × ℕ × UInt64) :=
  if decoded < declared then do
    let groupSize ← pop
    if _hsize : groupSize ≤ 0 then throw (.aps2BadGroupSize groupCount groupSize)
    else
      let size := groupSize.toUInt64.toNat
      let wouldBe := min (decoded + size) (2 ^ 64 - 1)
      if _hroom : declared < wouldBe then throw (.aps2GroupOverrun groupCount size wouldBe declared)
      else
        let flags := (← pop).toUInt64
        let unknown := flags &&& ~~~ALL_GROUP_FLAGS
        refuseIf (unknown ≠ 0) (.aps2UnknownGroupFlags groupCount unknown)
        let (g, r) ← decodeHeader format groupCount flags r
        checkGroup limits groupCount size g
        let r ← decodeGroup sink g size r
        decodeGroups format limits declared (decoded + size) (groupCount + 1) (observed ||| flags) r
  else pure (decoded, groupCount, observed)
termination_by declared - decoded
decreasing_by
  have hpos : groupSize.toUInt64.toNat ≠ 0 := by
    intro h
    have hzero : groupSize.toUInt64 = 0 := UInt64.toNat_inj.mp h
    apply _hsize
    rw [← Int64.toInt64_toUInt64 groupSize, hzero]
    decide
  omega

/-- `decode_with` once the magic is seen -/
def decodeBody (total : ℕ) (format : PackedFormat) (limits : Aps2Limits) : EStateM ElfError (Decoding σ) Aps2Summary := do
  let declared ← pop
  refuseIf (declared < 0) (.aps2NegativeCount declared)
  let declared := declared.toUInt64.toNat
  refuseIf (limits.maxRelocations < declared) (.aps2CountExceedsLimit declared limits.maxRelocations)
  let initialOffset ← pop
  let (decoded, groupCount, observed) ← decodeGroups sink format limits declared 0 0 0 ⟨initialOffset.toUInt64, 0, 0⟩
  refuseIf (decoded ≠ declared) (.aps2CountMismatch declared decoded)
  let dec := (← get).dec
  let consumed := APS2_MAGIC.length + dec.pos
  refuseIf (consumed ≠ total) (.aps2TrailingBytes consumed total (total - consumed))
  pure ⟨declared, decoded, consumed, total, groupCount, initialOffset, observed⟩

def decodeWith (blob : Bytes) (format : PackedFormat) (limits : Aps2Limits) : EStateM ElfError σ Aps2Summary := fun t =>
  if blob.length < APS2_MAGIC.length then .error (.aps2TooShort blob.length) t
  else if blob.take 4 ≠ APS2_MAGIC then .error (.aps2BadMagic (blob.take 4)) t
  else
    match decodeBody sink blob.length format limits ⟨⟨blob.drop APS2_MAGIC.length, 0⟩, t⟩ with
    | .ok summary s => .ok summary s.sink
    | .error e s => .error e s.sink

end Decode

/-! ## The format's own reading -/

/-- a value at the start of what is left of the blob -/
def word (bytes : Bytes) : Option (Int64 × Bytes) := (Leb128.read bytes).map fun (v, rest) => (Int64.ofInt v, rest)

/-- a field that is read, or one that stands -/
def field (isRead : Bool) (stands : Int64) (bytes : Bytes) : Option (Int64 × Bytes) :=
  if isRead then word bytes else some (stands, bytes)

/-- how the relocations of a group are read -/
structure Shape where
  flags : UInt64
  offsetDelta : Int64

namespace Shape

def shares (g : Shape) (flag : UInt64) : Bool := g.flags &&& flag != 0

/-- addends go on from one relocation to the next, each by a delta of its own -/
def ownAddends (g : Shape) : Bool :=
  g.shares RELOCATION_GROUP_HAS_ADDEND_FLAG && !g.shares RELOCATION_GROUPED_BY_ADDEND_FLAG

/-- the next relocation of the group, after `r` -/
def next (g : Shape) (r : Rela) (bytes : Bytes) : Option (Rela × Bytes) := do
  let (delta, bytes) ← field (!g.shares RELOCATION_GROUPED_BY_OFFSET_DELTA_FLAG) g.offsetDelta bytes
  let (info, bytes) ← field (!g.shares RELOCATION_GROUPED_BY_INFO_FLAG) r.r_info.toInt64 bytes
  let (addendDelta, bytes) ← field g.ownAddends 0 bytes
  pure (⟨r.r_offset + delta.toUInt64, info.toUInt64, r.r_addend + addendDelta⟩, bytes)

end Shape

/-- a group's header: how many relocations it has, how they are read, and the totals they go on from -/
def header (format : PackedFormat) (r : Rela) (bytes : Bytes) : Option (ℕ × Shape × Rela × Bytes) := do
  let (size, bytes) ← word bytes
  let (flags, bytes) ← word bytes
  let flags := flags.toUInt64
  let g : Shape := ⟨flags, 0⟩
  let (offsetDelta, bytes) ← field (g.shares RELOCATION_GROUPED_BY_OFFSET_DELTA_FLAG) 0 bytes
  let (info, bytes) ← field (g.shares RELOCATION_GROUPED_BY_INFO_FLAG) r.r_info.toInt64 bytes
  let hasAddend := g.shares RELOCATION_GROUP_HAS_ADDEND_FLAG
  let (addendDelta, bytes) ← field (hasAddend && g.shares RELOCATION_GROUPED_BY_ADDEND_FLAG) 0 bytes
  if size ≤ 0 ∨ flags &&& ~~~ALL_GROUP_FLAGS ≠ 0 ∨ (format = .rel ∧ hasAddend = true) then none
  else
    let r_addend := if hasAddend then r.r_addend + addendDelta else 0
    some (size.toUInt64.toNat, ⟨flags, offsetDelta⟩, ⟨r.r_offset, info.toUInt64, r_addend⟩, bytes)

/-- so many relocations, with so many of them left in the group under way; the bytes end with the last -/
def relocations (format : PackedFormat) : ℕ → ℕ → Shape → Rela → Bytes → Option (List Rela)
  | 0, left, _, _, bytes => if left = 0 ∧ bytes = [] then some [] else none
  | n + 1, left, g, r, bytes => do
    let (left, g, r, bytes) ← if left = 0 then header format r bytes else some (left, g, r, bytes)
    let (r, bytes) ← g.next r bytes
    let rs ← relocations format n (left - 1) g r bytes
    pure (r :: rs)

/-- a blob: its magic, how many relocations it declares, the offset the first goes on from, and the groups -/
def reading (format : PackedFormat) (blob : Bytes) : Option (List Rela) := do
  if blob.take 4 ≠ APS2_MAGIC then none
  let (count, bytes) ← word (blob.drop 4)
  if count < 0 then none
  let (offset, bytes) ← word bytes
  relocations format count.toUInt64.toNat 0 ⟨0, 0⟩ ⟨offset.toUInt64, 0, 0⟩ bytes

/-- the count a blob declares, nought where it has none -/
def declaredCount (blob : Bytes) : ℕ :=
  match word (blob.drop 4) with
  | some (count, _) => if count < 0 then 0 else count.toUInt64.toNat
  | none => 0

/-! ## A value -/

namespace Sleb128Decoder

theorem dvd_of_le {e : ℕ} (he : 64 ≤ e) (v : ℤ) : (2 : ℤ) ^ 64 ∣ 2 ^ e * v :=
  Dvd.dvd.mul_right (pow_dvd_pow 2 he) v

/-- the accumulator has the low 64 bits of the sum so far, and nothing above the groups read -/
theorem gather_spec {value : UInt64} {e : ℕ} (byte : UInt8) (hv : value.toNat < 2 ^ min e 64) :
    ((gather value (min e (2 ^ 32 - 1)) byte).toNat : ℤ) ≡ value.toNat + 2 ^ e * (byte.toNat % 128 : ℕ) [ZMOD 2 ^ 64] ∧
      (gather value (min e (2 ^ 32 - 1)) byte).toNat < 2 ^ min (e + 7) 64 := by
  rcases Nat.lt_or_ge e 64 with he | he
  · have hs : min e (2 ^ 32 - 1) = e := by omega
    have hm : min e 64 = e := by omega
    have hd : (byte &&& 0x7f).toUInt64.toNat = byte.toNat % 128 := by
      rw [UInt8.toNat_toUInt64, Leb128.and_low7]
    have hsum : (gather value (min e (2 ^ 32 - 1)) byte).toNat = (value.toNat + 2 ^ e * (byte.toNat % 128)) % 2 ^ 64 := by
      rw [hs, gather, if_pos he, Leb128.or_shift he (by rwa [hm] at hv), hd]
    constructor
    · rw [hsum]
      push_cast
      exact Int.mod_modEq _ _
    · rw [hsum]
      rw [hm] at hv
      rcases Nat.lt_or_ge (e + 7) 64 with h7 | h7
      · rw [Nat.min_eq_left h7.le]
        apply lt_of_le_of_lt (Nat.mod_le _ _)
        have hlow : byte.toNat % 128 + 1 ≤ 2 ^ 7 := by omega
        calc value.toNat + 2 ^ e * (byte.toNat % 128)
          _ < 2 ^ e * (byte.toNat % 128 + 1) := by
            rw [Nat.mul_add, Nat.mul_one]
            omega
          _ ≤ 2 ^ e * 2 ^ 7 := Nat.mul_le_mul_left _ hlow
          _ = 2 ^ (e + 7) := by rw [Nat.pow_add]
      · rw [Nat.min_eq_right h7]
        exact Nat.mod_lt _ (Nat.two_pow_pos _)
  · have hs : ¬min e (2 ^ 32 - 1) < 64 := by omega
    rw [gather, if_neg hs, Nat.min_eq_right (by omega)]
    constructor
    · apply (Int.modEq_iff_dvd).mpr
      rw [add_sub_cancel_left]
      exact dvd_of_le he _
    · exact value.toNat_lt

/-- the sign's bits above what was read -/
theorem signed_spec {value : UInt64} {e : ℕ} (byte : UInt8) (hv : value.toNat < 2 ^ min (e + 7) 64) :
    let shift := min (min e (2 ^ 32 - 1) + 7) (2 ^ 32 - 1)
    ((if shift < 64 ∧ byte &&& 0x40 ≠ 0 then value ||| (~~~0) <<< UInt64.ofNat shift else value).toNat : ℤ) ≡
      value.toNat - 2 ^ e * (if 64 ≤ byte.toNat % 128 then 128 else 0) [ZMOD 2 ^ 64] := by
  intro shift
  have hs : shift = min (e + 7) (2 ^ 32 - 1) := by omega
  rw [hs]
  have hbit := Leb128.and_sign byte
  rcases Nat.lt_or_ge (e + 7) 64 with he | he
  · have hmin : min (e + 7) (2 ^ 32 - 1) = e + 7 := by omega
    rw [hmin]
    split
    case isTrue h =>
      rw [if_pos (hbit.mp h.2), Leb128.or_shift he (by rwa [Nat.min_eq_left he.le] at hv)]
      have hones : ((~~~0 : UInt64)).toNat = 2 ^ 64 - 1 := by decide
      rw [hones]
      push_cast
      apply (Int.mod_modEq _ _).trans
      apply Int.modEq_iff_dvd.mpr
      use -2 ^ (e + 7)
      rw [pow_add]
      push_cast [Nat.one_le_two_pow]
      ring
    case isFalse h =>
      have hoff : ¬64 ≤ byte.toNat % 128 := by
        intro h64
        exact h ⟨he, hbit.mpr h64⟩
      rw [if_neg hoff, mul_zero, sub_zero]
  · have hmin : ¬(min (e + 7) (2 ^ 32 - 1) < 64) := by omega
    rw [if_neg (by tauto)]
    apply Int.modEq_iff_dvd.mpr
    split
    · have : (value.toNat : ℤ) - 2 ^ e * 128 - value.toNat = 2 ^ (e + 7) * (-1) := by
        rw [pow_add]
        ring
      rw [this]
      exact dvd_of_le he _
    · simp

theorem popLoop_eq (total : ℕ) (bytes : Bytes) (pos : ℕ) {value : UInt64} {e : ℕ} (hv : value.toNat < 2 ^ min e 64) :
    match Leb128.read bytes with
    | none => popLoop total bytes pos value (min e (2 ^ 32 - 1)) = .error (.aps2Truncated (pos + bytes.length) total)
    | some (v, rest) => ∃ w, popLoop total bytes pos value (min e (2 ^ 32 - 1)) =
        .ok (w, pos + (bytes.length - rest.length)) ∧ (w.toNat : ℤ) ≡ value.toNat + 2 ^ e * v [ZMOD 2 ^ 64] := by
  induction bytes generalizing pos value e with
  | nil => rfl
  | cons b bs ih =>
    obtain ⟨hsum, hlt⟩ := gather_spec b hv
    by_cases hlast : b.toNat < 128
    · have hmod : b.toNat % 128 = b.toNat := Nat.mod_eq_of_lt hlast
      simp only [Leb128.read, if_pos hlast]
      refine ⟨_, by
        rw [popLoop, if_pos ((Leb128.and_high b).mpr hlast), List.length_cons, Nat.add_sub_cancel_left], ?_⟩
      have hsign := @signed_spec (gather value (min e (2 ^ 32 - 1)) b) _ b hlt
      apply hsign.trans
      rw [hmod] at hsum ⊢
      rw [mul_sub, ← add_sub_assoc]
      exact hsum.sub_right _
    · have hmore : ¬(b &&& 0x80 = 0) := by rwa [Leb128.and_high]
      have hshift : min (min e (2 ^ 32 - 1) + 7) (2 ^ 32 - 1) = min (e + 7) (2 ^ 32 - 1) := by omega
      have ih := ih (pos + 1) hlt
      rw [popLoop, if_neg hmore, hshift]
      simp only [Leb128.read, if_neg hlast]
      cases hr : Leb128.read bs with
      | none =>
        rw [hr] at ih
        rw [List.length_cons, show pos + (bs.length + 1) = pos + 1 + bs.length by omega]
        exact ih
      | some p =>
        obtain ⟨v, rest⟩ := p
        rw [hr] at ih
        obtain ⟨w, hw, hval⟩ := ih
        have hshort := Leb128.read_shortens hr
        refine ⟨w, ?_, ?_⟩
        · rw [List.length_cons, show pos + (bs.length + 1 - rest.length) = pos + 1 + (bs.length - rest.length) by omega]
          exact hw
        · have hbyte : (b.toNat % 128 : ℕ) = b.toNat - 128 := by
            have := b.toNat_lt
            omega
          apply hval.trans
          rw [hbyte] at hsum
          calc _ ≡ (value.toNat + 2 ^ e * ((b.toNat - 128 : ℕ) : ℤ)) + 2 ^ (e + 7) * v [ZMOD 2 ^ 64] := hsum.add_right _
            _ = value.toNat + 2 ^ e * ((b.toNat - 128 : ℕ) + 128 * v) := by
              rw [pow_add]
              ring

end Sleb128Decoder

/-! ## What a decode hands over -/

/-- `sink`, each call noted, the refused ones too -/
def noted {σ : Type} (sink : Rela → EStateM ElfError σ Unit) : Rela → EStateM ElfError (σ × List Rela) Unit :=
  fun r s =>
    match sink r s.1 with
    | .ok () t => .ok () (t, s.2 ++ [r])
    | .error e t => .error e (t, s.2 ++ [r])

/-- the bytes not yet read -/
def Decoding.left {σ : Type} (s : Decoding σ) : Bytes := s.dec.data.drop s.dec.pos

/-- from `s` to `s'` the sink was called for `rs`, one after another -/
structure Handed {σ : Type} (rs : List Rela) (s s' : Decoding (σ × List Rela)) : Prop where
  data : s'.dec.data = s.dec.data
  calls : s'.sink.2 = s.sink.2 ++ rs

section Steps

variable {σ : Type} {s s₁ s' : Decoding (σ × List Rela)} {rs rs' : List Rela}

theorem Handed.refl (s : Decoding (σ × List Rela)) : Handed [] s s := ⟨rfl, by simp⟩

theorem Handed.trans (h : Handed rs s s₁) (h' : Handed rs' s₁ s') : Handed (rs ++ rs') s s' :=
  ⟨h'.data.trans h.data, by rw [h'.calls, h.calls, List.append_assoc]⟩

theorem Handed.after (h : Handed [] s s₁) (h' : Handed rs s₁ s') : Handed rs s s' := h.trans h'

theorem toInt64_eq_ofInt {w : UInt64} {v : ℤ} (h : (w.toNat : ℤ) ≡ v [ZMOD 2 ^ 64]) : w.toInt64 = Int64.ofInt v := by
  apply Int64.toBitVec_inj.mp
  apply BitVec.eq_of_toNat_eq
  rw [UInt64.toBitVec_toInt64, Int64.toBitVec_ofInt, BitVec.toNat_ofInt, UInt64.toNat_toBitVec]
  have hlt := w.toNat_lt
  have hmod : v % (2 ^ 64 : ℕ) = w.toNat := by
    rw [← Int.emod_eq_of_lt (Int.natCast_nonneg w.toNat) (Int.ofNat_lt.mpr hlt)]
    exact h.symm
  rw [hmod, Int.toNat_natCast]

theorem popFront_eq (d : Sleb128Decoder) :
    match word (d.data.drop d.pos) with
    | none => ∃ e, d.popFront = .error e
    | some (w, rest) => ∃ d', d.popFront = .ok (w, d') ∧ d'.data = d.data ∧ d'.data.drop d'.pos = rest := by
  have hloop := @Sleb128Decoder.popLoop_eq d.data.length (d.data.drop d.pos) d.pos 0 0 (by decide)
  simp only [word, Sleb128Decoder.popFront]
  cases hr : Leb128.read (d.data.drop d.pos) with
  | none =>
    rw [hr] at hloop
    rw [show min 0 (2 ^ 32 - 1) = 0 from rfl] at hloop
    exact ⟨_, by rw [hloop]⟩
  | some p =>
    obtain ⟨v, rest⟩ := p
    rw [hr] at hloop
    obtain ⟨w, hw, hval⟩ := hloop
    rw [show min 0 (2 ^ 32 - 1) = 0 from rfl] at hw
    have hword : w.toInt64 = Int64.ofInt v := by
      apply toInt64_eq_ofInt
      simpa using hval
    obtain ⟨g, -, hg⟩ := Leb128.read_append hr
    refine ⟨{ d with pos := d.pos + ((d.data.drop d.pos).length - rest.length) }, ?_, rfl, ?_⟩
    · rw [hw]
      simp only [hword]
    · rw [← List.drop_drop, hg, List.length_append, Nat.add_sub_cancel, List.drop_left]

theorem pop_ok {w : Int64} (h : pop s = .ok w s') : word s.left = some (w, s'.left) ∧ Handed [] s s' := by
  have hpop := popFront_eq s.dec
  simp only [pop] at h
  rw [Decoding.left]
  cases hw : word (s.dec.data.drop s.dec.pos) with
  | none =>
    rw [hw] at hpop
    obtain ⟨e, he⟩ := hpop
    rw [he] at h
    cases h
  | some p =>
    rw [hw] at hpop
    obtain ⟨d', hd, hdata, hleft⟩ := hpop
    rw [hd] at h
    cases h
    exact ⟨by rw [Decoding.left, hleft], hdata, by simp⟩

theorem pop_error {e : ElfError} (h : pop s = .error e s') : word s.left = none ∧ s' = s := by
  have hpop := popFront_eq s.dec
  simp only [pop] at h
  rw [Decoding.left]
  cases hw : word (s.dec.data.drop s.dec.pos) with
  | none =>
    rw [hw] at hpop
    obtain ⟨e, he⟩ := hpop
    rw [he] at h
    cases h
    exact ⟨rfl, rfl⟩
  | some p =>
    rw [hw] at hpop
    obtain ⟨d', hd, -⟩ := hpop
    rw [hd] at h
    cases h

theorem hand_ok {sink : Rela → EStateM ElfError σ Unit} {r : Rela} (h : hand (noted sink) r s = .ok () s') :
    Handed [r] s s' ∧ s'.left = s.left := by
  simp only [hand, noted] at h
  cases hs : sink r s.sink.1 with
  | ok u t =>
    rw [hs] at h
    cases h
    exact ⟨⟨rfl, rfl⟩, rfl⟩
  | error e t =>
    rw [hs] at h
    cases h

theorem hand_error {sink : Rela → EStateM ElfError σ Unit} {r : Rela} {e : ElfError}
    (h : hand (noted sink) r s = .error e s') : Handed [r] s s' := by
  simp only [hand, noted] at h
  cases hs : sink r s.sink.1 with
  | ok u t =>
    rw [hs] at h
    cases h
  | error e t =>
    rw [hs] at h
    cases h
    exact ⟨rfl, rfl⟩

theorem popOr_ok {α : Type} {b : Bool} {f : Int64 → α} {a₀ a : α} {stands : Int64} (hstands : f stands = a₀)
    (h : popOr b a₀ f s = .ok a s') : ∃ w, field b stands s.left = some (w, s'.left) ∧ a = f w ∧ Handed [] s s' := by
  cases b with
  | false =>
    obtain ⟨rfl, rfl⟩ := pure_ok.mp h
    exact ⟨stands, rfl, hstands.symm, .refl s⟩
  | true =>
    obtain ⟨w, s₁, hpop, h⟩ := bind_ok.mp h
    obtain ⟨rfl, rfl⟩ := pure_ok.mp h
    obtain ⟨hword, hh⟩ := pop_ok hpop
    exact ⟨w, hword, rfl, hh⟩

theorem popOr_error {α : Type} {b : Bool} {f : Int64 → α} {a₀ : α} {e : ElfError} (h : popOr b a₀ f s = .error e s') :
    s' = s := by
  cases b with
  | false => exact absurd h pure_error
  | true =>
    rcases bind_error.mp h with h | ⟨w, s₁, -, h⟩
    · exact (pop_error h).2
    · exact absurd h pure_error

theorem refuseIf_ok {c : Prop} [Decidable c] {e : ElfError} (h : refuseIf c e s = .ok () s') : ¬c ∧ s = s' := by
  rw [refuseIf] at h
  split at h
  case isTrue => exact absurd h throw_ok
  case isFalse hc => exact ⟨hc, (pure_ok.mp h).2⟩

theorem refuseIf_error {c : Prop} [Decidable c] {e e' : ElfError} (h : refuseIf c e s = .error e' s') : s' = s := by
  rw [refuseIf] at h
  split at h
  case isTrue => exact (throw_error h).symm
  case isFalse => exact absurd h pure_error

/-- the decoder's group of a shape -/
def Shape.group (g : Shape) : Group :=
  ⟨g.shares RELOCATION_GROUPED_BY_OFFSET_DELTA_FLAG, g.shares RELOCATION_GROUPED_BY_INFO_FLAG, g.ownAddends, g.offsetDelta⟩

theorem Shape.next_eq {g : Shape} {r : Rela} {bytes b₁ b₂ b₃ : Bytes} {delta info add : Int64}
    (hdelta : field (!g.group.byOffsetDelta) g.offsetDelta bytes = some (delta, b₁))
    (hinfo : field (!g.group.byInfo) r.r_info.toInt64 b₁ = some (info, b₂))
    (hadd : field g.group.perRelocAddend 0 b₂ = some (add, b₃)) :
    g.next r bytes = some (⟨r.r_offset + delta.toUInt64, info.toUInt64, r.r_addend + add⟩, b₃) := by
  simp only [group] at hdelta hinfo hadd
  simp only [next, hdelta, hinfo, hadd, Option.bind_eq_bind, Option.bind_some]
  rfl

variable {sink : Rela → EStateM ElfError σ Unit}

theorem decodeGroup_ok {g : Shape} {n : ℕ} {r r' : Rela} (h : decodeGroup (noted sink) g.group n r s = .ok r' s') :
    ∃ rs, rs.length = n ∧ Handed rs s s' ∧ ∀ format k,
      relocations format (n + k) n g r s.left = (relocations format k 0 g r' s'.left).map (rs ++ ·) := by
  induction n generalizing r s with
  | zero =>
    obtain ⟨rfl, rfl⟩ := pure_ok.mp h
    refine ⟨[], rfl, .refl s, ?_⟩
    intro format k
    simp
  | succ n ih =>
    simp only [decodeGroup, bind_ok] at h
    obtain ⟨r_offset, s₁, hoffset, r_info, s₂, hinfo, r_addend, s₃, haddend, _, s₄, hhand, h⟩ := h
    obtain ⟨delta, hdelta, rfl, hh₁⟩ := popOr_ok (f := fun w => r.r_offset + w.toUInt64) rfl hoffset
    obtain ⟨info, hread, rfl, hh₂⟩ := popOr_ok (f := Int64.toUInt64) (UInt64.toUInt64_toInt64 r.r_info) hinfo
    obtain ⟨add, hadd, rfl, hh₃⟩ := popOr_ok (f := fun w => r.r_addend + w) (by rw [Int64.add_zero]) haddend
    obtain ⟨hh₄, hleft⟩ := hand_ok hhand
    obtain ⟨rs, hlen, hh, hrest⟩ := ih h
    refine ⟨_ :: rs, by rw [List.length_cons, hlen], (((hh₁.after hh₂).after hh₃).after hh₄).trans hh, ?_⟩
    intro format k
    have hnext := Shape.next_eq hdelta hread hadd
    rw [show n + 1 + k = (n + k) + 1 by omega]
    simp only [relocations, Nat.succ_ne_zero, if_false, Option.bind_eq_bind, Option.bind_some, hnext, Nat.add_sub_cancel,
      ← hleft, hrest]
    cases relocations format k 0 g r' s'.left <;> rfl

theorem decodeGroup_error {g : Group} {n : ℕ} {r : Rela} {e : ElfError}
    (h : decodeGroup (noted sink) g n r s = .error e s') : ∃ rs, rs.length ≤ n ∧ Handed rs s s' := by
  induction n generalizing r s with
  | zero => exact absurd h pure_error
  | succ n ih =>
    simp only [decodeGroup] at h
    rcases bind_error.mp h with h | ⟨r_offset, s₁, hoffset, h⟩
    · rw [popOr_error h]
      exact ⟨[], by simp, .refl s⟩
    obtain ⟨-, -, -, hh₁⟩ := popOr_ok (f := fun w => r.r_offset + w.toUInt64) rfl hoffset
    rcases bind_error.mp h with h | ⟨r_info, s₂, hinfo, h⟩
    · rw [popOr_error h]
      exact ⟨[], by simp, hh₁⟩
    obtain ⟨-, -, -, hh₂⟩ := popOr_ok (f := Int64.toUInt64) (UInt64.toUInt64_toInt64 r.r_info) hinfo
    rcases bind_error.mp h with h | ⟨r_addend, s₃, haddend, h⟩
    · rw [popOr_error h]
      exact ⟨[], by simp, hh₁.after hh₂⟩
    obtain ⟨-, -, -, hh₃⟩ := popOr_ok (f := fun w => r.r_addend + w) (by rw [Int64.add_zero]) haddend
    have hh := (hh₁.after hh₂).after hh₃
    rcases bind_error.mp h with h | ⟨_, s₄, hhand, h⟩
    · exact ⟨[_], by simp, hh.after (hand_error h)⟩
    obtain ⟨rs, hlen, hrest⟩ := ih h
    exact ⟨_ :: rs, by rw [List.length_cons]; omega, (hh.after (hand_ok hhand).1).trans hrest⟩

theorem checkGroup_ok {limits : Aps2Limits} {i n : ℕ} {g : Group} (h : checkGroup limits i n g s = .ok () s') : s = s' := by
  simp only [checkGroup] at h
  split at h
  · obtain ⟨left, s₁, hleft, h⟩ := bind_ok.mp h
    cases hleft
    exact (refuseIf_ok h).2
  split at h
  · exact (refuseIf_ok h).2
  split at h
  · exact absurd h throw_ok
  · exact (refuseIf_ok h).2

theorem checkGroup_error {limits : Aps2Limits} {i n : ℕ} {g : Group} {e : ElfError}
    (h : checkGroup limits i n g s = .error e s') : s' = s := by
  simp only [checkGroup] at h
  split at h
  · rcases bind_error.mp h with h | ⟨left, s₁, hleft, h⟩
    · cases h
    · cases hleft
      exact refuseIf_error h
  split at h
  · exact refuseIf_error h
  split at h
  · exact (throw_error h).symm
  · exact refuseIf_error h

/-- the decoder's switch on the two addend bits together, as one bit after the other -/
theorem addend_bits (flags : UInt64) :
    (flags &&& (RELOCATION_GROUP_HAS_ADDEND_FLAG ||| RELOCATION_GROUPED_BY_ADDEND_FLAG) ==
        RELOCATION_GROUP_HAS_ADDEND_FLAG) =
      ((flags &&& RELOCATION_GROUP_HAS_ADDEND_FLAG != 0) && !(flags &&& RELOCATION_GROUPED_BY_ADDEND_FLAG != 0)) ∧
    (flags &&& (RELOCATION_GROUP_HAS_ADDEND_FLAG ||| RELOCATION_GROUPED_BY_ADDEND_FLAG) ==
        RELOCATION_GROUP_HAS_ADDEND_FLAG ||| RELOCATION_GROUPED_BY_ADDEND_FLAG) =
      ((flags &&& RELOCATION_GROUP_HAS_ADDEND_FLAG != 0) && (flags &&& RELOCATION_GROUPED_BY_ADDEND_FLAG != 0)) := by
  have hall : ∀ n ∈ List.range 16,
      (UInt64.ofNat n &&& (8 ||| 4) == 8) = ((UInt64.ofNat n &&& 8 != 0) && !(UInt64.ofNat n &&& 4 != 0)) ∧
      (UInt64.ofNat n &&& (8 ||| 4) == 8 ||| 4) = ((UInt64.ofNat n &&& 8 != 0) && (UInt64.ofNat n &&& 4 != 0)) := by
    decide
  have hlow : flags &&& 15 = UInt64.ofNat (flags.toNat % 16) := by
    apply UInt64.toNat_inj.mp
    rw [UInt64.toNat_and, UInt64.toNat_ofNat', Nat.mod_eq_of_lt (by omega)]
    exact Nat.and_two_pow_sub_one_eq_mod flags.toNat 4
  have hkeep : ∀ mask, 15 &&& mask = mask → flags &&& mask = UInt64.ofNat (flags.toNat % 16) &&& mask := by
    intro mask hmask
    rw [← hlow, UInt64.and_assoc, hmask]
  have h := hall (flags.toNat % 16) (List.mem_range.mpr (Nat.mod_lt _ (by decide)))
  rw [← hkeep (8 ||| 4) (by decide), ← hkeep 8 (by decide), ← hkeep 4 (by decide)] at h
  exact h

/-- the addend a group goes on from: its own bit first, the shared delta's after it -/
theorem addend_ok {has by_ : Bool} {total r_addend : Int64}
    (h : popOr (has && by_) (if (has && !by_) = true then total else 0) (fun w => total + w) s = .ok r_addend s') :
    ∃ w, field (has && by_) 0 s.left = some (w, s'.left) ∧ r_addend = (if has then total + w else 0) ∧ Handed [] s s' := by
  cases has with
  | false =>
    obtain ⟨rfl, rfl⟩ := pure_ok.mp h
    exact ⟨0, rfl, rfl, .refl s⟩
  | true =>
    cases by_ with
    | false => exact popOr_ok (by simp) h
    | true => exact popOr_ok (show total + 0 = total + 0 from rfl) h

theorem decodeHeader_ok {format : PackedFormat} {i : ℕ} {size flags : Int64} {r r' : Rela} {g : Group} {bytes b₁ : Bytes}
    (hsize : word bytes = some (size, b₁)) (hpos : ¬size ≤ 0) (hflags : word b₁ = some (flags, s.left))
    (hknown : flags.toUInt64 &&& ~~~ALL_GROUP_FLAGS = 0)
    (h : decodeHeader format i flags.toUInt64 r s = .ok (g, r') s') :
    ∃ g' : Shape, g = g'.group ∧ header format r bytes = some (size.toUInt64.toNat, g', r', s'.left) ∧ Handed [] s s' := by
  simp only [decodeHeader] at h
  obtain ⟨offsetDelta, s₁, hoffset, h⟩ := bind_ok.mp h
  obtain ⟨_, hdelta, rfl, hh₁⟩ := popOr_ok (f := id) rfl hoffset
  obtain ⟨r_info, s₂, hinfo, h⟩ := bind_ok.mp h
  obtain ⟨info, hread, rfl, hh₂⟩ := popOr_ok (f := Int64.toUInt64) (UInt64.toUInt64_toInt64 r.r_info) hinfo
  obtain ⟨_, s₃, hrefuse, h⟩ := bind_ok.mp h
  obtain ⟨hrel, rfl⟩ := refuseIf_ok hrefuse
  obtain ⟨r_addend, s₃, haddend, h⟩ := bind_ok.mp h
  obtain ⟨hout, rfl⟩ := pure_ok.mp h
  cases hout
  obtain ⟨hper, hboth⟩ := addend_bits flags.toUInt64
  rw [hper, hboth] at haddend
  obtain ⟨addDelta, hadd, rfl, hh₃⟩ := addend_ok haddend
  refine ⟨⟨flags.toUInt64, offsetDelta⟩, ?_, ?_, (hh₁.after hh₂).after hh₃⟩
  · rw [hper]
    rfl
  · have hbad : ¬(size ≤ 0 ∨ flags.toUInt64 &&& ~~~ALL_GROUP_FLAGS ≠ 0 ∨
        (format = .rel ∧ (flags.toUInt64 &&& RELOCATION_GROUP_HAS_ADDEND_FLAG != 0) = true)) := by
      rintro (h | h | ⟨hf, hs⟩)
      · exact hpos h
      · exact h hknown
      · exact hrel ⟨hf, by simpa using hs⟩
    simp only [header, Shape.shares, hsize, hflags, hdelta, hread, hadd, Option.bind_eq_bind, Option.bind_some, hbad,
      if_false]
    rfl


theorem decodeHeader_error {format : PackedFormat} {i : ℕ} {flags : UInt64} {r : Rela} {e : ElfError}
    (h : decodeHeader format i flags r s = .error e s') : Handed [] s s' := by
  simp only [decodeHeader] at h
  rcases bind_error.mp h with h | ⟨offsetDelta, s₁, hoffset, h⟩
  · rw [popOr_error h]
    exact .refl s
  obtain ⟨-, -, -, hh₁⟩ := popOr_ok (f := id) rfl hoffset
  rcases bind_error.mp h with h | ⟨r_info, s₂, hinfo, h⟩
  · rw [popOr_error h]
    exact hh₁
  obtain ⟨-, -, -, hh₂⟩ := popOr_ok (f := Int64.toUInt64) (UInt64.toUInt64_toInt64 r.r_info) hinfo
  rcases bind_error.mp h with h | ⟨_, s₃, hrefuse, h⟩
  · rw [refuseIf_error h]
    exact hh₁.after hh₂
  obtain ⟨-, rfl⟩ := refuseIf_ok hrefuse
  rcases bind_error.mp h with h | ⟨r_addend, s₄, haddend, h⟩
  · rw [popOr_error h]
    exact hh₁.after hh₂
  · exact absurd h pure_error

/-- a group's size is at least one, and it fits in what is left of the declared count -/
theorem groupSize_spec {size : Int64} {declared decoded : ℕ} (hd : declared < 2 ^ 64 - 1) (hpos : ¬size ≤ 0)
    (hroom : ¬declared < min (decoded + size.toUInt64.toNat) (2 ^ 64 - 1)) :
    0 < size.toUInt64.toNat ∧ decoded + size.toUInt64.toNat ≤ declared := by
  constructor
  · by_contra h
    have hzero : size.toUInt64 = 0 := UInt64.toNat_inj.mp (Nat.eq_zero_of_not_pos h)
    apply hpos
    rw [← Int64.toInt64_toUInt64 size, hzero]
    decide
  · omega

theorem decodeGroups_ok {format : PackedFormat} {limits : Aps2Limits} {declared decoded count : ℕ} {seen : UInt64} {r : Rela}
    {out : ℕ × ℕ × UInt64} (hd : declared < 2 ^ 64 - 1) (hle : decoded ≤ declared)
    (h : decodeGroups (noted sink) format limits declared decoded count seen r s = .ok out s') :
    out.1 = declared ∧ ∃ rs, rs.length = declared - decoded ∧ Handed rs s s' ∧
      ∀ g, relocations format (declared - decoded) 0 g r s.left = if s'.left = [] then some rs else none := by
  induction hn : declared - decoded using Nat.strong_induction_on generalizing decoded count seen r s with
  | _ n ih =>
    rw [decodeGroups] at h
    split at h
    case isFalse hlt =>
      obtain ⟨rfl, rfl⟩ := pure_ok.mp h
      have hzero : n = 0 := by omega
      refine ⟨by omega, [], by rw [hzero]; rfl, .refl s, ?_⟩
      intro g
      rw [hzero]
      simp [relocations]
    case isTrue hlt =>
      obtain ⟨size, s₁, hsize, h⟩ := bind_ok.mp h
      obtain ⟨hsize, hh₁⟩ := pop_ok hsize
      split at h
      case isTrue => exact absurd h throw_ok
      dsimp only at h
      split at h
      case isTrue => exact absurd h throw_ok
      rename_i hpos hroom
      obtain ⟨hone, hfits⟩ := groupSize_spec hd hpos hroom
      obtain ⟨flags, s₂, hflags, h⟩ := bind_ok.mp h
      obtain ⟨hflags, hh₂⟩ := pop_ok hflags
      obtain ⟨_, s₃, hcheck, h⟩ := bind_ok.mp h
      obtain ⟨hknown, rfl⟩ := refuseIf_ok hcheck
      obtain ⟨⟨g, r₁⟩, s₃, hheader, h⟩ := bind_ok.mp h
      obtain ⟨shape, rfl, hhead, hh₃⟩ := decodeHeader_ok hsize hpos hflags (not_not.mp hknown) hheader
      obtain ⟨_, s₄, hlimits, h⟩ := bind_ok.mp h
      obtain rfl := checkGroup_ok hlimits
      obtain ⟨r₂, s₅, hrun, h⟩ := bind_ok.mp h
      obtain ⟨rs, hlen, hh₄, hgroup⟩ := decodeGroup_ok hrun
      obtain ⟨hout, rest, hrest, hh₅, hreads⟩ := ih (declared - (decoded + size.toUInt64.toNat)) (by omega) hfits h rfl
      refine ⟨hout, rs ++ rest, ?_, (((hh₁.after hh₂).after hh₃).after hh₄).trans hh₅, ?_⟩
      · rw [List.length_append, hlen, hrest]
        omega
      · intro g
        have hstart : relocations format n 0 g r s.left =
            relocations format n size.toUInt64.toNat shape r₁ s₃.left := by
          rw [show n = (n - 1) + 1 by omega]
          simp only [relocations, hhead, if_true, Option.bind_eq_bind, Option.bind_some]
          rw [if_neg (by omega)]
        rw [hstart, show n = size.toUInt64.toNat + (declared - (decoded + size.toUInt64.toNat)) by omega, hgroup, hreads]
        split <;> rfl

theorem decodeGroups_error {format : PackedFormat} {limits : Aps2Limits} {declared decoded count : ℕ} {seen : UInt64}
    {r : Rela} {e : ElfError} (hd : declared < 2 ^ 64 - 1)
    (h : decodeGroups (noted sink) format limits declared decoded count seen r s = .error e s') :
    ∃ rs, rs.length ≤ declared - decoded ∧ Handed rs s s' := by
  induction hn : declared - decoded using Nat.strong_induction_on generalizing decoded count seen r s with
  | _ n ih =>
    rw [decodeGroups] at h
    split at h
    case isFalse => exact absurd h pure_error
    case isTrue hlt =>
      rcases bind_error.mp h with h | ⟨size, s₁, hsize, h⟩
      · rw [(pop_error h).2]
        exact ⟨[], by simp, .refl s⟩
      have hh₁ := (pop_ok hsize).2
      split at h
      case isTrue =>
        rw [← throw_error h]
        exact ⟨[], by simp, hh₁⟩
      dsimp only at h
      split at h
      case isTrue =>
        rw [← throw_error h]
        exact ⟨[], by simp, hh₁⟩
      rename_i hpos hroom
      obtain ⟨hone, hfits⟩ := groupSize_spec hd hpos hroom
      rcases bind_error.mp h with h | ⟨flags, s₂, hflags, h⟩
      · rw [(pop_error h).2]
        exact ⟨[], by simp, hh₁⟩
      have hh₂ := hh₁.after (pop_ok hflags).2
      rcases bind_error.mp h with h | ⟨_, s₃, hcheck, h⟩
      · rw [refuseIf_error h]
        exact ⟨[], by simp, hh₂⟩
      obtain ⟨hknown, rfl⟩ := refuseIf_ok hcheck
      rcases bind_error.mp h with h | ⟨⟨g, r₁⟩, s₃, hheader, h⟩
      · exact ⟨[], by simp, hh₂.after (decodeHeader_error h)⟩
      obtain ⟨shape, rfl, -, hh₃⟩ :=
        decodeHeader_ok (pop_ok hsize).1 hpos (pop_ok hflags).1 (not_not.mp hknown) hheader
      rcases bind_error.mp h with h | ⟨_, s₄, hlimits, h⟩
      · rw [checkGroup_error h]
        exact ⟨[], by simp, hh₂.after hh₃⟩
      obtain rfl := checkGroup_ok hlimits
      rcases bind_error.mp h with h | ⟨r₂, s₅, hgroup, h⟩
      · obtain ⟨rs, hlen, hh₄⟩ := decodeGroup_error h
        exact ⟨rs, by omega, (hh₂.after hh₃).after hh₄⟩
      obtain ⟨rs, hlen, hh₄, -⟩ := decodeGroup_ok hgroup
      obtain ⟨rest, hrest, hh₅⟩ := ih (declared - (decoded + size.toUInt64.toNat)) (by omega) h rfl
      refine ⟨rs ++ rest, ?_, ((hh₂.after hh₃).after hh₄).trans hh₅⟩
      rw [List.length_append]
      omega

theorem count_lt {count : Int64} (h : ¬count < 0) : count.toUInt64.toNat < 2 ^ 64 - 1 := by
  rw [Int64.toNat_toUInt64_of_le (Int64.not_lt.mp h)]
  have := count.toNatClampNeg_lt
  omega

theorem decodeBody_ok {total : ℕ} {format : PackedFormat} {limits : Aps2Limits} {out : Aps2Summary}
    (h : decodeBody (noted sink) total format limits s = .ok out s') :
    ∃ rs count offset b₁ b₂, Handed rs s s' ∧ word s.left = some (count, b₁) ∧ ¬count < 0 ∧ word b₁ = some (offset, b₂) ∧
      rs.length = count.toUInt64.toNat ∧ out.declaredCount = rs.length ∧ out.decodedCount = rs.length ∧
      out.bytesConsumed = total ∧ out.bytesTotal = total ∧ APS2_MAGIC.length + s'.dec.pos = total ∧
      relocations format rs.length 0 ⟨0, 0⟩ ⟨offset.toUInt64, 0, 0⟩ b₂ = if s'.left = [] then some rs else none := by
  simp only [decodeBody] at h
  obtain ⟨count, s₁, hcount, h⟩ := bind_ok.mp h
  obtain ⟨hcount, hh₁⟩ := pop_ok hcount
  obtain ⟨_, s₂, hrefuse, h⟩ := bind_ok.mp h
  obtain ⟨hneg, rfl⟩ := refuseIf_ok hrefuse
  obtain ⟨_, s₂, hlimit, h⟩ := bind_ok.mp h
  obtain ⟨-, rfl⟩ := refuseIf_ok hlimit
  obtain ⟨offset, s₂, hoffset, h⟩ := bind_ok.mp h
  obtain ⟨hoffset, hh₂⟩ := pop_ok hoffset
  obtain ⟨⟨decoded, groupCount, observed⟩, s₃, hgroups, h⟩ := bind_ok.mp h
  obtain ⟨hdecoded, rs, hlen, hh₃, hreads⟩ := decodeGroups_ok (count_lt hneg) (Nat.zero_le _) hgroups
  obtain ⟨_, s₄, hmatch, h⟩ := bind_ok.mp h
  obtain ⟨-, rfl⟩ := refuseIf_ok hmatch
  obtain ⟨_, s₄, hget, h⟩ := bind_ok.mp h
  cases hget
  obtain ⟨_, s₄, htotal, h⟩ := bind_ok.mp h
  obtain ⟨hconsumed, rfl⟩ := refuseIf_ok htotal
  obtain ⟨rfl, rfl⟩ := pure_ok.mp h
  rw [Nat.sub_zero] at hlen hreads
  have hwhole := not_not.mp hconsumed
  refine ⟨rs, count, offset, s₁.left, s₂.left, (hh₁.after hh₂).after hh₃, hcount, hneg, hoffset, hlen, hlen.symm, ?_,
    hwhole, rfl, hwhole, ?_⟩
  · exact hdecoded.trans hlen.symm
  · rw [hlen]
    exact hreads _

theorem decodeBody_error {total : ℕ} {format : PackedFormat} {limits : Aps2Limits} {e : ElfError}
    (h : decodeBody (noted sink) total format limits s = .error e s') :
    ∃ rs, Handed rs s s' ∧ (rs ≠ [] → ∃ count b₁, word s.left = some (count, b₁) ∧ ¬count < 0 ∧
      rs.length ≤ count.toUInt64.toNat ∧ count.toUInt64.toNat ≤ limits.maxRelocations) := by
  simp only [decodeBody] at h
  rcases bind_error.mp h with h | ⟨count, s₁, hcount, h⟩
  · rw [(pop_error h).2]
    exact ⟨[], .refl s, by simp⟩
  obtain ⟨hcount, hh₁⟩ := pop_ok hcount
  rcases bind_error.mp h with h | ⟨_, s₂, hrefuse, h⟩
  · rw [refuseIf_error h]
    exact ⟨[], hh₁, by simp⟩
  obtain ⟨hneg, rfl⟩ := refuseIf_ok hrefuse
  rcases bind_error.mp h with h | ⟨_, s₂, hlimit, h⟩
  · rw [refuseIf_error h]
    exact ⟨[], hh₁, by simp⟩
  obtain ⟨hlimit, rfl⟩ := refuseIf_ok hlimit
  rcases bind_error.mp h with h | ⟨offset, s₂, hoffset, h⟩
  · rw [(pop_error h).2]
    exact ⟨[], hh₁, by simp⟩
  have hh₂ := hh₁.after (pop_ok hoffset).2
  rcases bind_error.mp h with h | ⟨⟨decoded, groupCount, observed⟩, s₃, hgroups, h⟩
  · obtain ⟨rs, hlen, hh₃⟩ := decodeGroups_error (count_lt hneg) h
    refine ⟨rs, hh₂.after hh₃, ?_⟩
    intro _
    exact ⟨count, s₁.left, hcount, hneg, hlen, by omega⟩
  obtain ⟨-, rs, hlen, hh₃, -⟩ := decodeGroups_ok (count_lt hneg) (Nat.zero_le _) hgroups
  refine ⟨rs, ?_, ?_⟩
  · have hend : s' = s₃ := by
      rcases bind_error.mp h with h | ⟨_, s₄, hmatch, h⟩
      · exact refuseIf_error h
      obtain ⟨-, rfl⟩ := refuseIf_ok hmatch
      rcases bind_error.mp h with h | ⟨_, s₄, hget, h⟩
      · cases h
      cases hget
      rcases bind_error.mp h with h | ⟨_, s₄, htotal, h⟩
      · exact refuseIf_error h
      · exact absurd h pure_error
    rw [hend]
    exact hh₂.after hh₃
  · intro _
    exact ⟨count, s₁.left, hcount, hneg, hlen.le, by omega⟩

end Steps

section Whole

variable {σ : Type} {sink : Rela → EStateM ElfError σ Unit} {blob : Bytes} {format : PackedFormat} {limits : Aps2Limits}
  {t t' : σ} {calls : List Rela}

theorem decodeWith_ok {summary : Aps2Summary}
    (h : decodeWith (noted sink) blob format limits (t, []) = .ok summary (t', calls)) :
    summary.declaredCount = declaredCount blob ∧ calls.length = summary.declaredCount ∧
      summary.decodedCount = summary.declaredCount ∧ summary.bytesConsumed = blob.length ∧
      summary.bytesTotal = blob.length ∧ reading format blob = some calls := by
  rw [decodeWith] at h
  split at h
  · cases h
  split at h
  · cases h
  rename_i hshort hmagic
  cases hbody : decodeBody (noted sink) blob.length format limits ⟨⟨blob.drop APS2_MAGIC.length, 0⟩, (t, [])⟩ with
  | error e s' =>
    rw [hbody] at h
    cases h
  | ok out s' =>
    rw [hbody] at h
    obtain ⟨rs, count, offset, b₁, b₂, hh, hcount, hneg, hoffset, hlen, hdeclared, hdecoded, hconsumed, htotal, hend,
      hreads⟩ := decodeBody_ok hbody
    have hcalls : s'.sink.2 = rs := by simpa using hh.calls
    have hempty : s'.left = [] := by
      rw [Decoding.left, hh.data, List.drop_drop, hend, List.drop_length]
    have hcount : word (blob.drop 4) = some (count, b₁) := hcount
    rw [if_pos hempty] at hreads
    obtain ⟨rfl, hsink⟩ := by simpa using h
    rw [hsink] at hcalls
    obtain rfl : calls = rs := hcalls
    refine ⟨?_, hdeclared.symm, hdecoded.trans hdeclared.symm, hconsumed, htotal, ?_⟩
    · rw [declaredCount, hcount, hdeclared, hlen]
      simp only [hneg, if_false]
    · rw [reading, if_neg hmagic]
      simp only [hcount, hoffset, hneg, if_false, Option.bind_eq_bind, Option.bind_some, ← hlen, hreads]

theorem decodeWith_error {e : ElfError}
    (h : decodeWith (noted sink) blob format limits (t, []) = .error e (t', calls)) :
    calls.length ≤ min (declaredCount blob) limits.maxRelocations := by
  rw [decodeWith] at h
  split at h
  · cases h
    exact Nat.zero_le _
  split at h
  · cases h
    exact Nat.zero_le _
  cases hbody : decodeBody (noted sink) blob.length format limits ⟨⟨blob.drop APS2_MAGIC.length, 0⟩, (t, [])⟩ with
  | ok out s' =>
    rw [hbody] at h
    cases h
  | error e' s' =>
    rw [hbody] at h
    obtain ⟨rs, hh, hbound⟩ := decodeBody_error hbody
    have hcalls : s'.sink.2 = rs := by simpa using hh.calls
    obtain ⟨rfl, hsink⟩ := by simpa using h
    rw [hsink] at hcalls
    obtain rfl : calls = rs := hcalls
    rcases eq_or_ne calls [] with rfl | hne
    · simp
    obtain ⟨count, b₁, hcount, hneg, hlen, hlimit⟩ := hbound hne
    have hcount : word (blob.drop 4) = some (count, b₁) := hcount
    rw [declaredCount, hcount]
    simp only [hneg, if_false]
    omega

end Whole

/-- for every blob, format, limits and sink, the calls the sink got are those of the reading, in its order, when the decode
succeeds; when it fails they are no more than the blob declares, and no more than the limit -/
theorem aps2_decoding {σ : Type} (blob : Bytes) (format : PackedFormat) (limits : Aps2Limits)
    (sink : Rela → EStateM ElfError σ Unit) (t : σ) :
    match decodeWith (noted sink) blob format limits (t, []) with
    | .ok summary (_, calls) =>
      summary.declaredCount = declaredCount blob ∧ calls.length = summary.declaredCount ∧
      summary.decodedCount = summary.declaredCount ∧ summary.bytesConsumed = blob.length ∧
      summary.bytesTotal = blob.length ∧ reading format blob = some calls
    | .error _ (_, calls) => calls.length ≤ min (declaredCount blob) limits.maxRelocations := by
  cases h : decodeWith (noted sink) blob format limits (t, []) with
  | ok summary s' => exact decodeWith_ok h
  | error e s' => exact decodeWith_error h

/-! ## One decode beside another -/

section Follow

variable {σ τ : Type} {R : σ → τ → Prop} {sink : Rela → EStateM ElfError σ Unit} {sink' : Rela → EStateM ElfError τ Unit}

/-- two decodes at one place, their sinks' states related -/
def Beside (R : σ → τ → Prop) (s : Decoding σ) (t : Decoding τ) : Prop := t.dec = s.dec ∧ R s.sink t.sink

theorem follows_pop : Follows (Beside R) pop pop := by
  rintro s t w s' ⟨hdec, hR⟩ h
  simp only [pop] at h ⊢
  rw [hdec]
  cases hp : s.dec.popFront with
  | error e =>
    rw [hp] at h
    cases h
  | ok p =>
    rw [hp] at h
    cases h
    exact ⟨_, rfl, rfl, hR⟩

theorem follows_remaining : Follows (Beside R) remaining remaining := by
  rintro s t n s' ⟨hdec, hR⟩ h
  cases h
  exact ⟨t, by simp only [remaining, hdec], hdec, hR⟩

theorem follows_popOr {α : Type} (b : Bool) (a : α) (f : Int64 → α) : Follows (Beside R) (popOr b a f) (popOr b a f) := by
  cases b with
  | false => exact .pure a
  | true =>
    apply Follows.bind follows_pop
    intro w
    exact .pure _

theorem follows_refuseIf (c : Prop) [Decidable c] (e : ElfError) : Follows (Beside R) (refuseIf c e) (refuseIf c e) := by
  by_cases hc : c
  · simp only [refuseIf, if_pos hc]
    exact .throw e
  · simp only [refuseIf, if_neg hc]
    exact .pure ()

/-- past a refusal its condition does not hold -/
theorem follows_unless {α : Type} {c : Prop} [Decidable c] {e : ElfError} {x : EStateM ElfError (Decoding σ) α}
    {y : EStateM ElfError (Decoding τ) α} (h : ¬c → Follows (Beside R) x y) :
    Follows (Beside R) (do refuseIf c e; x) (do refuseIf c e; y) := by
  by_cases hc : c
  · simp only [refuseIf, if_pos hc]
    intro s t a s' _ hx
    cases hx
  · simp only [refuseIf, if_neg hc]
    exact (Follows.pure ()).bind fun _ => h hc

theorem follows_hand (hsink : ∀ r, Follows R (sink r) (sink' r)) (r : Rela) :
    Follows (Beside R) (hand sink r) (hand sink' r) := by
  rintro s t u s' ⟨hdec, hR⟩ h
  simp only [hand] at h ⊢
  cases hs : sink r s.sink with
  | error e x =>
    rw [hs] at h
    cases h
  | ok u x =>
    rw [hs] at h
    cases h
    obtain ⟨y, hy, hR'⟩ := hsink r s.sink t.sink () x hR hs
    exact ⟨{ t with sink := y }, by rw [hy], hdec, hR'⟩

theorem follows_decodeGroup (hsink : ∀ r, Follows R (sink r) (sink' r)) (g : Group) (n : ℕ) (r : Rela) :
    Follows (Beside R) (decodeGroup sink g n r) (decodeGroup sink' g n r) := by
  induction n generalizing r with
  | zero => exact .pure r
  | succ n ih =>
    simp only [decodeGroup]
    refine (follows_popOr _ _ _).bind ?_
    intro r_offset
    refine (follows_popOr _ _ _).bind ?_
    intro r_info
    refine (follows_popOr _ _ _).bind ?_
    intro r_addend
    refine (follows_hand hsink _).bind ?_
    intro _
    exact ih _

theorem follows_checkGroup (limits : Aps2Limits) (i n : ℕ) (g : Group) :
    Follows (Beside R) (checkGroup limits i n g) (checkGroup limits i n g) := by
  simp only [checkGroup]
  split
  · refine follows_remaining.bind ?_
    intro left
    exact follows_refuseIf _ _
  split
  · exact follows_refuseIf _ _
  split
  · exact .throw _
  · exact follows_refuseIf _ _

theorem follows_decodeHeader (format : PackedFormat) (i : ℕ) (flags : UInt64) (r : Rela) :
    Follows (Beside R) (decodeHeader format i flags r) (decodeHeader format i flags r) := by
  simp only [decodeHeader]
  refine (follows_popOr _ _ _).bind ?_
  intro offsetDelta
  refine (follows_popOr _ _ _).bind ?_
  intro r_info
  refine (follows_refuseIf _ _).bind ?_
  intro _
  refine (follows_popOr _ _ _).bind ?_
  intro r_addend
  exact .pure _

theorem follows_decodeGroups (hsink : ∀ r, Follows R (sink r) (sink' r)) (format : PackedFormat) (limits : Aps2Limits)
    {declared : ℕ} (hd : declared < 2 ^ 64 - 1) (decoded count : ℕ) (seen : UInt64) (r : Rela) :
    Follows (Beside R) (decodeGroups sink format limits declared decoded count seen r)
      (decodeGroups sink' format limits declared decoded count seen r) := by
  induction hn : declared - decoded using Nat.strong_induction_on generalizing decoded count seen r with
  | _ n ih =>
    rw [decodeGroups, decodeGroups]
    by_cases hlt : decoded < declared
    · rw [if_pos hlt, if_pos hlt]
      refine follows_pop.bind ?_
      intro size
      by_cases hsize : size ≤ 0
      · rw [dif_pos hsize]
        exact .throw _
      rw [dif_neg hsize, dif_neg hsize]
      dsimp only
      by_cases hroom : declared < min (decoded + size.toUInt64.toNat) (2 ^ 64 - 1)
      · rw [dif_pos hroom]
        exact .throw _
      rw [dif_neg hroom, dif_neg hroom]
      obtain ⟨hone, hfits⟩ := groupSize_spec hd hsize hroom
      refine follows_pop.bind ?_
      intro flags
      refine (follows_refuseIf _ _).bind ?_
      intro _
      refine (follows_decodeHeader _ _ _ _).bind ?_
      rintro ⟨g, r₁⟩
      refine (follows_checkGroup _ _ _ _).bind ?_
      intro _
      refine (follows_decodeGroup hsink _ _ _).bind ?_
      intro r₂
      exact ih (declared - (decoded + size.toUInt64.toNat)) (by omega) _ _ _ _ rfl
    · rw [if_neg hlt, if_neg hlt]
      exact .pure _

theorem follows_get {α : Type} {f : Decoding σ → EStateM ElfError (Decoding σ) α}
    {g : Decoding τ → EStateM ElfError (Decoding τ) α} (h : ∀ s t, t.dec = s.dec → Follows (Beside R) (f s) (g t)) :
    Follows (Beside R) (do f (← get)) (do g (← get)) := by
  intro s t a s' hR hf
  exact h s t hR.1 s t a s' hR hf

theorem follows_decodeBody (hsink : ∀ r, Follows R (sink r) (sink' r)) (total : ℕ) (format : PackedFormat)
    (limits : Aps2Limits) : Follows (Beside R) (decodeBody sink total format limits) (decodeBody sink' total format limits) := by
  simp only [decodeBody]
  refine follows_pop.bind ?_
  intro count
  apply follows_unless
  intro hneg
  apply follows_unless
  intro _
  refine follows_pop.bind ?_
  intro offset
  refine (follows_decodeGroups hsink format limits (count_lt hneg) _ _ _ _).bind ?_
  rintro ⟨decoded, groupCount, observed⟩
  apply follows_unless
  intro _
  apply follows_get
  intro s t hdec
  rw [hdec]
  apply follows_unless
  intro _
  exact .pure _

theorem follows_decodeWith (hsink : ∀ r, Follows R (sink r) (sink' r)) (blob : Bytes) (format : PackedFormat)
    (limits : Aps2Limits) : Follows R (decodeWith sink blob format limits) (decodeWith sink' blob format limits) := by
  intro s t out s' hR h
  simp only [decodeWith] at h ⊢
  by_cases hshort : blob.length < APS2_MAGIC.length
  · rw [if_pos hshort] at h
    cases h
  by_cases hmagic : blob.take 4 ≠ APS2_MAGIC
  · rw [if_neg hshort, if_pos hmagic] at h
    cases h
  rw [if_neg hshort, if_neg hmagic] at h ⊢
  cases hbody : decodeBody sink blob.length format limits ⟨⟨blob.drop APS2_MAGIC.length, 0⟩, s⟩ with
  | error e x =>
    rw [hbody] at h
    cases h
  | ok summary x =>
    rw [hbody] at h
    cases h
    obtain ⟨y, hy, -, hR'⟩ := follows_decodeBody hsink blob.length format limits _ ⟨⟨blob.drop APS2_MAGIC.length, 0⟩, t⟩
      _ _ ⟨rfl, hR⟩ hbody
    exact ⟨y.sink, by rw [hy], hR'⟩

end Follow

end Omnidroid.Elf
