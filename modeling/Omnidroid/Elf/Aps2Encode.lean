/-
The encoder of packed relocations (`encode_sleb128`, `encode_rela_ungrouped`, `omni-elf/src/aps2.rs`), and that the decoder reads
back what it writes.

- `read_encode`: a value's encoding is the number that the format's own reading finds there.
- `decodeGroup_encoded`: the relocations of a group without anything shared.
- `aps2_round_trip`: the value, and the list of relocations, whatever their fields.
-/
import Mathlib
import Omnidroid.Elf.Tables

namespace Omnidroid.Elf

/-! ## The encoder -/

theorem toInt_shift (value : Int64) : (value >>> 7).toInt = value.toInt / 128 := by
  change (BitVec.sshiftRight' value.toBitVec ((7 : Int64).toBitVec.smod 64)).toInt = _
  have hseven : ((7 : Int64).toBitVec.smod 64).toNat = 7 := by decide
  rw [BitVec.sshiftRight', hseven, BitVec.toInt_sshiftRight, Int.shiftRight_eq_div_pow]
  rfl

/-- more is to come of a value: its sign's bits are not all there is left, or not what bit 6 says -/
def encodeSleb128 (value : Int64) : Bytes :=
  let byte := value.toUInt64.toUInt8 &&& 0x7f
  let left := value >>> 7
  if _hdone : (left = 0 ∧ byte &&& 0x40 = 0) ∨ (left = -1 ∧ byte &&& 0x40 ≠ 0) then [byte]
  else (byte ||| 0x80) :: encodeSleb128 left
termination_by value.toInt.natAbs
decreasing_by
  have hleft := toInt_shift value
  have hne : value.toInt ≠ 0 ∧ value.toInt ≠ -1 := by
    constructor
    · intro h
      have : value = 0 := by rw [← Int64.ofInt_toInt value, h]; rfl
      subst this
      exact _hdone (by decide)
    · intro h
      have : value = -1 := by rw [← Int64.ofInt_toInt value, h]; rfl
      subst this
      exact _hdone (by decide)
  rw [hleft]
  omega

/-- the relocations' fields, after a total offset and addend -/
def encodeFields : UInt64 → Int64 → List Rela → Bytes
  | _, _, [] => []
  | offset, addend, r :: rs =>
    encodeSleb128 (r.r_offset - offset).toInt64 ++ (encodeSleb128 r.r_info.toInt64 ++
      (encodeSleb128 (r.r_addend - addend) ++ encodeFields r.r_offset r.r_addend rs))

/-- what follows the magic -/
def encodedBody (relocations : List Rela) : Bytes :=
  encodeSleb128 (Int64.ofNat relocations.length) ++ (encodeSleb128 0 ++
    if relocations.isEmpty then []
    else encodeSleb128 (Int64.ofNat relocations.length) ++ (encodeSleb128 RELOCATION_GROUP_HAS_ADDEND_FLAG.toInt64 ++
      encodeFields 0 0 relocations))

def encodeRelaUngrouped (relocations : List Rela) : Bytes := APS2_MAGIC ++ encodedBody relocations

/-! ## A value -/

theorem toNat_low (value : Int64) : ((value.toUInt64.toUInt8 &&& 0x7f).toNat : ℤ) = value.toInt % 128 := by
  have hbits : value.toInt = if 2 * value.toUInt64.toNat < 2 ^ 64 then (value.toUInt64.toNat : ℤ)
      else (value.toUInt64.toNat : ℤ) - (2 ^ 64 : ℕ) := BitVec.toInt_eq_toNat_cond value.toBitVec
  rw [Leb128.and_low7, UInt64.toNat_toUInt8, hbits]
  split_ifs <;> omega

theorem shift_zero (value : Int64) : value >>> 7 = 0 ↔ value.toInt / 128 = 0 := by
  rw [← toInt_shift, ← Int64.toInt_inj]
  rfl

theorem shift_ones (value : Int64) : value >>> 7 = -1 ↔ value.toInt / 128 = -1 := by
  rw [← toInt_shift, ← Int64.toInt_inj]
  rfl

/-- what is left is the sign, and bit 6 says it -/
theorem done_iff (value : Int64) :
    ((value >>> 7 = 0 ∧ (value.toUInt64.toUInt8 &&& 0x7f) &&& 0x40 = 0) ∨
      (value >>> 7 = -1 ∧ (value.toUInt64.toUInt8 &&& 0x7f) &&& 0x40 ≠ 0)) ↔ -64 ≤ value.toInt ∧ value.toInt < 64 := by
  have hlow := toNat_low value
  have hsign := Leb128.and_sign (value.toUInt64.toUInt8 &&& 0x7f)
  rw [shift_zero, shift_ones, hsign, ← not_ne_iff (a := _ &&& _), hsign]
  omega

theorem read_encode (value : Int64) (rest : Bytes) : Leb128.read (encodeSleb128 value ++ rest) = some (value.toInt, rest) := by
  fun_induction encodeSleb128 value with
  | case1 value byte left hdone =>
    have hlow : (byte.toNat : ℤ) = _ := toNat_low value
    have hsmall := (done_iff value).1 hdone
    rw [List.singleton_append, Leb128.read, if_pos (by omega)]
    congr 2
    split_ifs <;> omega
  | case2 value byte left hdone ih =>
    have hlow : (byte.toNat : ℤ) = _ := toNat_low value
    have hhigh : (byte ||| 0x80).toNat = byte.toNat + 128 := by
      have hadd := Nat.two_pow_add_eq_or_of_lt (i := 7) (b := byte.toNat) (by omega) 1
      rw [UInt8.toNat_or, Nat.or_comm]
      exact hadd.symm.trans (Nat.add_comm _ _)
    rw [List.cons_append, Leb128.read, if_neg (by omega), ih, hhigh, toInt_shift]
    dsimp only
    congr 2
    omega

theorem encode_length (value : Int64) : 0 < (encodeSleb128 value).length := by
  have hshort := Leb128.read_shortens (read_encode value [])
  rwa [List.append_nil] at hshort

/-- the decoder takes a value's encoding and no more -/
theorem popFront_encode (value : Int64) (before rest : Bytes) :
    (⟨before ++ (encodeSleb128 value ++ rest), before.length⟩ : Sleb128Decoder).popFront =
      .ok (value, ⟨before ++ (encodeSleb128 value ++ rest), (before ++ encodeSleb128 value).length⟩) := by
  have hloop := @Sleb128Decoder.popLoop_eq (before ++ (encodeSleb128 value ++ rest)).length (encodeSleb128 value ++ rest) before.length 0 0
    (by decide)
  rw [read_encode] at hloop
  obtain ⟨w, hw, hval⟩ := hloop
  have hword : w.toInt64 = value := by
    rw [toInt64_eq_ofInt (v := value.toInt) (by simpa using hval), Int64.ofInt_toInt]
  unfold Sleb128Decoder.popFront
  dsimp only
  rw [List.drop_left, show 0 = min 0 (2 ^ 32 - 1) from rfl, hw]
  dsimp only
  rw [hword, List.length_append, List.length_append, Nat.add_sub_cancel]

/-! ## A decode of what was encoded -/

/-- a decode of `data` with `bytes` of it to come -/
def upTo (data bytes : Bytes) (out : List Rela) : Decoding (List Rela) := ⟨⟨data, data.length - bytes.length⟩, out⟩

section Forward

variable {data rest : Bytes} {out : List Rela} {value : Int64}

theorem pop_encode (h : encodeSleb128 value ++ rest <:+ data) :
    pop (upTo data (encodeSleb128 value ++ rest) out) = .ok value (upTo data rest out) := by
  obtain ⟨before, rfl⟩ := h
  have hpop := popFront_encode value before rest
  have hpos : (before ++ (encodeSleb128 value ++ rest)).length - (encodeSleb128 value ++ rest).length = before.length := by
    rw [List.length_append, Nat.add_sub_cancel]
  have hnext : (before ++ (encodeSleb128 value ++ rest)).length - rest.length = (before ++ encodeSleb128 value).length := by
    rw [← List.append_assoc, List.length_append, Nat.add_sub_cancel]
  unfold pop upTo
  rw [hpos, hnext, hpop]

theorem suffix_rest (h : encodeSleb128 value ++ rest <:+ data) : rest <:+ data := (List.suffix_append _ _).trans h

theorem popOr_encode {α : Type} {b : Bool} {stands : α} {f : Int64 → α} (hb : b = true) (h : encodeSleb128 value ++ rest <:+ data) :
    popOr b stands f (upTo data (encodeSleb128 value ++ rest) out) = .ok (f value) (upTo data rest out) := by
  unfold popOr
  rw [if_pos hb, bind_of_ok (pop_encode h)]
  rfl

theorem refuseIf_not {σ : Type} {c : Prop} [Decidable c] {e : ElfError} (hc : ¬c) (s : Decoding σ) : refuseIf c e s = .ok () s := by
  rw [refuseIf, if_neg hc]
  rfl

/-- a group that shares nothing -/
def ungrouped : Group := ⟨false, false, true, 0⟩

variable {fits : ℕ → Bool}

theorem hand_push {r : Rela} {bytes : Bytes} (hfits : fits ((out.length + 1) * SIZEOF_RELA)) :
    hand (push fits) r (upTo data bytes out) = .ok () (upTo data bytes (out ++ [r])) := by
  unfold hand push upTo
  dsimp only
  rw [if_pos hfits]

theorem decodeGroup_encoded (rs : List Rela) {r : Rela} {out : List Rela} (h : encodeFields r.r_offset r.r_addend rs ++ rest <:+ data)
    (hfits : ∀ n ≤ out.length + rs.length, fits (n * SIZEOF_RELA)) :
    ∃ r', decodeGroup (push fits) ungrouped rs.length r (upTo data (encodeFields r.r_offset r.r_addend rs ++ rest) out) =
      .ok r' (upTo data rest (out ++ rs)) := by
  induction rs generalizing r out with
  | nil => exact ⟨r, by rw [List.append_nil]; rfl⟩
  | cons q rs ih =>
    unfold encodeFields at h ⊢
    simp only [List.append_assoc] at h ⊢
    have h₁ := suffix_rest h
    have h₂ := suffix_rest h₁
    have hoffset : r.r_offset + (q.r_offset - r.r_offset).toInt64.toUInt64 = q.r_offset := by
      rw [UInt64.toUInt64_toInt64]
      rw [UInt64.add_comm, UInt64.sub_add_cancel]
    have haddend : r.r_addend + (q.r_addend - r.r_addend) = q.r_addend := by
      rw [Int64.add_comm, Int64.sub_add_cancel]
    have hroom : fits ((out.length + 1) * SIZEOF_RELA) := hfits _ (by rw [List.length_cons]; omega)
    obtain ⟨r', hr'⟩ := @ih q (out ++ [q]) (suffix_rest h₂) fun n hn => hfits n (by
      rw [List.length_append, List.length_singleton] at hn
      rw [List.length_cons]
      omega)
    refine ⟨r', ?_⟩
    have hb₁ : (!ungrouped.byOffsetDelta) = true := rfl
    have hb₂ : (!ungrouped.byInfo) = true := rfl
    have hb₃ : ungrouped.perRelocAddend = true := rfl
    rw [List.length_cons, decodeGroup, bind_of_ok (popOr_encode hb₁ h), bind_of_ok (popOr_encode hb₂ h₁),
      bind_of_ok (popOr_encode hb₃ h₂), hoffset, haddend, UInt64.toUInt64_toInt64, bind_of_ok (hand_push hroom)]
    rw [List.append_assoc, List.singleton_append] at hr'
    exact hr'

/-- each relocation takes three values, of a byte or more -/
theorem length_encodeFields (offset : UInt64) (addend : Int64) (rs : List Rela) :
    rs.length * 3 ≤ (encodeFields offset addend rs).length := by
  induction rs generalizing offset addend with
  | nil => exact Nat.zero_le _
  | cons r rs ih =>
    have hr := ih r.r_offset r.r_addend
    have h₁ := encode_length (r.r_offset - offset).toInt64
    have h₂ := encode_length r.r_info.toInt64
    have h₃ := encode_length (r.r_addend - addend)
    unfold encodeFields
    rw [List.length_append, List.length_append, List.length_append, List.length_cons]
    omega

theorem checkGroup_ungrouped {limits : Aps2Limits} {i n : ℕ} {s : Decoding (List Rela)} (h : n * 3 ≤ s.dec.remaining) :
    checkGroup limits i n ungrouped s = .ok () s := by
  have hneed : (!ungrouped.byOffsetDelta).toNat + (!ungrouped.byInfo).toNat + ungrouped.perRelocAddend.toNat = 3 := rfl
  have hleft : remaining s = .ok s.dec.remaining s := rfl
  unfold checkGroup
  rw [hneed]
  dsimp only
  rw [if_pos (by decide), bind_of_ok hleft]
  exact refuseIf_not (by omega) s

theorem remaining_upTo {bytes : Bytes} (h : bytes <:+ data) : (upTo data bytes out).dec.remaining = bytes.length := by
  have := h.length_le
  unfold Sleb128Decoder.remaining upTo
  dsimp only
  omega

theorem decodeHeader_ungrouped {i : ℕ} {r : Rela} {s : Decoding (List Rela)} :
    decodeHeader .rela i RELOCATION_GROUP_HAS_ADDEND_FLAG r s = .ok (ungrouped, r) s := rfl

/-- a count is read as it was written -/
theorem ofNat_count {n : ℕ} (hn : n < 2 ^ 63) : ¬Int64.ofNat n < 0 ∧ (Int64.ofNat n).toUInt64.toNat = n ∧ (0 < n → ¬Int64.ofNat n ≤ 0) := by
  have hint := Int64.toInt_ofNat_of_lt hn
  refine ⟨?_, ?_, fun hpos => ?_⟩
  · rw [Int64.lt_iff_toInt_lt, hint]
    exact Int.not_lt.2 (Int.natCast_nonneg n)
  · rw [Int64.toUInt64_ofNat', UInt64.toNat_ofNat']
    omega
  · rw [Int64.le_iff_toInt_le, hint]
    exact Int.not_le.2 (Int.natCast_pos.2 hpos)

/-- one group of all of them -/
theorem decodeGroups_encoded {limits : Aps2Limits} {rs : List Rela} (hne : rs ≠ []) (hlen : rs.length < 2 ^ 63)
    (h : encodeSleb128 (Int64.ofNat rs.length) ++ (encodeSleb128 RELOCATION_GROUP_HAS_ADDEND_FLAG.toInt64 ++ encodeFields 0 0 rs) <:+ data)
    (hfits : ∀ n ≤ rs.length, fits (n * SIZEOF_RELA)) :
    decodeGroups (push fits) .rela limits rs.length 0 0 0 ⟨0, 0, 0⟩ (upTo data (encodeSleb128 (Int64.ofNat rs.length) ++
      (encodeSleb128 RELOCATION_GROUP_HAS_ADDEND_FLAG.toInt64 ++ encodeFields 0 0 rs)) []) =
      .ok (rs.length, 1, 0 ||| RELOCATION_GROUP_HAS_ADDEND_FLAG) (upTo data [] rs) := by
  have hpos : 0 < rs.length := List.length_pos_iff.2 hne
  obtain ⟨-, hcount, hsize⟩ := ofNat_count hlen
  have h₁ := suffix_rest h
  have h₂ := suffix_rest h₁
  have hflags : (RELOCATION_GROUP_HAS_ADDEND_FLAG.toInt64).toUInt64 = RELOCATION_GROUP_HAS_ADDEND_FLAG := rfl
  have hknown : ¬RELOCATION_GROUP_HAS_ADDEND_FLAG &&& ~~~ALL_GROUP_FLAGS ≠ 0 := by decide
  obtain ⟨r', hgroup⟩ := @decodeGroup_encoded data [] fits rs ⟨0, 0, 0⟩ [] (by rwa [List.append_nil]) (by simpa using hfits)
  rw [List.append_nil, List.nil_append] at hgroup
  rw [decodeGroups, if_pos hpos, bind_of_ok (pop_encode h), dif_neg (hsize hpos)]
  dsimp only
  rw [hcount, dif_neg (by omega), bind_of_ok (pop_encode h₁), hflags, bind_of_ok (refuseIf_not hknown _),
    bind_of_ok decodeHeader_ungrouped]
  dsimp only
  rw [bind_of_ok (checkGroup_ungrouped (by rw [remaining_upTo h₂]; exact length_encodeFields 0 0 rs)), bind_of_ok hgroup,
    decodeGroups, if_neg (by omega), Nat.zero_add]
  rfl

end Forward

theorem decodeBody_encoded {fits : ℕ → Bool} {limits : Aps2Limits} {rs : List Rela} (hlen : rs.length < 2 ^ 63)
    (hlimit : rs.length ≤ limits.maxRelocations) (hfits : ∀ n ≤ rs.length, fits (n * SIZEOF_RELA)) :
    ∃ summary, decodeBody (push fits) (APS2_MAGIC.length + (encodedBody rs).length) .rela limits
      (upTo (encodedBody rs) (encodedBody rs) []) = .ok summary (upTo (encodedBody rs) [] rs) := by
  obtain ⟨hneg, hcount, -⟩ := ofNat_count hlen
  have h : encodeSleb128 (Int64.ofNat rs.length) ++ _ <:+ encodedBody rs := List.suffix_refl (encodedBody rs)
  have h₁ := suffix_rest h
  have h₂ := suffix_rest h₁
  -- all of them, and the bytes to their end
  have hgroups : ∃ groups flags, decodeGroups (push fits) .rela limits rs.length 0 0 0 ⟨0, 0, 0⟩ (upTo (encodedBody rs)
      (if rs.isEmpty then []
        else encodeSleb128 (Int64.ofNat rs.length) ++ (encodeSleb128 RELOCATION_GROUP_HAS_ADDEND_FLAG.toInt64 ++ encodeFields 0 0 rs)) []) =
      .ok (rs.length, groups, flags) (upTo (encodedBody rs) [] rs) := by
    by_cases hne : rs = []
    · subst hne
      refine ⟨0, 0, ?_⟩
      rw [decodeGroups, if_neg (by decide)]
      rfl
    · have hcond : ¬rs.isEmpty = true := by rwa [List.isEmpty_iff]
      rw [if_neg hcond] at h₂ ⊢
      exact ⟨_, _, decodeGroups_encoded hne hlen h₂ hfits⟩
  obtain ⟨groups, flags, hgroups⟩ := hgroups
  have hend : ¬APS2_MAGIC.length + (upTo (encodedBody rs) [] rs).dec.pos ≠ APS2_MAGIC.length + (encodedBody rs).length := not_not.2 rfl
  have hget : (get : EStateM ElfError (Decoding (List Rela)) _) (upTo (encodedBody rs) [] rs) = .ok (upTo (encodedBody rs) [] rs) _ := rfl
  refine ⟨⟨rs.length, rs.length, APS2_MAGIC.length + (upTo (encodedBody rs) [] rs).dec.pos, APS2_MAGIC.length + (encodedBody rs).length, groups,
    0, flags⟩, ?_⟩
  have hpop : pop (upTo (encodedBody rs) (encodedBody rs) ([] : List Rela)) = .ok (Int64.ofNat rs.length) _ := pop_encode h
  rw [decodeBody, bind_of_ok hpop, bind_of_ok (refuseIf_not hneg _)]
  dsimp only
  rw [hcount, bind_of_ok (refuseIf_not (Nat.not_lt.2 hlimit) _), bind_of_ok (pop_encode h₁)]
  rw [show (0 : Int64).toUInt64 = 0 from rfl, bind_of_ok hgroups]
  dsimp only
  rw [bind_of_ok (refuseIf_not (not_not.2 rfl) _), bind_of_ok hget, bind_of_ok (refuseIf_not hend _)]
  rfl

theorem decode_encoded {fits : ℕ → Bool} {limits : Aps2Limits} {rs : List Rela} (hlen : rs.length < 2 ^ 63)
    (hlimit : rs.length ≤ limits.maxRelocations) (hfits : ∀ n ≤ rs.length, fits (n * SIZEOF_RELA)) :
    ∃ summary, decode fits (encodeRelaUngrouped rs) .rela limits = .ok (rs, summary) := by
  obtain ⟨summary, hbody⟩ := decodeBody_encoded hlen hlimit hfits
  have hblob : encodeRelaUngrouped rs = APS2_MAGIC ++ encodedBody rs := rfl
  have hstart : (⟨⟨encodedBody rs, 0⟩, []⟩ : Decoding (List Rela)) = upTo (encodedBody rs) (encodedBody rs) [] := by
    rw [upTo, Nat.sub_self]
  have htake : (APS2_MAGIC ++ encodedBody rs).take 4 = APS2_MAGIC := List.take_left' rfl
  have hdrop : (APS2_MAGIC ++ encodedBody rs).drop APS2_MAGIC.length = encodedBody rs := List.drop_left
  refine ⟨summary, ?_⟩
  rw [decode, decodeWith, hblob, List.length_append, if_neg (by omega), if_neg (not_not.2 htake), hdrop, hstart, hbody]
  rfl

/-- **Round trip** of a value, whatever follows it, and of any list of relocations that the limits admit. -/
theorem aps2_round_trip (value : Int64) (following : Bytes) {fits : ℕ → Bool} {limits : Aps2Limits} {rs : List Rela}
    (hlen : rs.length < 2 ^ 63) (hlimit : rs.length ≤ limits.maxRelocations) (hfits : ∀ n ≤ rs.length, fits (n * SIZEOF_RELA)) :
    (⟨encodeSleb128 value ++ following, 0⟩ : Sleb128Decoder).popFront =
        .ok (value, ⟨encodeSleb128 value ++ following, (encodeSleb128 value).length⟩) ∧
      ∃ summary, decode fits (encodeRelaUngrouped rs) .rela limits = .ok (rs, summary) :=
  ⟨popFront_encode value [] following, decode_encoded hlen hlimit hfits⟩

/-- the least value, in ten bytes, and relocations whose differences wrap -/
theorem aps2_round_trip_wraps :
    (⟨encodeSleb128 (-2 ^ 63) ++ [0xff], 0⟩ : Sleb128Decoder).popFront =
        .ok (-2 ^ 63, ⟨encodeSleb128 (-2 ^ 63) ++ [0xff], (encodeSleb128 (-2 ^ 63)).length⟩) ∧
      ∃ summary, decode (fun _ => true) (encodeRelaUngrouped [⟨2 ^ 64 - 8, 0x403, -1⟩, ⟨8, 0x101, 2 ^ 63 - 1⟩]) .rela ⟨2, 0⟩ =
        .ok ([⟨2 ^ 64 - 8, 0x403, -1⟩, ⟨8, 0x101, 2 ^ 63 - 1⟩], summary) :=
  aps2_round_trip (-2 ^ 63) [0xff] (by decide) (by decide) fun _ _ => rfl

end Omnidroid.Elf
