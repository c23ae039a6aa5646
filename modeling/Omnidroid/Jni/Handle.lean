/-
A handle read back (`resolveId_ok`): the five parts of one that resolves, and the parts of one that is made (`encode`).
-/
import Omnidroid.Jni.Refs
import Mathlib.Tactic

namespace Omnidroid.Jni

/-- a handle of these parts -/
def encode (kind : RefKind) (check index : ℕ) : ℕ := ((refTag * 16 + kind.code) * 2 ^ 24 + check) * 2 ^ 28 + index

theorem code_lt (kind : RefKind) : kind.code < 16 := by cases kind <;> decide

theorem fromCode_code (kind : RefKind) : RefKind.fromCode kind.code = some kind := by cases kind <;> rfl

theorem encode_eq (kind : RefKind) {check index : ℕ} (hc : check < 2 ^ 24) (hi : index < 2 ^ 28) :
    (refTag <<< 56) ||| (kind.code <<< 52) ||| (check <<< 28) ||| index = encode kind check index := by
  have hk := code_lt kind
  have h1 : (refTag <<< 56) ||| (kind.code <<< 52) = (refTag * 16 + kind.code) <<< 52 := by
    rw [← Nat.shiftLeft_add_eq_or_of_lt (by rw [Nat.shiftLeft_eq]; omega), Nat.shiftLeft_eq, Nat.shiftLeft_eq,
      Nat.shiftLeft_eq]
    omega
  have h2 : ((refTag * 16 + kind.code) <<< 52) ||| (check <<< 28) =
      ((refTag * 16 + kind.code) * 2 ^ 24 + check) <<< 28 := by
    rw [← Nat.shiftLeft_add_eq_or_of_lt (by rw [Nat.shiftLeft_eq]; omega), Nat.shiftLeft_eq, Nat.shiftLeft_eq,
      Nat.shiftLeft_eq]
    omega
  rw [h1, h2, ← Nat.shiftLeft_add_eq_or_of_lt hi, Nat.shiftLeft_eq]
  rfl

theorem land_index (x : ℕ) : x &&& 0xfffffff = x % 2 ^ 28 := Nat.and_two_pow_sub_one_eq_mod x 28

theorem land_check (x : ℕ) : x &&& checkMask = x % 2 ^ 24 := Nat.and_two_pow_sub_one_eq_mod x 24

section

variable (kind : RefKind) {check index : ℕ} (hc : check < 2 ^ 24) (hi : index < 2 ^ 28)
include hc hi

theorem encode_tag : encode kind check index / 2 ^ 56 = refTag := by
  have hk := code_lt kind
  unfold encode refTag
  omega

theorem encode_kind : encode kind check index / 2 ^ 52 % 16 = kind.code := by
  have hk := code_lt kind
  unfold encode refTag
  omega

theorem encode_check : encode kind check index / 2 ^ 28 % 2 ^ 24 = check := by
  unfold encode
  omega

end

theorem encode_index (kind : RefKind) (check : ℕ) {index : ℕ} (hi : index < 2 ^ 28) :
    encode kind check index % 2 ^ 28 = index := by
  unfold encode
  omega

namespace Handles

variable {α : Type} {h : Handles α}

theorem checkWord_lt (h : Handles α) (g : ℕ) : h.checkWord g < 2 ^ 24 := by
  rw [checkWord, land_check]
  exact Nat.mod_lt _ (by decide)

/-- the check word tells generations apart, as far as it is wide -/
theorem checkWord_inj {g g' : ℕ} (he : h.checkWord g = h.checkWord g') : g % 2 ^ 24 = g' % 2 ^ 24 := by
  rw [checkWord, checkWord, land_check, land_check, Nat.xor_mod_two_pow, Nat.xor_mod_two_pow] at he
  exact Nat.xor_left_injective he

/-- a handle resolves when its slot has its check word and holds a reference to an object that is there -/
theorem resolveId_ok (h : Handles α) {f : String} {a x : ℕ} {id : ObjectId} : h.resolveId f a x = .ok id ↔
    x / 2 ^ 56 = refTag ∧ (∃ k, RefKind.fromCode (x / 2 ^ 52 % 16) = some k) ∧
      ∃ slot k object, h.refs[x % 2 ^ 28]? = some slot ∧ x / 2 ^ 28 % 2 ^ 24 = h.checkWord slot.generation ∧
        slot.live = some (k, id) ∧ h.objects[id.index]? = some object ∧ object.generation = id.generation ∧
        object.object.isSome := by
  have hkind : (x >>> 52) &&& 0xf = x / 2 ^ 52 % 16 := by
    rw [Nat.shiftRight_eq_div_pow]
    exact Nat.and_two_pow_sub_one_eq_mod _ 4
  have hcheck : (x >>> 28) &&& checkMask = x / 2 ^ 28 % 2 ^ 24 := by rw [land_check, Nat.shiftRight_eq_div_pow]
  unfold resolveId
  rw [land_index, hkind, hcheck, Nat.shiftRight_eq_div_pow]
  dsimp only
  constructor
  · intro hr
    split_ifs at hr with h0 ht hk
    have hk' : ∃ k, RefKind.fromCode (x / 2 ^ 52 % 16) = some k := by
      rw [Option.isNone_iff_eq_none] at hk
      exact Option.ne_none_iff_exists'.1 hk
    refine ⟨not_not.1 ht, hk', ?_⟩
    cases hs : h.refs[x % 2 ^ 28]? with
    | none => rw [hs] at hr; cases hr
    | some slot =>
      rw [hs] at hr
      dsimp only at hr
      split_ifs at hr with hc
      cases hl : slot.live with
      | none => rw [hl] at hr; cases hr
      | some e =>
        obtain ⟨k, id'⟩ := e
        rw [hl] at hr
        dsimp only at hr
        cases ho : h.objects[id'.index]? with
        | none => rw [ho] at hr; cases hr
        | some object =>
          rw [ho] at hr
          dsimp only at hr
          split_ifs at hr with hg
          cases hr
          push Not at hg
          exact ⟨slot, k, object, rfl, not_not.1 hc, hl, ho, hg.1, by simpa [Option.isSome_iff_ne_none] using hg.2⟩
  · rintro ⟨ht, ⟨k', hk'⟩, slot, k, object, hs, hc, hl, ho, hg, hsome⟩
    have h0 : x ≠ 0 := by
      rintro rfl
      exact absurd ht (by decide)
    have hne : ¬(object.generation ≠ id.generation ∨ object.object.isNone) := by
      rintro (h1 | h1)
      · exact h1 hg
      · rw [Option.isNone_iff_eq_none] at h1
        rw [h1] at hsome
        cases hsome
    rw [if_neg h0, if_neg (not_not.2 ht), hk', Option.isNone_some, if_neg Bool.false_ne_true, hs]
    dsimp only
    rw [if_neg (not_not.2 hc), hl]
    dsimp only
    rw [ho]
    dsimp only
    rw [if_neg hne]

end Handles

end Omnidroid.Jni
