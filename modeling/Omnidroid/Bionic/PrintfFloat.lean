/-
Floating fields of `printf` against C's.
- `formatExp_text`, `formatFixed_text`, `formatG_text`: what the code builds, a sign and C's digits.
- `field_eq_iff`: two fields of one number, by their signs and by where their zeros go.
- `printf_layout`: each conversion's field is C's where `Laid` says so and nowhere else, and each other character is copied
  where it is one byte.
-/
import Omnidroid.Bionic.PrintfBound
import Omnidroid.Bionic.PrintfLayout

namespace Omnidroid.Bionic.Printf

variable {fl : F64} {conv : Char} {length : Length} {flags : Flags} {width precision : Option ℕ} {arg : FormatArg} {body : Body}
  {sign digits text A F : Text} {n p : ℕ} {c : Char} {s : Sink} {v : UInt64} {alt upper : Bool}

/-! ## The code's digits -/

theorem decimal_isDigit (h : c ∈ decimal n) : c.isDigit = true := Nat.isDigit_of_mem_toDigits (by decide) (by decide) h

theorem not_mem_decimal (h : c.isDigit = false) : c ∉ decimal n := fun hc => by
  rw [decimal_isDigit hc] at h
  cases h

theorem not_mem_padZero (h : c.isDigit = false) (k : ℕ) : c ∉ padZero k (decimal n) := by
  intro hc
  obtain hc | hc := List.mem_append.1 hc
  · rw [List.eq_of_mem_replicate hc] at h
    cases h
  · exact not_mem_decimal h hc

theorem not_mem_signOf (hc : c ≠ '-') : c ∉ signOf v := by
  unfold signOf
  split <;> simp [hc]

/-- trailing characters are those after any other one -/
theorem trimEnd_append {d : Char} (hd : d ≠ c) : trimEnd c (A ++ d :: F) = A ++ d :: trimEnd c F := by
  unfold trimEnd
  induction F using List.reverseRecOn with
  | nil => rw [List.rdropWhile_concat_neg _ _ _ (by simpa using hd), List.rdropWhile_nil]
  | append_singleton F x ih =>
    rw [show A ++ d :: (F ++ [x]) = (A ++ d :: F) ++ [x] by simp]
    by_cases hx : x = c
    · rw [List.rdropWhile_concat_pos _ _ _ (by simpa using hx), List.rdropWhile_concat_pos _ _ _ (by simpa using hx), ih]
    · rw [List.rdropWhile_concat_neg _ _ _ (by simpa using hx), List.rdropWhile_concat_neg _ _ _ (by simpa using hx)]
      simp

theorem trimEnd_of_not_mem (h : c ∉ A) : trimEnd c A = A := by
  unfold trimEnd
  rw [List.rdropWhile_eq_self_iff]
  intro hne hlast
  have hmem := List.getLast_mem hne
  rw [of_decide_eq_true hlast] at hmem
  exact h hmem

theorem stripZeros_point (hA : '.' ∉ A) (hF : '.' ∉ F) :
    stripZeros (A ++ '.' :: F) = A ++ if trimEnd '0' F = [] then [] else '.' :: trimEnd '0' F := by
  unfold stripZeros
  rw [if_pos (by simp), trimEnd_append (by decide)]
  have hsub : '.' ∉ trimEnd '0' F := fun h => hF ((List.rdropWhile_prefix _ _).subset h)
  split
  · next h =>
    rw [h, List.append_nil]
    unfold trimEnd
    rw [List.rdropWhile_concat_pos _ _ _ rfl]
    exact trimEnd_of_not_mem hA
  · next h =>
    obtain ⟨x, G, hG⟩ := List.exists_cons_of_ne_nil h
    rw [hG] at hsub ⊢
    have hx : x ≠ '.' := fun hx => hsub (by rw [hx]; exact List.mem_cons_self)
    rw [show A ++ '.' :: x :: G = (A ++ ['.']) ++ x :: G by simp, trimEnd_append hx,
      trimEnd_of_not_mem fun hmem => hsub (List.mem_cons_of_mem _ hmem), List.append_assoc]

theorem stripZeros_none (h : '.' ∉ A) : stripZeros A = A := if_neg h

/-- the code's trailing zeros are C's -/
theorem stripZeros_pointed (hA : '.' ∉ A) : stripZeros (A ++ pointed false p n) = A ++ trimmed false p n := by
  unfold pointed trimmed
  by_cases hp : p = 0
  · rw [if_pos hp]
    simpa [hp] using stripZeros_none hA
  · rw [if_neg hp, if_neg Bool.false_ne_true, stripZeros_point hA (not_mem_padZero (by decide) _)]
    simp [hp]

theorem mem_pointed (h : c ∈ pointed alt p n) : c = '.' ∨ c.isDigit = true := by
  unfold pointed at h
  split at h
  · split at h
    · exact .inl (List.mem_singleton.1 h)
    · exact absurd h List.not_mem_nil
  · obtain h | h := List.mem_cons.1 h
    · exact .inl h
    · obtain h | h := List.mem_append.1 h
      · rw [List.eq_of_mem_replicate h]
        exact .inr rfl
      · exact .inr (decimal_isDigit h)

/-- a mantissa's zeros, before its exponent -/
theorem stripExpZeros_eq {e : Char} {X : Text} (he : e ∉ A) : stripExpZeros (A ++ e :: X) e = stripZeros A ++ e :: X := by
  unfold stripExpZeros
  have hall : ∀ c ∈ A, decide (c ≠ e) = true := fun c hc => decide_eq_true fun heq => he (by rw [← heq]; exact hc)
  rw [if_pos (by simp), List.takeWhile_append_of_pos hall, List.dropWhile_append_of_pos hall]
  simp

/-! ### The three formats -/

theorem count_eq {m : ℕ} (h : count n = .ok m) : m = n := by
  unfold count at h
  split at h
  · cases h
    rfl
  · cases h

theorem formatExp_text (hfinite : isFinite v = true) (h : formatExp fl v p upper = .ok text) :
    text = signOf v ++ expDigits fl v p false upper := by
  unfold formatExp at h
  rw [if_neg (not_not.2 hfinite)] at h
  unfold expDigits pointed
  dsimp only at h ⊢
  split at h
  · next hp =>
    cases h
    simp [hp]
  · next hp =>
    obtain ⟨width, hwidth, h⟩ := except_bind_ok.1 h
    obtain rfl := count_eq hwidth
    cases h
    simp [hp]

/-- `#` has an effect only where there is no digit after the point -/
theorem pointed_alt (h : ¬(alt = true ∧ p = 0)) (frac : ℕ) : pointed alt p frac = pointed false p frac := by
  unfold pointed
  split
  · next hp => rw [if_neg fun ha => h ⟨ha, hp⟩, if_neg Bool.false_ne_true]
  · rfl

theorem fixed_eq : fixed fl v p = signOf v ++ (decimal (fl.fixedParts v p).1 ++ pointed false p (fl.fixedParts v p).2) := by
  unfold fixed pointed
  dsimp only
  rw [if_neg Bool.false_ne_true, List.append_assoc]

theorem formatFixed_text (hfinite : isFinite v = true) (h : formatFixed fl v p alt upper = .ok text) :
    text = signOf v ++ (decimal (fl.fixedParts v p).1 ++ pointed alt p (fl.fixedParts v p).2) := by
  unfold formatFixed at h
  rw [if_neg (not_not.2 hfinite)] at h
  obtain ⟨width, hwidth, h⟩ := except_bind_ok.1 h
  obtain rfl := count_eq hwidth
  cases h
  by_cases hpoint : alt = true ∧ width = 0
  · obtain ⟨rfl, rfl⟩ := hpoint
    have hnone : '.' ∉ fixed fl v 0 := by
      rw [fixed_eq, List.mem_append, List.mem_append, not_or, not_or]
      exact ⟨not_mem_signOf (by decide), not_mem_decimal (by decide), List.not_mem_nil⟩
    rw [if_pos ⟨rfl, rfl, hnone⟩, fixed_eq]
    simp [pointed]
  · rw [if_neg fun h => hpoint ⟨h.1, h.2.1⟩, fixed_eq, pointed_alt hpoint]

/-- under `%g`, but for a zero and for a point that is lost -/
theorem formatG_text (hfinite : isFinite v = true) (hzero : isZero v = false) (h : formatG fl v p alt upper = .ok text)
    (hpoint : alt = true → p = 0 ∨ p = 1 → ¬(fl.exponent v < -4 ∨ 1 ≤ fl.exponent v)) :
    text = signOf v ++ gDigits fl v p alt upper := by
  unfold formatG at h
  rw [if_neg (not_not.2 hfinite), if_neg (by simp [hzero])] at h
  unfold gDigits
  rw [if_neg (by simp [hzero])]
  dsimp only at h ⊢
  have hone : (if p = 0 then 1 else p) - 1 = 0 → (if p = 0 then 1 else p) = 1 ∧ (p = 0 ∨ p = 1) := by
    split <;> omega
  generalize (if p = 0 then 1 else p) = q at h hone ⊢
  split at h
  · next hexp =>
    rw [if_pos hexp]
    obtain ⟨s, hs, h⟩ := except_bind_ok.1 h
    cases h
    rw [formatExp_text hfinite hs]
    unfold expDigits
    dsimp only
    cases alt with
    | true =>
      have hsome : ¬(true = true ∧ q - 1 = 0) := by
        rintro ⟨-, hq⟩
        obtain ⟨hq, hp⟩ := hone hq
        rw [hq] at hexp
        exact hpoint rfl hp hexp
      rw [if_pos rfl, trimmed, if_pos rfl, pointed_alt hsome]
    | false =>
      rw [if_neg Bool.false_ne_true, ← List.append_assoc, ← List.append_assoc]
      rw [show expText upper (fl.expParts v (q - 1)).2.2 = (if upper = true then 'E' else 'e') :: _ from rfl]
      rw [stripExpZeros_eq, stripZeros_pointed]
      · simp
      · rw [List.mem_append, not_or]
        exact ⟨not_mem_signOf (by decide), not_mem_decimal (by decide)⟩
      · rw [List.mem_append, List.mem_append, not_or, not_or]
        have hne : (if upper = true then 'E' else 'e') ≠ '-' ∧ (if upper = true then 'E' else 'e') ≠ '.' ∧
            (if upper = true then 'E' else 'e').isDigit = false := by cases upper <;> decide
        refine ⟨⟨not_mem_signOf hne.1, not_mem_decimal hne.2.2⟩, fun hmem => ?_⟩
        obtain h | h := mem_pointed hmem
        · exact hne.2.1 h
        · rw [hne.2.2] at h
          cases h
  · next hexp =>
    rw [if_neg hexp]
    obtain ⟨s, hs, h⟩ := except_bind_ok.1 h
    cases h
    rw [formatFixed_text hfinite hs]
    cases alt with
    | true => simp [trimmed]
    | false =>
      rw [if_neg Bool.false_ne_true, ← List.append_assoc, stripZeros_pointed, List.append_assoc]
      rw [List.mem_append, not_or]
      exact ⟨not_mem_signOf (by decide), not_mem_decimal (by decide)⟩

/-- under `%g` a zero has no sign, and a digit after its point -/
theorem formatG_zero (hfinite : isFinite v = true) (hzero : isZero v = true) (h : formatG fl v p alt upper = .ok text) :
    text = if alt = true ∧ (p = 0 ∨ p = 1) then "0.0".toList else gDigits fl v p alt upper := by
  have hlast : (if p = 0 then 1 else p) - 1 = 0 ↔ p = 0 ∨ p = 1 := by split <;> omega
  unfold formatG at h
  rw [if_neg (not_not.2 hfinite), if_pos hzero] at h
  unfold gDigits
  rw [if_pos hzero]
  simp only [← hlast]
  generalize (if p = 0 then 1 else p) - 1 = q at h ⊢
  cases alt with
  | true =>
    obtain ⟨width, hwidth, htext⟩ := except_bind_ok.1 h
    obtain rfl := count_eq hwidth
    cases htext
    by_cases hq : width = 0
    · rw [if_pos ⟨rfl, hq⟩, hq]
      rfl
    · rw [if_neg fun h => hq h.2, trimmed, if_pos rfl, pointed, if_neg hq]
      rfl
  | false =>
    cases h
    rw [if_neg fun h => Bool.false_ne_true h.1]
    have hdigits : trimEnd '0' (padZero q (decimal 0)) = [] := by
      unfold trimEnd
      rw [List.rdropWhile_eq_nil_iff]
      intro c hc
      obtain hc | hc := List.mem_append.1 hc
      · rw [List.eq_of_mem_replicate hc]
        rfl
      · rw [List.mem_singleton.1 hc]
        rfl
    unfold trimmed
    rw [if_neg Bool.false_ne_true, hdigits]
    simp

/-- a lost point is nowhere in the number -/
theorem formatG_lost (hfinite : isFinite v = true) (hzero : isZero v = false) (hp : p = 0 ∨ p = 1)
    (hexp : fl.exponent v < -4 ∨ 1 ≤ fl.exponent v) (h : formatG fl v p true upper = .ok text) :
    text = signOf v ++ expDigits fl v 0 false upper := by
  have hone : (if p = 0 then 1 else p) = 1 := by split <;> omega
  unfold formatG at h
  rw [if_neg (not_not.2 hfinite), if_neg (by simp [hzero])] at h
  dsimp only at h
  rw [hone, Nat.cast_one, if_pos hexp] at h
  obtain ⟨s, hs, h⟩ := except_bind_ok.1 h
  cases h
  exact formatExp_text hfinite hs

theorem expDigits_point : '.' ∉ expDigits fl v 0 false upper := by
  unfold expDigits pointed expText padZero
  dsimp only
  rw [if_pos rfl, if_neg Bool.false_ne_true, List.append_nil, List.mem_append, not_or]
  refine ⟨not_mem_decimal (by decide), ?_⟩
  rw [List.mem_cons, List.mem_cons, List.mem_append, not_or, not_or, not_or]
  refine ⟨by split <;> decide, by split <;> decide, fun h => ?_, not_mem_decimal (by decide)⟩
  exact absurd (List.eq_of_mem_replicate h) (by decide)

/-! ## Fields of one number -/

/-- the head of a number, which no sign or padding is -/
def Starts (digits : Text) : Prop := ∃ c rest, digits = c :: rest ∧ c ∉ [' ', '+', '-']

theorem head_space {k : ℕ} {rest : Text} (hk : 0 < k) : (List.replicate k ' ' ++ rest).head? = some ' ' := by
  obtain ⟨j, rfl⟩ := Nat.exists_eq_add_of_lt hk
  rw [Nat.zero_add, List.replicate_succ]
  rfl

theorem zeros_eq_spaces {k : ℕ} (hsign : sign = [] ∨ sign = ['-']) :
    sign ++ List.replicate k '0' ++ digits = List.replicate k ' ' ++ (sign ++ digits) ↔ k = 0 := by
  constructor
  · intro h
    by_contra hk
    have hhead := congrArg List.head? h
    rw [head_space (Nat.pos_of_ne_zero hk)] at hhead
    obtain ⟨j, rfl⟩ := Nat.exists_eq_succ_of_ne_zero hk
    obtain rfl | rfl := hsign <;> simp [List.replicate_succ] at hhead
  · rintro rfl
    simp

/-- with the same sign: the zeros are at one place, or there are none to place -/
theorem field_same_sign {z z' : Bool} (hsign : sign = [] ∨ sign = ['-']) :
    Pieces.field { sign, digits, zeros := z } width flags = Pieces.field { sign, digits, zeros := z' } width flags ↔
      flags.left = true ∨ flags.zero = false ∨ z' = z ∨ width.getD 0 ≤ sign.length + digits.length := by
  unfold Pieces.field
  dsimp only
  rw [List.append_nil]
  by_cases hleft : flags.left = true
  · rw [if_pos hleft, if_pos hleft]
    simp [hleft]
  rw [if_neg hleft, if_neg hleft]
  by_cases hzero : flags.zero = true
  · have hpad : width.getD 0 - (sign ++ digits).length = 0 ↔ width.getD 0 ≤ sign.length + digits.length := by
      rw [List.length_append]
      omega
    rw [← hpad]
    cases z <;> cases z'
    · simp
    · rw [eq_comm]
      simpa [hzero, hleft] using zeros_eq_spaces hsign
    · simpa [hzero, hleft] using zeros_eq_spaces hsign
    · simp
  · rw [if_neg fun h => hzero h.1, if_neg fun h => hzero h.1]
    simp [hzero]

/-- what the first character that is not a space is -/
theorem dropSpaces {k : ℕ} {rest : Text} (hc : c ≠ ' ') :
    ((List.replicate k ' ' ++ c :: rest).dropWhile (· = ' ')).head? = some c := by
  rw [List.dropWhile_append_of_pos (by simp)]
  simp [hc]

/-- a sign that is not there is missed -/
theorem field_other_sign {z z' : Bool} {a : Char} (ha : a = '+' ∨ a = '-') (h : Starts digits) :
    Pieces.field { digits, zeros := z } width flags ≠ Pieces.field { sign := [a], digits, zeros := z' } width flags := by
  obtain ⟨c, rest, rfl, hc⟩ := h
  simp only [List.mem_cons, List.not_mem_nil, or_false, not_or] at hc
  have ha' : a ≠ ' ' ∧ a ≠ '0' ∧ a ≠ c := by
    obtain rfl | rfl := ha
    · exact ⟨by decide, by decide, Ne.symm hc.2.1⟩
    · exact ⟨by decide, by decide, Ne.symm hc.2.2⟩
  have hwith : ((Pieces.field { sign := [a], digits := c :: rest, zeros := z' } width flags).dropWhile (· = ' ')).head? = some a := by
    unfold Pieces.field
    dsimp only
    split
    · exact @dropSpaces a 0 _ ha'.1
    · split
      · exact @dropSpaces a 0 _ ha'.1
      · exact dropSpaces ha'.1
  have hwithout : ∃ d, ((Pieces.field { digits := c :: rest, zeros := z } width flags).dropWhile (· = ' ')).head? = some d ∧ d ≠ a := by
    unfold Pieces.field
    dsimp only
    split
    · exact ⟨c, @dropSpaces c 0 _ hc.1, Ne.symm ha'.2.2⟩
    · split
      · generalize width.getD 0 - _ = k
        cases k with
        | zero => exact ⟨c, @dropSpaces c 0 _ hc.1, Ne.symm ha'.2.2⟩
        | succ k => exact ⟨'0', @dropSpaces '0' 0 _ (by decide), Ne.symm ha'.2.1⟩
      · exact ⟨c, dropSpaces hc.1, Ne.symm ha'.2.2⟩
  intro heq
  obtain ⟨d, hd, hne⟩ := hwithout
  rw [heq, hwith] at hd
  exact hne (Option.some.inj hd).symm

/-- a space that is not there is missed, but where it would be the padding's last -/
theorem field_space_sign {z z' : Bool} (h : Starts digits) :
    Pieces.field { digits, zeros := z } width flags = Pieces.field { sign := [' '], digits, zeros := z' } width flags ↔
      flags.left = false ∧ ¬(flags.zero = true ∧ z = true) ∧
        if flags.zero = true ∧ z' = true then width.getD 0 = digits.length + 1 else digits.length + 1 ≤ width.getD 0 := by
  obtain ⟨c, rest, rfl, hc⟩ := h
  simp only [List.mem_cons, List.not_mem_nil, or_false, not_or] at hc
  unfold Pieces.field
  dsimp only
  rw [List.append_nil, List.nil_append, List.append_nil]
  by_cases hleft : flags.left = true
  · rw [if_pos hleft, if_pos hleft]
    simp [hleft, hc.1]
  rw [if_neg hleft, if_neg hleft]
  -- with its sign the field begins with a space
  have hspace : (if flags.zero = true ∧ z' = true then
        [' '] ++ List.replicate (width.getD 0 - ([' '] ++ c :: rest).length) '0' ++ c :: rest
      else List.replicate (width.getD 0 - ([' '] ++ c :: rest).length) ' ' ++ ([' '] ++ c :: rest)).head? = some ' ' := by
    split
    · rfl
    · generalize width.getD 0 - _ = k
      cases k <;> rfl
  by_cases hzeros : flags.zero = true ∧ z = true
  · rw [if_pos hzeros]
    refine iff_of_false (fun heq => ?_) fun h => h.2.1 hzeros
    rw [← heq] at hspace
    generalize width.getD 0 - _ = k at hspace
    cases k with
    | zero => exact hc.1 (Option.some.inj hspace)
    | succ k => exact absurd (Option.some.inj hspace) (by decide)
  rw [if_neg hzeros]
  have hleft' : flags.left = false := by simpa using hleft
  rw [and_iff_right hleft', and_iff_right hzeros]
  generalize hn : (c :: rest).length = n
  have hlong : ([' '] ++ c :: rest).length = n + 1 := by rw [List.length_append, hn, Nat.add_comm]; rfl
  rw [hlong] at hspace ⊢
  obtain hw | hw : width.getD 0 ≤ n ∨ n + 1 ≤ width.getD 0 := by omega
  · refine iff_of_false (fun heq => ?_) fun h => ?_
    · rw [← heq, Nat.sub_eq_zero_of_le hw] at hspace
      exact hc.1 (Option.some.inj hspace)
    · split at h <;> omega
  · obtain ⟨k, hk⟩ := Nat.exists_eq_add_of_le hw
    rw [hk, show n + 1 + k - n = k + 1 by omega, show n + 1 + k - (n + 1) = k by omega, List.replicate_succ']
    split
    · have hcancel : List.replicate k ' ' ++ [' '] ++ c :: rest = [' '] ++ List.replicate k '0' ++ c :: rest ↔
          List.replicate k ' ' = List.replicate k '0' := by
        rw [List.append_left_inj, ← List.replicate_succ', List.replicate_succ, List.singleton_append, List.cons_inj_right]
      rw [hcancel]
      cases k with
      | zero => simp
      | succ k => simp [List.replicate_succ]
    · simp

theorem mem_field_point (p : Pieces) : '.' ∈ p.field width flags ↔ '.' ∈ p.sign ++ p.lead ++ p.digits := by
  have hnone : ∀ (k : ℕ) (d : Char), d ≠ '.' → '.' ∉ List.replicate k d := fun k d hd h => hd (List.eq_of_mem_replicate h).symm
  unfold Pieces.field
  dsimp only
  split
  · simp [hnone _ ' ' (by decide)]
  · split
    · simp [hnone _ '0' (by decide)]
    · simp [hnone _ ' ' (by decide)]

theorem dropWhile_point {X : Text} (hA : '.' ∉ A) : (A ++ '.' :: X).dropWhile (· ≠ '.') = '.' :: X := by
  have hall : ∀ c ∈ A, decide (c ≠ '.') = true := fun c hc => decide_eq_true fun heq => hA (by rw [← heq]; exact hc)
  rw [List.dropWhile_append_of_pos hall]
  simp

/-- from the point on a field is its number, and spaces -/
theorem field_from_point {z : Bool} (hsign : '.' ∉ sign) (hA : '.' ∉ A) :
    ∃ k, (Pieces.field { sign, digits := A ++ '.' :: F, zeros := z } width flags).dropWhile (· ≠ '.') =
      '.' :: F ++ List.replicate k ' ' := by
  have hrep : ∀ (k : ℕ) (d : Char), d ≠ '.' → '.' ∉ List.replicate k d := fun k d hd h => hd (List.eq_of_mem_replicate h).symm
  unfold Pieces.field
  dsimp only
  rw [List.append_nil]
  split
  · refine ⟨width.getD 0 - (sign ++ (A ++ '.' :: F)).length, ?_⟩
    rw [← List.append_assoc, List.append_assoc, List.cons_append]
    exact dropWhile_point (by simp [hsign, hA])
  · split
    · refine ⟨0, ?_⟩
      rw [← List.append_assoc, dropWhile_point (by simp [hsign, hA, hrep _ '0' (by decide)])]
      simp
    · refine ⟨0, ?_⟩
      rw [← List.append_assoc, ← List.append_assoc, dropWhile_point (by simp [hsign, hA, hrep _ ' ' (by decide)])]
      simp

/-- a digit after the point that is not C's shows -/
theorem field_extra_digit {z z' : Bool} (hsign : '.' ∉ sign) :
    Pieces.field { digits := "0.0".toList, zeros := z } width flags ≠
      Pieces.field { sign, digits := "0.".toList, zeros := z' } width flags := by
  intro heq
  obtain ⟨k, hk⟩ := @field_from_point flags width [] ['0'] ['0'] z List.not_mem_nil (by decide)
  obtain ⟨j, hj⟩ := @field_from_point flags width sign ['0'] [] z' hsign (by decide)
  have hsame : '.' :: ['0'] ++ List.replicate k ' ' = '.' :: [] ++ List.replicate j ' ' := by
    rw [← hk, ← hj]
    exact congrArg (List.dropWhile _) heq
  have htail : '0' :: List.replicate k ' ' = List.replicate j ' ' := (List.cons.inj hsame).2
  have hmem : '0' ∈ List.replicate j ' ' := by
    rw [← htail]
    exact List.mem_cons_self
  exact absurd (List.eq_of_mem_replicate hmem) (by decide)

/-- two fields of one floating number, by what is printed of its sign and by where zeros go -/
theorem field_eq_iff {z z' negative minus : Bool} (hminus : minus = true → negative = true) (h : Starts digits) :
    Pieces.field { sign := if minus then ['-'] else [], digits, zeros := z } width flags =
        Pieces.field { sign := signFor negative flags, digits, zeros := z' } width flags ↔
      signFor negative flags = (if minus then ['-'] else []) ∧
          (flags.left = true ∨ flags.zero = false ∨ z' = z ∨
            width.getD 0 ≤ (signFor negative flags).length + digits.length) ∨
        signFor negative flags = [' '] ∧ flags.left = false ∧ ¬(flags.zero = true ∧ z = true) ∧
          (if flags.zero = true ∧ z' = true then width.getD 0 = digits.length + 1 else digits.length + 1 ≤ width.getD 0) := by
  by_cases hsame : signFor negative flags = if minus then ['-'] else []
  · have hshape : signFor negative flags = [] ∨ signFor negative flags = ['-'] := by
      rw [hsame]
      cases minus with
      | true => exact .inr rfl
      | false => exact .inl rfl
    have hnospace : signFor negative flags ≠ [' '] := by
      intro hspace
      rw [hspace] at hshape
      exact absurd hshape (by decide)
    rw [← hsame, field_same_sign hshape]
    constructor
    · exact fun hzeros => .inl ⟨rfl, hzeros⟩
    · rintro (⟨-, hzeros⟩ | ⟨hspace, -⟩)
      · exact hzeros
      · exact absurd hspace hnospace
  · have hno : minus = false := by
      by_contra hm
      have hm' : minus = true := by simpa using hm
      apply hsame
      rw [hm', hminus hm']
      rfl
    subst hno
    rw [if_neg Bool.false_ne_true] at hsame ⊢
    rw [or_iff_right fun hboth => hsame hboth.1]
    obtain hs | hs | hs : signFor negative flags = ['-'] ∨ signFor negative flags = ['+'] ∨ signFor negative flags = [' '] := by
      have hall := signFor_isSign negative flags
      unfold IsSign at hall
      simp only [List.mem_cons, List.not_mem_nil, or_false] at hall
      tauto
    · rw [hs]
      exact iff_of_false (field_other_sign (.inr rfl) h) fun hc => absurd hc.1 (by decide)
    · rw [hs]
      exact iff_of_false (field_other_sign (.inl rfl) h) fun hc => absurd hc.1 (by decide)
    · rw [hs, and_iff_right rfl]
      exact field_space_sign h

/-! ## Floating conversions -/

/-- no `x` can be read where a `0` comes first -/
def NoX (text : Text) : Prop := ∀ c ∈ text, c ≠ 'x' ∧ c ≠ 'X'

theorem digit_noX (h : c.isDigit = true) : c ≠ 'x' ∧ c ≠ 'X' := by
  constructor
  · rintro rfl
    exact absurd h (by decide)
  · rintro rfl
    exact absurd h (by decide)

theorem decimal_noX : NoX (decimal n) := fun _ hc => digit_noX (decimal_isDigit hc)

theorem NoX.append {B : Text} (hA : NoX A) (hB : NoX B) : NoX (A ++ B) := fun c hc => (List.mem_append.1 hc).elim (hA c) (hB c)

theorem replicate_noX (k : ℕ) : NoX (List.replicate k '0') := fun c hc => by
  rw [List.eq_of_mem_replicate hc]
  decide

theorem pointed_noX : NoX (pointed alt p n) := fun c hc => by
  obtain h | h := mem_pointed hc
  · rw [h]
    decide
  · exact digit_noX h

theorem mem_trimmed (h : c ∈ trimmed alt p n) : c = '.' ∨ c.isDigit = true := by
  unfold trimmed at h
  split at h
  · exact mem_pointed h
  have hdigits : ∀ d ∈ (if p = 0 then [] else trimEnd '0' (padZero p (decimal n))), d.isDigit = true := by
    intro d hd
    split at hd
    · exact absurd hd List.not_mem_nil
    · obtain hd | hd := List.mem_append.1 ((List.rdropWhile_prefix _ _).subset hd)
      · rw [List.eq_of_mem_replicate hd]
        rfl
      · exact decimal_isDigit hd
  dsimp only at h
  generalize (if p = 0 then [] else trimEnd '0' (padZero p (decimal n))) = digits at h hdigits
  split at h
  · exact absurd h List.not_mem_nil
  · obtain h | h := List.mem_cons.1 h
    · exact .inl h
    · exact .inr (hdigits c h)

theorem trimmed_noX : NoX (trimmed alt p n) := fun c hc => by
  obtain h | h := mem_trimmed hc
  · rw [h]
    decide
  · exact digit_noX h

theorem expText_noX {exp : ℤ} : NoX (expText upper exp) := by
  have hmarks : NoX [if upper then 'E' else 'e', if exp < 0 then '-' else '+'] := by
    intro c hc
    simp only [List.mem_cons, List.not_mem_nil, or_false] at hc
    obtain rfl | rfl := hc <;> split <;> decide
  exact hmarks.append ((replicate_noX _).append decimal_noX)

/-- a number that begins with a digit -/
theorem plain_number (hA : NoX A) : Plain (decimal n ++ A) := by
  have hnumeral : IsNumeral (decimal n) := toDigits_numeral (by decide) (by decide)
  obtain ⟨c, rest, h, hc, -⟩ := hnumeral.plain
  refine ⟨c, rest ++ A, by rw [h]; rfl, hc, fun d hd => ?_⟩
  have hall : NoX (rest ++ A) := by
    intro e he
    apply decimal_noX.append hA
    rw [h]
    exact List.mem_cons_of_mem _ he
  exact hall d (List.mem_of_mem_head? hd)

theorem Plain.starts (h : Plain digits) : Starts digits := by
  obtain ⟨c, rest, rfl, hc, -⟩ := h
  refine ⟨c, rest, rfl, ?_⟩
  simp only [List.mem_cons, List.not_mem_nil, or_false, not_or] at hc ⊢
  exact ⟨hc.2.2.1, hc.2.1, hc.1⟩

theorem expDigits_plain : Plain (expDigits fl v p alt upper) := by
  unfold expDigits
  dsimp only
  rw [List.append_assoc]
  exact plain_number (pointed_noX.append expText_noX)

theorem fixedDigits_plain : Plain (fixedDigits fl v p alt) := by
  unfold fixedDigits
  dsimp only
  rw [List.append_assoc]
  exact plain_number (pointed_noX.append (replicate_noX _))

theorem gDigits_plain : Plain (gDigits fl v p alt upper) := by
  unfold gDigits
  dsimp only
  generalize (if p = 0 then 1 else p) = q
  split
  · exact @plain_number _ 0 trimmed_noX
  · split
    · rw [List.append_assoc]
      exact plain_number (trimmed_noX.append expText_noX)
    · exact plain_number trimmed_noX

/-! ## Floating conversions -/

/-- the code's number: its sign, and digits that are C's or have lost their point -/
structure Number (fl : F64) (conv : Char) (flags : Flags) (precision : Option ℕ) (v : UInt64) (body : Body)
    (printed : Text) : Prop where
  field : body.field = (if printsMinus conv v then ['-'] else []) ++ printed
  text : precision = none → body.text = body.field
  starts : Starts printed
  plain : isFinite v = true ∨ isCapital conv = true → Plain printed
  special : isFinite v = false → isCapital conv = false → numericNeedsSpaceFirst body.text = true
  same : ¬PointLost fl conv flags precision v → printed = floatDigits fl conv v precision flags.alt
  lost : PointLost fl conv flags precision v →
    '.' ∉ body.field ∧ '.' ∈ floatDigits fl conv v precision flags.alt ∨
      printsMinus conv v = false ∧ printed = "0.0".toList ∧ floatDigits fl conv v precision flags.alt = "0.".toList

theorem not_finite (h : isFinite v = false) : isNan v = true ∨ isNan v = false ∧ isInfinite v = true := by
  unfold isFinite at h
  unfold isNan isInfinite
  by_cases hm : mantissa v = 0 <;> simp_all

theorem finite_not_special (h : isFinite v = true) : isNan v = false ∧ isInfinite v = false := by
  unfold isFinite at h
  unfold isNan isInfinite
  simp_all

theorem zero_finite (h : isZero v = true) : isFinite v = true := by
  unfold isZero at h
  unfold isFinite
  simp_all

/-- what is not finite is spelled, and its sign kept -/
theorem special_number (hfinite : isFinite v = false) (htext : body.text = special v (isCapital conv)) (hrun : body.runLen = 0) :
    Number fl conv flags precision v body (floatDigits fl conv v precision flags.alt) := by
  have hfield : body.field = body.text := if_pos hrun
  have hzero : isZero v = false := by
    by_contra h
    have h' := zero_finite (by simpa using h : isZero v = true)
    rw [hfinite] at h'
    cases h'
  have hminus : printsMinus conv v = isNegative v := by
    unfold printsMinus
    simp [hzero]
  constructor
  · rw [hfield, htext, hminus]
    unfold special floatDigits isNegative
    obtain hnan | ⟨hnan, hinf⟩ := not_finite hfinite
    · simp [hnan]
    · simp only [hnan, hinf]
      cases isSignNegative v <;> cases isCapital conv <;> rfl
  · exact fun _ => hfield.symm
  · unfold floatDigits
    obtain hnan | ⟨hnan, hinf⟩ := not_finite hfinite
    · rw [if_pos hnan]
      cases isCapital conv
      · exact ⟨'n', ['a', 'n'], rfl, by decide⟩
      · exact ⟨'N', ['A', 'N'], rfl, by decide⟩
    · rw [if_neg (by simp [hnan]), if_pos hinf]
      cases isCapital conv
      · exact ⟨'i', ['n', 'f'], rfl, by decide⟩
      · exact ⟨'I', ['N', 'F'], rfl, by decide⟩
  · rintro (h | h)
    · rw [hfinite] at h
      cases h
    · unfold floatDigits
      rw [h]
      obtain hnan | ⟨hnan, hinf⟩ := not_finite hfinite
      · rw [if_pos hnan]
        exact ⟨'N', ['A', 'N'], rfl, by decide, by simp⟩
      · rw [if_neg (by simp [hnan]), if_pos hinf]
        exact ⟨'I', ['N', 'F'], rfl, by decide, by simp⟩
  · intro _ hlower
    rw [htext, hlower]
    unfold special
    obtain hnan | ⟨hnan, hinf⟩ := not_finite hfinite
    · rw [if_pos hnan]
      decide
    · rw [if_neg (by simp [hnan])]
      cases isSignNegative v <;> decide
  · exact fun _ => rfl
  · rintro ⟨h, -⟩
    rw [hfinite] at h
    cases h

theorem signOf_eq (hfinite : isFinite v = true) (hconv : (conv = 'g' ∨ conv = 'G') → isZero v = false) :
    signOf v = if printsMinus conv v then ['-'] else [] := by
  have hcond : (decide (conv = 'g' ∨ conv = 'G') && isZero v) = false := by
    by_cases h : conv = 'g' ∨ conv = 'G'
    · simp [hconv h]
    · simp [h]
  unfold signOf printsMinus isNegative
  rw [hcond, (finite_not_special hfinite).1]
  simp

theorem floatDigits_finite (hfinite : isFinite v = true) :
    floatDigits fl conv v precision alt = finiteDigits fl conv v (precision.getD 6) alt := by
  obtain ⟨hnan, hinf⟩ := finite_not_special hfinite
  unfold floatDigits
  rw [if_neg (by simp [hnan]), if_neg (by simp [hinf])]

theorem expDigits_hasPoint : '.' ∈ expDigits fl v 0 true upper := by
  unfold expDigits pointed
  simp

theorem exp_number (hconv : conv = 'e' ∨ conv = 'E') (hfinite : isFinite v = true)
    (h : formatExp fl v (precision.getD 6) (isCapital conv) = .ok text) :
    Number fl conv flags precision v { text } (expDigits fl v (precision.getD 6) false (isCapital conv)) := by
  have hdigits : floatDigits fl conv v precision flags.alt = expDigits fl v (precision.getD 6) flags.alt (isCapital conv) := by
    rw [floatDigits_finite hfinite]
    obtain rfl | rfl := hconv <;> rfl
  have hg : ¬(conv = 'g' ∨ conv = 'G') := by obtain rfl | rfl := hconv <;> decide
  have htext := formatExp_text hfinite h
  have hlost : PointLost fl conv flags precision v ↔ flags.alt = true ∧ precision = some 0 := by
    simp [PointLost, hfinite, hconv, hg]
  have hfield : Body.field { text } = text := if_pos rfl
  rw [signOf_eq hfinite fun h => absurd h hg] at htext
  constructor
  · rw [hfield, htext]
  · exact fun _ => hfield.symm
  · exact expDigits_plain.starts
  · exact fun _ => expDigits_plain
  · rw [hfinite]
    exact fun h => absurd h.symm Bool.false_ne_true
  · intro hnot
    have hpoint : ¬(flags.alt = true ∧ precision.getD 6 = 0) := by
      rintro ⟨halt, hp⟩
      apply hnot
      rw [hlost]
      cases precision with
      | none => cases hp
      | some p => exact ⟨halt, congrArg some hp⟩
    rw [hdigits]
    unfold expDigits
    dsimp only
    rw [pointed_alt hpoint]
  · intro hyes
    obtain ⟨halt, rfl⟩ := hlost.1 hyes
    refine .inl ⟨?_, ?_⟩
    · rw [hfield, htext, List.mem_append, not_or]
      exact ⟨by split <;> simp, expDigits_point⟩
    · rw [hdigits, halt]
      exact expDigits_hasPoint

theorem fixed_number (hconv : conv = 'f' ∨ conv = 'F') (hfinite : isFinite v = true)
    (h : fixedBody fl v precision flags.alt (isCapital conv) = .ok body) :
    Number fl conv flags precision v body (fixedDigits fl v (precision.getD 6) flags.alt) := by
  have hdigits : floatDigits fl conv v precision flags.alt = fixedDigits fl v (precision.getD 6) flags.alt := by
    rw [floatDigits_finite hfinite]
    obtain rfl | rfl := hconv <;> rfl
  have hg : ¬(conv = 'g' ∨ conv = 'G') := by obtain rfl | rfl := hconv <;> decide
  have he : ¬(conv = 'e' ∨ conv = 'E') := by obtain rfl | rfl := hconv <;> decide
  have hlost : ¬PointLost fl conv flags precision v := by simp [PointLost, he, hg]
  unfold fixedBody at h
  obtain ⟨text, htext, h⟩ := except_bind_ok.1 h
  replace htext := formatFixed_text hfinite htext
  rw [signOf_eq hfinite fun h => absurd h hg] at htext
  rw [hfinite, if_pos rfl] at h
  cases h
  have hfield : Body.field
      { text := text, runAt := text.length, runLen := precision.getD 6 - min (precision.getD 6) EXACT_FRACTION_DIGITS } =
        (if printsMinus conv v then ['-'] else []) ++ fixedDigits fl v (precision.getD 6) flags.alt := by
    have hrun := run_field text [] (precision.getD 6 - min (precision.getD 6) EXACT_FRACTION_DIGITS)
    rw [List.append_nil, List.append_nil] at hrun
    rw [hrun, htext]
    unfold fixedDigits
    dsimp only
    rw [show precision.getD 6 - min (precision.getD 6) EXACT_FRACTION_DIGITS = precision.getD 6 - EXACT_FRACTION_DIGITS by omega]
    simp only [List.append_assoc]
  constructor
  · exact hfield
  · rintro rfl
    exact (if_pos rfl).symm
  · exact fixedDigits_plain.starts
  · exact fun _ => fixedDigits_plain
  · rw [hfinite]
    exact fun h => absurd h.symm Bool.false_ne_true
  · exact fun _ => hdigits.symm
  · exact fun h => absurd h hlost

theorem getD_small (precision : Option ℕ) :
    precision.getD 6 = 0 ∨ precision.getD 6 = 1 ↔ precision = some 0 ∨ precision = some 1 := by
  cases precision <;> simp

theorem gDigits_hasPoint : '.' ∈ gDigits fl v p true upper := by
  have hpoint : ∀ q n, '.' ∈ trimmed true q n := by
    intro q n
    unfold trimmed pointed
    rw [if_pos rfl, if_pos rfl]
    split <;> simp
  unfold gDigits
  dsimp only
  generalize (if p = 0 then 1 else p) = q
  split
  · exact List.mem_append_right _ (hpoint _ _)
  · split
    · exact List.mem_append_left _ (List.mem_append_right _ (hpoint _ _))
    · exact List.mem_append_right _ (hpoint _ _)

theorem g_number (hconv : conv = 'g' ∨ conv = 'G') (hfinite : isFinite v = true)
    (h : formatG fl v (precision.getD 6) flags.alt (isCapital conv) = .ok text) :
    ∃ printed, Number fl conv flags precision v { text } printed := by
  have hdigits : floatDigits fl conv v precision flags.alt = gDigits fl v (precision.getD 6) flags.alt (isCapital conv) := by
    rw [floatDigits_finite hfinite]
    obtain rfl | rfl := hconv <;> rfl
  have he : ¬(conv = 'e' ∨ conv = 'E') := by obtain rfl | rfl := hconv <;> decide
  have hfield : Body.field { text } = text := if_pos rfl
  have hspecial : isFinite v = false → isCapital conv = false → numericNeedsSpaceFirst text = true := by
    rw [hfinite]
    exact fun h => absurd h.symm Bool.false_ne_true
  by_cases hzero : isZero v = true
  · have hlost : PointLost fl conv flags precision v ↔
        flags.alt = true ∧ (precision.getD 6 = 0 ∨ precision.getD 6 = 1) := by
      rw [getD_small]
      simp [PointLost, hfinite, hconv, he, hzero]
    have hminus : printsMinus conv v = false := by simp [printsMinus, hconv, hzero]
    have htext := formatG_zero hfinite hzero h
    have hplain : Plain text := by
      rw [htext]
      split
      · exact ⟨'0', ['.', '0'], rfl, by decide, by simp⟩
      · exact gDigits_plain
    refine ⟨text, ⟨by rw [hfield, hminus]; rfl, fun _ => hfield.symm, hplain.starts, fun _ => hplain, hspecial,
      fun hnot => ?_, fun hyes => ?_⟩⟩
    · rw [htext, if_neg fun h => hnot (hlost.2 h), hdigits]
    · obtain ⟨halt, hp⟩ := hlost.1 hyes
      refine .inr ⟨hminus, by rw [htext, if_pos ⟨halt, hp⟩], ?_⟩
      have hone : (if precision.getD 6 = 0 then 1 else precision.getD 6) = 1 := by split <;> omega
      rw [hdigits, halt]
      unfold gDigits
      rw [if_pos hzero, hone]
      rfl
  · have hzero' : isZero v = false := by simpa using hzero
    have hlost : PointLost fl conv flags precision v ↔
        flags.alt = true ∧ (precision.getD 6 = 0 ∨ precision.getD 6 = 1) ∧ (fl.exponent v < -4 ∨ 1 ≤ fl.exponent v) := by
      rw [getD_small]
      simp [PointLost, hfinite, hconv, he, hzero']
    have hsign := @signOf_eq conv v hfinite fun _ => hzero'
    by_cases hyes : PointLost fl conv flags precision v
    · obtain ⟨halt, hp, hexp⟩ := hlost.1 hyes
      rw [halt] at h
      have htext := formatG_lost hfinite hzero' hp hexp h
      refine ⟨_, ⟨by rw [hfield, htext, hsign], fun _ => hfield.symm, expDigits_plain.starts, fun _ => expDigits_plain, hspecial,
        fun hnot => absurd hyes hnot, fun _ => .inl ⟨?_, ?_⟩⟩⟩
      · rw [hfield, htext, List.mem_append, not_or]
        exact ⟨not_mem_signOf (by decide), expDigits_point⟩
      · rw [hdigits, halt]
        exact gDigits_hasPoint
    · have htext := formatG_text hfinite hzero' h fun halt hp hexp => hyes (hlost.2 ⟨halt, hp, hexp⟩)
      exact ⟨_, ⟨by rw [hfield, htext, hsign], fun _ => hfield.symm, gDigits_plain.starts, fun _ => gDigits_plain, hspecial,
        fun _ => hdigits.symm, fun h => absurd h hyes⟩⟩

/-- the code's field of a floating value is a number's, padded where the code pads with zeros -/
theorem number_layout {printed : Text} (h : Number fl conv flags precision v body printed) :
    layout body width flags precision =
      Pieces.field { sign := if printsMinus conv v then ['-'] else [], digits := printed, zeros := padsZeros conv precision v }
        width flags := by
  have hsign : IsSign (if printsMinus conv v then ['-'] else []) := by
    unfold IsSign
    split <;> simp
  have hplain : isFinite v = true ∨ isCapital conv = true → precision = none →
      numericNeedsSpaceFirst body.text = false ∧
        prefixLen body.text = (if printsMinus conv v then ['-'] else [] : Text).length := by
    intro hnumber hnone
    rw [h.text hnone, h.field]
    exact plain_split hsign (h.plain hnumber)
  rw [@layout_eq flags width precision body
    { sign := if printsMinus conv v then ['-'] else [], digits := printed } (by rw [h.field, List.append_nil]) ?_]
  · congr 2
    cases hp : precision with
    | some p => rfl
    | none =>
      by_cases hnumber : isFinite v = true ∨ isCapital conv = true
      · rw [(hplain hnumber hp).1]
        obtain hn | hn := hnumber <;> simp [padsZeros, hn]
      · rw [not_or, Bool.not_eq_true, Bool.not_eq_true] at hnumber
        rw [h.special hnumber.1 hnumber.2]
        simp [padsZeros, hnumber.1, hnumber.2]
  · intro hnone hneeds
    rw [List.append_nil]
    refine (hplain ?_ hnone).2
    by_contra hnumber
    rw [not_or, Bool.not_eq_true, Bool.not_eq_true] at hnumber
    rw [h.special hnumber.1 hnumber.2] at hneeds
    cases hneeds

theorem printsMinus_negative (h : printsMinus conv v = true) : isNegative v = true := by
  unfold printsMinus at h
  rw [Bool.and_eq_true] at h
  exact h.1

theorem number_iff {printed : Text} (h : Number fl conv flags precision v body printed) :
    layout body width flags precision = (floatPieces fl conv v flags precision).field width flags ↔
      FloatLaid fl conv flags width precision v := by
  rw [number_layout h]
  unfold floatPieces FloatLaid
  dsimp only
  by_cases hlost : PointLost fl conv flags precision v
  · refine iff_of_false ?_ fun hlaid => hlaid.1 hlost
    have hsign : '.' ∉ signFor (isNegative v) flags := by
      unfold signFor
      split_ifs <;> simp
    obtain ⟨hnone, hsome⟩ | ⟨hminus, hprinted, hdigits⟩ := h.lost hlost
    · intro heq
      have hmem : ('.' ∈ Pieces.field _ width flags) = ('.' ∈ Pieces.field _ width flags) :=
        congrArg (fun text : Text => '.' ∈ text) heq
      rw [mem_field_point, mem_field_point] at hmem
      apply hnone
      rw [h.field]
      simpa using hmem.mpr (List.mem_append_right _ hsome)
    · rw [hminus, hprinted, hdigits]
      exact field_extra_digit hsign
  · rw [and_iff_right hlost, ← h.same hlost]
    exact field_eq_iff printsMinus_negative h.starts

/-- a body of a floating conversion, the argument as a value -/
def floatBody (fl : F64) (conv : Char) (flags : Flags) (precision : Option ℕ) (v : UInt64) : Except Stop Body :=
  match conv with
  | 'e' | 'E' => do return { text := ← formatExp fl v (precision.getD 6) (isCapital conv) }
  | 'f' | 'F' => fixedBody fl v precision flags.alt (isCapital conv)
  | _ => do return { text := ← formatG fl v (precision.getD 6) flags.alt (isCapital conv) }

theorem bodyOf_float (hconv : conv ∈ ['e', 'E', 'f', 'F', 'g', 'G']) (harg : asDouble fl arg = .ok v) :
    bodyOf fl conv length flags precision arg = floatBody fl conv flags precision v := by
  simp only [List.mem_cons, List.not_mem_nil, or_false] at hconv
  obtain rfl | rfl | rfl | rfl | rfl | rfl := hconv
  all_goals
    unfold bodyOf floatBody
    rw [harg, lift_bind]
    rfl

theorem plain_body {x : Except Stop Text} (h : (do return { text := ← x }) = (.ok body : Except Stop Body)) :
    ∃ text, x = .ok text ∧ { text } = body := by
  obtain ⟨text, htext, heq⟩ := except_bind_ok.1 h
  exact ⟨text, htext, Except.ok.inj heq⟩

theorem formatExp_special (h : isFinite v = false) : formatExp fl v p upper = .ok (special v upper) :=
  if_pos (by simp [h])

theorem formatFixed_special (h : isFinite v = false) : formatFixed fl v p alt upper = .ok (special v upper) :=
  if_pos (by simp [h])

theorem formatG_special (h : isFinite v = false) : formatG fl v p alt upper = .ok (special v upper) :=
  if_pos (by simp [h])

theorem float_number (hconv : conv ∈ ['e', 'E', 'f', 'F', 'g', 'G']) (hbody : floatBody fl conv flags precision v = .ok body) :
    ∃ printed, Number fl conv flags precision v body printed := by
  have hcases : (conv = 'e' ∨ conv = 'E') ∨ (conv = 'f' ∨ conv = 'F') ∨ conv = 'g' ∨ conv = 'G' := by
    simp only [List.mem_cons, List.not_mem_nil, or_false] at hconv
    tauto
  obtain he | hf | hg := hcases
  · obtain ⟨text, htext, rfl⟩ : ∃ text, formatExp fl v (precision.getD 6) (isCapital conv) = .ok text ∧ { text } = body := by
      obtain rfl | rfl := he <;> exact plain_body hbody
    by_cases hfinite : isFinite v = true
    · exact ⟨_, exp_number he hfinite htext⟩
    · rw [Bool.not_eq_true] at hfinite
      rw [formatExp_special hfinite] at htext
      exact ⟨_, special_number hfinite (Except.ok.inj htext).symm rfl⟩
  · have hfixed : fixedBody fl v precision flags.alt (isCapital conv) = .ok body := by
      obtain rfl | rfl := hf <;> exact hbody
    by_cases hfinite : isFinite v = true
    · exact ⟨_, fixed_number hf hfinite hfixed⟩
    · rw [Bool.not_eq_true] at hfinite
      unfold fixedBody at hfixed
      dsimp only at hfixed
      rw [formatFixed_special hfinite, hfinite] at hfixed
      cases hfixed
      exact ⟨_, special_number hfinite rfl rfl⟩
  · obtain ⟨text, htext, rfl⟩ : ∃ text, formatG fl v (precision.getD 6) flags.alt (isCapital conv) = .ok text ∧ { text } = body := by
      obtain rfl | rfl := hg <;> exact plain_body hbody
    by_cases hfinite : isFinite v = true
    · exact g_number hg hfinite htext
    · rw [Bool.not_eq_true] at hfinite
      rw [formatG_special hfinite] at htext
      exact ⟨_, special_number hfinite (Except.ok.inj htext).symm rfl⟩

/-! ## Every conversion -/

/-- the conversions that the layout is about -/
def laidOut : List Char := ['d', 'i', 'u', 'o', 'x', 'X', 'c', 's', 'p', 'f', 'F', 'e', 'E', 'g', 'G']

theorem value_ok {α : Type} {x : Except FormatError α} {f : α → Body} {g : α → Pieces} {pieces : Pieces}
    (hbody : (do return f (← lift x)) = (.ok body : Except Stop Body)) (hpieces : (do return g (← x)) = Except.ok pieces) :
    ∃ n, x = .ok n ∧ body = f n ∧ pieces = g n := by
  obtain ⟨n, hn, hbody⟩ := except_bind_ok.1 hbody
  obtain ⟨m, hm, hpieces⟩ := except_bind_ok.1 hpieces
  rw [lift_ok, hm] at hn
  cases hn
  exact ⟨n, hm, (Except.ok.inj hbody).symm, (Except.ok.inj hpieces).symm⟩

/-- what a destination is asked for is C's field -/
theorem conversion_field (hconv : conv ∈ laidOut) (hdef : Defined conv flags precision)
    (hbody : bodyOf fl conv length flags precision arg = .ok body) {pieces : Pieces}
    (hpieces : c11 fl conv length flags precision arg = .ok pieces) :
    layout body width flags precision = pieces.field width flags ↔ Laid fl conv length flags width precision arg := by
  unfold laidOut at hconv
  simp only [List.mem_cons, List.not_mem_nil, or_false] at hconv
  obtain ⟨-, hzero, -⟩ := hdef
  have hspaces : conv ∈ ['c', 's', 'p'] → flags.zero = false := fun hc => by
    by_contra h
    exact hzero (by simpa using h) hc
  obtain rfl | rfl | rfl | rfl | rfl | rfl | rfl | rfl | rfl | hfloat := hconv
  · obtain ⟨n, -, rfl, rfl⟩ := value_ok hbody hpieces
    exact iff_of_true int_field trivial
  · obtain ⟨n, -, rfl, rfl⟩ := value_ok hbody hpieces
    exact iff_of_true int_field trivial
  · obtain ⟨n, -, rfl, rfl⟩ := value_ok hbody hpieces
    exact iff_of_true uint_field trivial
  · obtain ⟨n, hn, rfl, rfl⟩ := value_ok hbody hpieces
    show _ ↔ ¬(flags.alt = true ∧ precision = some 0 ∧ asUint arg length = .ok 0)
    rw [hn, Except.ok.injEq]
    by_cases hlost : flags.alt = true ∧ precision = some 0 ∧ n = 0
    · obtain ⟨halt, rfl, rfl⟩ := hlost
      exact iff_of_false (octal_zero halt) fun h => h ⟨halt, rfl, rfl⟩
    · exact iff_of_true (octal_field hlost) hlost
  · obtain ⟨n, -, rfl, rfl⟩ := value_ok hbody hpieces
    exact iff_of_true (radix_field (.inl rfl)) trivial
  · obtain ⟨n, -, rfl, rfl⟩ := value_ok hbody hpieces
    exact iff_of_true (radix_field (.inr rfl)) trivial
  · obtain ⟨n, -, rfl, rfl⟩ := value_ok hbody hpieces
    exact iff_of_true (plain_field _ (hspaces (by decide))) trivial
  · refine iff_of_true ?_ trivial
    cases arg with
    | str t =>
      cases hbody
      cases hpieces
      exact plain_field _ (hspaces (by decide))
    | ptr n =>
      cases n with
      | zero =>
        cases hbody
        cases hpieces
        exact plain_field _ (hspaces (by decide))
      | succ n => cases hpieces
    | int n | uint n | double v => cases hpieces
  · refine iff_of_true ?_ trivial
    cases arg with
    | ptr n | uint n =>
      cases hbody
      cases hpieces
      exact plain_field _ (hspaces (by decide))
    | int n | double v | str t => cases hpieces
  · have hmem : conv ∈ ['e', 'E', 'f', 'F', 'g', 'G'] := by
      simp only [List.mem_cons, List.not_mem_nil, or_false]
      tauto
    obtain ⟨v, hv, heq⟩ : ∃ v, asDouble fl arg = .ok v ∧ floatPieces fl conv v flags precision = pieces := by
      obtain rfl | rfl | rfl | rfl | rfl | rfl := hfloat
      all_goals
        obtain ⟨v, hv, heq⟩ := except_bind_ok.1 hpieces
        exact ⟨v, hv, Except.ok.inj heq⟩
    have hlaid : Laid fl conv length flags width precision arg ↔ FloatLaid fl conv flags width precision v := by
      have hall : Laid fl conv length flags width precision arg =
          ∀ v, asDouble fl arg = .ok v → FloatLaid fl conv flags width precision v := by
        obtain rfl | rfl | rfl | rfl | rfl | rfl := hfloat <;> rfl
      rw [hall]
      constructor
      · exact fun h => h v hv
      · intro h v' hv'
        rw [hv] at hv'
        cases hv'
        exact h
    rw [bodyOf_float hmem hv] at hbody
    obtain ⟨printed, hnumber⟩ := float_number hmem hbody
    rw [hlaid, ← heq]
    exact number_iff hnumber

/-! ## Every other character -/

variable {rest : List UInt8} {args : List FormatArg} {bytes : List UInt8} {s' : St}

theorem loop_byte {b : UInt8} {fuel : ℕ} (hb : char b ≠ '%') (hsize : utf8Len s.out ≤ MAX_OUTPUT) :
    loop fl (fuel + 1) ⟨b :: rest, args, s⟩ = loop fl fuel ⟨rest, args, s.add [char b]⟩ := by
  rw [loop, if_neg (List.cons_ne_nil _ _), iter, if_neg (not_lt.2 hsize)]
  dsimp only
  rw [if_pos hb, Sink.ch_eq]
  rfl

theorem loop_stop {b : UInt8} {fuel : ℕ} (hsize : ¬utf8Len s.out ≤ MAX_OUTPUT) :
    loop fl (fuel + 1) ⟨b :: rest, args, s⟩ = .error (.error (.outputTooLarge MAX_OUTPUT)) := by
  rw [loop, if_neg (List.cons_ne_nil _ _), iter, if_pos (not_le.1 hsize)]
  rfl

/-- bytes are copied one by one, each as a character of its own -/
theorem loop_bytes (b : UInt8) (hbytes : ∀ d ∈ b :: bytes, char d ≠ '%')
    (h : loop fl (b :: bytes).length ⟨b :: bytes ++ rest, args, s⟩ = .ok s') :
    s' = ⟨rest, args, s.add ((b :: bytes).map char)⟩ := by
  induction bytes generalizing b s with
  | nil =>
    by_cases hsize : utf8Len s.out ≤ MAX_OUTPUT
    · rw [List.length_singleton, List.cons_append, loop_byte (hbytes b List.mem_cons_self) hsize] at h
      cases h
      rfl
    · rw [List.length_singleton, List.cons_append, loop_stop hsize] at h
      cases h
  | cons d bytes ih =>
    by_cases hsize : utf8Len s.out ≤ MAX_OUTPUT
    · rw [List.length_cons, List.cons_append, loop_byte (hbytes b List.mem_cons_self) hsize] at h
      rw [ih d (fun e he => hbytes e (List.mem_cons_of_mem _ he)) h, Sink.add_add]
      rfl
    · rw [List.length_cons, List.cons_append, loop_stop hsize] at h
      cases h

/-- where there is no room they all go by -/
theorem loop_noRoom (hbytes : ∀ d ∈ bytes, char d ≠ '%') (hout : s.out = []) (hroom : s.room = 0) :
    ∃ s', loop fl bytes.length ⟨bytes ++ rest, args, s⟩ = .ok s' := by
  induction bytes generalizing s with
  | nil => exact ⟨_, rfl⟩
  | cons b bytes ih =>
    rw [List.length_cons, List.cons_append, loop_byte (hbytes b List.mem_cons_self) (by rw [hout]; exact Nat.zero_le _)]
    apply ih fun e he => hbytes e (List.mem_cons_of_mem _ he)
    · unfold Sink.add
      rw [hout, hroom]
      rfl
    · unfold Sink.add Sink.room at *
      dsimp only at *
      omega

/-- a character of the format is in the output as it is -/
def Copied (fl : F64) (c : Char) : Prop :=
  ∀ rest args s s', loop fl (String.utf8EncodeChar c).length ⟨String.utf8EncodeChar c ++ rest, args, s⟩ = .ok s' →
    s' = ⟨rest, args, s.add [c]⟩

theorem utf8_ascii (h : c.val.toNat < 0x80) : ∃ b, String.utf8EncodeChar c = [b] ∧ char b = c := by
  refine ⟨UInt8.ofNat c.val.toNat, ?_, ?_⟩
  · unfold String.utf8EncodeChar
    exact if_pos (Nat.le_of_lt_succ h)
  · unfold char
    rw [UInt8.toNat_ofNat', Nat.mod_eq_of_lt (by omega)]
    exact Char.ofNat_toNat c

theorem char_wide {b : UInt8} (h : 0x80 ≤ b.toNat) : char b ≠ '%' := by
  intro heq
  have hb := b.toNat_lt
  have hval := congrArg (fun c => c.val.toNat) heq
  unfold char Char.ofNat at hval
  rw [dif_pos (.inl (by omega))] at hval
  have hpercent : b.toNat = 37 := hval
  omega

theorem byte_wide {n : ℕ} (h : 0x80 ≤ n) (hn : n < 0x100) : char (UInt8.ofNat n) ≠ '%' := by
  apply char_wide
  rw [UInt8.toNat_ofNat', Nat.mod_eq_of_lt (by omega)]
  exact h

theorem utf8_wide (h : 0x80 ≤ c.val.toNat) :
    2 ≤ (String.utf8EncodeChar c).length ∧ (String.utf8EncodeChar c).length ≤ 4 ∧
      ∀ b ∈ String.utf8EncodeChar c, char b ≠ '%' := by
  unfold String.utf8EncodeChar
  dsimp only
  rw [if_neg (by omega)]
  split
  · refine ⟨le_refl _, Nat.le_add_right 2 2, ?_⟩
    simp only [List.mem_cons, List.not_mem_nil, or_false]
    rintro b (rfl | rfl) <;> exact byte_wide (by omega) (by omega)
  · split
    · refine ⟨Nat.le_add_right 2 1, Nat.le_add_right 3 1, ?_⟩
      simp only [List.mem_cons, List.not_mem_nil, or_false]
      rintro b (rfl | rfl | rfl) <;> exact byte_wide (by omega) (by omega)
    · refine ⟨Nat.le_add_right 2 2, le_refl _, ?_⟩
      simp only [List.mem_cons, List.not_mem_nil, or_false]
      rintro b (rfl | rfl | rfl | rfl) <;> exact byte_wide (by omega) (by omega)

theorem copied_iff (hc : c ≠ '%') : Copied fl c ↔ c.val.toNat < 0x80 := by
  constructor
  · intro hcopied
    by_contra hwide
    obtain ⟨htwo, hfour, hbytes⟩ := utf8_wide (not_lt.1 hwide)
    obtain ⟨s', hs'⟩ := @loop_noRoom fl { budget := 0 } [] [] _ hbytes rfl rfl
    have h₁ := hcopied [] [] _ _ hs'
    obtain ⟨b, bytes, heq⟩ := List.exists_cons_of_ne_nil (show String.utf8EncodeChar c ≠ [] by
      intro hnil
      rw [hnil] at htwo
      exact absurd htwo (by decide))
    rw [heq] at hs' hbytes htwo hfour
    have h₂ := loop_bytes b hbytes hs'
    rw [h₁] at h₂
    have hfull := congrArg (fun st : St => st.sink.full) h₂
    unfold Sink.add usizeMax at hfull
    dsimp only at hfull
    rw [List.length_map, List.length_singleton] at hfull
    omega
  · intro hascii rest args s s' hs'
    obtain ⟨b, hbyte, rfl⟩ := utf8_ascii hascii
    rw [hbyte] at hs'
    exact loop_bytes b (fun d hd => by rwa [List.mem_singleton.1 hd]) hs'

/-! ## The layout -/

/-- whatever the destination, it is asked for C's field -/
def AsksForC (body : Body) (pieces : Pieces) (width precision : Option ℕ) (flags : Flags) : Prop :=
  ∀ s : Sink, emitPadded s body width flags precision = s.add (pieces.field width flags)

/-- a conversion that C gives a meaning is laid out as C has it exactly where `Laid` says so, and each other character is copied
exactly where it is ASCII -/
theorem printf_layout (fl : F64) :
    (∀ conv length flags width precision arg body pieces, conv ∈ laidOut → Defined conv flags precision →
        width.getD 0 ≤ usizeMax → bodyOf fl conv length flags precision arg = .ok body →
          c11 fl conv length flags precision arg = .ok pieces →
            (AsksForC body pieces width precision flags ↔ Laid fl conv length flags width precision arg)) ∧
      ∀ c, c ≠ '%' → (Copied fl c ↔ c.val.toNat < 0x80) := by
  refine ⟨fun conv length flags width precision arg body pieces hconv hdef hw hbody hpieces => ?_, fun c hc => copied_iff hc⟩
  obtain ⟨hrun, hprec⟩ := bodyOf_placed hbody
  rw [← conversion_field hconv hdef hbody hpieces, ← add_eq_iff]
  unfold AsksForC
  simp only [emitPadded_eq hrun hprec hw]

/-- a conversion of 1.0 with a `+` -/
theorem plus_is_left_out :
    ¬∀ body pieces, bodyOf one 'f' .none { plus := true } none (.double 0x3FF0000000000000) = .ok body →
      c11 one 'f' .none { plus := true } none (.double 0x3FF0000000000000) = .ok pieces →
        AsksForC body pieces none none { plus := true } := by
  intro h
  have hout := congrArg Sink.out (h _ _ rfl rfl { budget := 100 })
  exact absurd hout (by decide)

end Omnidroid.Bionic.Printf
