/-
What a destination's size changes in `printf`, and what the planned arguments leave to go wrong.

- `sinkAt`: the destination after a text was asked for. Each piece adds to that text (`sinkAt_add`), so a call is its turns'
  texts one after another (`turn`, `iter_eq`), whatever the budget.
- `turn_bounded`, `loop_bounded`: what goes through without a budget goes through under one, with the same texts.
- `convertText_planned`: with the arguments that `plan` names, a conversion goes through, or its counts are refused, or it asks
  the language for more digits than it formats (`TooPrecise`); `loop_planned`: a run by its turns.
-/
import Omnidroid.Bionic.Printf

namespace Omnidroid.Bionic.Printf

variable {fl : F64} {fmt rest rest' : List UInt8} {args args' : List FormatArg} {s s' : St} {out t u v : Text} {fuel : ℕ}

/-! ## The destination -/

/-- a destination of a budget, after a text was asked for -/
def sinkAt (budget : ℕ) (u : Text) : Sink :=
  { out := u.take budget, budget, kept := min budget u.length, full := min u.length usizeMax }

@[simp] theorem sinkAt_out (budget : ℕ) : (sinkAt budget u).out = u.take budget := rfl

theorem sinkAt_add (budget : ℕ) : (sinkAt budget u).add v = sinkAt budget (u ++ v) := by
  unfold sinkAt Sink.add Sink.room
  dsimp only
  have hroom : budget - min budget u.length = budget - u.length := by omega
  rw [hroom, List.take_append, List.length_append]
  congr 1
  · omega
  · omega

theorem utf8Len_take (n m : ℕ) (h : n ≤ m) (u : Text) : utf8Len (u.take n) ≤ utf8Len (u.take m) := by
  obtain ⟨k, rfl⟩ := Nat.exists_eq_add_of_le h
  unfold utf8Len
  rw [List.take_add, List.map_append, List.sum_append]
  exact Nat.le_add_right _ _

/-! ## A turn's text -/

/-- a conversion, with the text that is asked for -/
def convertText (fl : F64) (bounded : Bool) (spec : Spec) (args : List FormatArg) :
    Except Stop (List FormatArg × Text) := do
  let (flags, width, args) ← lift (fetchWidth spec.flags args spec.width)
  let (precision, args) ← lift (fetchPrecision args spec.precision)
  lift (tooWide bounded spec.conv false width)
  lift (tooWide bounded spec.conv true precision)
  if spec.conv = '%' then return (args, ['%'])
  else
    let (arg, args) ← lift (nextArg args)
    let body ← bodyOf fl spec.conv spec.length flags precision arg
    return (args, layout body width flags precision)

/-- a turn of the loop, with the text that is asked for -/
def turn (fl : F64) (bounded : Bool) (rest : List UInt8) (args : List FormatArg) :
    Except Stop (List UInt8 × List FormatArg × Text) :=
  match rest with
  | [] => .ok ([], args, [])
  | b :: rest =>
    if char b ≠ '%' then .ok (rest, args, [char b])
    else if rest = [] then lift (malformed "trailing %")
    else do
      let (spec, rest) ← lift (parseSpec rest)
      let (args, text) ← convertText fl bounded spec args
      return (rest, args, text)

theorem lift_ok {α : Type} {x : Except FormatError α} {a : α} : lift x = .ok a ↔ x = .ok a := by
  cases x with
  | error e => simp [lift, Except.mapError]
  | ok b => simp [lift, Except.mapError]

theorem lift_bind {α β : Type} (x : Except FormatError α) (f : α → Except Stop β) :
    (lift x >>= f) = match x with
      | .ok a => f a
      | .error e => .error (.error e) := by
  cases x with
  | error e => rfl
  | ok a => rfl

/-- a conversion adds its text to the destination -/
theorem convert_eq {spec : Spec} {sink : Sink} (hspec : ∀ n, spec.width = .fixed n → n ≤ usizeMax) :
    convert fl spec args sink = (convertText fl sink.isBounded spec args).map fun r => (r.1, sink.add r.2) := by
  unfold convert convertText
  simp only [lift_bind]
  cases hw : fetchWidth spec.flags args spec.width with
  | error e => rfl
  | ok fetched =>
    obtain ⟨flags, width, args₁⟩ := fetched
    dsimp only
    cases hp : fetchPrecision args₁ spec.precision with
    | error e => rfl
    | ok fetched' =>
      obtain ⟨precision, args₂⟩ := fetched'
      dsimp only
      cases tooWide sink.isBounded spec.conv false width with
      | error e => rfl
      | ok u =>
        dsimp only
        cases tooWide sink.isBounded spec.conv true precision with
        | error e => rfl
        | ok u =>
          dsimp only
          split
          · show Except.ok _ = Except.ok _
            rw [Sink.ch_eq]
          · cases nextArg args₂ with
            | error e => rfl
            | ok next =>
              dsimp only
              cases hb : bodyOf fl spec.conv spec.length flags precision next.1 with
              | error e => rfl
              | ok body =>
                obtain ⟨hrun, hprec⟩ := bodyOf_placed hb
                show Except.ok _ = Except.ok _
                rw [emitPadded_eq hrun hprec (fetchWidth_max hw hspec)]

/-- a turn adds its text to the destination, where the output is not past its cap -/
theorem iter_eq (budget : ℕ) :
    iter fl ⟨rest, args, sinkAt budget u⟩ =
      if MAX_OUTPUT < utf8Len (u.take budget) then .error (.error (.outputTooLarge MAX_OUTPUT))
      else (turn fl (budget ≠ usizeMax) rest args).map fun r => ⟨r.1, r.2.1, sinkAt budget (u ++ r.2.2)⟩ := by
  unfold iter turn
  dsimp only
  rw [sinkAt_out]
  split
  · rfl
  cases rest with
  | nil => simp only [Except.map, List.append_nil]
  | cons b rest =>
    dsimp only
    split
    · show Except.ok _ = Except.ok _
      rw [Sink.ch_eq, sinkAt_add]
    split
    · rfl
    rw [lift_bind, lift_bind]
    cases hspec : parseSpec rest with
    | error e => rfl
    | ok parsed =>
      obtain ⟨spec, rest'⟩ := parsed
      dsimp only
      rw [convert_eq (parseSpec_spec hspec).2]
      show ((convertText fl (budget ≠ usizeMax) spec args).map _ >>= _) = _
      cases convertText fl (budget ≠ usizeMax) spec args with
      | error e => rfl
      | ok r =>
        show Except.ok (⟨rest', r.1, (sinkAt budget u).add r.2⟩ : St) = _
        rw [sinkAt_add]
        rfl

/-! ## Under a budget -/

theorem tooWide_bounded {bounded isPrecision : Bool} {conv : Char} {asked : Option ℕ}
    (h : tooWide false conv isPrecision asked = .ok ()) : tooWide bounded conv isPrecision asked = .ok () := by
  cases asked with
  | none => rfl
  | some n =>
    unfold tooWide at h ⊢
    dsimp only at h ⊢
    split at h
    · cases h
    · next hn =>
      rw [if_neg]
      rintro ⟨hmax, -⟩
      exact hn ⟨hmax, rfl⟩

theorem convertText_bounded {bounded : Bool} {spec : Spec} {r : List FormatArg × Text}
    (h : convertText fl false spec args = .ok r) : convertText fl bounded spec args = .ok r := by
  unfold convertText at h ⊢
  obtain ⟨⟨flags, width, args₁⟩, hw, h⟩ := except_bind_ok.1 h
  obtain ⟨⟨precision, args₂⟩, hp, h⟩ := except_bind_ok.1 h
  obtain ⟨_, hwide, h⟩ := except_bind_ok.1 h
  obtain ⟨_, hprec, h⟩ := except_bind_ok.1 h
  refine except_bind_ok.2 ⟨_, hw, except_bind_ok.2 ⟨_, hp, except_bind_ok.2 ⟨(), ?_, except_bind_ok.2 ⟨(), ?_, h⟩⟩⟩⟩
  · exact lift_ok.2 (tooWide_bounded (lift_ok.1 hwide))
  · exact lift_ok.2 (tooWide_bounded (lift_ok.1 hprec))

theorem turn_bounded {bounded : Bool} {r : List UInt8 × List FormatArg × Text} (h : turn fl false rest args = .ok r) :
    turn fl bounded rest args = .ok r := by
  unfold turn at h ⊢
  cases rest with
  | nil => exact h
  | cons b rest =>
    dsimp only at h ⊢
    split
    · next hb => rwa [if_pos hb] at h
    next hb =>
    rw [if_neg hb] at h
    split
    · next hrest => rwa [if_pos hrest] at h
    next hrest =>
    rw [if_neg hrest] at h
    obtain ⟨⟨spec, rest'⟩, hspec, h⟩ := except_bind_ok.1 h
    obtain ⟨⟨args', text⟩, htext, h⟩ := except_bind_ok.1 h
    exact except_bind_ok.2 ⟨_, hspec, except_bind_ok.2 ⟨_, convertText_bounded htext, h⟩⟩

/-- a turn that goes through without a budget goes through under one, and asks for the same text -/
theorem iter_bounded (h : iter fl ⟨rest, args, sinkAt usizeMax u⟩ = .ok s') :
    ∃ t, s'.sink = sinkAt usizeMax (u ++ t) ∧ ∀ budget ≤ usizeMax,
      iter fl ⟨rest, args, sinkAt budget u⟩ = .ok ⟨s'.rest, s'.args, sinkAt budget (u ++ t)⟩ := by
  rw [iter_eq] at h
  split at h
  · cases h
  next hsize =>
  cases hturn : turn fl (decide (usizeMax ≠ usizeMax)) rest args with
  | error e =>
    rw [hturn] at h
    cases h
  | ok r =>
    rw [hturn] at h
    cases h
    refine ⟨r.2.2, rfl, fun budget hb => ?_⟩
    have hsame : turn fl (decide (budget ≠ usizeMax)) rest args = .ok r := turn_bounded (by simpa using hturn)
    rw [iter_eq, if_neg (fun hlarge => hsize (hlarge.trans_le (utf8Len_take _ _ hb _))), hsame]
    rfl

theorem loop_bounded (h : loop fl fuel ⟨rest, args, sinkAt usizeMax u⟩ = .ok s') :
    ∃ t, s'.sink = sinkAt usizeMax (u ++ t) ∧ ∀ budget ≤ usizeMax,
      loop fl fuel ⟨rest, args, sinkAt budget u⟩ = .ok ⟨s'.rest, s'.args, sinkAt budget (u ++ t)⟩ := by
  induction fuel generalizing rest args u with
  | zero =>
    cases h
    refine ⟨[], by rw [List.append_nil], fun budget _ => ?_⟩
    rw [List.append_nil]
    rfl
  | succ fuel ih =>
    unfold loop at h
    dsimp only at h
    split at h
    · next hrest =>
      cases h
      refine ⟨[], by rw [List.append_nil], fun budget _ => ?_⟩
      rw [List.append_nil, loop, if_pos hrest]
    · next hrest =>
      obtain ⟨⟨rest₁, args₁, sink₁⟩, hiter, hloop⟩ := except_bind_ok.1 h
      obtain ⟨t, hsink, hsame⟩ := iter_bounded hiter
      dsimp only at hsink
      subst hsink
      obtain ⟨t', hsink', hall⟩ := ih hloop
      refine ⟨t ++ t', by rw [hsink', List.append_assoc], fun budget hb => ?_⟩
      rw [loop, if_neg hrest, ← List.append_assoc]
      exact except_bind_ok.2 ⟨_, hsame budget hb, hall budget hb⟩

/-! ## The planned arguments -/

/-- an argument of a planned kind; a string may be a null pointer -/
def FormatArg.HasKind : FormatArg → ArgKind → Prop
  | .int _, .int | .uint _, .uint | .ptr _, .ptr | .double _, .double | .str _, .str => True
  | .ptr n, .str => n = 0
  | _, _ => False

abbrev Supplied (args : List FormatArg) (kinds : List ArgKind) : Prop := args.Forall₂ FormatArg.HasKind kinds

/-- a finite value is asked for with more digits than the language formats -/
def TooManyDigits (fl : F64) (conv : Char) (precision : Option ℕ) (v : UInt64) : Prop :=
  isFinite v = true ∧
    ((conv = 'e' ∨ conv = 'E') ∧ 2 ^ 16 ≤ precision.getD 6 ∨
      (conv = 'g' ∨ conv = 'G') ∧ isZero v = false ∧ -4 ≤ fl.exponent v ∧
        2 ^ 16 + 1 + fl.exponent v ≤ (precision.getD 6 : ℤ))

variable {conv : Char} {length : Length} {flags flags' : Flags} {precision width : Option ℕ} {arg : FormatArg} {kind : ArgKind}
  {kinds more : List ArgKind} {d : UInt64} {spec : Spec} {n : ℕ}

/-- a step ends well, but panics where a condition holds -/
structure PanicsIff {α : Type} (x : Except Stop α) (p : Prop) : Prop where
  panics : p → x = .error .panic
  ends : ¬p → ∃ a, x = .ok a

namespace PanicsIff

variable {α β : Type} {x : Except Stop α} {p q : Prop}

theorem ok (a : α) (h : ¬p) : PanicsIff (.ok a) p := ⟨fun hp => absurd hp h, fun _ => ⟨a, rfl⟩⟩

theorem andThen (h : PanicsIff x p) (f : α → β) : PanicsIff (x >>= fun a => .ok (f a)) p := by
  constructor
  · intro hp
    rw [h.panics hp]
    rfl
  · intro hp
    obtain ⟨a, ha⟩ := h.ends hp
    rw [ha]
    exact ⟨f a, rfl⟩

theorem congr (h : PanicsIff x p) (hpq : p ↔ q) : PanicsIff x q :=
  ⟨fun hq => h.panics (hpq.2 hq), fun hq => h.ends fun hp => hq (hpq.1 hp)⟩

end PanicsIff

theorem count_panics (n : ℕ) : PanicsIff (count n) (2 ^ 16 ≤ n) := by
  constructor
  · intro h
    exact if_neg (not_lt.2 h)
  · intro h
    exact ⟨n, if_pos (not_le.1 h)⟩

theorem formatExp_panics {upper : Bool} : PanicsIff (formatExp fl d n upper) (isFinite d = true ∧ 2 ^ 16 ≤ n) := by
  unfold formatExp
  dsimp only
  split
  · next hfinite => exact .ok _ fun h => hfinite h.1
  next hfinite =>
  split
  · next hzero => exact .ok _ fun h => by omega
  · exact ((count_panics n).andThen _).congr (by simp [not_not.1 hfinite])

theorem formatFixed_panics {alt upper : Bool} :
    PanicsIff (formatFixed fl d n alt upper) (isFinite d = true ∧ 2 ^ 16 ≤ n) := by
  unfold formatFixed
  split
  · next hfinite => exact .ok _ fun h => hfinite h.1
  · next hfinite => exact ((count_panics n).andThen _).congr (by simp [not_not.1 hfinite])

theorem formatG_panics {alt upper : Bool} (hn : n ≤ MAX_FIELD_WIDTH) :
    PanicsIff (formatG fl d n alt upper)
      (isFinite d = true ∧ isZero d = false ∧ -4 ≤ fl.exponent d ∧ 2 ^ 16 + 1 + fl.exponent d ≤ (n : ℤ)) := by
  have hmax : n ≤ 2 ^ 16 := hn
  unfold formatG
  dsimp only
  split
  · next hfinite => exact .ok _ fun h => hfinite h.1
  next hfinite =>
  split
  · next hzero =>
    have hnot : ¬(isFinite d = true ∧ isZero d = false ∧ -4 ≤ fl.exponent d ∧ 2 ^ 16 + 1 + fl.exponent d ≤ (n : ℤ)) := by
      rintro ⟨-, h, -⟩
      rw [hzero] at h
      cases h
    split
    · exact ((count_panics _).andThen _).congr (iff_of_false (by split <;> omega) hnot)
    · exact .ok _ hnot
  next hzero =>
  -- `p` is the precision, and 1 for 0
  generalize hp : (if n = 0 then 1 else n) = p
  have hp' : p = n ∨ n = 0 ∧ p = 1 := by
    split at hp
    · next h => exact .inr ⟨h, hp.symm⟩
    · exact .inl hp.symm
  have hval : isFinite d = true := not_not.1 hfinite
  have hnonzero : isZero d = false := by simpa using hzero
  split
  · refine (formatExp_panics.andThen _).congr (iff_of_false ?_ ?_)
    · rintro ⟨-, h⟩
      omega
    · rintro ⟨-, -, h, h'⟩
      omega
  · refine (formatFixed_panics.andThen _).congr ?_
    simp only [hval, hnonzero, true_and]
    omega

theorem hasKind_double {refused : FormatError} {c : Prop} [Decidable c]
    (hkind : (if c then .error refused else .ok .double) = (.ok kind : Except FormatError ArgKind)) (harg : arg.HasKind kind) :
    ∃ v, arg = .double v := by
  split at hkind
  · cases hkind
  · cases hkind
    cases arg with
    | double v => exact ⟨v, rfl⟩
    | int n | uint n | ptr n | str t => exact harg.elim

theorem hasKind_int (harg : arg.HasKind .int) : ∃ n, arg = .int n := by
  cases arg with
  | int n => exact ⟨n, rfl⟩
  | uint n | ptr n | double v | str t => exact harg.elim

/-- with an argument of its kind a conversion ends, but where it wants too many digits -/
theorem bodyOf_panics (hkind : kindOf conv spec.length = .ok kind) (harg : arg.HasKind kind)
    (hp : ∀ p, precision = some p → p ≤ MAX_FIELD_WIDTH) :
    PanicsIff (bodyOf fl conv spec.length flags precision arg) (∃ d, arg = .double d ∧ TooManyDigits fl conv precision d) := by
  have hasked : precision.getD 6 ≤ MAX_FIELD_WIDTH := by
    cases precision with
    | none => decide
    | some p => exact hp p rfl
  unfold kindOf at hkind
  split at hkind
  case h_1 | h_2 =>
    obtain ⟨v, rfl⟩ := hasKind_double hkind harg
    exact (formatExp_panics.andThen _).congr (by simp [TooManyDigits])
  case h_3 | h_4 =>
    obtain ⟨v, rfl⟩ := hasKind_double hkind harg
    refine (formatFixed_panics.andThen _).congr (iff_of_false ?_ (by simp [TooManyDigits]))
    rintro ⟨-, h⟩
    exact absurd (h.trans (min_le_right _ _)) (by decide)
  case h_5 | h_6 =>
    obtain ⟨v, rfl⟩ := hasKind_double hkind harg
    exact ((formatG_panics hasked).andThen _).congr (by simp [TooManyDigits])
  case h_7 | h_8 =>
    obtain ⟨v, rfl⟩ := hasKind_double hkind harg
    exact .ok _ (by simp [TooManyDigits])
  case h_9 =>
    split at hkind
    · cases hkind
    · cases hkind
      cases arg with
      | str t => exact .ok _ (by simp)
      | ptr n =>
        obtain rfl : n = 0 := harg
        exact .ok _ (by simp)
      | int n | uint n | double v => exact harg.elim
  case h_10 =>
    split at hkind
    · cases hkind
    · cases hkind
      obtain ⟨n, rfl⟩ := hasKind_int harg
      exact .ok _ (by simp)
  case h_11 | h_12 =>
    cases hkind
    obtain ⟨n, rfl⟩ := hasKind_int harg
    exact .ok _ (by simp)
  case h_13 | h_14 | h_15 | h_16 =>
    cases hkind
    cases arg with
    | uint n => exact .ok _ (by simp)
    | int n | ptr n | double v | str t => exact harg.elim
  case h_17 =>
    cases hkind
    cases arg with
    | ptr n => exact .ok _ (by simp)
    | int n | uint n | double v | str t => exact harg.elim
  case h_18 => cases hkind

theorem fetchWidth_planned {count : Count} (h : Supplied args (count.kinds ++ more)) :
    ∃ flags' width args', fetchWidth flags args count = .ok (flags', width, args') ∧ Supplied args' more := by
  cases count with
  | absent => exact ⟨_, _, _, rfl, h⟩
  | fixed n => exact ⟨_, _, _, rfl, h⟩
  | star =>
    obtain ⟨arg, args', harg, hrest, rfl⟩ := List.forall₂_cons_right_iff.1 h
    obtain ⟨n, rfl⟩ := hasKind_int harg
    by_cases hn : 0 ≤ signed 32 n
    · exact ⟨_, _, _, if_pos hn, hrest⟩
    · exact ⟨_, _, _, if_neg hn, hrest⟩

theorem fetchPrecision_planned {count : Count} (h : Supplied args (count.kinds ++ more)) :
    ∃ precision args', fetchPrecision args count = .ok (precision, args') ∧ Supplied args' more := by
  cases count with
  | absent => exact ⟨_, _, rfl, h⟩
  | fixed n => exact ⟨_, _, rfl, h⟩
  | star =>
    obtain ⟨arg, args', harg, hrest, rfl⟩ := List.forall₂_cons_right_iff.1 h
    obtain ⟨n, rfl⟩ := hasKind_int harg
    exact ⟨_, _, rfl, hrest⟩

/-- a count that was asked for is within the cap -/
def WithinCap (asked : Option ℕ) : Prop := ∀ n, asked = some n → n ≤ MAX_FIELD_WIDTH

theorem tooWide_within {isPrecision : Bool} {asked : Option ℕ} (h : WithinCap asked) :
    tooWide false conv isPrecision asked = .ok () := by
  cases asked with
  | none => rfl
  | some n => exact if_neg fun hn => absurd (h n rfl) (not_le.2 hn.1)

theorem tooWide_past {isPrecision : Bool} {asked : Option ℕ} (h : ¬WithinCap asked) :
    ∃ n, tooWide false conv isPrecision asked = .error (.fieldTooWide conv n MAX_FIELD_WIDTH) := by
  unfold WithinCap at h
  push Not at h
  obtain ⟨n, rfl, hn⟩ := h
  exact ⟨n, if_pos ⟨hn, rfl⟩⟩

/-- a conversion whose counts are within the cap wants too many digits of the value it takes -/
def TooPrecise (fl : F64) (spec : Spec) (args : List FormatArg) : Prop :=
  ∃ flags width args₁ precision d args₂,
    fetchWidth spec.flags args spec.width = .ok (flags, width, args₁) ∧
      fetchPrecision args₁ spec.precision = .ok (precision, .double d :: args₂) ∧ WithinCap width ∧ WithinCap precision ∧
        TooManyDigits fl spec.conv precision d

theorem tooPrecise_iff {args₁ args₂ : List FormatArg}
    (hw : fetchWidth spec.flags args spec.width = .ok (flags, width, args₁))
    (hp : fetchPrecision args₁ spec.precision = .ok (precision, args₂)) :
    TooPrecise fl spec args ↔
      WithinCap width ∧ WithinCap precision ∧ ∃ d args', args₂ = .double d :: args' ∧ TooManyDigits fl spec.conv precision d := by
  constructor
  · rintro ⟨_, _, _, _, d, args', hw', hp', hwidth, hprec, hmany⟩
    rw [hw] at hw'
    cases hw'
    rw [hp] at hp'
    cases hp'
    exact ⟨hwidth, hprec, d, args', rfl, hmany⟩
  · rintro ⟨hwidth, hprec, d, args', rfl, hmany⟩
    exact ⟨_, _, _, _, d, args', hw, hp, hwidth, hprec, hmany⟩

/-- how a conversion ends with its planned arguments -/
theorem convertText_planned (hkinds : spec.kinds = .ok kinds) (hargs : Supplied args (kinds ++ more)) :
    TooPrecise fl spec args ∧ convertText fl false spec args = .error .panic ∨
      ¬TooPrecise fl spec args ∧
        ((∃ args' t, convertText fl false spec args = .ok (args', t) ∧ Supplied args' more) ∨
          ∃ n, convertText fl false spec args = .error (.error (.fieldTooWide spec.conv n MAX_FIELD_WIDTH))) := by
  obtain ⟨taken, hsplit, hconv⟩ : ∃ taken, kinds = spec.width.kinds ++ (spec.precision.kinds ++ taken) ∧
      (spec.conv = '%' ∧ taken = [] ∨ spec.conv ≠ '%' ∧ ∃ kind, kindOf spec.conv spec.length = .ok kind ∧ taken = [kind]) := by
    unfold Spec.kinds at hkinds
    split at hkinds
    · next h =>
      cases hkinds
      exact ⟨[], by rw [List.append_nil], .inl ⟨h, rfl⟩⟩
    · next h =>
      obtain ⟨kind, hkind, heq⟩ := except_bind_ok.1 hkinds
      cases heq
      exact ⟨[kind], by rw [List.append_assoc], .inr ⟨h, kind, hkind, rfl⟩⟩
  subst hsplit
  rw [List.append_assoc, List.append_assoc] at hargs
  obtain ⟨flags, width, args₁, hw, hargs₁⟩ := fetchWidth_planned hargs
  obtain ⟨precision, args₂, hp, hargs₂⟩ := fetchPrecision_planned hargs₁
  rw [tooPrecise_iff hw hp]
  unfold convertText
  rw [hw, lift_bind]
  dsimp only
  rw [hp, lift_bind]
  dsimp only
  by_cases hwidth : WithinCap width
  · rw [tooWide_within hwidth, lift_bind]
    by_cases hprec : WithinCap precision
    · rw [tooWide_within hprec, lift_bind]
      dsimp only
      obtain ⟨hconv, rfl⟩ | ⟨hconv, kind, hkind, rfl⟩ := hconv
      · refine .inr ⟨?_, .inl ⟨args₂, ['%'], by rw [if_pos hconv]; rfl, hargs₂⟩⟩
        rintro ⟨-, -, d, args', -, hmany⟩
        simp [TooManyDigits, hconv] at hmany
      · obtain ⟨arg, args₃, harg, hargs₃, rfl⟩ := List.forall₂_cons_right_iff.1 hargs₂
        have hbody : PanicsIff (bodyOf fl spec.conv spec.length flags precision arg) _ := bodyOf_panics hkind harg hprec
        rw [if_neg hconv]
        by_cases hmany : ∃ d, arg = .double d ∧ TooManyDigits fl spec.conv precision d
        · obtain ⟨d, rfl, hd⟩ := hmany
          refine .inl ⟨⟨hwidth, hprec, d, args₃, rfl, hd⟩, ?_⟩
          show (bodyOf fl spec.conv spec.length flags precision (.double d) >>= _) = _
          rw [hbody.panics ⟨d, rfl, hd⟩]
          rfl
        · obtain ⟨body, hok⟩ := hbody.ends hmany
          refine .inr ⟨?_, .inl ⟨args₃, layout body width flags precision, ?_, hargs₃⟩⟩
          · rintro ⟨-, -, d, args', heq, hd⟩
            cases heq
            exact hmany ⟨d, rfl, hd⟩
          · show (bodyOf fl spec.conv spec.length flags precision arg >>= _) = _
            rw [hok]
            rfl
    · obtain ⟨n, hn⟩ := @tooWide_past spec.conv true _ hprec
      rw [hn, lift_bind]
      exact .inr ⟨fun h => hprec h.2.1, .inr ⟨n, rfl⟩⟩
  · obtain ⟨n, hn⟩ := @tooWide_past spec.conv false _ hwidth
    rw [hn, lift_bind]
    exact .inr ⟨fun h => hwidth h.1, .inr ⟨n, rfl⟩⟩

/-! ## Runs -/

/-- the conversion that comes next wants too many digits -/
def NextTooPrecise (fl : F64) (rest : List UInt8) (args : List FormatArg) : Prop :=
  ∃ b after spec rest', rest = b :: after ∧ char b = '%' ∧ parseSpec after = .ok (spec, rest') ∧ TooPrecise fl spec args

theorem turn_planned {b : UInt8} (hplan : planLoop (fuel + 1) (b :: rest) = .ok kinds) (hargs : Supplied args kinds) :
    NextTooPrecise fl (b :: rest) args ∧ turn fl false (b :: rest) args = .error .panic ∨
      ¬NextTooPrecise fl (b :: rest) args ∧
        ((∃ rest' args' t kinds', turn fl false (b :: rest) args = .ok (rest', args', t) ∧
            planLoop fuel rest' = .ok kinds' ∧ Supplied args' kinds') ∨
          ∃ conv n, turn fl false (b :: rest) args = .error (.error (.fieldTooWide conv n MAX_FIELD_WIDTH))) := by
  unfold planLoop at hplan
  unfold turn
  dsimp only
  split at hplan
  · next hb =>
    rw [if_pos hb]
    refine .inr ⟨?_, .inl ⟨rest, args, _, kinds, rfl, hplan, hargs⟩⟩
    rintro ⟨b', after, spec, rest', heq, hb', -⟩
    cases heq
    exact hb hb'
  next hb =>
  split at hplan
  · cases hplan
  next hrest =>
  rw [if_neg hb, if_neg hrest]
  obtain ⟨⟨spec, rest'⟩, hspec, hplan⟩ := except_bind_ok.1 hplan
  obtain ⟨taken, hkinds, hplan⟩ := except_bind_ok.1 hplan
  obtain ⟨later, hlater, heq⟩ := except_bind_ok.1 hplan
  cases heq
  have hnext : NextTooPrecise fl (b :: rest) args ↔ TooPrecise fl spec args := by
    constructor
    · rintro ⟨b', after, spec', rest'', heq, -, hspec', htoo⟩
      cases heq
      rw [hspec] at hspec'
      cases hspec'
      exact htoo
    · intro htoo
      exact ⟨b, rest, spec, rest', rfl, not_not.1 hb, hspec, htoo⟩
  rw [hnext, hspec, lift_bind]
  dsimp only
  obtain ⟨htoo, htext⟩ | ⟨htoo, ⟨args', t, htext, hargs'⟩ | ⟨n, htext⟩⟩ := convertText_planned hkinds hargs
  · rw [htext]
    exact .inl ⟨htoo, rfl⟩
  · rw [htext]
    exact .inr ⟨htoo, .inl ⟨rest', args', t, later, rfl, hlater, hargs'⟩⟩
  · rw [htext]
    exact .inr ⟨htoo, .inr ⟨_, n, rfl⟩⟩

/-- a turn takes a byte or more -/
theorem turn_lt {b : UInt8} {bounded : Bool} {r : List UInt8 × List FormatArg × Text}
    (h : turn fl bounded (b :: rest) args = .ok r) : r.1.length ≤ rest.length := by
  unfold turn at h
  dsimp only at h
  split at h
  · cases h
    exact le_refl _
  split at h
  · cases h
  obtain ⟨⟨spec, rest'⟩, hspec, h⟩ := except_bind_ok.1 h
  obtain ⟨⟨args', t⟩, -, heq⟩ := except_bind_ok.1 h
  cases heq
  exact (parseSpec_spec (lift_ok.1 hspec)).1.le

/-- the walk comes from one state to another -/
def Comes (fl : F64) : St → St → Prop := Relation.ReflTransGen fun s s' => iter fl s = .ok s'

theorem comes_of_error {e : Stop} (h : iter fl s = .error e) : Comes fl s s' ↔ s' = s := by
  unfold Comes
  rw [Relation.ReflTransGen.cases_head_iff]
  constructor
  · rintro (rfl | ⟨s₁, hs₁, -⟩)
    · rfl
    · rw [h] at hs₁
      cases hs₁
  · rintro rfl
    exact .inl rfl

theorem comes_of_ok {s₁ : St} (h : iter fl s = .ok s₁) : Comes fl s s' ↔ s' = s ∨ Comes fl s₁ s' := by
  unfold Comes
  rw [Relation.ReflTransGen.cases_head_iff]
  constructor
  · rintro (rfl | ⟨s₂, hs₂, hrest⟩)
    · exact .inl rfl
    · rw [h] at hs₂
      cases hs₂
      exact .inr hrest
  · rintro (rfl | hrest)
    · exact .inl rfl
    · exact .inr ⟨s₁, h, hrest⟩

theorem comes_of_end (hs : s.rest = []) (h : Comes fl s s') : s' = s := by
  induction h with
  | refl => rfl
  | tail _ hstep ih =>
    subst ih
    unfold iter at hstep
    split at hstep
    · cases hstep
    · rw [hs] at hstep
      cases hstep
      rfl

/-- the walk goes on from here, and its next conversion wants too many digits -/
def Wants (fl : F64) (s : St) : Prop := utf8Len s.sink.out ≤ MAX_OUTPUT ∧ NextTooPrecise fl s.rest s.args

/-- everything was taken, or a count was refused, or the output was stopped -/
def Ended : Except Stop St → Prop
  | .ok s => s.rest = [] ∧ s.args = []
  | .error (.error (.fieldTooWide _ _ _)) | .error (.error (.outputTooLarge _)) => True
  | _ => False

theorem not_wants_of_end (hs : s.rest = []) : ¬Wants fl s := by
  rintro ⟨-, b, after, _, _, hcons, -⟩
  rw [hs] at hcons
  cases hcons

theorem loop_planned_end (hplan : planLoop fuel [] = .ok kinds) (hargs : Supplied args kinds) :
    Ended (loop fl fuel ⟨[], args, sinkAt usizeMax u⟩) ↔
      ∀ s', Comes fl ⟨[], args, sinkAt usizeMax u⟩ s' → ¬Wants fl s' := by
  have hnone : args = [] := by
    cases fuel <;> cases hplan <;> cases hargs <;> rfl
  have hend : loop fl fuel ⟨[], args, sinkAt usizeMax u⟩ = .ok ⟨[], args, sinkAt usizeMax u⟩ := by
    cases fuel <;> rfl
  rw [hend]
  refine iff_of_true ⟨rfl, hnone⟩ fun s' hs' => ?_
  rw [comes_of_end rfl hs']
  exact not_wants_of_end rfl

/-- with its planned arguments a run ends, but where it comes to a conversion that wants too many digits -/
theorem loop_planned (hfuel : rest.length ≤ fuel) (hplan : planLoop fuel rest = .ok kinds) (hargs : Supplied args kinds) :
    Ended (loop fl fuel ⟨rest, args, sinkAt usizeMax u⟩) ↔
      ∀ s', Comes fl ⟨rest, args, sinkAt usizeMax u⟩ s' → ¬Wants fl s' := by
  induction fuel generalizing rest args kinds u with
  | zero =>
    obtain rfl := List.eq_nil_of_length_eq_zero (Nat.le_zero.1 hfuel)
    exact loop_planned_end hplan hargs
  | succ fuel ih =>
    cases rest with
    | nil => exact loop_planned_end hplan hargs
    | cons b rest =>
      have hturn := @iter_eq fl (b :: rest) args u usizeMax
      have hloop : loop fl (fuel + 1) ⟨b :: rest, args, sinkAt usizeMax u⟩ =
          iter fl ⟨b :: rest, args, sinkAt usizeMax u⟩ >>= loop fl fuel := if_neg (List.cons_ne_nil b rest)
      rw [hloop]
      by_cases hsize : MAX_OUTPUT < utf8Len (u.take usizeMax)
      · rw [if_pos hsize] at hturn
        rw [hturn]
        refine iff_of_true trivial fun s' hs' => ?_
        rw [(comes_of_error hturn).1 hs']
        exact fun h => absurd h.1 (not_le.2 hsize)
      rw [if_neg hsize] at hturn
      have hsame : decide (usizeMax ≠ usizeMax) = false := by decide
      rw [hsame] at hturn
      have hwants : Wants fl ⟨b :: rest, args, sinkAt usizeMax u⟩ ↔ NextTooPrecise fl (b :: rest) args :=
        and_iff_right (not_lt.1 hsize)
      obtain ⟨htoo, ht⟩ | ⟨htoo, ⟨rest', args', t, kinds', ht, hplan', hargs'⟩ | ⟨conv, n, ht⟩⟩ := turn_planned hplan hargs
      · rw [ht] at hturn
        rw [hturn]
        exact iff_of_false (fun h => h) fun h => h _ .refl (hwants.2 htoo)
      · have hlen := turn_lt ht
        rw [ht] at hturn
        rw [hturn]
        refine (ih ((hlen.trans (Nat.le_of_succ_le_succ hfuel))) hplan' hargs').trans ?_
        simp only [comes_of_ok hturn]
        constructor
        · rintro h s' (rfl | hs')
          · exact fun hw => htoo (hwants.1 hw)
          · exact h s' hs'
        · exact fun h s' hs' => h s' (.inr hs')
      · rw [ht] at hturn
        rw [hturn]
        refine iff_of_true trivial fun s' hs' => ?_
        rw [(comes_of_error hturn).1 hs']
        exact fun hw => htoo (hwants.1 hw)

/-! ## The whole call -/

/-- under a budget the call is the one without, cut at the budget -/
def BoundedIsPrefix (fl : F64) (fmt : List UInt8) (args : List FormatArg) : Prop :=
  ∀ out n out', format fl fmt args out = .ok (n, out') →
    ∃ t, out' = out ++ t ∧ ∀ budget : UInt64,
      formatBounded fl fmt args out budget.toNat =
        .ok (⟨min budget.toNat t.length, t.length⟩, out ++ t.take budget.toNat)

/-- arguments as planned are all taken, or a count is refused, or the output is stopped -/
def PlannedEnds (fl : F64) (fmt : List UInt8) (args : List FormatArg) : Prop :=
  ∀ kinds, plan fmt = .ok kinds → Supplied args kinds → Ended (loop fl fmt.length ⟨fmt, args, { budget := usizeMax }⟩)

theorem sinkAt_nil (budget : ℕ) : sinkAt budget [] = { budget } := by
  unfold sinkAt
  simp

theorem boundedIsPrefix (fl : F64) (fmt : List UInt8) (args : List FormatArg) : BoundedIsPrefix fl fmt args := by
  intro out n out' h
  obtain ⟨⟨produced, out''⟩, hbounded, heq⟩ := except_bind_ok.1 h
  cases heq
  obtain ⟨s, hloop, heq⟩ := except_bind_ok.1 hbounded
  cases heq
  rw [← sinkAt_nil] at hloop
  obtain ⟨t, hsink, hall⟩ := loop_bounded hloop
  refine ⟨t.take usizeMax, by rw [hsink]; rfl, fun budget => ?_⟩
  have hbudget : budget.toNat ≤ usizeMax := by
    have := budget.toNat_lt
    unfold usizeMax
    omega
  unfold formatBounded
  rw [← sinkAt_nil, hall _ hbudget]
  show Except.ok _ = Except.ok _
  unfold sinkAt
  simp only [List.nil_append, List.length_take, List.take_take, min_eq_left hbudget]
  congr 3
  · omega
  · omega

/-- a budget cuts the output and changes nothing else; and arguments as planned are taken to the end exactly where the walk comes
to no conversion that wants more digits than the language formats -/
theorem bounded_and_planned (fl : F64) (fmt : List UInt8) (args : List FormatArg) :
    BoundedIsPrefix fl fmt args ∧ PlannedEnds fl fmt args ↔
      ∀ kinds, plan fmt = .ok kinds → Supplied args kinds →
        ∀ s, Comes fl ⟨fmt, args, { budget := usizeMax }⟩ s → ¬Wants fl s := by
  rw [and_iff_right (boundedIsPrefix fl fmt args), ← sinkAt_nil]
  unfold PlannedEnds
  rw [← sinkAt_nil]
  refine forall₃_congr fun kinds hplan hargs => ?_
  exact loop_planned (le_refl _) hplan hargs

/-- the numbers that the code finds for 1.0 -/
def one : F64 where
  fixedParts _ _ := (1, 0)
  expParts _ _ := (1, 0, 0)
  exponent _ := 0
  ofInt _ := 0x3FF0000000000000

/-- `%.65536e` -/
def precise65536 : List UInt8 := [37, 46, 54, 53, 53, 51, 54, 101]

/-- it is planned, it is within the cap, and it panics -/
theorem exponent_panics :
    ¬(BoundedIsPrefix one precise65536 [.double 0x3FF0000000000000] ∧
      PlannedEnds one precise65536 [.double 0x3FF0000000000000]) := by
  rintro ⟨-, h⟩
  have hplan : plan precise65536 = .ok [.double] := by decide
  have hloop : loop one precise65536.length ⟨precise65536, [.double 0x3FF0000000000000], { budget := usizeMax }⟩ =
      .error .panic := rfl
  have hended := h [.double] hplan (.cons trivial .nil)
  rw [hloop] at hended
  exact hended

end Omnidroid.Bionic.Printf
