/-
The AAPCS64 argument rules for arguments of one register each: the register or the stack slot that each of a call's arguments is
in, and the `va_list` of a callee.
- `Cursor`: NGRN, NSRN and NSAA. `place`, `next`: a rule for each kind of argument.
- `Laid`: every argument is at its place.
- `vaStart`, `vaArg`: the list that a prologue makes, and what one `va_arg` makes of it.
- `vaArgs_vaStart`: a list that arguments were taken from is that of a prologue whose named arguments they were.
-/
import Mathlib.Tactic

namespace Omnidroid.Aapcs64

/-- what an argument of one register is, and how many of its bytes are the argument's own -/
inductive Kind where
  | long
  | int
  | double
  | float
deriving DecidableEq, Repr

namespace Kind

/-- in the SIMD registers -/
def simd : Kind → Bool
  | long => false
  | int => false
  | double => true
  | float => true

def size : Kind → ℕ
  | long => 8
  | int => 4
  | double => 8
  | float => 4

end Kind

/-- an argument, a floating one by its bits -/
inductive Arg where
  | long (value : UInt64)
  | int (value : Int32)
  | double (bits : UInt64)
  | float (bits : UInt32)
deriving DecidableEq, Repr

namespace Arg

def kind : Arg → Kind
  | long _ => .long
  | int _ => .int
  | double _ => .double
  | float _ => .float

/-- the word has the argument in its low bytes, and anything in the others -/
def Low (word : UInt64) : Arg → Prop
  | long value => word = value
  | int value => word.toUInt32.toInt32 = value
  | double bits => word = bits
  | float bits => word.toUInt32 = bits

end Arg

/-- the argument of a kind that a word has -/
def Kind.arg (word : UInt64) : Kind → Arg
  | long => .long word
  | int => .int word.toUInt32.toInt32
  | double => .double word
  | float => .float word.toUInt32

theorem Arg.Low.eq {a : Arg} {word : UInt64} (h : a.Low word) : a = a.kind.arg word := by
  cases a with
  | long value => exact congrArg Arg.long h.symm
  | int value => exact congrArg Arg.int h.symm
  | double bits => exact congrArg Arg.double h.symm
  | float bits => exact congrArg Arg.float h.symm

/-- the registers `X0` to `X7`, the low halves of `V0` to `V7` and the words of memory -/
inductive Place where
  | x (n : ℕ)
  | v (n : ℕ)
  | stack (address : ℕ)
deriving DecidableEq, Repr

/-- NGRN, NSRN and NSAA -/
@[ext] structure Cursor where
  ngrn : ℕ
  nsrn : ℕ
  nsaa : ℕ
deriving DecidableEq, Repr

def roundUp (a : ℕ) : ℕ := (a + 7) / 8 * 8

theorem roundUp_mod (a : ℕ) : roundUp a % 8 = 0 := Nat.mul_mod_left _ _

theorem le_roundUp (a : ℕ) : a ≤ roundUp a ∧ roundUp a < a + 8 := by
  unfold roundUp
  omega

namespace Cursor

def start (sp : ℕ) : Cursor := ⟨0, 0, sp⟩

/-- a bank that is spent stays so -/
def place (c : Cursor) (k : Kind) : Place :=
  if k.simd then if c.nsrn < 8 then .v c.nsrn else .stack (roundUp c.nsaa)
  else if c.ngrn < 8 then .x c.ngrn else .stack (roundUp c.nsaa)

def next (c : Cursor) (k : Kind) : Cursor :=
  if k.simd then if c.nsrn < 8 then { c with nsrn := c.nsrn + 1 } else { c with nsaa := roundUp c.nsaa + 8 }
  else if c.ngrn < 8 then { c with ngrn := c.ngrn + 1 } else { c with nsaa := roundUp c.nsaa + 8 }

def after (c : Cursor) (kinds : List Kind) : Cursor := kinds.foldl next c

/-- the next argument is in a register of its bank, or in the next slot when that is spent -/
theorem takes (c : Cursor) (k : Kind) :
    (k.simd = true ∧ c.nsrn < 8 ∧ c.place k = .v c.nsrn ∧ c.next k = { c with nsrn := c.nsrn + 1 }) ∨
    (k.simd = false ∧ c.ngrn < 8 ∧ c.place k = .x c.ngrn ∧ c.next k = { c with ngrn := c.ngrn + 1 }) ∨
    ((if k.simd then 8 ≤ c.nsrn else 8 ≤ c.ngrn) ∧ c.place k = .stack (roundUp c.nsaa) ∧
      c.next k = { c with nsaa := roundUp c.nsaa + 8 }) := by
  unfold place next
  cases k.simd with
  | true =>
    by_cases h : c.nsrn < 8
    · exact .inl ⟨rfl, h, if_pos h, if_pos h⟩
    · exact .inr (.inr ⟨not_lt.mp h, if_neg h, if_neg h⟩)
  | false =>
    by_cases h : c.ngrn < 8
    · exact .inr (.inl ⟨rfl, h, if_pos h, if_pos h⟩)
    · exact .inr (.inr ⟨not_lt.mp h, if_neg h, if_neg h⟩)

structure Sound (c : Cursor) : Prop where
  ngrn : c.ngrn ≤ 8
  nsrn : c.nsrn ≤ 8
  nsaa : c.nsaa % 8 = 0

variable {c : Cursor}

theorem start_sound {sp : ℕ} (h : sp % 16 = 0) : (start sp).Sound := ⟨Nat.zero_le _, Nat.zero_le _, by simp only [start]; omega⟩

theorem Sound.next (h : c.Sound) (k : Kind) : (c.next k).Sound := by
  obtain ⟨hngrn, hnsrn, hnsaa⟩ := h
  have hround := roundUp_mod c.nsaa
  rcases c.takes k with ⟨-, hlt, -, hnext⟩ | ⟨-, hlt, -, hnext⟩ | ⟨-, -, hnext⟩
  · rw [hnext]
    exact ⟨hngrn, hlt, hnsaa⟩
  · rw [hnext]
    exact ⟨hlt, hnsrn, hnsaa⟩
  · rw [hnext]
    exact ⟨hngrn, hnsrn, by simp only; omega⟩

theorem Sound.after (h : c.Sound) (kinds : List Kind) : (c.after kinds).Sound := by
  induction kinds generalizing c with
  | nil => exact h
  | cons k kinds ih => exact ih (h.next k)

theorem after_cons (c : Cursor) (k : Kind) (kinds : List Kind) : c.after (k :: kinds) = (c.next k).after kinds := rfl

/-- the cursors go up only -/
theorem next_le (c : Cursor) (k : Kind) : c.ngrn ≤ (c.next k).ngrn ∧ c.nsrn ≤ (c.next k).nsrn ∧ c.nsaa ≤ (c.next k).nsaa := by
  have hround := le_roundUp c.nsaa
  rcases c.takes k with ⟨-, -, -, hnext⟩ | ⟨-, -, -, hnext⟩ | ⟨-, -, hnext⟩
  · rw [hnext]
    exact ⟨le_rfl, Nat.le_succ _, le_rfl⟩
  · rw [hnext]
    exact ⟨Nat.le_succ _, le_rfl, le_rfl⟩
  · rw [hnext]
    exact ⟨le_rfl, le_rfl, by simp only; omega⟩

theorem le_after (c : Cursor) (kinds : List Kind) :
    c.ngrn ≤ (c.after kinds).ngrn ∧ c.nsrn ≤ (c.after kinds).nsrn ∧ c.nsaa ≤ (c.after kinds).nsaa := by
  induction kinds generalizing c with
  | nil => exact ⟨le_rfl, le_rfl, le_rfl⟩
  | cons k kinds ih =>
    obtain ⟨h, h', h''⟩ := next_le c k
    obtain ⟨i, i', i''⟩ := ih (c.next k)
    exact ⟨h.trans i, h'.trans i', h''.trans i''⟩

end Cursor

/-- what the places hold -/
abbrev Contents := Place → Option UInt64

/-- every argument is at its place, from the cursor on -/
def Laid (contents : Contents) : Cursor → List Arg → Prop
  | _, [] => True
  | c, a :: as => (∃ word, contents (c.place a.kind) = some word ∧ a.Low word) ∧ Laid contents (c.next a.kind) as

theorem laid_append {contents : Contents} {c : Cursor} {as bs : List Arg} :
    Laid contents c (as ++ bs) ↔ Laid contents c as ∧ Laid contents (c.after (as.map Arg.kind)) bs := by
  induction as generalizing c with
  | nil => exact (true_and _).to_iff.symm
  | cons a as ih =>
    rw [List.cons_append, Laid, Laid, ih, and_assoc]
    rfl

/-- registers and slots that hold the same where the arguments are -/
theorem Laid.congr {contents contents' : Contents} {c : Cursor} {as : List Arg} (h : Laid contents c as)
    (hx : ∀ n, contents' (.x n) = contents (.x n)) (hv : ∀ n, contents' (.v n) = contents (.v n))
    (hstack : ∀ a, c.nsaa ≤ a → a + 8 ≤ (c.after (as.map Arg.kind)).nsaa → contents' (.stack a) = contents (.stack a)) :
    Laid contents' c as := by
  induction as generalizing c with
  | nil => trivial
  | cons a as ih =>
    obtain ⟨⟨word, hword, hlow⟩, hrest⟩ := h
    rw [List.map_cons, Cursor.after_cons] at hstack
    have hnext := (Cursor.next_le c a.kind).2.2
    have hafter := (Cursor.le_after (c.next a.kind) (as.map Arg.kind)).2.2
    refine ⟨⟨word, ?_, hlow⟩, ih hrest fun b hb hle => hstack b (hnext.trans hb) hle⟩
    rw [← hword]
    rcases c.takes a.kind with ⟨-, -, hplace, -⟩ | ⟨-, -, hplace, -⟩ | ⟨-, hplace, hnext'⟩
    · rw [hplace, hv]
    · rw [hplace, hx]
    · rw [hplace]
      rw [hnext'] at hafter hstack
      exact hstack _ (le_roundUp c.nsaa).1 hafter

/-! ## The list of a variadic callee -/

@[ext] structure VaList where
  stack : ℕ
  grTop : ℕ
  vrTop : ℕ
  grOffs : ℤ
  vrOffs : ℤ
deriving DecidableEq, Repr

/-- what a prologue makes where the named arguments stopped, with its save areas below the two tops -/
def vaStart (c : Cursor) (grTop vrTop : ℕ) : VaList := ⟨c.nsaa, grTop, vrTop, 0 - (8 - c.ngrn) * 8, 0 - (8 - c.nsrn) * 16⟩

namespace VaList

def onStack (l : VaList) (k : Kind) : VaList := { l with stack := (l.stack + k.size + 7) / 8 * 8 }

/-- the list after a `va_arg` -/
def vaArg (l : VaList) (k : Kind) : VaList :=
  if k.simd then
    if 0 ≤ l.vrOffs then l.onStack k
    else if 0 < l.vrOffs + 16 then { l with vrOffs := l.vrOffs + 16 }.onStack k
    else { l with vrOffs := l.vrOffs + 16 }
  else if 0 ≤ l.grOffs then l.onStack k
  else if 0 < l.grOffs + 8 then { l with grOffs := l.grOffs + 8 }.onStack k
  else { l with grOffs := l.grOffs + 8 }

end VaList

variable {c : Cursor} {grTop vrTop : ℕ}

theorem onStack_vaStart (h : c.Sound) (k : Kind) :
    (vaStart c grTop vrTop).onStack k = vaStart { c with nsaa := roundUp c.nsaa + 8 } grTop vrTop := by
  have hnsaa := h.nsaa
  have hsize : (c.nsaa + k.size + 7) / 8 * 8 = roundUp c.nsaa + 8 := by
    unfold roundUp
    cases k <;> simp only [Kind.size] <;> omega
  rw [VaList.onStack, vaStart, vaStart, hsize]

theorem vaArg_vaStart (h : c.Sound) (k : Kind) : (vaStart c grTop vrTop).vaArg k = vaStart (c.next k) grTop vrTop := by
  have hngrn := h.ngrn
  have hnsrn := h.nsrn
  have hspent := @onStack_vaStart c grTop vrTop h k
  rw [VaList.vaArg]
  rcases c.takes k with ⟨hsimd, hlt, -, hnext⟩ | ⟨hsimd, hlt, -, hnext⟩ | ⟨hbank, -, hnext⟩
  · rw [hnext, if_pos hsimd, if_neg (by simp only [vaStart]; omega), if_neg (by simp only [vaStart]; omega)]
    ext
    all_goals simp only [vaStart]
    all_goals omega
  · rw [hnext, hsimd, if_neg Bool.false_ne_true, if_neg (by simp only [vaStart]; omega), if_neg (by simp only [vaStart]; omega)]
    ext
    all_goals simp only [vaStart]
    all_goals omega
  · rw [hnext]
    split
    case isTrue hsimd =>
      rw [if_pos hsimd] at hbank
      rw [if_pos (by simp only [vaStart]; omega), hspent]
    case isFalse hsimd =>
      rw [if_neg hsimd] at hbank
      rw [if_pos (by simp only [vaStart]; omega), hspent]

/-- where the callee stopped is where a prologue would have begun -/
theorem vaArgs_vaStart (h : c.Sound) (kinds : List Kind) :
    kinds.foldl VaList.vaArg (vaStart c grTop vrTop) = vaStart (c.after kinds) grTop vrTop := by
  induction kinds generalizing c with
  | nil => rfl
  | cons k kinds ih => rw [List.foldl_cons, vaArg_vaStart h k, ih (h.next k), Cursor.after_cons]

/-- the save areas of a prologue: the registers that the named arguments left, below the tops, a slot of 8 and of 16 bytes each -/
structure Saved (contents : Contents) (word : ℕ → Option UInt64) (c : Cursor) (grTop vrTop : ℕ) : Prop where
  gr : ∀ n, c.ngrn ≤ n → n < 8 → 8 * (8 - n) ≤ grTop ∧ word (grTop - 8 * (8 - n)) = contents (.x n)
  vr : ∀ n, c.nsrn ≤ n → n < 8 → 16 * (8 - n) ≤ vrTop ∧ word (vrTop - 16 * (8 - n)) = contents (.v n)

theorem Saved.after {contents : Contents} {word : ℕ → Option UInt64} (h : Saved contents word c grTop vrTop) (kinds : List Kind) :
    Saved contents word (c.after kinds) grTop vrTop := by
  obtain ⟨hngrn, hnsrn, -⟩ := Cursor.le_after c kinds
  exact ⟨fun n hn => h.gr n (hngrn.trans hn), fun n hn => h.vr n (hnsrn.trans hn)⟩

end Omnidroid.Aapcs64
