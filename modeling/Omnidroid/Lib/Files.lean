/-
Files under names, as the calls of several programs see them: a name is one of a file, of a directory, or free. A file goes on
existing for who has it open when its name is given to another.

- `create`, `append`, `rename`, `remove`: `open(O_CREAT | O_TRUNC)`, `write`, `rename` and `unlink`.
- `Sound`: no file has two names, and a new one is new. Each call keeps it.
- What a call does not concern is as it was: `append_other`, `create_spec`, `rename_spec`, `remove_spec`.
-/
import Omnidroid.Lib.Bytes

namespace Omnidroid

/-- a file: one that was there, by its first name, or one made since -/
inductive Ino (P : Type*) where
  | old (name : P)
  | new (n : ℕ)
deriving DecidableEq

inductive Node (P : Type*) where
  | absent
  | file (i : Ino P)
  | dir
deriving DecidableEq

structure Files (P : Type*) where
  names : P → Node P
  data : Ino P → Bytes
  next : ℕ := 0

namespace Files

variable {P : Type*} [DecidableEq P] {fs fs' : Files P} {p q : P} {i j : Ino P} {bs : Bytes}

/-- what was there: files, each of its own, and directories -/
def start (held : P → Option Bytes) (dirs : P → Bool) : Files P where
  names p := if dirs p then .dir else if (held p).isSome then .file (.old p) else .absent
  data
    | .old p => (held p).getD []
    | .new _ => []

def append (fs : Files P) (i : Ino P) (bs : Bytes) : Files P := { fs with data := Function.update fs.data i (fs.data i ++ bs) }

/-- an empty file of that name: the one there is, emptied, or a new one -/
def create (fs : Files P) (p : P) : Option (Files P × Ino P) :=
  match fs.names p with
  | .absent =>
    let i := .new fs.next
    some (⟨Function.update fs.names p (.file i), Function.update fs.data i [], fs.next + 1⟩, i)
  | .file i => some ({ fs with data := Function.update fs.data i [] }, i)
  | .dir => none

/-- a file takes another name, and who had that name loses it; not a directory's -/
def rename (fs : Files P) (p q : P) : Option (Files P) :=
  match fs.names p, fs.names q with
  | .file _, .dir => none
  | .file i, _ => some { fs with names := Function.update (Function.update fs.names p .absent) q (.file i) }
  | _, _ => none

def remove (fs : Files P) (p : P) : Files P :=
  match fs.names p with
  | .file _ => { fs with names := Function.update fs.names p .absent }
  | _ => fs

structure Sound (fs : Files P) : Prop where
  apart : ∀ {p q i}, fs.names p = .file i → fs.names q = .file i → p = q
  known : ∀ {p n}, fs.names p = .file (.new n) → n < fs.next

omit [DecidableEq P] in
theorem sound_start (held : P → Option Bytes) (dirs : P → Bool) : (start held dirs).Sound := by
  have hname : ∀ {p i}, (start held dirs).names p = .file i → i = .old p := by
    intro p i h
    simp only [start] at h
    split at h
    · cases h
    · split at h
      · cases h
        rfl
      · cases h
  constructor
  · intro p q i hp hq
    cases (hname hp).symm.trans (hname hq)
    rfl
  · intro p n hp
    cases hname hp

theorem append_same : (fs.append i bs).data i = fs.data i ++ bs := Function.update_self ..

theorem append_other (h : j ≠ i) : (fs.append i bs).data j = fs.data j := Function.update_of_ne h ..

theorem Sound.append (h : fs.Sound) (i : Ino P) (bs : Bytes) : (fs.append i bs).Sound := ⟨h.apart, h.known⟩

/-- the file is empty, and has the name; no other name and no other file is concerned -/
theorem create_spec (h : fs.Sound) (hc : fs.create p = some (fs', i)) : fs'.Sound ∧ fs'.names p = .file i ∧ fs'.data i = [] ∧
    (∀ q, q ≠ p → fs'.names q = fs.names q ∧ fs.names q ≠ .file i) ∧ (∀ j, j ≠ i → fs'.data j = fs.data j) ∧ fs.next ≤ fs'.next ∧
    (fs.names p = .file i ∨ i = .new fs.next ∧ fs'.next = fs.next + 1) := by
  unfold create at hc
  cases hp : fs.names p with
  | absent =>
    rw [hp] at hc
    cases hc
    have hold : ∀ q, q ≠ p → Function.update fs.names p (.file (.new fs.next)) q = fs.names q ∧ fs.names q ≠ .file (.new fs.next) := by
      intro q hq
      refine ⟨Function.update_of_ne hq .., ?_⟩
      intro hn
      have := h.known hn
      omega
    have hself : Function.update fs.names p (.file (.new fs.next)) p = .file (.new fs.next) := Function.update_self ..
    refine ⟨⟨?_, ?_⟩, hself, Function.update_self .., hold, fun j hj => Function.update_of_ne hj .., Nat.le_succ _, .inr ⟨rfl, rfl⟩⟩
    · intro q r i hq hr
      rcases eq_or_ne q p with rfl | hqp
      · rcases eq_or_ne r q with rfl | hrq
        · rfl
        · cases hself.symm.trans hq
          exact absurd ((hold r hrq).1.symm.trans hr) (hold r hrq).2
      · rcases eq_or_ne r p with rfl | hrp
        · cases hself.symm.trans hr
          exact absurd ((hold q hqp).1.symm.trans hq) (hold q hqp).2
        · exact h.apart ((hold q hqp).1.symm.trans hq) ((hold r hrp).1.symm.trans hr)
    · intro q n hq
      rcases eq_or_ne q p with rfl | hqp
      · cases hself.symm.trans hq
        exact Nat.lt_succ_self _
      · exact Nat.lt_succ_of_lt (h.known ((hold q hqp).1.symm.trans hq))
  | file k =>
    rw [hp] at hc
    cases hc
    refine ⟨⟨h.apart, h.known⟩, hp, Function.update_self .., ?_, fun j hj => Function.update_of_ne hj .., le_rfl, .inl rfl⟩
    intro q hq
    exact ⟨rfl, fun hn => hq (h.apart hn hp)⟩
  | dir =>
    rw [hp] at hc
    cases hc

/-- the file has its new name only, and no file is written -/
theorem rename_spec (h : fs.Sound) (hpq : p ≠ q) (hr : fs.rename p q = some fs') : ∃ i, fs.names p = .file i ∧ fs'.Sound ∧
    fs'.names q = .file i ∧ fs'.names p = .absent ∧ (∀ r, r ≠ p → r ≠ q → fs'.names r = fs.names r) ∧ fs'.data = fs.data ∧
    fs'.next = fs.next := by
  unfold rename at hr
  cases hp : fs.names p with
  | absent =>
    simp only [hp] at hr
    cases hr
  | dir =>
    simp only [hp] at hr
    cases hr
  | file i =>
    have hresult : fs' = { fs with names := Function.update (Function.update fs.names p .absent) q (.file i) } := by
      cases hq : fs.names q with
      | absent => simpa [hp, hq] using hr.symm
      | file j => simpa [hp, hq] using hr.symm
      | dir => simp [hp, hq] at hr
    subst hresult
    have hother : ∀ r, r ≠ p → r ≠ q → Function.update (Function.update fs.names p .absent) q (.file i) r = fs.names r := by
      intro r hrp hrq
      rw [Function.update_of_ne hrq, Function.update_of_ne hrp]
    have hnew : Function.update (Function.update fs.names p .absent) q (.file i) q = .file i := Function.update_self ..
    have hgone : Function.update (Function.update fs.names p .absent) q (.file i) p = .absent := by
      rw [Function.update_of_ne hpq, Function.update_self]
    have hback : ∀ {r j}, Function.update (Function.update fs.names p .absent) q (.file i) r = .file j →
        r = q ∧ j = i ∨ r ≠ q ∧ fs.names r = .file j ∧ j ≠ i := by
      intro r j hr
      rcases eq_or_ne r q with rfl | hrq
      · cases hnew.symm.trans hr
        exact .inl ⟨rfl, rfl⟩
      · have hrp : r ≠ p := by
          rintro rfl
          cases hgone.symm.trans hr
        have hold := (hother r hrp hrq).symm.trans hr
        refine .inr ⟨hrq, hold, ?_⟩
        rintro rfl
        exact hrp (h.apart hold hp)
    refine ⟨i, rfl, ⟨?_, ?_⟩, hnew, hgone, hother, rfl, rfl⟩
    · intro r s j hr hs
      rcases hback hr with ⟨rfl, rfl⟩ | ⟨-, hr', hji⟩
      · rcases hback hs with ⟨rfl, -⟩ | ⟨-, -, hji⟩
        · rfl
        · exact absurd rfl hji
      · rcases hback hs with ⟨rfl, rfl⟩ | ⟨-, hs', -⟩
        · exact absurd rfl hji
        · exact h.apart hr' hs'
    · intro r n hr
      rcases hback hr with ⟨-, hn⟩ | ⟨-, hr', -⟩
      · exact h.known (hp.trans (congrArg Node.file hn.symm))
      · exact h.known hr'

theorem remove_spec (h : fs.Sound) (p : P) : (fs.remove p).Sound ∧ (∀ q, q ≠ p → (fs.remove p).names q = fs.names q) ∧
    (∀ q i, (fs.remove p).names q = .file i → fs.names q = .file i) ∧ (fs.remove p).data = fs.data ∧ (fs.remove p).next = fs.next := by
  unfold remove
  cases hp : fs.names p with
  | absent => exact ⟨h, fun _ _ => rfl, fun _ _ hq => hq, rfl, rfl⟩
  | dir => exact ⟨h, fun _ _ => rfl, fun _ _ hq => hq, rfl, rfl⟩
  | file i =>
    have hback : ∀ q j, Function.update fs.names p .absent q = .file j → fs.names q = .file j := by
      intro q j hq
      rcases eq_or_ne q p with rfl | hqp
      · rw [Function.update_self] at hq
        cases hq
      · rwa [Function.update_of_ne hqp] at hq
    exact ⟨⟨fun hq hr => h.apart (hback _ _ hq) (hback _ _ hr), fun hq => h.known (hback _ _ hq)⟩,
      fun q hq => Function.update_of_ne hq .., hback, rfl, rfl⟩

end Files

end Omnidroid
