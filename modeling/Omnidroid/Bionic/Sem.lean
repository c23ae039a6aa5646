/-
A semaphore (`omni-bionic/src/sem.rs`): one word, its low 31 bits a count and its top bit a mark that someone may be waiting,
and a futex on it.

Any number of threads are each somewhere in `wait`, `timedwait`, `trywait` or `post` (`Pc`); `getvalue` is one load. One step
is one read of the word, one compare-and-swap, one look at the clock and the stop switch, one futex call.
- `World.move`: the next step of a thread.
- `ledger`: tokens are neither lost nor made, in every run.
- `World.steady`: no step clears the mark while a thread sleeps. Three compare-and-swaps can: a `timedwait` that takes a
  token, one that gives up, and a `post` whose wake found no one.
- `semaphore_wakes`: while that is kept, a token for which someone sleeps has a wake on its way. `semaphore_stalls`: it is
  not always kept.
-/
import Omnidroid.Errno
import Omnidroid.Lib.Run
import Omnidroid.Lib.Threads

namespace Omnidroid.Bionic.Sem

/-! ## Where a thread is -/

def VALUE_MASK : ℕ := 2 ^ 31 - 1

/-- the word's count, and its top bit -/
structure Word where
  value : ℕ
  waiters : Bool
deriving DecidableEq, Repr

def Word.marked (word : Word) : Word := { word with waiters := true }

def Word.unmarked (word : Word) : Word := { word with waiters := false }

inductive Op where
  | wait | timedwait | trywait
deriving DecidableEq, Repr

inductive Result where
  | ok
  | failed (e : Errno)
  | value (n : ℕ)
deriving DecidableEq, Repr

inductive Pc where
  /-- in the guest, with what the last call returned -/
  | done (r : Result)
  /-- at the top of the loop, woken by a post or not -/
  | reads (op : Op) (woken : Bool)
  /-- about to take a token of the word it read -/
  | takes (op : Op) (word : Word) (woken : Bool)
  | marks (timed : Bool) (word : Word)
  | checks (timed : Bool) (word : Word)
  | waits (timed : Bool) (word : Word)
  | parked (timed : Bool)
  /-- a `timedwait` out of time: about to read, and then to clear the mark -/
  | givesUp
  | clears (word : Word)
  | posts
  | adds (word : Word)
  | wakes
  /-- a post whose wake found no one: about to read, and then to clear the mark -/
  | drops
  | dropsFrom (word : Word)
deriving DecidableEq, Repr

def sleeper : Sleeper Pc where
  sleeps
    | .parked _ => true
    | _ => false
  woken
    | .parked timed => .reads (if timed then .timedwait else .wait) true
    | pc => pc

def Op.timed : Op → Bool
  | .timedwait => true
  | .wait | .trywait => false

def waiting (timed : Bool) : Op := if timed then .timedwait else .wait

/-- with the word read -/
def afterRead (op : Op) (woken : Bool) (word : Word) : Pc :=
  if 0 < word.value then .takes op word woken
  else if op = .trywait then .done (.failed EAGAIN)
  else if word.waiters then .checks op.timed word
  else .marks op.timed word

/-- the word with a token taken: `timedwait` clears the mark with it -/
def Op.taken (op : Op) (word : Word) : Word :=
  match op with
  | .timedwait => ⟨word.value - 1, false⟩
  | .wait | .trywait => { word with value := word.value - 1 }

/-! ## The machine -/

structure World (n : ℕ) where
  word : Word
  threads : Fin n → Pc := fun _ => .done .ok
  /-- history: the posts and the waits that succeeded -/
  posted : ℕ := 0
  taken : ℕ := 0

/-- how what is not the semaphore's own turns out: the clock, the stop switch, and whom a wake finds -/
structure Choice (n : ℕ) where
  late : Bool := false
  interrupted : Bool := false
  who : Option (Fin n) := none
deriving DecidableEq

inductive Act (n : ℕ) where
  | call (t : Fin n) (op : Op)
  | post (t : Fin n)
  | getvalue (t : Fin n)
  | move (t : Fin n) (c : Choice n)
deriving DecidableEq

namespace World

variable {n : ℕ}

def goTo (w : World n) (t : Fin n) (pc : Pc) : World n := { w with threads := Function.update w.threads t pc }

def move (w : World n) (t : Fin n) (c : Choice n) : World n :=
  match w.threads t with
  | .done _ => w
  | .reads op woken => w.goTo t (afterRead op woken w.word)
  | .takes op word woken =>
    if w.word = word then { w with word := op.taken word, taken := w.taken + 1 }.goTo t (.done .ok)
    else w.goTo t (.reads op woken)
  | .marks timed word =>
    -- whether the word was still so is not looked at
    (if w.word = word then { w with word := word.marked } else w).goTo t (.checks timed word)
  | .checks timed word =>
    if timed then w.goTo t (if c.late then .givesUp else .waits true word)
    else w.goTo t (if c.interrupted then .done (.failed EINTR) else .waits false word)
  | .waits timed word =>
    if c.interrupted ∨ w.word ≠ word.marked then w.goTo t (.reads (waiting timed) false) else w.goTo t (.parked timed)
  | .parked timed => w.goTo t (if timed ∧ c.late then .givesUp else .reads (waiting timed) false)
  | .givesUp => w.goTo t (.clears w.word)
  | .clears word =>
    (if w.word = word then { w with word := word.unmarked } else w).goTo t (.done (.failed ETIMEDOUT))
  | .posts => w.goTo t (if w.word.value = VALUE_MASK then .done (.failed EINVAL) else .adds w.word)
  | .adds word =>
    if w.word = word then
      { w with word := { word with value := word.value + 1 }, posted := w.posted + 1 }.goTo t
        (if word.waiters then .wakes else .done .ok)
    else w.goTo t .posts
  | .wakes =>
    match wakeOne sleeper w.threads c.who with
    | none => w
    | some threads => { w with threads }.goTo t (if c.who.isSome then .done .ok else .drops)
  | .drops => w.goTo t (if w.word.waiters then .dropsFrom w.word else .done .ok)
  | .dropsFrom word => if w.word = word then { w with word := word.unmarked }.goTo t (.done .ok) else w.goTo t .drops

def step (w : World n) : Act n → World n
  | .call t op =>
    match w.threads t with
    | .done _ => w.goTo t (.reads op false)
    | _ => w
  | .post t =>
    match w.threads t with
    | .done _ => w.goTo t .posts
    | _ => w
  | .getvalue t =>
    match w.threads t with
    | .done _ => w.goTo t (.done (.value w.word.value))
    | _ => w
  | .move t c => w.move t c

def Parked (w : World n) (t : Fin n) : Prop := ∃ timed, w.threads t = .parked timed

/-- the thread's next step clears the mark -/
def Clears (w : World n) (t : Fin n) : Prop :=
  w.word.waiters = true ∧
    (w.threads t = .clears w.word ∨ w.threads t = .dropsFrom w.word ∨ ∃ woken, w.threads t = .takes .timedwait w.word woken)

/-- no step clears the mark while a thread sleeps -/
def steady (w : World n) : Act n → Prop
  | .move t _ => w.Clears t → ∀ u, ¬w.Parked u
  | _ => True

/-- a semaphore as `init` leaves it -/
def init (n value : ℕ) : World n := { word := ⟨value, false⟩ }

end World

/-! ## Tokens -/

/-- what a thread's place says of the word it read -/
def Placed : Pc → Prop
  | .takes _ word _ => 0 < word.value
  | .marks _ word | .checks _ word | .waits _ word => word.value = 0
  | .adds word => word.value < VALUE_MASK
  | _ => True

/-- the tokens there were and those posted are those there are and those taken -/
structure Sound {n : ℕ} (value : ℕ) (w : World n) : Prop where
  tokens : value + w.posted = w.word.value + w.taken
  fits : w.word.value ≤ VALUE_MASK
  placed : ∀ t, Placed (w.threads t)

section Moves

variable {n value : ℕ} {w : World n} {t u : Fin n} {pc : Pc}

theorem goTo_self : (w.goTo t pc).threads t = pc := Function.update_self ..

theorem goTo_other (hu : u ≠ t) : (w.goTo t pc).threads u = w.threads u := Function.update_of_ne hu ..

theorem placed_goTo (h : ∀ u, Placed (w.threads u)) (hp : Placed pc) (u : Fin n) : Placed ((w.goTo t pc).threads u) := by
  rcases eq_or_ne u t with rfl | hu
  · rw [goTo_self]
    exact hp
  · rw [goTo_other hu]
    exact h u

theorem Sound.goTo (h : Sound value w) (hp : Placed pc) : Sound value (w.goTo t pc) :=
  ⟨h.tokens, h.fits, placed_goTo h.placed hp⟩

/-- a mark set or cleared moves no token -/
theorem Sound.mark {word : Word} (h : Sound value w) (hw : w.word = word) (waiters : Bool) :
    Sound value { w with word := { word with waiters } } := by
  subst hw
  exact ⟨h.tokens, h.fits, h.placed⟩

theorem afterRead_placed (op : Op) (woken : Bool) (word : Word) : Placed (afterRead op woken word) := by
  unfold afterRead
  split
  · rename_i hpos
    exact hpos
  · rename_i hzero
    have : word.value = 0 := by omega
    split
    · trivial
    · split
      · exact this
      · exact this

theorem taken_value (op : Op) (word : Word) : (op.taken word).value = word.value - 1 := by
  cases op <;> rfl

theorem Sound.take {op : Op} {word : Word} (h : Sound value w) (hw : w.word = word) (hpos : 0 < word.value) :
    Sound value ({ w with word := op.taken word, taken := w.taken + 1 }.goTo t (.done .ok)) := by
  have ht := h.tokens
  have hf := h.fits
  rw [hw] at ht hf
  refine ⟨?_, ?_, placed_goTo h.placed trivial⟩
  · change value + w.posted = (op.taken word).value + (w.taken + 1)
    rw [taken_value]
    omega
  · change (op.taken word).value ≤ VALUE_MASK
    rw [taken_value]
    omega

theorem Sound.add {word : Word} (h : Sound value w) (hw : w.word = word) (hlt : word.value < VALUE_MASK) (hp : Placed pc) :
    Sound value ({ w with word := { word with value := word.value + 1 }, posted := w.posted + 1 }.goTo t pc) := by
  have ht := h.tokens
  rw [hw] at ht
  refine ⟨?_, hlt, placed_goTo h.placed hp⟩
  change value + (w.posted + 1) = word.value + 1 + w.taken
  omega

theorem sleeper_woken (h : sleeper.sleeps pc = true) :
    ∃ timed, pc = .parked timed ∧ sleeper.woken pc = .reads (waiting timed) true := by
  simp only [sleeper] at h ⊢
  split at h
  · rename_i timed
    exact ⟨timed, rfl, rfl⟩
  · cases h

theorem wake_placed {who : Option (Fin n)} {threads : Fin n → Pc} (h : ∀ u, Placed (w.threads u))
    (hwake : wakeOne sleeper w.threads who = some threads) (u : Fin n) : Placed (threads u) := by
  rcases wakeOne_eq_some hwake with ⟨v, hv, rfl⟩ | ⟨-, rfl⟩
  · obtain ⟨timed, -, hwoken⟩ := sleeper_woken hv
    rw [hwoken]
    have hreads : Placed (.reads (waiting timed) true) := trivial
    exact placed_goTo h hreads u
  · exact h u

theorem move_sound (h : Sound value w) (c : Choice n) : Sound value (w.move t c) := by
  have hp := h.placed t
  unfold World.move
  split <;> rename_i hpc <;> rw [hpc] at hp
  case h_1 => exact h
  case h_2 => exact h.goTo (afterRead_placed ..)
  case h_3 =>
    split
    · rename_i hw
      exact h.take hw hp
    · exact h.goTo trivial
  case h_4 =>
    split
    · rename_i hw
      have h₁ := h.mark hw true
      exact h₁.goTo hp
    · exact h.goTo hp
  case h_5 =>
    split
    · split
      · exact h.goTo trivial
      · exact h.goTo hp
    · split
      · exact h.goTo trivial
      · exact h.goTo hp
  case h_6 => split <;> exact h.goTo trivial
  case h_7 => split <;> exact h.goTo trivial
  case h_8 => exact h.goTo trivial
  case h_9 =>
    split
    · rename_i hw
      have h₁ := h.mark hw false
      exact h₁.goTo trivial
    · exact h.goTo trivial
  case h_10 =>
    split
    · exact h.goTo trivial
    · rename_i hne
      exact h.goTo (lt_of_le_of_ne h.fits hne)
  case h_11 =>
    split
    · rename_i hw
      refine h.add hw hp ?_
      split <;> trivial
    · exact h.goTo trivial
  case h_12 =>
    split
    · exact h
    · rename_i hwake
      refine ⟨h.tokens, h.fits, ?_⟩
      have hdone : Placed (if c.who.isSome then .done .ok else .drops) := by split <;> trivial
      intro u
      rcases eq_or_ne u t with rfl | hu
      · rw [goTo_self]
        exact hdone
      · rw [goTo_other hu]
        exact wake_placed h.placed hwake u
  case h_13 => split <;> exact h.goTo trivial
  case h_14 =>
    split
    · rename_i hw
      have h₁ := h.mark hw false
      exact h₁.goTo trivial
    · exact h.goTo trivial

theorem step_sound (h : Sound value w) (a : Act n) : Sound value (w.step a) := by
  cases a with
  | move t c => exact move_sound h c
  | _ =>
    simp only [World.step]
    split
    · exact h.goTo trivial
    · exact h

end Moves

/-- **No token is lost or made.** In every reachable state, of any run. -/
theorem ledger {n value : ℕ} (hv : value ≤ VALUE_MASK) {w : World n}
    (h : Reach World.step anyStep (World.init n value) w) : Sound value w :=
  have h₀ : Sound value (World.init n value) := ⟨rfl, hv, fun _ => (trivial : Placed (.done .ok))⟩
  h.invariant (Sound value) h₀ fun _ a _ _ hs => step_sound hs a

/-! ## Wakes -/

/-- a wake still to be made, or a woken thread that has yet to try for a token -/
def helps : Pc → ℕ
  | .wakes | .reads _ true | .takes _ _ true => 1
  | _ => 0

/-- while someone sleeps the mark is set, and there are no more tokens than wakes on their way -/
structure Awake {n : ℕ} (w : World n) : Prop where
  marked : ∀ t, w.Parked t → w.word.waiters = true
  owed : ∀ t, w.Parked t → w.word.value ≤ total helps w.threads

section Moves

variable {n value : ℕ} {w : World n} {t u : Fin n} {pc : Pc}

theorem Awake.moved {w' : World n} (h : Awake w) (ht : w'.threads = Function.update w.threads t pc)
    (hpark : ∀ timed, pc = .parked timed → w'.word.waiters = true ∧ w'.word.value = 0)
    (hother : (∃ u, w.Parked u) → w.word.waiters = true → w'.word.waiters = true ∧
      (w'.word.value = 0 ∨ w'.word.value + helps (w.threads t) ≤ w.word.value + helps pc)) : Awake w' := by
  have hself : w'.threads t = pc := by rw [ht, Function.update_self]
  have hparked : ∀ u, w'.Parked u → u ≠ t → w.Parked u := by
    rintro u ⟨timed, hu⟩ hut
    exact ⟨timed, by rwa [ht, Function.update_of_ne hut] at hu⟩
  have htotal := total_update helps w.threads t pc
  rw [← ht] at htotal
  constructor
  · intro u hu
    rcases eq_or_ne u t with rfl | hut
    · obtain ⟨timed, hu⟩ := hu
      exact (hpark timed (hself ▸ hu)).1
    · have hu' := hparked u hu hut
      exact (hother ⟨u, hu'⟩ (h.marked u hu')).1
  · intro u hu
    rcases eq_or_ne u t with rfl | hut
    · obtain ⟨timed, hu⟩ := hu
      have := (hpark timed (hself ▸ hu)).2
      omega
    · have hu' := hparked u hu hut
      have howed := h.owed u hu'
      rcases (hother ⟨u, hu'⟩ (h.marked u hu')).2 with hz | hle <;> omega

/-- a move that leaves the word, and is no less help than before -/
theorem Awake.goTo (h : Awake w) (hp : ∀ timed, pc ≠ .parked timed) (hh : helps (w.threads t) ≤ helps pc ∨ w.word.value = 0) :
    Awake (w.goTo t pc) := by
  refine h.moved rfl (fun timed hpc => absurd hpc (hp timed)) ?_
  intro _ hmarked
  refine ⟨hmarked, ?_⟩
  change w.word.value = 0 ∨ w.word.value + _ ≤ w.word.value + _
  omega

/-- the mark set or cleared, which leaves the count -/
theorem Awake.mark {word : Word} (h : Awake w) (hw : w.word = word) (waiters : Bool) (hp : ∀ timed, pc ≠ .parked timed)
    (hclear : waiters = false → (∃ u, w.Parked u) → w.word.waiters = false) (hh : helps (w.threads t) = 0) :
    Awake ({ w with word := { word with waiters } }.goTo t pc) := by
  subst hw
  refine h.moved rfl (fun timed hpc => absurd hpc (hp timed)) ?_
  intro hparked hmarked
  constructor
  · change waiters = true
    cases hw : waiters with
    | true => rfl
    | false =>
      rw [hclear hw hparked] at hmarked
      cases hmarked
  · change w.word.value = 0 ∨ w.word.value + _ ≤ w.word.value + _
    omega

theorem Awake.take {op : Op} {word : Word} {woken : Bool} (h : Awake w) (hpc : w.threads t = .takes op word woken)
    (hw : w.word = word) (hpos : 0 < word.value) (hsteady : w.Clears t → ∀ u, ¬w.Parked u) :
    Awake ({ w with word := op.taken word, taken := w.taken + 1 }.goTo t (.done .ok)) := by
  refine h.moved rfl (fun timed hpc => by cases hpc) ?_
  rintro ⟨u, hu⟩ hmarked
  constructor
  · change (op.taken word).waiters = true
    cases op with
    | timedwait =>
      refine absurd hu (hsteady ⟨hmarked, .inr (.inr ⟨woken, ?_⟩)⟩ u)
      rw [hpc, hw]
    | _ => exact hw ▸ hmarked
  · right
    change (op.taken word).value + helps (w.threads t) ≤ w.word.value + 0
    have hle : helps (w.threads t) ≤ 1 := by
      rw [hpc]
      cases woken
      · exact Nat.zero_le 1
      · exact le_refl 1
    rw [taken_value, hw]
    omega

theorem Awake.add {word : Word} (h : Awake w) (hpc : w.threads t = .adds word) (hw : w.word = word) :
    Awake ({ w with word := { word with value := word.value + 1 }, posted := w.posted + 1 }.goTo t
      (if word.waiters then .wakes else .done .ok)) := by
  refine h.moved rfl ?_ ?_
  · intro timed hp
    split at hp <;> cases hp
  · intro _ hmarked
    rw [hw] at hmarked
    refine ⟨hmarked, .inr ?_⟩
    change word.value + 1 + helps (w.threads t) ≤ w.word.value + helps (if word.waiters then .wakes else .done .ok)
    rw [hpc, if_pos hmarked, hw]
    exact le_refl _

theorem Awake.park {timed : Bool} {word : Word} (h : Awake w) (hzero : word.value = 0) (hw : w.word = word.marked) :
    Awake (w.goTo t (.parked timed)) := by
  have hvalue : w.word.value = 0 := by rw [hw]; exact hzero
  have hmark : w.word.waiters = true := by rw [hw]; rfl
  exact h.moved rfl (fun _ _ => ⟨hmark, hvalue⟩) fun _ _ => ⟨hmark, .inl hvalue⟩

/-- a wake finds someone, who tries for a token, or no one is asleep -/
theorem Awake.wake {c : Choice n} {threads : Fin n → Pc} (h : Awake w) (hpc : w.threads t = .wakes)
    (hwake : wakeOne sleeper w.threads c.who = some threads) :
    Awake ({ w with threads }.goTo t (if c.who.isSome then .done .ok else .drops)) := by
  have hplain : ∀ timed, (if c.who.isSome then Pc.done .ok else .drops) ≠ .parked timed := by
    intro timed hp
    split at hp <;> cases hp
  rcases wakeOne_eq_some hwake with ⟨u, hu, rfl⟩ | ⟨hnone, rfl⟩
  · obtain ⟨timed, hparked, hwoken⟩ := sleeper_woken hu
    have hut : u ≠ t := by
      rintro rfl
      rw [hpc] at hparked
      cases hparked
    rw [hwoken]
    -- the sleeper's move and the waker's own, whose help is passed on
    have h₁ := total_update helps w.threads u (.reads (waiting timed) true)
    have h₂ := total_update helps (Function.update w.threads u (.reads (waiting timed) true)) t
      (if c.who.isSome then Pc.done .ok else .drops)
    rw [Function.update_of_ne hut.symm, hpc] at h₂
    rw [hparked] at h₁
    have hw : helps (.wakes) = 1 := rfl
    have hr : helps (.reads (waiting timed) true) = 1 := rfl
    have hz : helps (.parked timed) = 0 := rfl
    have hstill : ∀ v, World.Parked (World.goTo { w with threads := Function.update w.threads u (.reads (waiting timed) true) } t
        (if c.who.isSome then Pc.done .ok else .drops)) v → w.Parked v := by
      rintro v ⟨timed', hv⟩
      rcases eq_or_ne v t with rfl | hvt
      · rw [goTo_self] at hv
        exact absurd hv (hplain timed')
      · rw [goTo_other hvt] at hv
        rcases eq_or_ne v u with rfl | hvu
        · simp only [Function.update_self] at hv
          cases hv
        · exact ⟨timed', by simpa only [Function.update_of_ne hvu] using hv⟩
    constructor
    · intro v hv
      exact h.marked v (hstill v hv)
    · intro v hv
      have := h.owed v (hstill v hv)
      change w.word.value ≤ total helps (Function.update (Function.update w.threads u (.reads (waiting timed) true)) t
        (if c.who.isSome then Pc.done .ok else .drops))
      omega
  · refine h.moved rfl (fun timed hp => absurd hp (hplain timed)) ?_
    rintro ⟨u, timed, hu⟩ _
    have := hnone u
    rw [hu] at this
    cases this

theorem afterRead_plain (op : Op) (woken : Bool) (word : Word) (timed : Bool) : afterRead op woken word ≠ .parked timed := by
  intro h
  unfold afterRead at h
  repeat' split at h
  all_goals cases h

/-- a woken thread that read a token is about to try for it -/
theorem afterRead_helps (op : Op) (woken : Bool) (word : Word) :
    helps (.reads op woken) ≤ helps (afterRead op woken word) ∨ word.value = 0 := by
  unfold afterRead
  split
  · left
    cases woken <;> exact le_refl _
  · right
    omega

theorem move_awake (h : Awake w) (hs : Sound value w) (c : Choice n) (ho : w.Clears t → ∀ u, ¬w.Parked u) :
    Awake (w.move t c) := by
  have hp := hs.placed t
  have hplain : ∀ {pc : Pc}, (∀ timed, pc ≠ .parked timed) → helps (w.threads t) = 0 → Awake (w.goTo t pc) :=
    fun hp hz => h.goTo hp (.inl (hz ▸ Nat.zero_le _))
  have hclear : w.threads t = .clears w.word ∨ w.threads t = .dropsFrom w.word →
      (∃ u, w.Parked u) → w.word.waiters = false := by
    rintro hpc ⟨u, hu⟩
    by_contra hw
    refine ho ⟨by simpa using hw, ?_⟩ u hu
    tauto
  unfold World.move
  split <;> rename_i hpc <;> rw [hpc] at hp
  case h_1 => exact h
  case h_2 op woken =>
    refine h.goTo (afterRead_plain op woken w.word) ?_
    rw [hpc]
    exact afterRead_helps op woken w.word
  case h_3 op word woken =>
    split
    · rename_i hw
      exact h.take hpc hw hp ho
    · refine h.goTo (fun _ hc => by cases hc) (.inl ?_)
      rw [hpc]
      cases woken <;> exact le_refl _
  case h_4 =>
    split
    · rename_i hw
      exact h.mark hw true (fun _ hc => by cases hc) (fun hf => by cases hf) (by rw [hpc]; rfl)
    · exact hplain (fun _ hc => by cases hc) (by rw [hpc]; rfl)
  case h_5 =>
    split
    · refine hplain ?_ (by rw [hpc]; rfl)
      intro _ hc
      split at hc <;> cases hc
    · refine hplain ?_ (by rw [hpc]; rfl)
      intro _ hc
      split at hc <;> cases hc
  case h_6 =>
    split
    · exact hplain (fun _ hc => by cases hc) (by rw [hpc]; rfl)
    · rename_i hw
      exact h.park hp (not_not.mp fun hne => hw (.inr hne))
  case h_7 =>
    refine hplain ?_ (by rw [hpc]; rfl)
    intro _ hc
    split at hc <;> cases hc
  case h_8 => exact hplain (fun _ hc => by cases hc) (by rw [hpc]; rfl)
  case h_9 =>
    split
    · rename_i hw
      exact h.mark hw false (fun _ hc => by cases hc) (fun _ => hclear (.inl (hw ▸ hpc))) (by rw [hpc]; rfl)
    · exact hplain (fun _ hc => by cases hc) (by rw [hpc]; rfl)
  case h_10 =>
    refine hplain ?_ (by rw [hpc]; rfl)
    intro _ hc
    split at hc <;> cases hc
  case h_11 =>
    split
    · rename_i hw
      exact h.add hpc hw
    · exact hplain (fun _ hc => by cases hc) (by rw [hpc]; rfl)
  case h_12 =>
    split
    · exact h
    · rename_i hwake
      exact h.wake hpc hwake
  case h_13 =>
    refine hplain ?_ (by rw [hpc]; rfl)
    intro _ hc
    split at hc <;> cases hc
  case h_14 =>
    split
    · rename_i hw
      exact h.mark hw false (fun _ hc => by cases hc) (fun _ => hclear (.inr (hw ▸ hpc))) (by rw [hpc]; rfl)
    · exact hplain (fun _ hc => by cases hc) (by rw [hpc]; rfl)

theorem step_awake (h : Awake w) (hs : Sound value w) (a : Act n) (ho : w.steady a) : Awake (w.step a) := by
  cases a with
  | move t c => exact move_awake h hs c ho
  | _ =>
    simp only [World.step]
    split
    · rename_i hpc
      exact h.goTo (fun _ hc => by cases hc) (.inl (by rw [hpc]; exact Nat.zero_le _))
    · exact h

end Moves

/-! ## Every run -/

namespace World

variable {n : ℕ}

/-- a post has yet to make its wake -/
def OwesWake (w : World n) (t : Fin n) : Prop := w.threads t = .wakes

/-- a thread that a wake woke has yet to read the word, or has read a token in it and is about to take it -/
def TriesAgain (w : World n) (t : Fin n) : Prop :=
  ∃ op, w.threads t = .reads op true ∨ ∃ word, w.threads t = .takes op word true

end World

/-- a token for which someone sleeps has a wake on its way -/
def WakeComes {n : ℕ} (w : World n) : Prop :=
  0 < w.word.value → (∃ t, w.Parked t) → ∃ u, w.OwesWake u ∨ w.TriesAgain u

/-- the tokens posted, with those there were, are those in the word and those taken -/
def Conserved {n : ℕ} (value : ℕ) (w : World n) : Prop := value + w.posted = w.word.value + w.taken

theorem helps_pos {pc : Pc} (h : 0 < helps pc) :
    pc = .wakes ∨ ∃ op, pc = .reads op true ∨ ∃ word, pc = .takes op word true := by
  unfold helps at h
  split at h
  · exact .inl rfl
  · exact .inr ⟨_, .inl rfl⟩
  · exact .inr ⟨_, .inr ⟨_, rfl⟩⟩
  · omega

/-- **No token is lost, and no wake.** In every run the count is what was posted and not taken. In every run in which no
step clears the mark while a thread sleeps, a token for which someone sleeps has a wake on its way. -/
theorem semaphore_wakes {n value : ℕ} (hv : value ≤ VALUE_MASK) :
    (∀ w : World n, Reach World.step anyStep (World.init n value) w → Conserved value w) ∧
      ∀ w : World n, Reach World.step World.steady (World.init n value) w → Conserved value w ∧ WakeComes w := by
  refine ⟨fun w h => (ledger hv h).tokens, ?_⟩
  intro w h
  refine ⟨(ledger hv h.any).tokens, ?_⟩
  have hparked : ∀ t, ¬(World.init n value).Parked t := by
    rintro t ⟨timed, ht⟩
    cases ht
  have h₀ : Awake (World.init n value) := ⟨fun t ht => absurd ht (hparked t), fun t ht => absurd ht (hparked t)⟩
  have hw : Awake w := h.invariant Awake h₀ fun s a hr ho hs => step_awake hs (ledger hv hr.any) a ho
  rintro hpos ⟨t, ht⟩
  obtain ⟨u, hu⟩ := total_pos.mp (lt_of_lt_of_le hpos (hw.owed t ht))
  exact ⟨u, helps_pos hu⟩

section Decide

variable {n : ℕ} (w : World n)

instance decParked (t : Fin n) : Decidable (w.Parked t) := inferInstanceAs (Decidable (∃ timed, w.threads t = .parked timed))

instance decSteady (a : Act n) : Decidable (w.steady a) := by
  cases a <;> unfold World.steady <;> try unfold World.Clears
  all_goals infer_instance

instance decWakeComes : Decidable (WakeComes w) :=
  decidable_of_iff (0 < w.word.value → (∃ t, w.Parked t) → ∃ u, 0 < helps (w.threads u)) <| by
    refine imp_congr_right fun _ => imp_congr_right fun _ => exists_congr fun u => ⟨helps_pos, ?_⟩
    rintro (h | ⟨op, h | ⟨word, h⟩⟩)
    all_goals
      rw [h]
      exact Nat.one_pos

end Decide

/-- thread 0 waits, and sleeps -/
def sleepRun : List (Act 3) := [.call 0 .wait, .move 0 {}, .move 0 {}, .move 0 {}, .move 0 {}]

/-- thread 2 posts, up to its wake, if it makes one -/
def postRun : List (Act 3) := [.post 2, .move 2 {}, .move 2 {}]

theorem semaphore_wakes_post : Conserved 0 (run World.step (World.init 3 0) (sleepRun ++ postRun)) ∧
    WakeComes (run World.step (World.init 3 0) (sleepRun ++ postRun)) :=
  (semaphore_wakes (by decide)).2 _ (.run .start _ (by decide))

/-- thread 1 gives up in the meantime, and clears the mark -/
def gaveUpRun : List (Act 3) :=
  sleepRun ++ [.call 1 .timedwait, .move 1 {}, .move 1 { late := true }, .move 1 {}, .move 1 {}] ++ postRun

/-- thread 0 has set the mark and is not asleep yet; the first post finds no one to wake, and clears the mark only when
thread 1 has taken the token and thread 0 sleeps -/
def droppedRun : List (Act 3) :=
  [.call 0 .wait, .move 0 {}, .move 0 {}, .move 0 {}] ++ postRun ++ [.move 2 {}, .call 1 .trywait, .move 1 {}, .move 1 {},
    .move 2 {}, .move 0 {}, .move 2 {}] ++ postRun

/-- **A token no one is woken for.** A `timedwait` that gives up clears the mark under a sleeper, and so does a post that
found no one to wake. -/
theorem semaphore_stalls :
    ¬WakeComes (run World.step (World.init 3 0) gaveUpRun) ∧ ¬WakeComes (run World.step (World.init 3 0) droppedRun) := by
  decide

end Omnidroid.Bionic.Sem
