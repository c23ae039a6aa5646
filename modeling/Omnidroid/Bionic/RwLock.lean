/-
A `pthread_rwlock` (`omni-bionic/src/rwlock.rs`): a word that is 0, the number of readers or `WRITER`, a second word that
counts the writers that wait, and a futex on the first.

Any number of threads are each somewhere in `rdlock`, `timedrdlock`, `tryrdlock`, `wrlock`, `timedwrlock`, `trywrlock` or
`unlock` (`Pc`). One step is one read of a word, one compare-and-swap, one look at the clock, one futex call. A futex that
is shutting down does not block.
- `World.move`: the next step of a thread.
- `Inv`: the word counts the readers, or there is one writer. `step_inv` keeps it.
- `rwlock_excludes`: what that means of the locks held, and of the only `EAGAIN`.
-/
import Omnidroid.Errno
import Omnidroid.Lib.Run
import Omnidroid.Lib.Threads

namespace Omnidroid.Bionic.RwLock

/-! ## Where a thread is -/

def u32Max : ℕ := 2 ^ 32 - 1

def FREE : ℕ := 0
def WRITER : ℕ := u32Max
def MAX_READERS : ℕ := WRITER - 1

/-- how a call waits: for as long as it takes, up to a deadline, or not at all -/
inductive Patience where
  | forever | timed | none
deriving DecidableEq, Repr

inductive Pc where
  /-- in the guest, with what the last call returned -/
  | done (code : Option Errno)
  /-- a reader about to read the writers' word, and then the state -/
  | looks (p : Patience)
  | looksOn (p : Patience) (writers : ℕ)
  /-- `reader_acquire`, with the state it was let in on: about to read the state again, and to count itself in -/
  | acquires (p : Patience) (state : ℕ)
  | joins (p : Patience) (state n : ℕ)
  | checks (timed : Bool) (state : ℕ)
  | waits (timed : Bool) (state : ℕ)
  | parked (timed : Bool)
  /-- a writer about to count itself as waiting -/
  | registers (timed : Bool)
  | bumps (timed : Bool) (cur : ℕ)
  /-- `writer_loop`: about to read the state, and to take the lock -/
  | seeks (timed : Bool)
  | tries (timed : Bool)
  | checksW (timed : Bool) (state : ℕ)
  | waitsW (timed : Bool) (state : ℕ)
  | parkedW (timed : Bool)
  /-- about to count itself out, with the lock or without it -/
  | leaves (won : Bool)
  | zeroes (won : Bool) (cur : ℕ)
  /-- `trywrlock` -/
  | peeks
  | takes
  | unlocks
  /-- a writer about to let go, a reader about to read the count and to count itself out -/
  | frees
  | counts
  | steps (n : ℕ)
  | wakes
deriving DecidableEq, Repr

structure Thread where
  pc : Pc := .done none
  /-- how often it holds the lock, as a reader and as a writer -/
  reads : ℕ := 0
  writes : ℕ := 0
deriving DecidableEq, Repr

def sleeper : Sleeper Thread where
  sleeps l := match l.pc with
    | .parked _ | .parkedW _ => true
    | _ => false
  woken l := match l.pc with
    | .parked timed => { l with pc := .looks (if timed then .timed else .forever) }
    | .parkedW timed => { l with pc := .seeks timed }
    | _ => l

def waiting (timed : Bool) : Patience := if timed then .timed else .forever

/-- where a reader goes that was not let in, with the state it read first -/
def Patience.turned (state : ℕ) : Patience → Pc
  | .forever => .checks false state
  | .timed => .checks true state
  | .none => .done (some EBUSY)

/-- with both words read -/
def afterLook (p : Patience) (writers state : ℕ) : Pc :=
  if state ≠ WRITER ∧ writers = 0 then .acquires p state else p.turned state

/-- `reader_acquire`, with the state `n` -/
def afterAcquire (p : Patience) (state n : ℕ) : Pc :=
  if n = FREE then .joins p state n
  else if n = WRITER then p.turned state
  else if MAX_READERS ≤ n then .done (some EAGAIN)
  else .joins p state n

def afterUnlock (state : ℕ) : Pc :=
  if state = FREE then .done (some EPERM)
  else if state = WRITER then .frees
  else if state < MAX_READERS then .counts
  else .done (some EINVAL)

/-! ## The machine -/

structure World (n : ℕ) where
  state : ℕ := FREE
  writers : ℕ := 0
  threads : Fin n → Thread := fun _ => {}

/-- how what is not the lock's own turns out: the clock, and a futex that will not block -/
structure Choice where
  late : Bool := false
  interrupted : Bool := false
deriving DecidableEq

inductive Act (n : ℕ) where
  | read (t : Fin n) (p : Patience)
  | write (t : Fin n) (p : Patience)
  | unlock (t : Fin n)
  | move (t : Fin n) (c : Choice)
deriving DecidableEq

namespace World

variable {n : ℕ}

def put (w : World n) (t : Fin n) (l : Thread) : World n := { w with threads := Function.update w.threads t l }

def goTo (w : World n) (t : Fin n) (pc : Pc) : World n := w.put t { w.threads t with pc }

/-- one more reader -/
def join (w : World n) (t : Fin n) (m : ℕ) : World n :=
  { w with state := m + 1 }.put t { w.threads t with pc := .done none, reads := (w.threads t).reads + 1 }

/-- a writer in -/
def take (w : World n) (t : Fin n) (pc : Pc) : World n :=
  { w with state := WRITER }.put t { w.threads t with pc, writes := (w.threads t).writes + 1 }

/-- one reader fewer: the last one wakes everyone -/
def drop (w : World n) (t : Fin n) (m : ℕ) : World n :=
  { w with state := m - 1 }.put t
    { w.threads t with pc := if m = 1 then .wakes else .done none, reads := (w.threads t).reads - 1 }

/-- the writer out -/
def free (w : World n) (t : Fin n) : World n :=
  { w with state := FREE }.put t { w.threads t with pc := .wakes, writes := (w.threads t).writes - 1 }

def move (w : World n) (t : Fin n) (c : Choice) : World n :=
  match (w.threads t).pc with
  | .done _ => w
  | .looks p => w.goTo t (.looksOn p w.writers)
  | .looksOn p writers => w.goTo t (afterLook p writers w.state)
  | .acquires p state => w.goTo t (afterAcquire p state w.state)
  | .joins p state m => if w.state = m then w.join t m else w.goTo t (.acquires p state)
  | .checks timed state => w.goTo t (if timed ∧ c.late then .done (some ETIMEDOUT) else .waits timed state)
  | .waits timed state =>
    if c.interrupted ∨ w.state ≠ state then w.goTo t (.looks (waiting timed)) else w.goTo t (.parked timed)
  | .parked timed => w.goTo t (if timed ∧ c.late then .done (some ETIMEDOUT) else .looks (waiting timed))
  | .registers timed => w.goTo t (.bumps timed w.writers)
  | .bumps timed cur =>
    -- a saturating addition
    if w.writers = cur then { w with writers := min (cur + 1) u32Max }.goTo t (.seeks timed)
    else w.goTo t (.registers timed)
  | .seeks timed => w.goTo t (if w.state = FREE then .tries timed else .checksW timed w.state)
  | .tries timed => if w.state = FREE then w.take t (.leaves true) else w.goTo t (.checksW timed FREE)
  | .checksW timed state => w.goTo t (if timed ∧ c.late then .leaves false else .waitsW timed state)
  | .waitsW timed state =>
    if c.interrupted ∨ w.state ≠ state then w.goTo t (.seeks timed) else w.goTo t (.parkedW timed)
  | .parkedW timed => w.goTo t (if timed ∧ c.late then .leaves false else .seeks timed)
  | .leaves won => w.goTo t (.zeroes won w.writers)
  | .zeroes won cur =>
    if w.writers = cur then { w with writers := 0 }.goTo t (.done (if won then none else some ETIMEDOUT))
    else w.goTo t (.leaves won)
  | .peeks => w.goTo t (if w.state = FREE then .takes else .done (some EBUSY))
  | .takes => if w.state = FREE then w.take t (.done none) else w.goTo t (.done (some EBUSY))
  | .unlocks => w.goTo t (afterUnlock w.state)
  | .frees => if w.state = WRITER then w.free t else w.goTo t (.done none)
  | .counts => w.goTo t (if w.state = FREE then .done none else .steps w.state)
  | .steps m => if w.state = m then w.drop t m else w.goTo t .counts
  | .wakes => { w with threads := wakeAll sleeper w.threads }.goTo t (.done none)

def step (w : World n) : Act n → World n
  | .read t p =>
    match (w.threads t).pc with
    | .done _ => w.goTo t (.looks p)
    | _ => w
  | .write t p =>
    match (w.threads t).pc with
    | .done _ =>
      w.goTo t (match p with
        | .forever => .registers false
        | .timed => .registers true
        | .none => .peeks)
    | _ => w
  | .unlock t =>
    match (w.threads t).pc with
    | .done _ => w.goTo t .unlocks
    | _ => w
  | .move t c => w.move t c

def Reads (w : World n) (t : Fin n) : Prop := 0 < (w.threads t).reads

def Writes (w : World n) (t : Fin n) : Prop := 0 < (w.threads t).writes

/-- an unlock is made by a thread that holds the lock -/
def heldOnly (w : World n) : Act n → Prop
  | .unlock t => w.Reads t ∨ w.Writes t
  | _ => True

end World

/-! ## What holds -/

/-- what a thread's place says of what it read and of itself -/
def Placed (l : Thread) : Prop :=
  match l.pc with
  | .joins _ _ n => n < MAX_READERS
  | .unlocks => 0 < l.reads ∨ 0 < l.writes
  | .frees => 0 < l.writes
  | .leaves won | .zeroes won _ => won = true → 0 < l.writes
  | .counts | .steps _ => 0 < l.reads
  | _ => True

/-- how many holds there are, of readers and of writers -/
def World.readers {n : ℕ} (w : World n) : ℕ := total Thread.reads w.threads

def World.writing {n : ℕ} (w : World n) : ℕ := total Thread.writes w.threads

structure Inv {n : ℕ} (w : World n) : Prop where
  /-- the word is the readers' count, or there is one writer and no reader -/
  state : w.state = w.readers ∧ w.writing = 0 ∨ w.state = WRITER ∧ w.writing = 1 ∧ w.readers = 0
  fits : w.readers ≤ MAX_READERS
  placed : ∀ t, Placed (w.threads t)

section Moves

variable {n : ℕ} {w : World n} {t u : Fin n} {pc : Pc} {l : Thread}

theorem put_self : (w.put t l).threads t = l := Function.update_self ..

theorem put_other (hu : u ≠ t) : (w.put t l).threads u = w.threads u := Function.update_of_ne hu ..

/-- one thread's move keeps the invariant: what is to be shown of it, and of the counts of holds after it -/
theorem Inv.moved {w' : World n} (h : Inv w) (ht : w'.threads = Function.update w.threads t l) (hp : Placed l)
    (hstate : w'.readers + (w.threads t).reads = w.readers + l.reads → w'.writing + (w.threads t).writes = w.writing + l.writes →
      (w'.state = w'.readers ∧ w'.writing = 0 ∨ w'.state = WRITER ∧ w'.writing = 1 ∧ w'.readers = 0) ∧
        w'.readers ≤ MAX_READERS) : Inv w' := by
  have hreads := total_update Thread.reads w.threads t l
  have hwrites := total_update Thread.writes w.threads t l
  rw [← ht] at hreads hwrites
  obtain ⟨h₁, h₂⟩ := hstate hreads hwrites
  refine ⟨h₁, h₂, ?_⟩
  intro u
  rw [ht]
  rcases eq_or_ne u t with rfl | hut
  · rw [Function.update_self]
    exact hp
  · rw [Function.update_of_ne hut]
    exact h.placed u

theorem Inv.goTo (h : Inv w) (hp : Placed { w.threads t with pc }) : Inv (w.goTo t pc) := by
  refine h.moved rfl hp ?_
  intro hr hw
  have hr' : (w.goTo t pc).readers = w.readers := by simpa using hr
  have hw' : (w.goTo t pc).writing = w.writing := by simpa using hw
  rw [hr', hw']
  exact ⟨h.state, h.fits⟩

theorem Inv.join {m : ℕ} (h : Inv w) (hw : w.state = m) (hm : m < MAX_READERS) : Inv (w.join t m) := by
  refine h.moved rfl trivial ?_
  intro hr hx
  have hstate := h.state
  have hr' : (w.join t m).readers = w.readers + 1 := by
    simp only at hr
    omega
  have hx' : (w.join t m).writing = w.writing := by simpa using hx
  have : (w.join t m).state = m + 1 := rfl
  simp only [MAX_READERS] at hm ⊢
  omega

theorem Inv.take (h : Inv w) (hw : w.state = FREE) (hp : Placed { w.threads t with pc, writes := (w.threads t).writes + 1 }) :
    Inv (w.take t pc) := by
  refine h.moved rfl hp ?_
  intro hr hx
  have hstate := h.state
  have hr' : (w.take t pc).readers = w.readers := by simpa using hr
  have hx' : (w.take t pc).writing = w.writing + 1 := by
    simp only at hx
    omega
  have : (w.take t pc).state = WRITER := rfl
  have : FREE ≠ WRITER := by decide
  simp only [FREE] at *
  omega

theorem Inv.drop {m : ℕ} (h : Inv w) (hw : w.state = m) (ht : w.Reads t) : Inv (w.drop t m) := by
  have hle := weight_le_total Thread.reads w.threads t
  have hpos : 0 < (w.threads t).reads := ht
  have hfits := h.fits
  refine h.moved rfl ?_ ?_
  · simp only [Placed]
    split <;> first | trivial | (rename_i hc; split at hc <;> cases hc)
  · intro hr hx
    have hstate := h.state
    have hr' : (w.drop t m).readers = w.readers - 1 := by
      simp only at hr
      omega
    have hx' : (w.drop t m).writing = w.writing := by simpa using hx
    have : (w.drop t m).state = m - 1 := rfl
    have : w.readers = total Thread.reads w.threads := rfl
    omega

theorem Inv.free (h : Inv w) (ht : w.Writes t) : Inv (w.free t) := by
  have hle := weight_le_total Thread.writes w.threads t
  have hpos : 0 < (w.threads t).writes := ht
  have : w.writing = total Thread.writes w.threads := rfl
  refine h.moved rfl trivial ?_
  intro hr hx
  have hstate := h.state
  have hr' : (w.free t).readers = w.readers := by simpa using hr
  have hx' : (w.free t).writing = w.writing - 1 := by
    simp only at hx
    omega
  have : (w.free t).state = 0 := rfl
  omega

/-- a woken sleeper holds what it held -/
theorem sleeper_woken (h : sleeper.sleeps l = true) :
    (∃ timed, l.pc = .parked timed ∧ sleeper.woken l = { l with pc := .looks (waiting timed) }) ∨
      ∃ timed, l.pc = .parkedW timed ∧ sleeper.woken l = { l with pc := .seeks timed } := by
  simp only [sleeper] at h ⊢
  split at h
  · rename_i timed hpc
    exact .inl ⟨timed, hpc, rfl⟩
  · rename_i timed hpc
    exact .inr ⟨timed, hpc, rfl⟩
  · cases h

theorem wakeAll_holds (g : Fin n → Thread) (u : Fin n) :
    (wakeAll sleeper g u).reads = (g u).reads ∧ (wakeAll sleeper g u).writes = (g u).writes ∧
      (Placed (g u) → Placed (wakeAll sleeper g u)) := by
  unfold wakeAll
  split
  · rename_i hs
    rcases sleeper_woken hs with ⟨timed, -, hw⟩ | ⟨timed, -, hw⟩
    · rw [hw]
      exact ⟨rfl, rfl, fun _ => trivial⟩
    · rw [hw]
      exact ⟨rfl, rfl, fun _ => trivial⟩
  · exact ⟨rfl, rfl, id⟩

theorem Inv.wake (h : Inv w) : Inv ({ w with threads := wakeAll sleeper w.threads }.goTo t (.done none)) := by
  have h₁ : Inv { w with threads := wakeAll sleeper w.threads } := by
    have hr : World.readers { w with threads := wakeAll sleeper w.threads } = w.readers :=
      total_congr fun u => (wakeAll_holds w.threads u).1
    have hw : World.writing { w with threads := wakeAll sleeper w.threads } = w.writing :=
      total_congr fun u => (wakeAll_holds w.threads u).2.1
    refine ⟨?_, ?_, fun u => (wakeAll_holds w.threads u).2.2 (h.placed u)⟩
    · rw [hr, hw]
      exact h.state
    · rw [hr]
      exact h.fits
  exact h₁.goTo trivial

theorem turned_placed (p : Patience) (state : ℕ) : Placed { l with pc := p.turned state } := by
  cases p <;> trivial

theorem afterLook_placed (p : Patience) (writers state : ℕ) : Placed { l with pc := afterLook p writers state } := by
  unfold afterLook
  split
  · trivial
  · exact turned_placed p state

theorem afterAcquire_placed (p : Patience) (state m : ℕ) : Placed { l with pc := afterAcquire p state m } := by
  unfold afterAcquire
  split
  · rename_i hm
    rw [hm]
    exact Nat.pos_of_ne_zero (by decide)
  · split
    · exact turned_placed p state
    · split
      · trivial
      · rename_i hm
        exact Nat.lt_of_not_le hm

/-- a thread that holds the lock lets go of what the word says it has -/
theorem Inv.unlocks (h : Inv w) (ht : w.Reads t ∨ w.Writes t) : Placed { w.threads t with pc := afterUnlock w.state } := by
  have hr := weight_le_total Thread.reads w.threads t
  have hw := weight_le_total Thread.writes w.threads t
  have hstate := h.state
  have hfits := h.fits
  simp only [World.readers, World.writing, MAX_READERS] at hstate hfits
  have hwriter : 0 < WRITER := by decide
  unfold World.Reads World.Writes at ht
  unfold afterUnlock
  split
  · trivial
  · split
    · rename_i hs
      change 0 < (w.threads t).writes
      omega
    · split
      · change 0 < (w.threads t).reads
        omega
      · trivial

theorem move_inv (h : Inv w) (c : Choice) : Inv (w.move t c) := by
  have hp := h.placed t
  -- the writers' word is no part of it
  have hwriters : ∀ writers, Inv { w with writers } := fun writers => ⟨h.state, h.fits, h.placed⟩
  unfold World.move
  split <;> rename_i hpc <;> rw [Placed, hpc] at hp
  case h_1 => exact h
  case h_2 => exact h.goTo trivial
  case h_3 => exact h.goTo (afterLook_placed ..)
  case h_4 => exact h.goTo (afterAcquire_placed ..)
  case h_5 =>
    split
    · rename_i hw
      exact h.join hw hp
    · exact h.goTo trivial
  case h_6 =>
    refine h.goTo ?_
    split <;> trivial
  case h_7 => split <;> exact h.goTo trivial
  case h_8 =>
    refine h.goTo ?_
    split <;> trivial
  case h_9 => exact h.goTo trivial
  case h_10 =>
    split
    · exact (hwriters _).goTo trivial
    · exact h.goTo trivial
  case h_11 =>
    refine h.goTo ?_
    split <;> trivial
  case h_12 =>
    split
    · rename_i hw
      exact h.take hw fun _ => Nat.succ_pos _
    · exact h.goTo trivial
  case h_13 =>
    refine h.goTo ?_
    split
    · exact fun hc => by cases hc
    · trivial
  case h_14 => split <;> exact h.goTo trivial
  case h_15 =>
    refine h.goTo ?_
    split
    · exact fun hc => by cases hc
    · trivial
  case h_16 => exact h.goTo hp
  case h_17 =>
    split
    · exact (hwriters _).goTo trivial
    · exact h.goTo hp
  case h_18 =>
    refine h.goTo ?_
    split <;> trivial
  case h_19 =>
    split
    · rename_i hw
      exact h.take hw trivial
    · exact h.goTo trivial
  case h_20 => exact h.goTo (h.unlocks hp)
  case h_21 =>
    split
    · exact h.free hp
    · exact h.goTo trivial
  case h_22 =>
    refine h.goTo ?_
    split
    · trivial
    · exact hp
  case h_23 =>
    split
    · rename_i hw
      exact h.drop hw hp
    · exact h.goTo hp
  case h_24 => exact h.wake

theorem step_inv (h : Inv w) (a : Act n) (ho : w.heldOnly a) : Inv (w.step a) := by
  cases a with
  | read t p =>
    simp only [World.step]
    split
    · exact h.goTo trivial
    · exact h
  | write t p =>
    simp only [World.step]
    split
    · cases p <;> exact h.goTo trivial
    · exact h
  | unlock t =>
    simp only [World.step]
    split
    · exact h.goTo ho
    · exact h
  | move t c => exact move_inv h c

/-! ## `EAGAIN` -/

theorem goTo_pc : ((w.goTo t pc).threads t).pc = pc := by
  rw [World.goTo, put_self]

theorem turned_eagain {p : Patience} {state : ℕ} : p.turned state ≠ .done (some EAGAIN) := by
  cases p <;> simp [Patience.turned, EBUSY, EAGAIN]

theorem afterAcquire_eagain {p : Patience} {state m : ℕ} (h : afterAcquire p state m = .done (some EAGAIN)) :
    MAX_READERS ≤ m ∧ m ≠ WRITER := by
  unfold afterAcquire at h
  split at h
  · cases h
  · split at h
    · exact absurd h turned_eagain
    · split at h
      · rename_i hne hle
        exact ⟨hle, hne⟩
      · cases h

/-- a thread is told that there are too many readers by a read of a word that says so -/
theorem move_eagain (c : Choice) (h : ((w.move t c).threads t).pc = .done (some EAGAIN)) :
    (w.threads t).pc = .done (some EAGAIN) ∨ MAX_READERS ≤ w.state ∧ w.state ≠ WRITER := by
  unfold World.move at h
  split at h
  case h_4 =>
    rw [goTo_pc] at h
    exact .inr (afterAcquire_eagain h)
  case h_1 => exact .inl h
  case h_3 =>
    rw [goTo_pc] at h
    unfold afterLook at h
    split at h
    · cases h
    · exact absurd h turned_eagain
  case h_20 =>
    rw [goTo_pc] at h
    unfold afterUnlock at h
    repeat' split at h
    all_goals simp [EPERM, EINVAL, EAGAIN] at h
  all_goals
    (repeat' split at h) <;>
      simp [goTo_pc, World.join, World.take, World.drop, World.free, put_self, ETIMEDOUT, EBUSY, EAGAIN] at h <;>
      (repeat' split at h) <;> simp at h

/-- a move leaves the other threads where they are, or wakes those that sleep -/
theorem move_other (c : Choice) (hu : u ≠ t) :
    (w.move t c).threads u = w.threads u ∨ (w.move t c).threads u = wakeAll sleeper w.threads u := by
  unfold World.move
  split
  case h_24 =>
    right
    rw [World.goTo, put_other hu]
  all_goals
    left
    (repeat' split) <;> first | rfl | exact put_other hu

theorem move_other_eagain (c : Choice) (hu : u ≠ t) (h : ((w.move t c).threads u).pc = .done (some EAGAIN)) :
    (w.threads u).pc = .done (some EAGAIN) := by
  rcases move_other c hu with hm | hm
  · rwa [hm] at h
  · rw [hm, wakeAll] at h
    split at h
    · rename_i hs
      rcases sleeper_woken hs with ⟨timed, -, hw⟩ | ⟨timed, -, hw⟩
      all_goals
        rw [hw] at h
        cases h
    · exact h

theorem step_eagain (a : Act n) (h : ((w.step a).threads u).pc = .done (some EAGAIN)) :
    (w.threads u).pc = .done (some EAGAIN) ∨ MAX_READERS ≤ w.state ∧ w.state ≠ WRITER := by
  cases a with
  | move t c =>
    rcases eq_or_ne u t with rfl | hu
    · exact move_eagain c h
    · exact .inl (move_other_eagain c hu h)
  | _ t =>
    left
    simp only [World.step] at h
    split at h
    · rcases eq_or_ne u t with rfl | hu
      · rw [goTo_pc] at h
        first | cases h | (split at h <;> cases h)
      · rwa [World.goTo, put_other hu] at h
    · exact h

end Moves

/-! ## Every run -/

theorem inv_init (n : ℕ) : Inv ({} : World n) := by
  have hr : World.readers ({} : World n) = 0 := total_eq_zero.mpr fun _ => rfl
  have hw : World.writing ({} : World n) = 0 := total_eq_zero.mpr fun _ => rfl
  refine ⟨.inl ⟨hr.symm, hw⟩, ?_, fun _ => trivial⟩
  rw [hr]
  exact Nat.zero_le _

theorem reach_inv {n : ℕ} {w : World n} (h : Reach World.step World.heldOnly {} w) : Inv w :=
  h.invariant Inv (inv_init n) fun _ a _ ho hs => step_inv hs a ho

structure Excludes {n : ℕ} (w : World n) : Prop where
  writer : w.state = WRITER ↔ ∃ t, w.Writes t
  counted : (∀ t, ¬w.Writes t) → w.state = w.readers
  alone : ∀ t, w.Writes t → (w.threads t).writes = 1 ∧ (∀ u, ¬w.Reads u) ∧ ∀ u, w.Writes u → u = t
  /-- a thread is told that there are too many readers only while there are as many as there may be -/
  exhausted : ∀ a u, ((w.step a).threads u).pc = .done (some EAGAIN) →
    (w.threads u).pc = .done (some EAGAIN) ∨ w.readers = MAX_READERS

/-- **Writers exclude.** In every reachable state of a lock, with any number of threads on it, each unlocking only what it
holds. -/
theorem rwlock_excludes {n : ℕ} {w : World n} (h : Reach World.step World.heldOnly {} w) : Excludes w := by
  have hw := reach_inv h
  have hstate := hw.state
  have hfits := hw.fits
  have hmax : MAX_READERS < WRITER := by decide
  have hwrites : (∃ t, w.Writes t) ↔ 0 < w.writing := total_pos.symm
  constructor
  · rw [hwrites]
    omega
  · intro hnone
    have : ¬0 < w.writing := fun hpos => by
      obtain ⟨t, ht⟩ := hwrites.mpr hpos
      exact hnone t ht
    omega
  · intro t ht
    have hpos := hwrites.mp ⟨t, ht⟩
    have hle : (w.threads t).writes ≤ w.writing := weight_le_total Thread.writes w.threads t
    have ht' : 0 < (w.threads t).writes := ht
    refine ⟨by omega, ?_, ?_⟩
    · intro u hu
      have hle : (w.threads u).reads ≤ w.readers := weight_le_total Thread.reads w.threads u
      have hu' : 0 < (w.threads u).reads := hu
      omega
    · intro u hu
      by_contra hut
      have hle : (w.threads u).writes + (w.threads t).writes ≤ w.writing := add_le_total hut
      have hu' : 0 < (w.threads u).writes := hu
      omega
  · intro a u hu
    rcases step_eagain a hu with hd | ⟨hle, hne⟩
    · exact .inl hd
    · right
      omega

instance decReads {n : ℕ} (w : World n) (t : Fin n) : Decidable (w.Reads t) := Nat.decLt _ _

instance decWrites {n : ℕ} (w : World n) (t : Fin n) : Decidable (w.Writes t) := Nat.decLt _ _

instance decHeldOnly {n : ℕ} (w : World n) : (a : Act n) → Decidable (w.heldOnly a)
  | .unlock t => inferInstanceAs (Decidable (w.Reads t ∨ w.Writes t))
  | .read .. | .write .. | .move .. => .isTrue trivial

/-- two readers in, and one of them out -/
def readersRun : List (Act 2) :=
  [.read 0 .forever, .move 0 {}, .move 0 {}, .move 0 {}, .move 0 {}, .read 1 .none, .move 1 {}, .move 1 {}, .move 1 {},
    .move 1 {}, .unlock 0, .move 0 {}, .move 0 {}, .move 0 {}]

theorem rwlock_excludes_readers : Excludes (run World.step ({} : World 2) readersRun) :=
  rwlock_excludes (.run .start readersRun (by decide))

end Omnidroid.Bionic.RwLock
