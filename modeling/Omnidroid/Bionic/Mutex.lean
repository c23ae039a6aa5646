/-
A `pthread_mutex` (`omni-bionic/src/mutex.rs`): one word, a table beside it that names the owner, and a futex on the word.

Any number of threads are each somewhere in `lock`, `timedlock`, `trylock` or `unlock` (`Pc`). One step is one read of the
word, one compare-and-swap or store, one access to the table, one look at the clock and the stop switch, one futex call. The
futex compares the word as it parks, and may end a wait for no reason.
- `World.move`: the next step of a thread.
- `Inv`: what holds of the word, the table and each thread's place. `step_inv` keeps it.
- `mutex_guarded`: one holder, named by the table but for a few steps; and no one sleeps on a free word without a wake on
  its way.
-/
import Omnidroid.Errno
import Omnidroid.Lib.Run
import Omnidroid.Lib.Threads

namespace Omnidroid.Bionic.Mutex

/-! ## Where a thread is -/

/-- the word of a mutex that is not recursive: `LOCKED` is 1, `LOCKED_WITH_WAITERS` is 2. A recursive one's is a count -/
def UNLOCKED : ℕ := 0
def LOCKED : ℕ := 1
def LOCKED_WITH_WAITERS : ℕ := 2

def u32Max : ℕ := 2 ^ 32 - 1

inductive Kind where
  | normal | recursive | errorcheck | default
deriving DecidableEq, Repr

inductive Op where
  | lock | timedlock | trylock
deriving DecidableEq, Repr

inductive Pc where
  /-- in the guest, with what the last call returned -/
  | done (code : Option Errno)
  /-- about to read the word, and to ask the table with a word that was not zero -/
  | starts (op : Op)
  | asks (op : Op) (state : ℕ)
  /-- its own: about to count once more -/
  | enters (state : ℕ)
  /-- about to take the word it read as free -/
  | tries (op : Op)
  /-- has the word: about to name itself in the table -/
  | registers
  /-- `contend`: the top of the loop, woken by a release or not -/
  | contends (timed woken : Bool)
  | retries (timed woken : Bool)
  | asksAgain (timed : Bool) (state : ℕ)
  | reenters (state : ℕ)
  /-- about to mark a locked word as waited for -/
  | marks (timed : Bool)
  /-- at the clock and the stop switch, then at the wait -/
  | checks (timed : Bool) (expected : ℕ)
  | waits (timed : Bool) (expected : ℕ)
  | parked (timed : Bool)
  /-- out of time: one last look -/
  | late (timed : Bool)
  | lateTries (timed : Bool)
  | unlocks
  | asksOwner (state : ℕ)
  /-- about to take itself off the table -/
  | clears (state : ℕ)
  /-- about to release a word of 1, or one of 2 -/
  | releases
  | releasesMarked
  | stores (new : ℕ)
  | wakes
deriving DecidableEq, Repr

structure Thread where
  pc : Pc := .done none
  /-- how many times it holds the mutex -/
  holds : ℕ := 0
deriving DecidableEq, Repr

def sleeper : Sleeper Thread where
  sleeps l := match l.pc with
    | .parked _ => true
    | _ => false
  woken l := match l.pc with
    | .parked timed => { l with pc := .contends timed true }
    | _ => l

/-! ## What comes after what -/

/-- where a call that may wait goes when the mutex is not to be had -/
def Op.blocked : Op → Pc
  | .lock => .contends false false
  | .timedlock => .contends true false
  | .trylock => .done (some EBUSY)

/-- with the word read -/
def afterRead (kind : Kind) (op : Op) (state : ℕ) : Pc :=
  if state = UNLOCKED then .tries op
  else
    match kind, op with
    | .recursive, _ => .asks op state
    | .errorcheck, .trylock => .done (some EBUSY)
    | .errorcheck, _ => .asks op state
    | .normal, _ | .default, _ => op.blocked

/-- with the table's answer -/
def afterAsk (kind : Kind) (op : Op) (state : ℕ) (mine : Bool) : Pc :=
  if mine then
    match kind with
    | .recursive => if state = u32Max then .done (some EAGAIN) else .enters state
    | _ => .done (some EDEADLK)
  else op.blocked

def afterReread (kind : Kind) (timed woken : Bool) (state : ℕ) : Pc :=
  if state = UNLOCKED then .retries timed woken
  else if kind = .recursive then .asksAgain timed state
  else if state = LOCKED then .marks timed
  else .checks timed state

/-- a last look that found nothing -/
def afterLate (timed : Bool) : Pc := if timed then .done (some ETIMEDOUT) else .contends false false

def afterUnlockRead (kind : Kind) (state : ℕ) : Pc :=
  if state = UNLOCKED then .done (some EPERM)
  else
    match kind with
    | .errorcheck | .recursive => .asksOwner state
    | .normal | .default => .clears state

def afterAskOwner (kind : Kind) (state : ℕ) (mine : Bool) : Pc :=
  if mine = false then .done (some EPERM)
  else if kind = .recursive ∧ state - 1 ≠ 0 then .stores (state - 1)
  else .clears state

def afterClear : Kind → Pc
  | .errorcheck | .recursive => .stores 0
  | .normal | .default => .releases

/-! ## The machine -/

structure World (n : ℕ) where
  kind : Kind
  word : ℕ := 0
  owner : Option (Fin n) := none
  threads : Fin n → Thread := fun _ => {}

/-- how what is not the mutex's own turns out: the clock, the stop switch, and whom a wake finds -/
structure Choice (n : ℕ) where
  late : Bool := false
  interrupted : Bool := false
  who : Option (Fin n) := none
deriving DecidableEq

inductive Act (n : ℕ) where
  | call (t : Fin n) (op : Op)
  | unlock (t : Fin n)
  | move (t : Fin n) (c : Choice n)
deriving DecidableEq

namespace World

variable {n : ℕ}

def put (w : World n) (t : Fin n) (l : Thread) : World n := { w with threads := Function.update w.threads t l }

def goTo (w : World n) (t : Fin n) (pc : Pc) : World n := w.put t { w.threads t with pc }

/-- the word taken: the thread holds the mutex once -/
def take (w : World n) (t : Fin n) : World n :=
  { w with word := LOCKED }.put t ⟨.registers, (w.threads t).holds + 1⟩

/-- a count of a recursive mutex stored by its holder -/
def count (w : World n) (t : Fin n) (state : ℕ) : World n :=
  { w with word := state + 1 }.put t ⟨.done none, (w.threads t).holds + 1⟩

/-- the word let go of, or counted down -/
def release (w : World n) (t : Fin n) (new : ℕ) : World n :=
  { w with word := new }.put t ⟨if new = 0 then .wakes else .done none, (w.threads t).holds - 1⟩

def move (w : World n) (t : Fin n) (c : Choice n) : World n :=
  match (w.threads t).pc with
  | .done _ => w
  | .starts op => w.goTo t (afterRead w.kind op w.word)
  | .asks op state => w.goTo t (afterAsk w.kind op state (w.owner = some t))
  | .enters state => w.count t state
  | .tries op => if w.word = UNLOCKED then w.take t else w.goTo t op.blocked
  | .registers => { w with owner := some t }.goTo t (.done none)
  | .contends timed woken => w.goTo t (afterReread w.kind timed woken w.word)
  | .retries timed _ => if w.word = UNLOCKED then w.take t else w.goTo t (.contends timed false)
  | .asksAgain timed state => w.goTo t (if w.owner = some t then .reenters state else .checks timed state)
  | .reenters state => w.count t state
  | .marks timed =>
    if w.word = LOCKED then { w with word := LOCKED_WITH_WAITERS }.goTo t (.checks timed LOCKED_WITH_WAITERS)
    else w.goTo t (.contends timed false)
  | .checks timed expected =>
    if timed ∧ c.late then w.goTo t (.done (some ETIMEDOUT))
    else if c.interrupted then w.goTo t (.done (some EINTR))
    else w.goTo t (.waits timed expected)
  | .waits timed expected =>
    -- a futex that will not block, or a word that is another by now
    if c.interrupted ∨ w.word ≠ expected then w.goTo t (.contends timed false) else w.goTo t (.parked timed)
  | .parked timed => w.goTo t (if c.late then .late timed else .contends timed false)
  | .late timed => w.goTo t (if w.word = UNLOCKED then .lateTries timed else afterLate timed)
  | .lateTries timed => if w.word = UNLOCKED then w.take t else w.goTo t (afterLate timed)
  | .unlocks => w.goTo t (afterUnlockRead w.kind w.word)
  | .asksOwner state => w.goTo t (afterAskOwner w.kind state (w.owner = some t))
  | .clears _ => { w with owner := none }.goTo t (afterClear w.kind)
  | .releases => if w.word = LOCKED then w.release t 0 else w.goTo t .releasesMarked
  | .releasesMarked => if w.word = LOCKED_WITH_WAITERS then w.release t 0 else w.goTo t (.done (some EPERM))
  | .stores new => w.release t new
  | .wakes =>
    match wakeOne sleeper w.threads c.who with
    | none => w
    | some threads => { w with threads }.goTo t (.done none)

def step (w : World n) : Act n → World n
  | .call t op =>
    match (w.threads t).pc with
    | .done _ => w.goTo t (.starts op)
    | _ => w
  | .unlock t =>
    match (w.threads t).pc with
    | .done _ => w.goTo t .unlocks
    | _ => w
  | .move t c => w.move t c

def Holds (w : World n) (t : Fin n) : Prop := 0 < (w.threads t).holds

/-- an unlock is made by a thread that holds the mutex -/
def heldOnly (w : World n) : Act n → Prop
  | .unlock t => w.Holds t
  | _ => True

end World

/-! ## What holds -/

/-- between the word and the table: taken and not registered yet, or off the table and not let go yet -/
def Pc.between : Pc → Prop
  | .registers | .releases | .releasesMarked => True
  | .stores new => new = 0
  | _ => False

def Pc.sleeps : Pc → Prop
  | .parked _ => True
  | _ => False

/-- a wake is still to be made, or its thread has yet to try for the word -/
def Pc.helps : Pc → Prop
  | .wakes => True
  | .contends _ woken | .retries _ woken => woken = true
  | _ => False

/-- the kinds whose word is 0, 1 or 2 and whose owner no one checks -/
def Kind.plain (kind : Kind) : Prop := kind = .normal ∨ kind = .default

/-- what a thread's place says of the word and of itself -/
def Placed (kind : Kind) (word : ℕ) (l : Thread) : Prop :=
  match l.pc with
  | .asks _ state => kind = .recursive → 0 < l.holds → state = word
  | .enters state => kind = .recursive ∧ 0 < l.holds ∧ state = word ∧ state ≠ u32Max
  | .tries _ => l.holds = 0
  | .registers => 0 < l.holds
  | .contends .. | .retries .. | .parked _ | .late _ | .lateTries _ => kind = .recursive → l.holds = 0
  | .marks _ => kind ≠ .recursive
  | .asksAgain _ state => state ≠ 0 ∧ kind = .recursive ∧ l.holds = 0
  | .checks _ state | .waits _ state => state ≠ 0 ∧ (kind = .recursive → l.holds = 0)
  | .reenters _ => False
  | .unlocks => 0 < l.holds
  | .asksOwner state => ¬kind.plain ∧ 0 < l.holds ∧ (kind = .recursive → state = word)
  | .clears _ => 0 < l.holds ∧ (kind = .recursive → word = 1)
  | .releases => 0 < l.holds ∧ kind.plain
  | .releasesMarked => 0 < l.holds ∧ kind.plain ∧ word = 2
  | .stores new => 0 < l.holds ∧ ¬kind.plain ∧ (kind = .errorcheck → new = 0) ∧ (kind = .recursive → new + 1 = word)
  | .done _ | .starts _ | .wakes => True

structure Inv {n : ℕ} (w : World n) : Prop where
  exclusive : ∀ t u, w.Holds t → w.Holds u → t = u
  free : w.word = 0 ↔ ∀ t, ¬w.Holds t
  owner : ∀ t, w.owner = some t ↔ w.Holds t ∧ ¬(w.threads t).pc.between
  count : w.kind = .recursive → ∀ t, w.Holds t → w.word = (w.threads t).holds
  once : w.kind ≠ .recursive → w.word ≤ 2 ∧ ∀ t, (w.threads t).holds ≤ 1
  fits : w.word ≤ u32Max
  placed : ∀ t, Placed w.kind w.word (w.threads t)
  wakes : w.word = 0 → ∀ t, (w.threads t).pc.sleeps → ∃ u, (w.threads u).pc.helps

section Moves

variable {n : ℕ} {w : World n} {t u : Fin n} {pc : Pc} {l : Thread} {word : ℕ}

theorem put_other (hu : u ≠ t) : (w.put t l).threads u = w.threads u := Function.update_of_ne hu ..

theorem put_self : (w.put t l).threads t = l := Function.update_self ..

/-- a place stays right while the word is as it was, or one that is not the holder's thread marks it -/
theorem Placed.stays {kind : Kind} {word' : ℕ} (h : Placed kind word l)
    (hw : 0 < l.holds → word' = word ∨ kind ≠ .recursive ∧ word = 1 ∧ word' = 2) : Placed kind word' l := by
  have hrec : kind = .recursive → 0 < l.holds → word' = word := by
    intro hk hl
    rcases hw hl with hw | ⟨hne, -, -⟩
    · exact hw
    · exact absurd hk hne
  unfold Placed at h ⊢
  split at h
  · intro hk hl
    rw [hrec hk hl]
    exact h hk hl
  · rw [hrec h.1 h.2.1]
    exact h
  all_goals try exact h
  · refine ⟨h.1, h.2.1, ?_⟩
    intro hk
    rw [hrec hk h.2.1]
    exact h.2.2 hk
  · refine ⟨h.1, ?_⟩
    intro hk
    rw [hrec hk h.1]
    exact h.2 hk
  · refine ⟨h.1, h.2.1, ?_⟩
    rcases hw h.1 with hw | ⟨-, hone, -⟩
    · exact hw.trans h.2.2
    · omega
  · refine ⟨h.1, h.2.1, h.2.2.1, ?_⟩
    intro hk
    rw [hrec hk h.1]
    exact h.2.2.2 hk

/-- one thread's move keeps the invariant: what is to be shown of the thread, and of the word and the table for the others -/
theorem Inv.moved {w' : World n} (h : Inv w) (hk : w'.kind = w.kind) (ht : w'.threads = Function.update w.threads t l)
    (hother : 0 < l.holds → ∀ u, u ≠ t → ¬w.Holds u)
    (hfree : w'.word = 0 ↔ l.holds = 0 ∧ ∀ u, u ≠ t → ¬w.Holds u)
    (howner : w'.owner = some t ↔ 0 < l.holds ∧ ¬l.pc.between)
    (howners : ∀ u, u ≠ t → (w'.owner = some u ↔ w.owner = some u))
    (hcount : w.kind = .recursive → 0 < l.holds → w'.word = l.holds)
    (honce : w.kind ≠ .recursive → w'.word ≤ 2 ∧ l.holds ≤ 1) (hfits : w'.word ≤ u32Max)
    (hplaced : Placed w.kind w'.word l)
    (hword : ∀ u, u ≠ t → w.Holds u → w'.word = w.word ∨ w.kind ≠ .recursive ∧ w.word = 1 ∧ w'.word = 2)
    (hwakes : w'.word = 0 → l.pc.helps ∨ (∃ u, u ≠ t ∧ (w.threads u).pc.helps) ∨
      ¬l.pc.sleeps ∧ ((∀ u, u ≠ t → ¬(w.threads u).pc.sleeps) ∨ w.word = 0 ∧ ¬(w.threads t).pc.helps)) : Inv w' := by
  have hself : w'.threads t = l := by rw [ht, Function.update_self]
  have hne : ∀ u, u ≠ t → w'.threads u = w.threads u := fun u hu => by rw [ht, Function.update_of_ne hu]
  have hholds : ∀ u, u ≠ t → (w'.Holds u ↔ w.Holds u) := fun u hu => by rw [World.Holds, World.Holds, hne u hu]
  have hholds' : w'.Holds t ↔ 0 < l.holds := by rw [World.Holds, hself]
  constructor
  · intro u v hu hv
    rcases eq_or_ne u t with rfl | hut
    · rcases eq_or_ne v u with rfl | hvt
      · rfl
      · exact absurd ((hholds v hvt).mp hv) (hother (hholds'.mp hu) v hvt)
    · rcases eq_or_ne v t with rfl | hvt
      · exact absurd ((hholds u hut).mp hu) (hother (hholds'.mp hv) u hut)
      · exact h.exclusive u v ((hholds u hut).mp hu) ((hholds v hvt).mp hv)
  · rw [hfree]
    constructor
    · rintro ⟨h₁, h₂⟩ u hu
      rcases eq_or_ne u t with rfl | hut
      · have := hholds'.mp hu
        omega
      · exact h₂ u hut ((hholds u hut).mp hu)
    · intro hall
      refine ⟨?_, fun u hut hu => hall u ((hholds u hut).mpr hu)⟩
      have := hall t
      rw [hholds'] at this
      omega
  · intro u
    rcases eq_or_ne u t with rfl | hut
    · rw [howner, hholds', hself]
    · rw [howners u hut, h.owner, hholds u hut, hne u hut]
  · intro hrec u hu
    rw [hk] at hrec
    rcases eq_or_ne u t with rfl | hut
    · rw [hself]
      exact hcount hrec (hholds'.mp hu)
    · have hu' := (hholds u hut).mp hu
      rw [hne u hut, ← h.count hrec u hu']
      rcases hword u hut hu' with hw | ⟨hn, -, -⟩
      · exact hw
      · exact absurd hrec hn
  · intro hrec
    rw [hk] at hrec
    refine ⟨(honce hrec).1, ?_⟩
    intro u
    rcases eq_or_ne u t with rfl | hut
    · rw [hself]
      exact (honce hrec).2
    · rw [hne u hut]
      exact (h.once hrec).2 u
  · exact hfits
  · intro u
    rw [hk]
    rcases eq_or_ne u t with rfl | hut
    · rw [hself]
      exact hplaced
    · rw [hne u hut]
      exact (h.placed u).stays fun hu => hword u hut hu
  · intro hw u hu
    rcases hwakes hw with hl | ⟨v, hvt, hv⟩ | ⟨hl, hrest⟩
    · exact ⟨t, by rwa [hself]⟩
    · exact ⟨v, by rwa [hne v hvt]⟩
    · have hut : u ≠ t := by
        rintro rfl
        exact hl (by rwa [hself] at hu)
      rw [hne u hut] at hu
      rcases hrest with hnone | ⟨hw₀, hnot⟩
      · exact absurd hu (hnone u hut)
      · obtain ⟨v, hv⟩ := h.wakes hw₀ u hu
        have hvt : v ≠ t := by
          rintro rfl
          exact hnot hv
        exact ⟨v, by rwa [hne v hvt]⟩

/-- a move that changes no more than where the thread is -/
theorem Inv.goTo (h : Inv w) (hplaced : Placed w.kind w.word { w.threads t with pc })
    (hbetween : w.Holds t → (pc.between ↔ (w.threads t).pc.between))
    (hwakes : w.word = 0 → pc.helps ∨ (∃ u, u ≠ t ∧ (w.threads u).pc.helps) ∨
      ¬pc.sleeps ∧ ((∀ u, u ≠ t → ¬(w.threads u).pc.sleeps) ∨ w.word = 0 ∧ ¬(w.threads t).pc.helps)) :
    Inv (w.goTo t pc) := by
  refine h.moved rfl rfl ?_ ?_ ?_ (fun u _ => Iff.rfl) ?_ ?_ h.fits hplaced (fun u _ _ => .inl rfl) hwakes
  · intro ht u hut hu
    exact hut (h.exclusive u t hu ht)
  · change w.word = 0 ↔ (w.threads t).holds = 0 ∧ _
    rw [h.free]
    constructor
    · intro hall
      exact ⟨by have := hall t; unfold World.Holds at this; omega, fun u _ => hall u⟩
    · rintro ⟨ht, hall⟩ u
      rcases eq_or_ne u t with rfl | hut
      · unfold World.Holds
        omega
      · exact hall u hut
  · change w.owner = some t ↔ w.Holds t ∧ ¬pc.between
    rw [h.owner]
    constructor
    · rintro ⟨ht, hb⟩
      exact ⟨ht, fun hp => hb ((hbetween ht).mp hp)⟩
    · rintro ⟨ht, hb⟩
      exact ⟨ht, fun hp => hb ((hbetween ht).mpr hp)⟩
  · intro hrec ht
    exact h.count hrec t ht
  · intro hrec
    exact ⟨(h.once hrec).1, (h.once hrec).2 t⟩

/-- one that neither goes to sleep nor gives up trying on a free word -/
theorem Inv.quiet (h : Inv w) (hplaced : Placed w.kind w.word { w.threads t with pc })
    (hbetween : w.Holds t → (pc.between ↔ (w.threads t).pc.between)) (hsleeps : pc.sleeps → w.word ≠ 0)
    (hhelps : (w.threads t).pc.helps → w.word ≠ 0 ∨ pc.helps) : Inv (w.goTo t pc) := by
  refine h.goTo hplaced hbetween ?_
  intro hw
  rcases em pc.helps with hp | hp
  · exact .inl hp
  · refine .inr (.inr ⟨fun hs => hsleeps hs hw, .inr ⟨hw, ?_⟩⟩)
    intro ht
    rcases hhelps ht with hne | hp'
    · exact hne hw
    · exact hp hp'

theorem Inv.take (h : Inv w) (hw : w.word = 0) : Inv (w.take t) := by
  have hnone := h.free.mp hw
  have hzero : (w.threads t).holds = 0 := by
    have := hnone t
    unfold World.Holds at this
    omega
  refine h.moved rfl rfl (fun _ u _ => hnone u) ?_ ?_ (fun u _ => Iff.rfl) ?_ ?_ ?_ ?_ (fun u _ hu => absurd hu (hnone u)) ?_
  · simp [World.take, World.put, LOCKED]
  · change w.owner = some t ↔ _
    simp [h.owner, hnone t, Pc.between]
  · intro _ _
    simp [World.take, World.put, LOCKED, hzero]
  · intro _
    simp [World.take, World.put, LOCKED, hzero]
  · simp [World.take, World.put, LOCKED, u32Max]
  · simp [Placed]
  · intro (hw' : LOCKED = 0)
    cases hw'

/-- the thread that holds the mutex is the only one that does -/
theorem Inv.alone (h : Inv w) (ht : w.Holds t) : (∀ u, u ≠ t → ¬w.Holds u) ∧ w.word ≠ 0 :=
  ⟨fun u hut hu => hut (h.exclusive u t hu ht), fun hw => h.free.mp hw t ht⟩

theorem Inv.count_again {state : ℕ} (h : Inv w) (hpc : (w.threads t).pc = .enters state) : Inv (w.count t state) := by
  have hp := h.placed t
  rw [Placed, hpc] at hp
  obtain ⟨hrec, ht, rfl, hmax⟩ := hp
  obtain ⟨hother, -⟩ := h.alone ht
  have hcount := h.count hrec t ht
  have hfits := h.fits
  refine h.moved rfl rfl (fun _ => hother) ?_ ?_ (fun u _ => Iff.rfl) ?_ (fun hne => absurd hrec hne) ?_ ?_
    (fun u hut hu => absurd hu (hother u hut)) ?_
  · simp [World.count, World.put]
  · change w.owner = some t ↔ _
    rw [h.owner, hpc]
    simp [Pc.between, World.Holds, ht]
  · intro _ _
    simp [World.count, World.put, hcount]
  · simp only [World.count, World.put]
    omega
  · simp [Placed]
  · intro hw
    simp [World.count, World.put] at hw

theorem Inv.register (h : Inv w) (hpc : (w.threads t).pc = .registers) :
    Inv ({ w with owner := some t }.goTo t (.done none)) := by
  have ht := h.placed t
  rw [Placed, hpc] at ht
  obtain ⟨hother, hw⟩ := h.alone ht
  refine h.moved rfl rfl (fun _ => hother) ?_ ?_ ?_ (fun hrec _ => h.count hrec t ht)
    (fun hrec => ⟨(h.once hrec).1, (h.once hrec).2 t⟩) h.fits ?_ (fun u _ _ => .inl rfl) (fun hw' => absurd hw' hw)
  · refine iff_of_false hw ?_
    rintro ⟨hz, -⟩
    exact ht.ne' hz
  · refine iff_of_true rfl ⟨ht, ?_⟩
    simp [Pc.between]
  · intro u hut
    refine iff_of_false ?_ fun hu => hother u hut ((h.owner u).mp hu).1
    intro hu
    exact hut (Option.some.inj hu).symm
  · simp [Placed]

theorem Inv.mark {timed : Bool} (h : Inv w) (hpc : (w.threads t).pc = .marks timed) (hw : w.word = 1) :
    Inv ({ w with word := LOCKED_WITH_WAITERS }.goTo t (.checks timed LOCKED_WITH_WAITERS)) := by
  have hrec := h.placed t
  rw [Placed, hpc] at hrec
  simp only at hrec
  have hheld : w.word ≠ 0 := by omega
  refine h.moved rfl rfl ?_ ?_ ?_ (fun u _ => Iff.rfl) (fun hr => absurd hr hrec) (fun _ => ⟨le_refl _, (h.once hrec).2 t⟩) ?_ ?_
    (fun u _ _ => .inr ⟨hrec, hw, rfl⟩) ?_
  · intro ht
    exact (h.alone ht).1
  · refine iff_of_false (by simp [World.goTo, World.put, LOCKED_WITH_WAITERS]) ?_
    rintro ⟨hz, hnone⟩
    refine hheld (h.free.mpr ?_)
    intro u
    rcases eq_or_ne u t with rfl | hut
    · intro hu
      exact hu.ne' hz
    · exact hnone u hut
  · change w.owner = some t ↔ w.Holds t ∧ _
    rw [h.owner, hpc]
    simp [Pc.between]
  · simp [World.goTo, World.put, LOCKED_WITH_WAITERS, u32Max]
  · exact ⟨by simp [LOCKED_WITH_WAITERS], fun hr => absurd hr hrec⟩
  · intro hw'
    cases hw'

theorem Inv.clear {state : ℕ} (h : Inv w) (hpc : (w.threads t).pc = .clears state) :
    Inv ({ w with owner := none }.goTo t (afterClear w.kind)) := by
  have hp := h.placed t
  rw [Placed, hpc] at hp
  obtain ⟨ht, hone⟩ := hp
  obtain ⟨hother, hw⟩ := h.alone ht
  have hbetween : (afterClear w.kind).between := by
    unfold afterClear
    split <;> simp [Pc.between]
  refine h.moved rfl rfl (fun _ => hother) ?_ ?_ ?_ (fun hrec _ => h.count hrec t ht)
    (fun hrec => ⟨(h.once hrec).1, (h.once hrec).2 t⟩) h.fits ?_ (fun u _ _ => .inl rfl) (fun hw' => absurd hw' hw)
  · refine iff_of_false hw ?_
    rintro ⟨hz, -⟩
    exact ht.ne' hz
  · refine iff_of_false (by simp [World.goTo, World.put]) ?_
    rintro ⟨-, hb⟩
    exact hb hbetween
  · intro u hut
    refine iff_of_false (by simp [World.goTo, World.put]) fun hu => hother u hut ((h.owner u).mp hu).1
  · change Placed w.kind w.word { w.threads t with pc := afterClear w.kind }
    cases hk : w.kind <;> simp_all [Placed, afterClear, Kind.plain]

/-- the word let go of by a thread that is off the table, or counted down by one that keeps it -/
theorem Inv.release {new : ℕ} (h : Inv w) (ht : w.Holds t)
    (hnew : new = 0 ∧ (w.threads t).pc.between ∧ (w.kind = .recursive → w.word = 1) ∨
      w.kind = .recursive ∧ new ≠ 0 ∧ new + 1 = w.word ∧ ¬(w.threads t).pc.between) : Inv (w.release t new) := by
  obtain ⟨hother, hw⟩ := h.alone ht
  have hfits := h.fits
  have hpos : 0 < (w.threads t).holds := ht
  have hleft : (w.threads t).holds - 1 = 0 ↔ new = 0 := by
    rcases em (w.kind = .recursive) with hrec | hrec
    · have := h.count hrec t ht
      rcases hnew with ⟨hz, -, h1⟩ | ⟨-, hnz, h1, -⟩
      · have := h1 hrec
        omega
      · omega
    · have := (h.once hrec).2 t
      rcases hnew with ⟨hz, -, -⟩ | ⟨hrec', -⟩
      · omega
      · exact absurd hrec' hrec
  refine h.moved rfl rfl (fun _ => hother) ?_ ?_ (fun u _ => Iff.rfl) ?_ ?_ ?_ ?_ (fun u hut hu => absurd hu (hother u hut)) ?_
  · change new = 0 ↔ (w.threads t).holds - 1 = 0 ∧ _
    rw [hleft]
    exact ⟨fun hz => ⟨hz, hother⟩, fun hz => hz.1⟩
  · change w.owner = some t ↔ 0 < (w.threads t).holds - 1 ∧ ¬(if new = 0 then Pc.wakes else .done none).between
    rw [h.owner, Nat.pos_iff_ne_zero, ne_eq, hleft]
    rcases hnew with ⟨hz, hb, -⟩ | ⟨-, hnz, -, hb⟩
    · simp [hz, hb]
    · have hdone : ¬(Pc.done none).between := id
      simp [hnz, hb, ht, hdone]
  · intro hrec _
    change new = (w.threads t).holds - 1
    have := h.count hrec t ht
    rcases hnew with ⟨hz, -, h1⟩ | ⟨-, -, h1, -⟩
    · have := h1 hrec
      omega
    · omega
  · intro hrec
    change new ≤ 2 ∧ (w.threads t).holds - 1 ≤ 1
    have := (h.once hrec).2 t
    rcases hnew with ⟨hz, -, -⟩ | ⟨hrec', -⟩
    · omega
    · exact absurd hrec' hrec
  · change new ≤ u32Max
    rcases hnew with ⟨hz, -, -⟩ | ⟨-, -, h1, -⟩ <;> omega
  · change Placed w.kind new ⟨if new = 0 then .wakes else .done none, _⟩
    split <;> simp [Placed]
  · intro (hz : new = 0)
    refine .inl ?_
    simp [hz, Pc.helps]

theorem sleeper_sleeps : sleeper.sleeps l = true ↔ l.pc.sleeps := by
  simp only [sleeper, Pc.sleeps]
  split <;> simp

theorem sleeper_woken (h : sleeper.sleeps l = true) :
    ∃ timed, l.pc = .parked timed ∧ sleeper.woken l = { l with pc := .contends timed true } := by
  simp only [sleeper] at h ⊢
  split at h
  · rename_i timed hpc
    exact ⟨timed, hpc, rfl⟩
  · cases h

/-- a wake finds someone, who tries again, or no one is asleep -/
theorem Inv.wake {who : Option (Fin n)} {threads : Fin n → Thread} (h : Inv w) (hpc : (w.threads t).pc = .wakes)
    (hwake : wakeOne sleeper w.threads who = some threads) : Inv ({ w with threads }.goTo t (.done none)) := by
  rcases wakeOne_eq_some hwake with ⟨u, hu, rfl⟩ | ⟨hnone, rfl⟩
  · obtain ⟨timed, hparked, hwoken⟩ := sleeper_woken hu
    have hut : u ≠ t := by
      rintro rfl
      rw [hpc] at hparked
      cases hparked
    have hp := h.placed u
    rw [Placed, hparked] at hp
    -- first the sleeper's move, then the waker's own
    have h₁ : Inv (w.goTo u (.contends timed true)) := by
      refine h.quiet hp ?_ ?_ ?_
      · intro _
        rw [hparked]
        exact Iff.rfl
      · exact False.elim
      · intro _
        exact .inr rfl
    have hself : (w.goTo u (.contends timed true)).threads t = w.threads t := put_other hut.symm
    rw [hwoken]
    refine h₁.goTo trivial ?_ ?_
    · intro _
      rw [hself, hpc]
      exact Iff.rfl
    · intro _
      refine .inr (.inl ⟨u, hut, ?_⟩)
      rw [World.goTo, put_self]
      rfl
  · refine h.goTo trivial ?_ ?_
    · intro _
      rw [hpc]
      exact Iff.rfl
    · intro _
      refine .inr (.inr ⟨id, .inl ?_⟩)
      intro u _ hu
      rw [← sleeper_sleeps, hnone u] at hu
      cases hu

/-! ## Steps -/

/-- a move between places where the thread is neither between word and table nor asleep, from one where it is no help -/
theorem Inv.calm (h : Inv w) (hplaced : Placed w.kind w.word { w.threads t with pc })
    (hnew : ¬pc.between ∧ ¬pc.sleeps) (hold : ¬(w.threads t).pc.between ∧ ¬(w.threads t).pc.helps) : Inv (w.goTo t pc) :=
  h.quiet hplaced (fun _ => iff_of_false hnew.1 hold.1) (fun hs => absurd hs hnew.2) fun hh => absurd hh hold.2

theorem blocked_calm (op : Op) : ¬op.blocked.between ∧ ¬op.blocked.sleeps := by
  cases op <;> exact ⟨id, id⟩

theorem blocked_placed {kind : Kind} (op : Op) (h : kind = .recursive → l.holds = 0) :
    Placed kind word { l with pc := op.blocked } := by
  cases op
  · exact h
  · exact h
  · trivial

theorem Inv.starts {op : Op} (h : Inv w) (hpc : (w.threads t).pc = .starts op) : Inv (w.goTo t (afterRead w.kind op w.word)) := by
  have hfree := h.free
  refine h.calm ?_ ?_ (by rw [hpc]; exact ⟨id, id⟩)
  · unfold afterRead
    split
    · rename_i hw
      have := hfree.mp hw t
      unfold World.Holds at this
      simp only [Placed]
      omega
    · cases hk : w.kind with
      | recursive => exact fun _ _ => rfl
      | errorcheck =>
        cases op
        · exact fun _ _ => rfl
        · exact fun _ _ => rfl
        · trivial
      | normal => exact blocked_placed op fun hr => by cases hr
      | default => exact blocked_placed op fun hr => by cases hr
  · unfold afterRead
    split
    · exact ⟨id, id⟩
    · cases w.kind with
      | recursive => exact ⟨id, id⟩
      | errorcheck => cases op <;> exact ⟨id, id⟩
      | normal => exact blocked_calm op
      | default => exact blocked_calm op

theorem Inv.asks {op : Op} {state : ℕ} (h : Inv w) (hpc : (w.threads t).pc = .asks op state) :
    Inv (w.goTo t (afterAsk w.kind op state (w.owner = some t))) := by
  have hp := h.placed t
  rw [Placed, hpc] at hp
  simp only at hp
  have howner := h.owner t
  rw [hpc] at howner
  refine h.calm ?_ ?_ (by rw [hpc]; exact ⟨id, id⟩)
  · unfold afterAsk
    split
    · rename_i hmine
      have ht := (howner.mp (of_decide_eq_true hmine)).1
      split
      · rename_i hk
        split
        · trivial
        · rename_i hmax
          exact ⟨hk, ht, hp hk ht, hmax⟩
      · trivial
    · rename_i hmine
      apply blocked_placed
      intro _
      have : ¬w.Holds t := fun ht => hmine (decide_eq_true (howner.mpr ⟨ht, id⟩))
      unfold World.Holds at this
      omega
  · unfold afterAsk
    repeat' split
    all_goals first | exact ⟨id, id⟩ | exact blocked_calm op

theorem Inv.tries {op : Op} (h : Inv w) (hpc : (w.threads t).pc = .tries op) : Inv (w.goTo t op.blocked) := by
  have hp := h.placed t
  rw [Placed, hpc] at hp
  exact h.calm (blocked_placed op fun _ => hp) (blocked_calm op) (by rw [hpc]; exact ⟨id, id⟩)

theorem Inv.contends {timed woken : Bool} (h : Inv w) (hpc : (w.threads t).pc = .contends timed woken) :
    Inv (w.goTo t (afterReread w.kind timed woken w.word)) := by
  have hp := h.placed t
  rw [Placed, hpc] at hp
  simp only at hp
  unfold afterReread
  split
  · refine h.quiet hp ?_ ?_ ?_
    · intro _
      rw [hpc]
      exact Iff.rfl
    · exact False.elim
    · rw [hpc]
      exact .inr
  · rename_i hw
    -- the word it read is not free, so a try is no longer owed
    have hmoved : ∀ pc, ¬pc.between ∧ ¬pc.sleeps → Placed w.kind w.word { w.threads t with pc } → Inv (w.goTo t pc) := by
      intro pc hnew hplaced
      refine h.quiet hplaced (fun _ => iff_of_false hnew.1 (by rw [hpc]; exact id)) (fun hs => absurd hs hnew.2) ?_
      intro _
      exact .inl hw
    split
    · rename_i hrec
      exact hmoved _ ⟨id, id⟩ ⟨hw, hrec, hp hrec⟩
    · rename_i hrec
      split
      · exact hmoved _ ⟨id, id⟩ hrec
      · exact hmoved _ ⟨id, id⟩ ⟨hw, hp⟩

theorem Inv.retries {timed woken : Bool} (h : Inv w) (hpc : (w.threads t).pc = .retries timed woken) (hw : w.word ≠ 0) :
    Inv (w.goTo t (.contends timed false)) := by
  have hp := h.placed t
  rw [Placed, hpc] at hp
  refine h.quiet hp ?_ ?_ ?_
  · intro _
    rw [hpc]
    exact Iff.rfl
  · exact False.elim
  · intro _
    exact .inl hw

theorem Inv.asksAgain {timed : Bool} {state : ℕ} (h : Inv w) (hpc : (w.threads t).pc = .asksAgain timed state) :
    Inv (w.goTo t (if w.owner = some t then .reenters state else .checks timed state)) := by
  have hp := h.placed t
  rw [Placed, hpc] at hp
  simp only at hp
  have hnot : w.owner ≠ some t := by
    intro ho
    exact ((h.owner t).mp ho).1.ne' hp.2.2
  rw [if_neg hnot]
  exact h.calm ⟨hp.1, fun _ => hp.2.2⟩ ⟨id, id⟩ (by rw [hpc]; exact ⟨id, id⟩)

theorem afterLate_placed {kind : Kind} {timed : Bool} (h : kind = .recursive → l.holds = 0) :
    Placed kind word { l with pc := afterLate timed } := by
  unfold afterLate
  split
  · trivial
  · exact h

theorem afterLate_calm (timed : Bool) : ¬(afterLate timed).between ∧ ¬(afterLate timed).sleeps := by
  unfold afterLate
  split <;> exact ⟨id, id⟩

theorem Inv.unlocks (h : Inv w) (hpc : (w.threads t).pc = .unlocks) : Inv (w.goTo t (afterUnlockRead w.kind w.word)) := by
  have ht := h.placed t
  rw [Placed, hpc] at ht
  have hw := (h.alone ht).2
  refine h.calm ?_ ?_ (by rw [hpc]; exact ⟨id, id⟩)
  · unfold afterUnlockRead
    rw [if_neg (show ¬w.word = UNLOCKED from hw)]
    split
    · rename_i hk
      exact ⟨by simp [Kind.plain, hk], ht, fun _ => rfl⟩
    · rename_i hk
      exact ⟨by simp [Kind.plain, hk], ht, fun _ => rfl⟩
    · rename_i hk
      exact ⟨ht, fun hr => by simp [hk] at hr⟩
    · rename_i hk
      exact ⟨ht, fun hr => by simp [hk] at hr⟩
  · unfold afterUnlockRead
    repeat' split
    all_goals exact ⟨id, id⟩

theorem Inv.asksOwner {state : ℕ} (h : Inv w) (hpc : (w.threads t).pc = .asksOwner state) :
    Inv (w.goTo t (afterAskOwner w.kind state (w.owner = some t))) := by
  have hp := h.placed t
  rw [Placed, hpc] at hp
  obtain ⟨hplain, ht, hstate⟩ := hp
  have hw := (h.alone ht).2
  have hmine : w.owner = some t := (h.owner t).mpr ⟨ht, by rw [hpc]; exact id⟩
  simp only [afterAskOwner, hmine, decide_true, Bool.true_eq_false, if_false]
  split
  · rename_i hmore
    refine h.calm ⟨ht, hplain, ?_, ?_⟩ ⟨?_, id⟩ (by rw [hpc]; exact ⟨id, id⟩)
    · intro hk
      rw [hmore.1] at hk
      cases hk
    · intro hk
      have := hstate hk
      change state - 1 + 1 = w.word
      omega
    · exact hmore.2
  · rename_i hmore
    refine h.calm ⟨ht, ?_⟩ ⟨id, id⟩ (by rw [hpc]; exact ⟨id, id⟩)
    intro hk
    have := hstate hk
    have : state - 1 = 0 := by
      by_contra hne
      exact hmore ⟨hk, hne⟩
    change w.word = 1
    omega

theorem move_inv (h : Inv w) (c : Choice n) : Inv (w.move t c) := by
  have hp := h.placed t
  unfold World.move
  split <;> rename_i hpc <;> rw [Placed, hpc] at hp
  case h_1 => exact h
  case h_2 => exact h.starts hpc
  case h_3 => exact h.asks hpc
  case h_4 => exact h.count_again hpc
  case h_5 =>
    split
    · rename_i hw
      exact h.take hw
    · exact h.tries hpc
  case h_6 => exact h.register hpc
  case h_7 => exact h.contends hpc
  case h_8 =>
    split
    · rename_i hw
      exact h.take hw
    · rename_i hw
      exact h.retries hpc hw
  case h_9 => exact h.asksAgain hpc
  case h_10 => exact hp.elim
  case h_11 =>
    split
    · rename_i hw
      exact h.mark hpc hw
    · refine h.calm (fun hr => absurd hr hp) ⟨id, id⟩ (by rw [hpc]; exact ⟨id, id⟩)
  case h_12 =>
    have hold : ¬(w.threads t).pc.between ∧ ¬(w.threads t).pc.helps := by rw [hpc]; exact ⟨id, id⟩
    split
    · exact h.calm trivial ⟨id, id⟩ hold
    · split
      · exact h.calm trivial ⟨id, id⟩ hold
      · exact h.calm hp ⟨id, id⟩ hold
  case h_13 =>
    have hold : ¬(w.threads t).pc.between ∧ ¬(w.threads t).pc.helps := by rw [hpc]; exact ⟨id, id⟩
    split
    · exact h.calm hp.2 ⟨id, id⟩ hold
    · rename_i hw
      refine h.quiet hp.2 (fun _ => iff_of_false id hold.1) ?_ (fun hh => absurd hh hold.2)
      intro _
      have : w.word = _ := not_not.mp fun hne => hw (.inr hne)
      rw [this]
      exact hp.1
  case h_14 =>
    refine h.calm ?_ ?_ (by rw [hpc]; exact ⟨id, id⟩)
    · split <;> exact hp
    · split <;> exact ⟨id, id⟩
  case h_15 =>
    refine h.calm ?_ ?_ (by rw [hpc]; exact ⟨id, id⟩)
    · split
      · exact hp
      · exact afterLate_placed hp
    · split
      · exact ⟨id, id⟩
      · exact afterLate_calm _
  case h_16 =>
    split
    · rename_i hw
      exact h.take hw
    · exact h.calm (afterLate_placed hp) (afterLate_calm _) (by rw [hpc]; exact ⟨id, id⟩)
  case h_17 => exact h.unlocks hpc
  case h_18 => exact h.asksOwner hpc
  case h_19 => exact h.clear hpc
  case h_20 =>
    split
    · rename_i hw
      exact h.release hp.1 (.inl ⟨rfl, by rw [hpc]; trivial, fun _ => hw⟩)
    · rename_i hw
      have hnonzero := (h.alone hp.1).2
      have htwo := (h.once (by rintro hk; simp [Kind.plain, hk] at hp)).1
      refine h.quiet ⟨hp.1, hp.2, ?_⟩ (fun _ => by rw [hpc]; exact Iff.rfl) False.elim (fun _ => .inl hnonzero)
      have : w.word ≠ 1 := hw
      omega
  case h_21 =>
    rw [if_pos (show w.word = LOCKED_WITH_WAITERS from hp.2.2)]
    exact h.release hp.1 (.inl ⟨rfl, by rw [hpc]; trivial, fun hk => by simp [Kind.plain, hk] at hp⟩)
  case h_22 new =>
    obtain ⟨ht, hplain, herror, hrec⟩ := hp
    rcases em (new = 0) with rfl | hnew
    · refine h.release ht (.inl ⟨rfl, by rw [hpc]; rfl, ?_⟩)
      intro hk
      have := hrec hk
      omega
    · have hk : w.kind = .recursive := by
        cases hk : w.kind <;> simp_all [Kind.plain]
      exact h.release ht (.inr ⟨hk, hnew, hrec hk, by rw [hpc]; exact hnew⟩)
  case h_23 =>
    split
    · exact h
    · rename_i hwake
      exact h.wake hpc hwake

theorem step_inv (h : Inv w) (a : Act n) (ho : w.heldOnly a) : Inv (w.step a) := by
  cases a with
  | call t op =>
    simp only [World.step]
    split
    · rename_i hpc
      exact h.calm trivial ⟨id, id⟩ (by rw [hpc]; exact ⟨id, id⟩)
    · exact h
  | unlock t =>
    simp only [World.step]
    split
    · rename_i hpc
      exact h.calm ho ⟨id, id⟩ (by rw [hpc]; exact ⟨id, id⟩)
    · exact h
  | move t c => exact move_inv h c

end Moves

/-! ## Every run -/

/-- a mutex as `init` leaves it -/
def World.init (n : ℕ) (kind : Kind) : World n := { kind }

theorem inv_init (n : ℕ) (kind : Kind) : Inv (World.init n kind) := by
  have hnone : ∀ t, ¬(World.init n kind).Holds t := fun t => Nat.lt_irrefl 0
  constructor
  · intro t _ ht
    exact absurd ht (hnone t)
  · exact iff_of_true rfl hnone
  · intro t
    exact iff_of_false (fun ho => by cases ho) fun ht => hnone t ht.1
  · intro _ t ht
    exact absurd ht (hnone t)
  · intro _
    exact ⟨Nat.zero_le 2, fun _ => Nat.zero_le 1⟩
  · exact Nat.zero_le _
  · intro _
    trivial
  · intro _ _ hs
    exact hs.elim

namespace World

variable {n : ℕ}

/-- an unlock in progress has yet to make its wake -/
def OwesWake (w : World n) (t : Fin n) : Prop := (w.threads t).pc = .wakes

/-- a thread that a wake woke has yet to read the word, or has read it free and is about to take it -/
def TriesAgain (w : World n) (t : Fin n) : Prop :=
  ∃ timed, (w.threads t).pc = .contends timed true ∨ (w.threads t).pc = .retries timed true

def Parked (w : World n) (t : Fin n) : Prop := ∃ timed, (w.threads t).pc = .parked timed

end World

structure Guarded {n : ℕ} (w : World n) : Prop where
  oneHolder : ∀ t u, w.Holds t → w.Holds u → t = u
  free : w.word = 0 ↔ ∀ t, ¬w.Holds t
  named : ∀ t, w.owner = some t ↔ w.Holds t ∧ ¬(w.threads t).pc.between
  counted : w.kind = .recursive → ∀ t, w.Holds t → w.word = (w.threads t).holds
  /-- no one sleeps on a free mutex for good -/
  woken : w.word = 0 → ∀ t, w.Parked t → ∃ u, w.OwesWake u ∨ w.TriesAgain u

theorem helps_iff {n : ℕ} {w : World n} {u : Fin n} : (w.threads u).pc.helps ↔ w.OwesWake u ∨ w.TriesAgain u := by
  unfold World.OwesWake World.TriesAgain
  cases (w.threads u).pc <;> simp [Pc.helps]

/-- **A mutex guards.** In every reachable state of a mutex of any kind, with any number of threads on it, each unlocking
only what it holds. -/
theorem mutex_guarded {n : ℕ} {kind : Kind} {w : World n} (h : Reach World.step World.heldOnly (World.init n kind) w) :
    Guarded w := by
  have hw : Inv w := h.invariant Inv (inv_init n kind) fun s a _ ho hs => step_inv hs a ho
  refine ⟨hw.exclusive, hw.free, hw.owner, hw.count, ?_⟩
  rintro hfree t ⟨timed, ht⟩
  obtain ⟨u, hu⟩ := hw.wakes hfree t (by rw [ht]; trivial)
  exact ⟨u, helps_iff.mp hu⟩

instance decHeldOnly {n : ℕ} (w : World n) (a : Act n) : Decidable (w.heldOnly a) := by
  cases a <;> unfold World.heldOnly <;> try unfold World.Holds
  all_goals infer_instance

/-- thread 0 locks; thread 1 finds it locked, marks it and goes to sleep; thread 0 lets go -/
def handOver : List (Act 2) :=
  [.call 0 .lock, .move 0 {}, .move 0 {}, .move 0 {}, .call 1 .lock, .move 1 {}, .move 1 {}, .move 1 {}, .move 1 {},
    .move 1 {}, .unlock 0, .move 0 {}, .move 0 {}, .move 0 {}, .move 0 {}]

theorem mutex_guarded_waiter : Guarded (run World.step (World.init 2 .normal) handOver) :=
  mutex_guarded (.run .start handOver (by decide))

end Omnidroid.Bionic.Mutex
