/-
Who waits on a `pthread_rwlock`, and who wakes them (`omni-bionic/src/rwlock.rs`).

`writer_loop` counts a writer in on the second word and out again; readers that find the count above zero do not enter, and
sleep on the first word. Leaving is not a decrement: the word is set to 0. And a futex compares the first word only, so a
reader that sleeps because of the second may sleep when that has changed.
- `World.steady`: the steps at which neither goes wrong.
- `Waits`: the count is right, readers that were let in came before any writer that waits, and whoever sleeps and could have
  the lock has a wake coming. `step_waits` keeps it.
- `writers_counted`: that, in every run of such steps. `writers_miscounted`: without them it fails, in each of the ways.
-/
import Omnidroid.Bionic.RwLock

namespace Omnidroid.Bionic.RwLock

/-! ## Places -/

/-- between counting itself in and out -/
def Pc.inside : Pc → ℕ
  | .seeks _ | .tries _ | .checksW .. | .waitsW .. | .parkedW _ | .leaves _ | .zeroes .. => 1
  | _ => 0

/-- a reader that found no writer waiting, and is on its way in by that -/
def Pc.admitted : Pc → Bool
  | .looksOn _ writers => writers = 0
  | .acquires .. | .joins .. => true
  | _ => false

namespace World

variable {n : ℕ}

/-- how many writers wait: those inside `writer_loop` between registering and leaving -/
def waitingWriters (w : World n) : ℕ := total (fun l => l.pc.inside) w.threads

/-- a wake of all is still to be made -/
def Owed (w : World n) : Prop := ∃ u, (w.threads u).pc = .wakes

def Parked (w : World n) (t : Fin n) : Prop := ∃ timed, (w.threads t).pc = .parked timed

def ParkedW (w : World n) (t : Fin n) : Prop := ∃ timed, (w.threads t).pc = .parkedW timed

/-- a reader could not have the lock, or a wake will tell it -/
def ReaderWaits (w : World n) : Prop := w.state = WRITER ∨ 0 < w.waitingWriters ∨ w.Owed

/-- the steps that keep the count of waiting writers, and those to which it matters, right -/
def steady (w : World n) : Act n → Prop
  | .unlock t => w.Reads t ∨ w.Writes t
  | .move t c =>
    match (w.threads t).pc with
    -- a writer counts itself in: no reader is on its way in, and the count is not at its end
    | .bumps _ cur => w.writers = cur → cur < u32Max ∧ ∀ u, (w.threads u).pc.admitted = false
    -- one counts itself out: no other is in, and if it gave up no reader sleeps that now could enter
    | .zeroes won cur => w.writers = cur → (∀ u, u ≠ t → (w.threads u).pc.inside = 0) ∧
        (won = false → w.state = WRITER ∨ w.Owed ∨ ∀ u, ¬w.Parked u)
    -- a reader that goes to sleep waits for a writer still, and a writer for someone
    | .waits _ state => c.interrupted = false → w.state = state → w.ReaderWaits
    | .waitsW _ state => c.interrupted = false → w.state = state → state ≠ FREE ∨ w.Owed
    | _ => True
  | _ => True

end World

/-! ## What holds -/

structure Waits {n : ℕ} (w : World n) : Prop where
  counted : w.writers = w.waitingWriters
  admitted : ∀ t, (w.threads t).pc.admitted = true → w.waitingWriters = 0
  reader : ∀ t, w.Parked t → w.ReaderWaits
  writer : ∀ t, w.ParkedW t → w.state ≠ FREE ∨ w.Owed

section Moves

variable {n : ℕ} {w w' : World n} {t u : Fin n} {pc : Pc} {l : Thread}

theorem waiting_moved (ht : w'.threads = Function.update w.threads t l) :
    w'.waitingWriters + (w.threads t).pc.inside = w.waitingWriters + l.pc.inside := by
  have h := total_update (fun l => l.pc.inside) w.threads t l
  rw [← ht] at h
  exact h

theorem owed_moved (ht : w'.threads = Function.update w.threads t l) (hne : (w.threads t).pc ≠ .wakes) (h : w.Owed) :
    w'.Owed := by
  obtain ⟨u, hu⟩ := h
  have hut : u ≠ t := by
    rintro rfl
    exact hne hu
  exact ⟨u, by rwa [ht, Function.update_of_ne hut]⟩

theorem owed_new (ht : w'.threads = Function.update w.threads t l) (hl : l.pc = .wakes) : w'.Owed :=
  ⟨t, by rw [ht, Function.update_self, hl]⟩

theorem waiting_goTo (w : World n) (t : Fin n) (pc : Pc) :
    (w.goTo t pc).waitingWriters + (w.threads t).pc.inside = w.waitingWriters + pc.inside :=
  total_update (fun l : Thread => l.pc.inside) w.threads t { w.threads t with pc }

/-- one thread's move: what is to be shown of it, and of the others together -/
theorem Waits.moved (h : Waits w) (ht : w'.threads = Function.update w.threads t l)
    (hcounted : w'.writers = w'.waitingWriters)
    (hadmitted : l.pc.admitted = true ∨ w.waitingWriters = 0 → w'.waitingWriters = 0 ∨ ∀ u, (w'.threads u).pc.admitted = false)
    (hreader : w.ReaderWaits ∨ (∃ timed, l.pc = .parked timed) → w'.ReaderWaits ∨ ∀ u, ¬w'.Parked u)
    (hwriter : (w.state ≠ FREE ∨ w.Owed) ∨ (∃ timed, l.pc = .parkedW timed) → w'.state ≠ FREE ∨ w'.Owed) : Waits w' := by
  have hself : w'.threads t = l := by rw [ht, Function.update_self]
  have hne : ∀ u, u ≠ t → w'.threads u = w.threads u := fun u hu => by rw [ht, Function.update_of_ne hu]
  constructor
  · exact hcounted
  · intro u hu
    have hor : l.pc.admitted = true ∨ w.waitingWriters = 0 := by
      rcases eq_or_ne u t with rfl | hut
      · rw [hself] at hu
        exact .inl hu
      · rw [hne u hut] at hu
        exact .inr (h.admitted u hu)
    rcases hadmitted hor with hz | hnone
    · exact hz
    · rw [hnone u] at hu
      cases hu
  · intro u hu
    have hor : w.ReaderWaits ∨ ∃ timed, l.pc = .parked timed := by
      obtain ⟨timed, hpc⟩ := hu
      rcases eq_or_ne u t with rfl | hut
      · rw [hself] at hpc
        exact .inr ⟨timed, hpc⟩
      · rw [hne u hut] at hpc
        exact .inl (h.reader u ⟨timed, hpc⟩)
    rcases hreader hor with hw | hnone
    · exact hw
    · exact absurd hu (hnone u)
  · intro u hu
    obtain ⟨timed, hpc⟩ := hu
    rcases eq_or_ne u t with rfl | hut
    · rw [hself] at hpc
      exact hwriter (.inr ⟨timed, hpc⟩)
    · rw [hne u hut] at hpc
      exact hwriter (.inl (h.writer u ⟨timed, hpc⟩))

/-- a move that changes neither word nor who waits -/
theorem Waits.goTo (h : Waits w) (hne : (w.threads t).pc ≠ .wakes) (hinside : pc.inside = (w.threads t).pc.inside)
    (hadmitted : pc.admitted = true → w.waitingWriters = 0)
    (hparked : ∀ timed, pc = .parked timed → w.ReaderWaits)
    (hparkedW : ∀ timed, pc = .parkedW timed → w.state ≠ FREE ∨ w.Owed) : Waits (w.goTo t pc) := by
  have hw : (w.goTo t pc).waitingWriters = w.waitingWriters := by
    have hsum := waiting_goTo w t pc
    omega
  refine h.moved rfl ?_ ?_ ?_ ?_
  · rw [hw]
    exact h.counted
  · rintro (hpc | hz)
    · exact .inl (hw.trans (hadmitted hpc))
    · exact .inl (hw.trans hz)
  · intro hor
    left
    have hr : w.ReaderWaits := by
      rcases hor with hr | ⟨timed, hpc⟩
      · exact hr
      · exact hparked timed hpc
    rcases hr with hs | hpos | ho
    · exact .inl hs
    · exact .inr (.inl (hw ▸ hpos))
    · exact .inr (.inr (owed_moved rfl hne ho))
  · intro hor
    have hr : w.state ≠ FREE ∨ w.Owed := by
      rcases hor with hr | ⟨timed, hpc⟩
      · exact hr
      · exact hparkedW timed hpc
    rcases hr with hs | ho
    · exact .inl hs
    · exact .inr (owed_moved rfl hne ho)

/-- a move that changes the state, by a thread that is inside `writer_loop` after it as before -/
theorem Waits.restate {state : ℕ} (h : Waits w) (hne : (w.threads t).pc ≠ .wakes)
    (hinside : l.pc.inside = (w.threads t).pc.inside)
    (hplain : l.pc.admitted = false ∧ (∀ timed, l.pc ≠ .parked timed) ∧ ∀ timed, l.pc ≠ .parkedW timed)
    (hreader : w.state = WRITER → state = WRITER ∨ l.pc = .wakes) (hwriter : w.state ≠ FREE → state ≠ FREE ∨ l.pc = .wakes) :
    Waits ({ w with state }.put t l) := by
  have hw : World.waitingWriters ({ w with state }.put t l) = w.waitingWriters := by
    have hsum : World.waitingWriters ({ w with state }.put t l) + (w.threads t).pc.inside = w.waitingWriters + l.pc.inside :=
      waiting_moved rfl
    omega
  have howed : w.Owed → World.Owed ({ w with state }.put t l) := owed_moved rfl hne
  have hnew : l.pc = .wakes → World.Owed ({ w with state }.put t l) := owed_new rfl
  obtain ⟨hadmitted, hparked, hparkedW⟩ := hplain
  refine h.moved rfl ?_ ?_ ?_ ?_
  · rw [hw]
    exact h.counted
  · rintro (hpc | hz)
    · rw [hadmitted] at hpc
      cases hpc
    · exact .inl (hw.trans hz)
  · rintro ((hs | hpos | ho) | ⟨timed, hpc⟩)
    · rcases hreader hs with hs' | hl
      · exact .inl (.inl hs')
      · exact .inl (.inr (.inr (hnew hl)))
    · exact .inl (.inr (.inl (hw ▸ hpos)))
    · exact .inl (.inr (.inr (howed ho)))
    · exact absurd hpc (hparked timed)
  · rintro ((hs | ho) | ⟨timed, hpc⟩)
    · rcases hwriter hs with hs' | hl
      · exact .inl hs'
      · exact .inr (hnew hl)
    · exact .inr (howed ho)
    · exact absurd hpc (hparkedW timed)

/-- a writer counts itself in, with no reader on its way in -/
theorem Waits.bump {timed : Bool} {cur : ℕ} (h : Waits w) (hpc : (w.threads t).pc = .bumps timed cur) (hw : w.writers = cur)
    (hlt : cur < u32Max) (hnone : ∀ u, (w.threads u).pc.admitted = false) :
    Waits ({ w with writers := min (cur + 1) u32Max }.goTo t (.seeks timed)) := by
  have hsum : World.waitingWriters ({ w with writers := min (cur + 1) u32Max }.goTo t (.seeks timed)) + (w.threads t).pc.inside =
      w.waitingWriters + 1 := waiting_goTo { w with writers := min (cur + 1) u32Max } t (.seeks timed)
  rw [hpc] at hsum
  have hcounted := h.counted
  have hne : (w.threads t).pc ≠ .wakes := by rw [hpc]; simp
  have howed : w.Owed → World.Owed ({ w with writers := min (cur + 1) u32Max }.goTo t (.seeks timed)) := owed_moved rfl hne
  refine h.moved rfl ?_ ?_ ?_ ?_
  · change min (cur + 1) u32Max = _
    simp only [Pc.inside] at hsum
    omega
  · intro _
    right
    intro u
    rcases eq_or_ne u t with rfl | hut
    · rw [goTo_pc]
      rfl
    · rw [World.goTo, put_other hut]
      exact hnone u
  · intro _
    refine .inl (.inr (.inl ?_))
    simp only [Pc.inside] at hsum
    omega
  · rintro ((hs | ho) | ⟨timed', hc⟩)
    · exact .inl hs
    · exact .inr (howed ho)
    · cases hc

/-- a writer counts itself out, with no other in -/
theorem Waits.zero {won : Bool} {cur : ℕ} (h : Waits w) (hpc : (w.threads t).pc = .zeroes won cur)
    (halone : ∀ u, u ≠ t → (w.threads u).pc.inside = 0) (hreader : w.state = WRITER ∨ w.Owed ∨ ∀ u, ¬w.Parked u) :
    Waits ({ w with writers := 0 }.goTo t (.done (if won then none else some ETIMEDOUT))) := by
  have hzero : World.waitingWriters ({ w with writers := 0 }.goTo t (.done (if won then none else some ETIMEDOUT))) = 0 := by
    refine total_eq_zero.mpr fun u => ?_
    rcases eq_or_ne u t with rfl | hut
    · rw [goTo_pc]
      rfl
    · rw [World.goTo, put_other hut]
      exact halone u hut
  have hne : (w.threads t).pc ≠ .wakes := by rw [hpc]; simp
  have howed : w.Owed → World.Owed ({ w with writers := 0 }.goTo t (.done (if won then none else some ETIMEDOUT))) :=
    owed_moved rfl hne
  refine h.moved rfl hzero.symm (fun _ => .inl hzero) ?_ ?_
  · intro _
    rcases hreader with hs | ho | hnone
    · exact .inl (.inl hs)
    · exact .inl (.inr (.inr (howed ho)))
    · right
      rintro u ⟨timed, hu⟩
      rcases eq_or_ne u t with rfl | hut
      · rw [goTo_pc] at hu
        cases hu
      · rw [World.goTo, put_other hut] at hu
        exact hnone u ⟨timed, hu⟩
  · rintro ((hs | ho) | ⟨timed', hc⟩)
    · exact .inl hs
    · exact .inr (howed ho)
    · cases hc

theorem wakeAll_pc (g : Fin n → Thread) (u : Fin n) :
    (wakeAll sleeper g u).pc.inside = (g u).pc.inside ∧
      ((wakeAll sleeper g u).pc.admitted = true → (g u).pc.admitted = true) ∧
      (∀ timed, (wakeAll sleeper g u).pc ≠ .parked timed) ∧ ∀ timed, (wakeAll sleeper g u).pc ≠ .parkedW timed := by
  unfold wakeAll
  split
  · rename_i hs
    rcases sleeper_woken hs with ⟨timed, hpc, hw⟩ | ⟨timed, hpc, hw⟩
    · rw [hw, hpc]
      simp [Pc.inside, Pc.admitted]
    · rw [hw, hpc]
      simp [Pc.inside, Pc.admitted]
  · rename_i hs
    refine ⟨rfl, id, ?_, ?_⟩
    all_goals
      intro timed hpc
      exact hs (by simp [sleeper, hpc])

/-- after a wake of all no one sleeps -/
theorem Waits.wake (h : Waits w) (hpc : (w.threads t).pc = .wakes) :
    Waits ({ w with threads := wakeAll sleeper w.threads }.goTo t (.done none)) := by
  have hself : (wakeAll sleeper w.threads t).pc.inside = 0 := by
    rw [(wakeAll_pc w.threads t).1, hpc]
    rfl
  have hw : World.waitingWriters ({ w with threads := wakeAll sleeper w.threads }.goTo t (.done none)) = w.waitingWriters := by
    have hsum : World.waitingWriters ({ w with threads := wakeAll sleeper w.threads }.goTo t (.done none)) +
        (wakeAll sleeper w.threads t).pc.inside =
          World.waitingWriters { w with threads := wakeAll sleeper w.threads } + 0 :=
      waiting_goTo { w with threads := wakeAll sleeper w.threads } t (.done none)
    have hall : World.waitingWriters { w with threads := wakeAll sleeper w.threads } = w.waitingWriters :=
      total_congr fun u => (wakeAll_pc w.threads u).1
    omega
  have hplace : ∀ u, u ≠ t → (World.goTo { w with threads := wakeAll sleeper w.threads } t (.done none)).threads u =
      wakeAll sleeper w.threads u := fun u hut => put_other hut
  constructor
  · rw [hw]
    exact h.counted
  · intro u hu
    rw [hw]
    rcases eq_or_ne u t with rfl | hut
    · rw [goTo_pc] at hu
      cases hu
    · rw [hplace u hut] at hu
      exact h.admitted u ((wakeAll_pc w.threads u).2.1 hu)
  · rintro u ⟨timed, hu⟩
    rcases eq_or_ne u t with rfl | hut
    · rw [goTo_pc] at hu
      cases hu
    · rw [hplace u hut] at hu
      exact absurd hu ((wakeAll_pc w.threads u).2.2.1 timed)
  · rintro u ⟨timed, hu⟩
    rcases eq_or_ne u t with rfl | hut
    · rw [goTo_pc] at hu
      cases hu
    · rw [hplace u hut] at hu
      exact absurd hu ((wakeAll_pc w.threads u).2.2.2 timed)

/-! ## Steps -/

theorem Inv.writer_state (h : Inv w) (ht : 0 < (w.threads t).writes) : w.state = WRITER := by
  have hle : (w.threads t).writes ≤ w.writing := weight_le_total Thread.writes w.threads t
  have := h.state
  omega

theorem Inv.reader_state (h : Inv w) (ht : 0 < (w.threads t).reads) : w.state ≠ WRITER := by
  have hle : (w.threads t).reads ≤ w.readers := weight_le_total Thread.reads w.threads t
  have hmax : MAX_READERS < WRITER := by decide
  have := h.state
  have := h.fits
  omega

theorem turned_place (p : Patience) (state : ℕ) : (p.turned state).inside = 0 ∧ (p.turned state).admitted = false ∧
    (∀ timed, p.turned state ≠ .parked timed) ∧ ∀ timed, p.turned state ≠ .parkedW timed := by
  cases p <;> simp [Patience.turned, Pc.inside, Pc.admitted]

/-- a move of a thread that is not in `writer_loop`, that does not go to sleep and is no nearer to the lock -/
theorem Waits.plain (h : Waits w) (hold : (w.threads t).pc.inside = 0 ∧ (w.threads t).pc ≠ .wakes)
    (hnew : pc.inside = 0 ∧ pc.admitted = false ∧ (∀ timed, pc ≠ .parked timed) ∧ ∀ timed, pc ≠ .parkedW timed) :
    Waits (w.goTo t pc) := by
  obtain ⟨hinside, hadmitted, hparked, hparkedW⟩ := hnew
  refine h.goTo hold.2 (hinside.trans hold.1.symm) ?_ (fun timed hc => absurd hc (hparked timed))
    fun timed hc => absurd hc (hparkedW timed)
  intro hc
  rw [hadmitted] at hc
  cases hc

/-- a move inside `writer_loop` -/
theorem Waits.inner (h : Waits w) (hold : (w.threads t).pc.inside = 1 ∧ (w.threads t).pc ≠ .wakes)
    (hnew : pc.inside = 1) (hparkedW : ∀ timed, pc = .parkedW timed → w.state ≠ FREE ∨ w.Owed) : Waits (w.goTo t pc) := by
  refine h.goTo hold.2 (hnew.trans hold.1.symm) ?_ ?_ hparkedW
  · intro hc
    cases pc <;> simp [Pc.inside, Pc.admitted] at hnew hc
  · intro timed hc
    rw [hc] at hnew
    cases hnew

/-- a reader let in by the writers' word goes on, or is turned away -/
theorem Waits.further (h : Waits w) (hz : w.waitingWriters = 0) (hold : (w.threads t).pc.inside = 0 ∧ (w.threads t).pc ≠ .wakes)
    (hnew : pc.inside = 0 ∧ (∀ timed, pc ≠ .parked timed) ∧ ∀ timed, pc ≠ .parkedW timed) : Waits (w.goTo t pc) :=
  h.goTo hold.2 (hnew.1.trans hold.1.symm) (fun _ => hz) (fun timed hc => absurd hc (hnew.2.1 timed))
    fun timed hc => absurd hc (hnew.2.2 timed)

theorem afterAcquire_place (p : Patience) (state m : ℕ) : (afterAcquire p state m).inside = 0 ∧
    (∀ timed, afterAcquire p state m ≠ .parked timed) ∧ ∀ timed, afterAcquire p state m ≠ .parkedW timed := by
  have ht := turned_place p state
  unfold afterAcquire
  repeat' split
  all_goals first | exact ⟨ht.1, ht.2.2⟩ | simp [Pc.inside]

theorem afterUnlock_place (state : ℕ) : (afterUnlock state).inside = 0 ∧ (afterUnlock state).admitted = false ∧
    (∀ timed, afterUnlock state ≠ .parked timed) ∧ ∀ timed, afterUnlock state ≠ .parkedW timed := by
  unfold afterUnlock
  repeat' split
  all_goals simp [Pc.inside, Pc.admitted]

theorem Waits.looksOn {p : Patience} {writers : ℕ} (h : Waits w) (hpc : (w.threads t).pc = .looksOn p writers)
    (hadm : writers = 0 → w.waitingWriters = 0) : Waits (w.goTo t (afterLook p writers w.state)) := by
  have hold : (w.threads t).pc.inside = 0 ∧ (w.threads t).pc ≠ .wakes := by
    rw [hpc]
    simp [Pc.inside]
  unfold afterLook
  split
  · rename_i hc
    exact h.further (hadm hc.2) hold (by simp [Pc.inside])
  · exact h.plain hold (turned_place p w.state)

theorem move_waits (h : Waits w) (hw : Inv w) (c : Choice) (ho : w.steady (.move t c)) : Waits (w.move t c) := by
  have hp := hw.placed t
  have hadm := h.admitted t
  have hplain : ∀ {pc old : Pc}, (w.threads t).pc = old → old.inside = 0 ∧ old ≠ .wakes →
      pc.inside = 0 ∧ pc.admitted = false ∧ (∀ timed, pc ≠ .parked timed) ∧ (∀ timed, pc ≠ .parkedW timed) →
      Waits (w.goTo t pc) := fun hpc hold hnew => h.plain (hpc ▸ hold) hnew
  have hinner : ∀ {pc old : Pc}, (w.threads t).pc = old → old.inside = 1 ∧ old ≠ .wakes → pc.inside = 1 →
      (∀ timed, pc ≠ .parkedW timed) → Waits (w.goTo t pc) :=
    fun hpc hold hnew hpark => h.inner (hpc ▸ hold) hnew fun timed hc => absurd hc (hpark timed)
  unfold World.move
  split <;> rename_i hpc <;> simp only [World.steady, hpc] at ho <;> rw [Placed, hpc] at hp <;> rw [hpc] at hadm
  case h_1 => exact h
  case h_2 =>
    refine h.goTo (by rw [hpc]; simp) (by rw [hpc]; rfl) ?_ (fun _ hc => by cases hc) fun _ hc => by cases hc
    intro hc
    rw [← h.counted]
    exact of_decide_eq_true hc
  case h_3 => exact h.looksOn hpc fun hz => hadm (decide_eq_true hz)
  case h_4 => exact h.further (hadm rfl) (by rw [hpc]; simp [Pc.inside]) (afterAcquire_place ..)
  case h_5 p state m =>
    split
    · rename_i hm
      refine h.restate (by rw [hpc]; simp) (by rw [hpc]; rfl) (by simp [Pc.admitted]) ?_ fun _ => .inl (Nat.succ_ne_zero m)
      intro hs
      have hmax : MAX_READERS < WRITER := by decide
      have hlt : m < MAX_READERS := hp
      omega
    · exact h.further (hadm rfl) (by rw [hpc]; simp [Pc.inside]) (by simp [Pc.inside])
  case h_6 =>
    refine hplain hpc (by simp [Pc.inside]) ?_
    split <;> simp [Pc.inside, Pc.admitted]
  case h_7 =>
    split
    · exact hplain hpc (by simp [Pc.inside]) (by simp [Pc.inside, Pc.admitted])
    · rename_i hc
      have hwaits := ho (by simpa using fun hi => hc (.inl hi)) (not_not.mp fun hne => hc (.inr hne))
      exact h.goTo (by rw [hpc]; simp) (by rw [hpc]; rfl) (fun hc => by cases hc) (fun _ _ => hwaits) fun _ hc => by cases hc
  case h_8 =>
    refine hplain hpc (by simp [Pc.inside]) ?_
    split <;> simp [Pc.inside, Pc.admitted]
  case h_9 => exact hplain hpc (by simp [Pc.inside]) (by simp [Pc.inside, Pc.admitted])
  case h_10 =>
    split
    · rename_i hcur
      exact h.bump hpc hcur (ho hcur).1 (ho hcur).2
    · exact hplain hpc (by simp [Pc.inside]) (by simp [Pc.inside, Pc.admitted])
  case h_11 =>
    refine hinner hpc (by simp [Pc.inside]) ?_ ?_
    · split <;> rfl
    · intro timed hc
      split at hc <;> cases hc
  case h_12 =>
    split
    · exact h.restate (by rw [hpc]; simp) (by rw [hpc]; rfl) (by simp [Pc.admitted]) (fun _ => .inl rfl)
        fun _ => .inl (by decide)
    · exact hinner hpc (by simp [Pc.inside]) rfl fun _ hc => by cases hc
  case h_13 =>
    refine hinner hpc (by simp [Pc.inside]) ?_ ?_
    · split <;> rfl
    · intro timed hc
      split at hc <;> cases hc
  case h_14 =>
    split
    · exact hinner hpc (by simp [Pc.inside]) rfl fun _ hc => by cases hc
    · rename_i hc
      have hs : w.state = _ := not_not.mp fun hne => hc (.inr hne)
      have hwaits := ho (by simpa using fun hi => hc (.inl hi)) hs
      rw [← hs] at hwaits
      exact h.inner (by rw [hpc]; simp [Pc.inside]) rfl fun _ _ => hwaits
  case h_15 =>
    refine hinner hpc (by simp [Pc.inside]) ?_ ?_
    · split <;> rfl
    · intro timed hc
      split at hc <;> cases hc
  case h_16 => exact hinner hpc (by simp [Pc.inside]) rfl fun _ hc => by cases hc
  case h_17 won cur =>
    split
    · rename_i hcur
      refine h.zero hpc (ho hcur).1 ?_
      cases won with
      | true => exact .inl (hw.writer_state (hp rfl))
      | false => exact (ho hcur).2 rfl
    · exact hinner hpc (by simp [Pc.inside]) rfl fun _ hc => by cases hc
  case h_18 =>
    refine hplain hpc (by simp [Pc.inside]) ?_
    split <;> simp [Pc.inside, Pc.admitted]
  case h_19 =>
    split
    · exact h.restate (by rw [hpc]; simp) (by rw [hpc]; rfl) (by simp [Pc.admitted]) (fun _ => .inl rfl)
        fun _ => .inl (by decide)
    · exact hplain hpc (by simp [Pc.inside]) (by simp [Pc.inside, Pc.admitted])
  case h_20 => exact hplain hpc (by simp [Pc.inside]) (afterUnlock_place w.state)
  case h_21 =>
    split
    · exact h.restate (by rw [hpc]; simp) (by rw [hpc]; rfl) (by simp [Pc.admitted]) (fun _ => .inr rfl) fun _ => .inr rfl
    · exact hplain hpc (by simp [Pc.inside]) (by simp [Pc.inside, Pc.admitted])
  case h_22 =>
    refine hplain hpc (by simp [Pc.inside]) ?_
    split <;> simp [Pc.inside, Pc.admitted]
  case h_23 m =>
    split
    · rename_i hm
      refine h.restate (by rw [hpc]; simp) ?_ ?_ (fun hs => absurd hs (hw.reader_state hp)) ?_
      · rw [hpc]
        simp only
        split <;> rfl
      · simp only
        split <;> simp [Pc.admitted]
      · intro hs
        rcases eq_or_ne m 1 with rfl | hne
        · exact .inr rfl
        · left
          simp only [FREE] at hs ⊢
          omega
    · exact hplain hpc (by simp [Pc.inside]) (by simp [Pc.inside, Pc.admitted])
  case h_24 => exact h.wake hpc

theorem step_waits (h : Waits w) (hw : Inv w) (a : Act n) (ho : w.steady a) : Waits (w.step a) := by
  cases a with
  | read t p =>
    simp only [World.step]
    split
    · rename_i hpc
      exact h.plain (by rw [hpc]; simp [Pc.inside]) (by simp [Pc.inside, Pc.admitted])
    · exact h
  | write t p =>
    simp only [World.step]
    split
    · rename_i hpc
      cases p <;> exact h.plain (by rw [hpc]; simp [Pc.inside]) (by simp [Pc.inside, Pc.admitted])
    · exact h
  | unlock t =>
    simp only [World.step]
    split
    · rename_i hpc
      exact h.plain (by rw [hpc]; simp [Pc.inside]) (by simp [Pc.inside, Pc.admitted])
    · exact h
  | move t c => exact move_waits h hw c ho

/-! ## A reader let in -/

theorem goTo_reads : ((w.goTo t pc).threads u).reads = (w.threads u).reads := by
  rcases eq_or_ne u t with rfl | hut
  · rw [World.goTo, put_self]
  · rw [World.goTo, put_other hut]

theorem move_reads (c : Choice) (h : (w.threads t).reads < ((w.move t c).threads t).reads) :
    (w.threads t).pc.admitted = true := by
  unfold World.move at h
  split at h <;> rename_i hpc
  case h_5 =>
    rw [hpc]
    rfl
  case h_24 =>
    rw [goTo_reads, (wakeAll_holds w.threads t).1] at h
    exact absurd h (lt_irrefl _)
  all_goals
    (repeat' split at h) <;>
      first
      | (rw [goTo_reads] at h; exact absurd h (lt_irrefl _))
      | exact absurd h (lt_irrefl _)
      | (simp only [World.take, World.drop, World.free, put_self] at h; omega)

/-- a lock is taken by a reader in a step of its own, that the writers' word let it come to -/
theorem step_reads (a : Act n) (h : (w.threads t).reads < ((w.step a).threads t).reads) : (w.threads t).pc.admitted = true := by
  cases a with
  | move u c =>
    rcases eq_or_ne t u with rfl | htu
    · exact move_reads c h
    · change _ < ((w.move u c).threads t).reads at h
      rcases move_other c htu with hm | hm
      · rw [hm] at h
        exact absurd h (lt_irrefl _)
      · rw [hm, (wakeAll_holds w.threads t).1] at h
        exact absurd h (lt_irrefl _)
  | _ =>
    simp only [World.step] at h
    split at h
    · rw [goTo_reads] at h
      exact absurd h (lt_irrefl _)
    · exact absurd h (lt_irrefl _)

end Moves

/-! ## Every run -/

theorem steady_held {n : ℕ} (w : World n) (a : Act n) (h : w.steady a) : w.heldOnly a := by
  cases a with
  | unlock t => exact h
  | _ => trivial

theorem waits_init (n : ℕ) : Waits ({} : World n) := by
  have hz : World.waitingWriters ({} : World n) = 0 := total_eq_zero.mpr fun _ => rfl
  refine ⟨hz.symm, fun _ _ => hz, ?_, ?_⟩
  · rintro t ⟨timed, ht⟩
    cases ht
  · rintro t ⟨timed, ht⟩
    cases ht

structure WritersCounted {n : ℕ} (w : World n) : Prop where
  counted : w.writers = w.waitingWriters
  /-- no reader is let in while a writer waits -/
  barred : ∀ a t, (w.threads t).reads < ((w.step a).threads t).reads → w.waitingWriters = 0
  /-- a reader that sleeps while no writer holds the lock or waits has a wake coming, and so has a writer on a free lock -/
  reader : ∀ t, w.Parked t → w.state ≠ WRITER → w.waitingWriters = 0 → w.Owed
  writer : ∀ t, w.ParkedW t → w.state = FREE → w.Owed

/-- **Writers are counted, preferred and woken**, in every run whose steps keep the count and go to sleep on what they
wait for. -/
theorem writers_counted {n : ℕ} {w : World n} (h : Reach World.step World.steady {} w) : WritersCounted w := by
  have hinv : ∀ {s : World n}, Reach World.step World.steady {} s → Inv s := fun hs => reach_inv (hs.mono steady_held)
  have hw : Waits w := h.invariant Waits (waits_init n) fun s a hs ho hi => step_waits hi (hinv hs) a ho
  refine ⟨hw.counted, fun a t ht => hw.admitted t (step_reads a ht), ?_, ?_⟩
  · intro t ht hs hz
    rcases hw.reader t ht with h' | h' | h'
    · exact absurd h' hs
    · omega
    · exact h'
  · intro t ht hs
    rcases hw.writer t ht with h' | h'
    · exact absurd hs h'
    · exact h'

section Decide

variable {n : ℕ} (w : World n)

instance decOwed : Decidable w.Owed := inferInstanceAs (Decidable (∃ u, (w.threads u).pc = .wakes))

instance decParked (t : Fin n) : Decidable (w.Parked t) :=
  inferInstanceAs (Decidable (∃ timed, (w.threads t).pc = .parked timed))

instance decReaderWaits : Decidable w.ReaderWaits :=
  inferInstanceAs (Decidable (w.state = WRITER ∨ 0 < w.waitingWriters ∨ w.Owed))

instance decSteady : (a : Act n) → Decidable (w.steady a)
  | .unlock t => inferInstanceAs (Decidable (w.Reads t ∨ w.Writes t))
  | .move t c => by
    unfold World.steady
    dsimp only
    split <;> infer_instance
  | .read .. | .write .. => .isTrue trivial

end Decide

/-- thread 0 reads; thread 1 waits to write, and sleeps -/
def writerRun (timed : Bool) : List (Act 3) :=
  [.read 0 .forever, .move 0 {}, .move 0 {}, .move 0 {}, .move 0 {}, .write 1 (if timed then .timed else .forever),
    .move 1 {}, .move 1 {}, .move 1 {}, .move 1 {}, .move 1 {}]

/-- thread 2 would read, finds the writer waiting, and sleeps -/
def readerRun : List (Act 3) := [.read 2 .forever, .move 2 {}, .move 2 {}, .move 2 {}, .move 2 {}]

theorem writers_counted_two : WritersCounted (run World.step ({} : World 3) (writerRun false ++ readerRun)) :=
  writers_counted (.run .start _ (by decide))

/-- thread 2 waits to write as well, and gives up: the word is 0 with thread 1 still waiting -/
def secondLeaves : List (Act 3) :=
  writerRun false ++ [.write 2 .timed, .move 2 {}, .move 2 {}, .move 2 {}, .move 2 { late := true }, .move 2 {}, .move 2 {}]

/-- the only waiting writer gives up, with thread 2 asleep behind it -/
def writerLeaves : List (Act 3) := writerRun true ++ readerRun ++ [.move 1 { late := true }, .move 1 {}, .move 1 {}]

/-- thread 2 finds the lock free and a writer waiting; that one has been in and out before it sleeps -/
def readerLate : List (Act 3) :=
  [.write 1 .forever, .move 1 {}, .move 1 {}, .read 2 .forever, .move 2 {}, .move 2 {}, .move 2 {}, .move 1 {}, .move 1 {},
    .move 1 {}, .move 1 {}, .unlock 1, .move 1 {}, .move 1 {}, .move 1 {}, .move 2 {}]

/-- thread 1 loses the free lock to thread 0, which has let go of it before thread 1 sleeps -/
def writerLate : List (Act 3) :=
  [.write 1 .forever, .move 1 {}, .move 1 {}, .move 1 {}, .write 0 .none, .move 0 {}, .move 0 {}, .move 1 {}, .move 1 {},
    .unlock 0, .move 0 {}, .move 0 {}, .move 0 {}, .move 1 {}]

/-- thread 2 has found no writer waiting, and thread 1 waits before it enters -/
def readerPasses : List (Act 3) :=
  [.read 2 .forever, .move 2 {}, .move 2 {}, .move 2 {}, .write 1 .forever, .move 1 {}, .move 1 {}]

/-- **The count is lost, and with it wakes.** -/
theorem writers_miscounted :
    ¬WritersCounted (run World.step ({} : World 3) secondLeaves) ∧
    ¬WritersCounted (run World.step ({} : World 3) writerLeaves) ∧
    ¬WritersCounted (run World.step ({} : World 3) readerLate) ∧
    ¬WritersCounted (run World.step ({} : World 3) writerLate) ∧
    ¬WritersCounted (run World.step ({} : World 3) readerPasses) := by
  have howed : ∀ w : World 3, (∀ u, (w.threads u).pc ≠ .wakes) → ¬w.Owed := fun w hw ⟨u, hu⟩ => hw u hu
  refine ⟨?_, ?_, ?_, ?_, ?_⟩
  · intro h
    exact absurd h.counted (by decide)
  · intro h
    exact howed _ (by decide) (h.reader 2 ⟨false, by decide⟩ (by decide) (by decide))
  · intro h
    exact howed _ (by decide) (h.reader 2 ⟨false, by decide⟩ (by decide) (by decide))
  · intro h
    exact howed _ (by decide) (h.writer 1 ⟨false, by decide⟩ (by decide))
  · intro h
    exact absurd (h.barred (.move 2 {}) 2 (by decide)) (by decide)

end Omnidroid.Bionic.RwLock
