/-
What the futex table keeps (`State` of `omni-linux/src/futex.rs`): queues, marks, and the parked waits: those of `wait`, of
`lock_pi` and of the sleeps. One step is one critical section under the state lock; the word that `lock_pi` reads each time
around its loop is the guest's, and any.
- `Places`: no queue is empty, and each wait that queues is in one queue once or marked.
- `Tidy`: so it is of the waits in progress, and these are the parked ones. `step_tidy` keeps it.
- `futex_tidy`: in every run without an idle requeue the table is tidy, and empty when no wait is in progress.
- `futex_litter`: a requeue that moves no one leaves an empty queue at its second address.
-/
import Omnidroid.Kernel.PiFutex

namespace Omnidroid.FutexTidy

open Futex

/-! ## The table and its waits -/

/-- a wait that is parked -/
inductive Wait where
  /-- `wait`, and the queue it began on -/
  | futex (key : UInt64)
  | pi (key : UInt64) (tid : UInt32)
  | sleep
deriving DecidableEq

/-- sleeps are in no queue -/
def Wait.queues : Wait → Bool
  | .sleep => false
  | _ => true

structure World where
  st : State := {}
  /-- `State::parked`, without the threads -/
  parked : Finset ℕ := ∅
  waits : Map ℕ Wait := ∅

/-- once around `lock_pi`'s loop: the process ends, the word, whether a compare-exchange finds it as it was, whether the deadline
has passed before the park -/
structure Turn where
  interrupted : Bool := false
  word : UInt32
  same : Bool := true
  late : Bool := false
deriving DecidableEq

inductive Act where
  /-- `FUTEX_WAIT` up to its first park -/
  | wait (addr : UInt64) (expected bitset : UInt32) (interrupted : Bool) (word : Except Errno UInt32) (first : Meets)
  /-- `FUTEX_LOCK_PI` up to its first park -/
  | lockPi (addr : UInt64) (tid : UInt32) (mapped : Except Errno Unit) (turns : List Turn)
  /-- `sleep_until` up to its first park: what it meets before it registers, and before it parks -/
  | sleep (ended : Bool) (first : Meets)
  /-- a park of `wait` or of a sleep is over -/
  | unpark (id : ℕ) (m : Meets)
  /-- a park of `lock_pi` is over -/
  | unparkPi (id : ℕ) (turns : List Turn)
  | wake (addr : UInt64) (n : ℕ) (bitset : UInt32)
  | requeue (addr : UInt64) (nWake : ℕ) (addr2 : UInt64) (nRequeue : ℕ) (expected : Option UInt32)
    (word : Except Errno UInt32)
  | wakeOp (addr : UInt64) (n1 : ℕ) (addr2 : UInt64) (n2 : ℕ) (op : UInt32) (old : Except Errno UInt32)
  | unlockPi (addr : UInt64) (tid : UInt32) (word : Except Errno UInt32)

def clearMark (s : State) (id : ℕ) : State := { s with woken := s.woken.erase id }

/-- `lock_pi`'s loop, up to a park or its end; none where it goes around once more -/
def piPass (id : ℕ) (key : UInt64) (tid : UInt32) : List Turn → State → Bool → Option (State × Option (Except Errno Unit))
  | [], _, _ => none
  | t :: ts, s, queued =>
    let marked := queued && decide (id ∈ s.woken)
    let s := if marked then clearMark s id else s
    let queued := queued && !marked
    if t.interrupted then some (s.removeQueued queued id key, some (.error EINTR))
    else if ownerOf t.word = 0 then
      let s := s.removeQueued queued id key
      if t.same then some (s, some (.ok ())) else piPass id key tid ts s false
    else if ownerOf t.word = tid then some (s.removeQueued queued id key, some (.error EDEADLK))
    else if !hasWaiters t.word && !t.same then piPass id key tid ts s queued
    else
      let s := if queued then s else s.push key [⟨id, 0xffffffff⟩]
      if t.late then
        if id ∈ s.woken then piPass id key tid ts (clearMark s id) false
        else some (s.remove id key, some (.error ETIMEDOUT))
      else some (s, none)

namespace World

/-- a wait parks, or is over -/
def passed (w : World) (id : ℕ) (x : Wait) : State × Option (Except Errno Unit) → World
  | (s, none) => { st := s, parked := insert id w.parked, waits := w.waits.insert id x }
  | (s, some _) => { st := s, parked := w.parked.erase id, waits := w.waits.erase id }

/-- `lock_pi` takes its mark, if it has one, along -/
def piPassed (w : World) (id : ℕ) (key : UInt64) (tid : UInt32) : Option (State × Option (Except Errno Unit)) → World
  | none => w
  | some (s, none) => w.passed id (.pi key tid) (s, none)
  | some (s, some r) => w.passed id (.pi key tid) (clearMark s id, some r)

def woke (w : World) (r : State × List ℕ) : World := { w with st := r.1 }

/-- what a sleep meets -/
def rest (s : State) (m : Meets) : State × Option (Except Errno Unit) :=
  if m.interrupted then (s, some (.error EINTR)) else if m.late then (s, some (.ok ())) else (s, none)

def step (w : World) : Act → World
  | .wait addr expected bitset interrupted word first =>
    if bitset = 0 then w else
    match keyOf addr with
    | .error _ => w
    | .ok key =>
      if interrupted || word ≠ .ok expected then w else
      let (s, id) := w.st.register
      w.passed id (.futex key) ((s.push key [⟨id, bitset⟩]).pass id key first)
  | .lockPi addr tid mapped turns =>
    match keyOf addr, mapped with
    | .ok key, .ok () =>
      let (s, id) := w.st.register
      w.piPassed id key tid (piPass id key tid turns s false)
    | _, _ => w
  | .sleep ended first =>
    if ended then w else
    let (s, id) := w.st.register
    w.passed id .sleep (rest s { first with interrupted := first.late && first.interrupted })
  | .unpark id m =>
    match w.waits.lookup id with
    | some (.futex key) => w.passed id (.futex key) (w.st.pass id key m)
    | some .sleep => w.passed id .sleep (rest w.st m)
    | _ => w
  | .unparkPi id turns =>
    match w.waits.lookup id with
    | some (.pi key tid) => w.piPassed id key tid (piPass id key tid turns w.st true)
    | _ => w
  | .wake addr n bitset =>
    if bitset = 0 then w else
    match keyOf addr with
    | .error _ => w
    | .ok key => w.woke (w.st.wake key n bitset)
  | .requeue addr nWake addr2 nRequeue expected word =>
    match keyOf addr, keyOf addr2 with
    | .ok from_, .ok to_ =>
      if expected.any fun e => word ≠ .ok e then w else
      { w with st := (w.st.wake from_ nWake 0xffffffff).1.move from_ to_ nRequeue }
    | _, _ => w
  | .wakeOp addr n1 addr2 n2 op old =>
    match keyOf addr, keyOf addr2, old with
    | .ok k1, .ok k2, .ok old =>
      match opUpdate op old, opMet op old with
      | some _, some met =>
        let w := w.woke (w.st.wake k1 n1 0xffffffff)
        if met then w.woke (w.st.wake k2 n2 0xffffffff) else w
      | _, _ => w
    | _, _, _ => w
  | .unlockPi addr tid word =>
    match keyOf addr, word with
    | .ok key, .ok v => if ownerOf v ≠ tid then w else w.woke (w.st.wake key (2 ^ 64 - 1) 0xffffffff)
    | _, _ => w

/-- a requeue from one queue to another moves someone, or finds someone there -/
def steady (w : World) : Act → Prop
  | .requeue addr nWake addr2 nRequeue expected word =>
    ∀ from_ to_, keyOf addr = .ok from_ → keyOf addr2 = .ok to_ → expected.any (fun e => word ≠ .ok e) = false →
      from_ = to_ ∨ (nWake < (w.st.queue from_).length ∧ 0 < nRequeue) ∨ w.st.queue to_ ≠ []
  | _ => True

end World

/-! ## Queues that are there are not empty -/

def Full (s : State) : Prop := ∀ key, s.queues.lookup key ≠ some []

section Full

variable {s : State} {key : UInt64}

theorem Full.setQueue (h : Full s) (q : List Waiter) : Full (s.setQueue key q) := by
  intro k
  dsimp only [State.setQueue]
  split_ifs with hq
  · rw [Map.lookup_erase_eq]
    split_ifs
    · nofun
    · exact h k
  · rw [Map.lookup_insert_eq]
    split_ifs
    · rintro he
      exact hq (Option.some.inj he)
    · exact h k

theorem Full.push (h : Full s) {ws : List Waiter} (hw : ws ≠ [] ∨ s.queue key ≠ []) : Full (s.push key ws) := by
  intro k
  dsimp only [State.push]
  rw [Map.lookup_insert_eq]
  split_ifs
  · rintro he
    obtain ⟨h1, h2⟩ := List.append_eq_nil_iff.1 (Option.some.inj he)
    rcases hw with hw | hw
    · exact hw h2
    · exact hw h1
  · exact h k

theorem full_removeAnywhere (s : State) (id : ℕ) : Full (s.removeAnywhere id) := by
  intro k he
  dsimp only [State.removeAnywhere] at he
  rw [Map.lookup_retain, Option.bind_eq_some_iff] at he
  obtain ⟨q, -, hq⟩ := he
  split_ifs at hq with hne
  exact hne (Option.some.inj hq)

theorem Full.remove (h : Full s) (id : ℕ) : Full (s.remove id key) := by
  unfold State.remove
  split
  · split
    · exact h.setQueue _
    · exact full_removeAnywhere s id
  · exact full_removeAnywhere s id

theorem Full.wake (h : Full s) (n : ℕ) (bitset : UInt32) : Full (s.wake key n bitset).1 := by
  unfold State.wake
  split
  · exact h
  · exact h.setQueue _

/-- a wake of `n` leaves all but `n` at least -/
theorem wakeQueue_length (n : ℕ) (bitset : UInt32) (woken : ℕ) (q : List Waiter) :
    q.length ≤ (wakeQueue n bitset woken q).1.length + (n - woken) := by
  induction q generalizing woken with
  | nil => exact Nat.zero_le _
  | cons x q ih =>
    unfold wakeQueue
    split
    · have := ih (woken + 1)
      simp only [List.length_cons] at this ⊢
      omega
    · have := ih woken
      simp only [List.length_cons] at this ⊢
      omega

theorem wake_queue_other {n : ℕ} {bitset : UInt32} {k : UInt64} (hk : k ≠ key) :
    (s.wake key n bitset).1.queue k = s.queue k := by
  unfold State.wake
  split
  · rfl
  · dsimp only [State.setQueue, State.queue]
    split_ifs
    · rw [AList.lookup_erase_ne hk]
    · rw [AList.lookup_insert_ne hk]

variable (s key) in
theorem wake_queue_length (n : ℕ) (bitset : UInt32) :
    (s.queue key).length ≤ ((s.wake key n bitset).1.queue key).length + n := by
  unfold State.wake
  split
  · exact Nat.le_add_right _ _
  · rename_i q hq
    have hlen := wakeQueue_length n bitset 0 q
    have hs : s.queue key = q := by simp [State.queue, hq]
    have hset : ((s.setQueue key (wakeQueue n bitset 0 q).1).queue key) = (wakeQueue n bitset 0 q).1 := queue_setQueue s key _
    rw [hs]
    change q.length ≤ ((s.setQueue key (wakeQueue n bitset 0 q).1).queue key).length + n
    rw [hset]
    omega

theorem Full.move (h : Full s) {from_ to_ : UInt64} {n : ℕ}
    (hne : from_ = to_ ∨ (s.queue from_ ≠ [] ∧ 0 < n) ∨ s.queue to_ ≠ []) : Full (s.move from_ to_ n) := by
  unfold State.move
  split_ifs with heq
  · exact h
  · have hne' := hne.resolve_left heq
    split
    · rename_i hnone
      refine h.push (.inr ?_)
      rcases hne' with ⟨hq, -⟩ | hq
      · simp [State.queue, hnone] at hq
      · exact hq
    · rename_i q hq
      have hs : s.queue from_ = q := by simp [State.queue, hq]
      refine (h.setQueue _).push ?_
      rcases hne' with ⟨hq', hn⟩ | hq'
      · left
        rw [hs] at hq'
        rw [ne_eq, List.take_eq_nil_iff]
        rintro (h0 | h0)
        · omega
        · exact hq' h0
      · right
        have hto : (s.setQueue from_ (q.drop n)).queue to_ = s.queue to_ := by
          dsimp only [State.setQueue, State.queue]
          split_ifs
          · rw [AList.lookup_erase_ne (Ne.symm heq)]
          · rw [AList.lookup_insert_ne (Ne.symm heq)]
        rwa [hto]

end Full

/-! ## Where the waits are -/

/-- the wait `id` is in one queue, once, or marked, if `p id`, and else nowhere; `n` ids are given out -/
structure Places (s : State) (n : ℕ) (p : ℕ → Bool) : Prop where
  full : Full s
  place : ∀ id, s.queued id + (if id ∈ s.woken then 1 else 0) = (p id).toNat
  next : s.nextId = n

namespace Places

variable {s : State} {n : ℕ} {p : ℕ → Bool} (h : Places s n p)
include h

theorem queued_le (id : ℕ) : s.queued id ≤ 1 := by
  have := h.place id
  cases hp : p id <;> rw [hp] at this <;> simp only [Bool.toNat_false, Bool.toNat_true] at this <;> omega

theorem queued_marked {id : ℕ} (hid : id ∈ s.woken) : s.queued id = 0 ∧ p id = true := by
  have := h.place id
  rw [if_pos hid] at this
  cases hp : p id
  · rw [hp] at this
    simp at this
  · rw [hp] at this
    simpa using this

theorem wake (key : UInt64) (m : ℕ) (bitset : UInt32) : Places (s.wake key m bitset).1 n p := by
  obtain ⟨hq, hw, hn⟩ := wake_spec s key m bitset
  refine ⟨h.full.wake m bitset, fun id => ?_, hn.trans h.next⟩
  have hsum := hq id
  have hle := h.queued_le id
  rw [← h.place id, hw]
  by_cases hm : id ∈ (s.wake key m bitset).2
  · have hpos := List.count_pos_iff.2 hm
    have hno : id ∉ s.woken := fun hc => by
      have := (h.queued_marked hc).1
      omega
    rw [if_pos (Finset.mem_union_right _ (List.mem_toFinset.2 hm)), if_neg hno]
    omega
  · have hz := List.count_eq_zero.2 hm
    simp only [Finset.mem_union, List.mem_toFinset, hm, or_false]
    omega

theorem move {from_ to_ : UInt64} {m : ℕ} (hne : from_ = to_ ∨ (s.queue from_ ≠ [] ∧ 0 < m) ∨ s.queue to_ ≠ []) :
    Places (s.move from_ to_ m) n p := by
  obtain ⟨hw, hn⟩ := move_rest s from_ to_ m
  refine ⟨h.full.move hne, fun id => ?_, hn.trans h.next⟩
  rw [queued_move, hw]
  exact h.place id

theorem push {id : ℕ} (hid : p id = false) (key : UInt64) (bitset : UInt32) :
    Places (s.push key [⟨id, bitset⟩]) n (Function.update p id true) := by
  refine ⟨h.full.push (.inl (List.cons_ne_nil _ _)), fun id' => ?_, h.next⟩
  have ho : occurs id' [⟨id, bitset⟩] = if id' = id then 1 else 0 := by simp [occurs, eq_comm]
  have hp := h.place id'
  rw [queued_push, ho, Function.update_apply]
  change s.queued id' + _ + (if id' ∈ s.woken then 1 else 0) = _
  by_cases he : id' = id
  · subst he
    rw [hid, Bool.toNat_false] at hp
    rw [if_pos rfl, if_pos rfl, Bool.toNat_true]
    omega
  · rw [if_neg he, if_neg he]
    omega

/-- one that is not marked out of its queue -/
theorem remove {id : ℕ} (hid : id ∉ s.woken) (key : UInt64) :
    Places (s.remove id key) n (Function.update p id false) := by
  obtain ⟨hw, hn⟩ := remove_rest s id key
  refine ⟨h.full.remove id, fun id' => ?_, hn.trans h.next⟩
  rw [queued_remove s id id' key (h.queued_le id), hw, Function.update_apply]
  split_ifs with he hm
  · rw [he] at hm
    exact absurd hm hid
  · rfl
  · have := h.place id'
    rwa [if_pos ‹_›] at this
  · have := h.place id'
    rwa [if_neg ‹_›] at this

theorem clearMark {id : ℕ} (hid : id ∈ s.woken) : Places (clearMark s id) n (Function.update p id false) := by
  refine ⟨h.full, fun id' => ?_, h.next⟩
  have hq : (FutexTidy.clearMark s id).queued id' = s.queued id' := rfl
  have hm : id' ∈ (FutexTidy.clearMark s id).woken ↔ id' ≠ id ∧ id' ∈ s.woken := Finset.mem_erase
  rw [hq, Function.update_apply]
  by_cases he : id' = id
  · rw [if_pos he, if_neg (fun hc => (hm.1 hc).1 he), he, (h.queued_marked hid).1]
    rfl
  · rw [if_neg he, ← h.place id']
    simp only [hm, he, ne_eq, not_false_eq_true, true_and]

/-- a pass of `wait` leaves its wait where it was, or nowhere -/
theorem pass {id : ℕ} (hid : p id = true) (key : UInt64) (m : Meets) :
    Places (s.pass id key m).1 n (Function.update p id ((s.pass id key m).2 = none)) := by
  unfold State.pass
  by_cases hm : id ∈ s.woken
  · rw [if_pos hm]
    exact h.clearMark hm
  · rw [if_neg hm]
    split_ifs
    · exact h.remove hm key
    · exact h.remove hm key
    · have hsame : Function.update p id true = p := by rw [← hid, Function.update_eq_self]
      simp only [decide_true, hsame]
      exact h

end Places

/-- out of its queue, if it is in one and not marked -/
theorem Places.removeQueued {s : State} {n : ℕ} {p : ℕ → Bool} {id : ℕ} {queued : Bool}
    (h : Places s n (Function.update p id queued)) (hid : id ∉ s.woken) (key : UInt64) :
    Places (s.removeQueued queued id key) n (Function.update p id false) := by
  cases queued with
  | false => exact h
  | true =>
    have hr := h.remove hid key
    rwa [Function.update_idem] at hr

/-- in the queue, if it was in none -/
theorem Places.queue {s : State} {n : ℕ} {p : ℕ → Bool} {id : ℕ} {queued : Bool}
    (h : Places s n (Function.update p id queued)) (key : UInt64) :
    Places (if queued = true then s else s.push key [⟨id, 0xffffffff⟩]) n (Function.update p id true) := by
  cases queued with
  | true => exact h
  | false =>
    have hp := h.push (Function.update_self ..) key 0xffffffff
    rwa [Function.update_idem] at hp

/-- a mark that is there is taken -/
theorem Places.takeMark {s : State} {n : ℕ} {p : ℕ → Bool} {id : ℕ} {queued : Bool}
    (h : Places s n (Function.update p id queued)) {marked : Bool} (hm : marked = (queued && decide (id ∈ s.woken))) :
    Places (if marked then FutexTidy.clearMark s id else s) n (Function.update p id (queued && !marked)) ∧
      id ∉ (if marked then FutexTidy.clearMark s id else s).woken := by
  by_cases hid : id ∈ s.woken
  · have hq : queued = true := by
      have := (h.queued_marked hid).2
      rwa [Function.update_self] at this
    have hmark : marked = true := by rw [hm, hq, decide_eq_true hid]; rfl
    have hc := h.clearMark hid
    rw [Function.update_idem] at hc
    rw [hmark, hq, if_pos rfl]
    exact ⟨hc, Finset.notMem_erase _ _⟩
  · have hmark : marked = false := by rw [hm, decide_eq_false hid, Bool.and_false]
    rw [hmark, if_neg Bool.false_ne_true, Bool.not_false, Bool.and_true]
    exact ⟨h, hid⟩

/-- `lock_pi` parks in a queue, or leaves nothing behind -/
theorem piPass_places {id : ℕ} {key : UInt64} {tid : UInt32} {n : ℕ} {p : ℕ → Bool} {turns : List Turn} {s : State}
    {queued : Bool} {r : State × Option (Except Errno Unit)} (h : Places s n (Function.update p id queued))
    (hr : piPass id key tid turns s queued = some r) :
    Places r.1 n (Function.update p id (r.2 = none)) ∧ (r.2 ≠ none → id ∉ r.1.woken) := by
  induction turns generalizing s queued with
  | nil => cases hr
  | cons t ts ih =>
    rw [piPass] at hr
    obtain ⟨h1, hno⟩ := h.takeMark (rfl : (queued && decide (id ∈ s.woken)) = _)
    generalize hmarked : (queued && decide (id ∈ s.woken)) = marked at hr h1 hno
    generalize (if marked = true then clearMark s id else s) = s1 at hr h1 hno
    generalize (queued && !marked) = q1 at hr h1
    dsimp only at hr
    have hgone := h1.removeQueued hno key
    have hwoken : (s1.removeQueued q1 id key).woken = s1.woken := by
      cases q1
      · rfl
      · exact (remove_rest s1 id key).1
    have h2 := h1.queue key
    have hw2 : (if q1 = true then s1 else s1.push key [⟨id, 0xffffffff⟩]).woken = s1.woken := by cases q1 <;> rfl
    generalize (if q1 = true then s1 else s1.push key [⟨id, 0xffffffff⟩]) = s2 at hr h2 hw2
    split_ifs at hr with hint hown hsame htid hraced hlate hmark
    · cases hr
      exact ⟨hgone, fun _ => by rwa [hwoken]⟩
    · cases hr
      exact ⟨hgone, fun _ => by rwa [hwoken]⟩
    · exact ih hgone hr
    · cases hr
      exact ⟨hgone, fun _ => by rwa [hwoken]⟩
    · exact ih h1 hr
    · -- a mark would have been taken
      rw [hw2] at hmark
      exact absurd hmark hno
    · cases hr
      have h3 := h2.remove hmark key
      rw [Function.update_idem] at h3
      exact ⟨h3, fun _ => by rwa [(remove_rest s2 id key).1]⟩
    · cases hr
      exact ⟨h2, fun hc => absurd rfl hc⟩

/-! ## Runs -/

def World.placed (w : World) (id : ℕ) : Bool := (w.waits.lookup id).any Wait.queues

/-- the table holds what the waits in progress need, and nothing else -/
structure Tidy (w : World) : Prop where
  places : Places w.st w.st.nextId w.placed
  parked : ∀ id, id ∈ w.parked ↔ (w.waits.lookup id).isSome
  fresh : ∀ id, (w.waits.lookup id).isSome → id ≤ w.st.nextId

namespace Tidy

variable {w : World} (h : Tidy w)
include h

/-- the queues change, the waits do not -/
theorem stirred {s : State} (hp : Places s w.st.nextId w.placed) : Tidy { w with st := s } :=
  ⟨⟨hp.full, hp.place, rfl⟩, h.parked, fun id hid => by rw [hp.next]; exact h.fresh id hid⟩

/-- the wait `id` is where its pass left it -/
theorem passed {id n : ℕ} {x : Wait} {r : State × Option (Except Errno Unit)}
    (hp : Places r.1 n (Function.update w.placed id (decide (r.2 = none) && x.queues))) (hn : w.st.nextId ≤ n) (hid : id ≤ n) :
    Tidy (w.passed id x r) := by
  obtain ⟨s, r⟩ := r
  have hnext : s.nextId = n := hp.next
  cases r with
  | none =>
    refine ⟨⟨hp.full, fun id' => ?_, rfl⟩, fun id' => ?_, fun id' hid' => ?_⟩
    · refine (hp.place id').trans (congrArg Bool.toNat ?_)
      dsimp only [World.passed, World.placed]
      rw [Function.update_apply, Map.lookup_insert_eq]
      split_ifs <;> rfl
    · dsimp only [World.passed]
      rw [Finset.mem_insert, h.parked id', Map.lookup_insert_eq]
      split_ifs with he <;> simp [he]
    · dsimp only [World.passed] at hid' ⊢
      rw [Map.lookup_insert_eq] at hid'
      split_ifs at hid' with he
      · omega
      · have := h.fresh id' hid'
        omega
  | some e =>
    refine ⟨⟨hp.full, fun id' => ?_, rfl⟩, fun id' => ?_, fun id' hid' => ?_⟩
    · refine (hp.place id').trans (congrArg Bool.toNat ?_)
      dsimp only [World.passed, World.placed]
      rw [Function.update_apply, Map.lookup_erase_eq]
      split_ifs <;> rfl
    · dsimp only [World.passed]
      rw [Finset.mem_erase, h.parked id', Map.lookup_erase_eq]
      split_ifs with he <;> simp [he]
    · dsimp only [World.passed] at hid' ⊢
      rw [Map.lookup_erase_eq] at hid'
      split_ifs at hid' with he
      · cases hid'
      · have := h.fresh id' hid'
        omega

/-- a sleep is in no queue, and stays in none -/
theorem rested {id n : ℕ} {s : State} (hp : Places s n w.placed) (hid : w.placed id = false) (m : Meets) (hn : w.st.nextId ≤ n)
    (hle : id ≤ n) : Tidy (w.passed id .sleep (World.rest s m)) := by
  have hs : (World.rest s m).1 = s := by
    unfold World.rest
    split_ifs <;> rfl
  refine h.passed ?_ hn hle
  rw [hs, Wait.queues, Bool.and_false, ← hid, Function.update_eq_self]
  exact hp

/-- a wait id is given out -/
theorem register : Places w.st.register.1 (w.st.nextId + 1) w.placed ∧ w.placed w.st.register.2 = false := by
  refine ⟨⟨h.places.full, h.places.place, rfl⟩, ?_⟩
  cases hl : w.waits.lookup (w.st.nextId + 1) with
  | none => simp [World.placed, State.register, hl]
  | some x =>
    have := h.fresh _ (by rw [hl]; rfl)
    omega

/-- a pass of `lock_pi`, from wherever it is -/
theorem piPassed {id n : ℕ} {key : UInt64} {tid : UInt32} {turns : List Turn} {s : State} {queued : Bool}
    (hp : Places s n (Function.update w.placed id queued)) (hn : w.st.nextId ≤ n) (hid : id ≤ n) :
    Tidy (w.piPassed id key tid (piPass id key tid turns s queued)) := by
  cases hr : piPass id key tid turns s queued with
  | none => exact h
  | some r =>
    obtain ⟨hr1, hr2⟩ := piPass_places hp hr
    obtain ⟨s', e⟩ := r
    cases e with
    | none => exact h.passed (x := .pi key tid) (r := (s', none)) (by simpa [Wait.queues] using hr1) hn hid
    | some e =>
      have hclear : clearMark s' id = s' := by
        rw [clearMark, Finset.erase_eq_of_notMem (hr2 (Option.some_ne_none e))]
      dsimp only [World.piPassed]
      rw [hclear]
      exact h.passed (by simpa using hr1) hn hid

theorem woke (key : UInt64) (n : ℕ) (bitset : UInt32) : Tidy (w.woke (w.st.wake key n bitset)) :=
  h.stirred (h.places.wake key n bitset)

end Tidy

theorem step_tidy {w : World} (h : Tidy w) (a : Act) (ho : w.steady a) : Tidy (w.step a) := by
  cases a with
  | wait addr expected bitset interrupted word first =>
    dsimp only [World.step]
    by_cases hb : bitset = 0
    · rw [if_pos hb]
      exact h
    rw [if_neg hb]
    cases hk : keyOf addr with
    | error e => exact h
    | ok key =>
      by_cases hx : (interrupted || decide (word ≠ .ok expected)) = true
      · dsimp only
        rw [if_pos hx]
        exact h
      · dsimp only
        rw [if_neg hx]
        obtain ⟨hp, hnew⟩ := h.register
        have hpass := (hp.push hnew key bitset).pass (Function.update_self ..) key first
        rw [Function.update_idem] at hpass
        exact h.passed (x := .futex key) (by simpa [Wait.queues] using hpass) (Nat.le_succ _) le_rfl
  | lockPi addr tid mapped turns =>
    dsimp only [World.step]
    split
    · obtain ⟨hp, hnew⟩ := h.register
      have hid : Function.update w.placed w.st.register.2 false = w.placed := by rw [← hnew, Function.update_eq_self]
      exact h.piPassed (by rwa [hid]) (Nat.le_succ _) le_rfl
    · exact h
  | sleep ended first =>
    dsimp only [World.step]
    split_ifs
    · exact h
    · obtain ⟨hp, hnew⟩ := h.register
      exact h.rested hp hnew _ (Nat.le_succ _) le_rfl
  | unpark id m =>
    dsimp only [World.step]
    cases hl : w.waits.lookup id with
    | none => exact h
    | some x =>
      have hplaced : w.placed id = x.queues := by rw [World.placed, hl]; rfl
      have hfresh := h.fresh id (by rw [hl]; rfl)
      cases x with
      | futex key =>
        have hpass := h.places.pass hplaced key m
        exact h.passed (x := .futex key) (by simpa [Wait.queues] using hpass) le_rfl hfresh
      | pi key tid => exact h
      | sleep => exact h.rested h.places hplaced m le_rfl hfresh
  | unparkPi id turns =>
    dsimp only [World.step]
    split
    · rename_i key tid hl
      have hid : w.placed id = true := by rw [World.placed, hl]; rfl
      have hsame : Function.update w.placed id true = w.placed := by rw [← hid, Function.update_eq_self]
      exact h.piPassed (by rw [hsame]; exact h.places) le_rfl (h.fresh id (by rw [hl]; rfl))
    · exact h
  | wake addr n bitset =>
    dsimp only [World.step]
    split_ifs
    · exact h
    · split
      · exact h
      · exact h.woke ..
  | requeue addr nWake addr2 nRequeue expected word =>
    dsimp only [World.step]
    split
    · rename_i from_ to_ hf ht
      split_ifs with hx
      · exact h
      · refine h.stirred ((h.places.wake from_ nWake 0xffffffff).move ?_)
        rcases ho from_ to_ hf ht (by simpa using hx) with he | ⟨hlen, hpos⟩ | hne
        · exact .inl he
        · refine .inr (.inl ⟨fun hnil => ?_, hpos⟩)
          have := wake_queue_length w.st from_ nWake 0xffffffff
          rw [hnil, List.length_nil] at this
          omega
        · by_cases he : from_ = to_
          · exact .inl he
          · right; right
            rwa [wake_queue_other (Ne.symm he)]
    · exact h
  | wakeOp addr n1 addr2 n2 op old =>
    dsimp only [World.step]
    split
    · split
      · split_ifs
        · exact (h.woke ..).woke ..
        · exact h.woke ..
      · exact h
    · exact h
  | unlockPi addr tid word =>
    dsimp only [World.step]
    split
    · split_ifs
      · exact h
      · exact h.woke ..
    · exact h

theorem tidy_start : Tidy {} where
  places := ⟨nofun, fun _ => rfl, rfl⟩
  parked := fun _ => by simp
  fresh := nofun

theorem reach_tidy {w : World} (h : Reach World.step World.steady {} w) : Tidy w :=
  h.invariant Tidy tidy_start fun _ a _ ho ht => step_tidy ht a ho

/-- who is in a queue is parked -/
theorem Tidy.parked_of_queued {w : World} (h : Tidy w) {key : UInt64} {q : List Waiter} (hq : w.st.queues.lookup key = some q)
    {x : Waiter} (hx : x ∈ q) : x.id ∈ w.parked := by
  have hle : occurs x.id q ≤ w.st.queued x.id := Map.le_weigh (w := fun _ q => occurs x.id q) hq
  have hpos : 0 < occurs x.id q := List.countP_pos_iff.2 ⟨x, hx, by simp⟩
  have hplace := h.places.place x.id
  rw [h.parked]
  cases hl : w.waits.lookup x.id with
  | none =>
    have hno : w.placed x.id = false := by rw [World.placed, hl]; rfl
    rw [hno, Bool.toNat_false] at hplace
    omega
  | some y => rfl

theorem Tidy.parked_of_marked {w : World} (h : Tidy w) {id : ℕ} (hid : id ∈ w.st.woken) : id ∈ w.parked := by
  have hp := (h.places.queued_marked hid).2
  rw [World.placed] at hp
  rw [h.parked]
  cases hl : w.waits.lookup id with
  | none => rw [hl] at hp; cases hp
  | some y => rfl

/-- without a wait nothing is there -/
theorem Tidy.empty {w : World} (h : Tidy w) (h0 : w.waits = ∅) : w.st.queues = ∅ ∧ w.st.woken = ∅ ∧ w.parked = ∅ := by
  have hparked : w.parked = ∅ := by
    refine Finset.eq_empty_of_forall_notMem fun id hid => ?_
    rw [h.parked, h0] at hid
    cases hid
  have hnone : ∀ id, id ∉ w.parked := fun id => by
    rw [hparked]
    exact Finset.notMem_empty id
  refine ⟨?_, Finset.eq_empty_of_forall_notMem fun id hid => hnone id (h.parked_of_marked hid), hparked⟩
  refine AList.ext (List.eq_nil_iff_forall_not_mem.2 ?_)
  rintro ⟨key, q⟩ hm
  have hq := (Map.mem_entries w.st.queues key q).1 hm
  cases q with
  | nil => exact h.places.full key hq
  | cons x q => exact hnone _ (h.parked_of_queued hq List.mem_cons_self)

/-! ## The result -/

/-- **The futex table keeps nothing it does not need.** In every run in which each requeue from one queue to another moves a waiter,
or finds one at its second address, no queue is empty, every wait queued or marked is parked, the parked waits are those in
progress, and where there is none the table is empty. -/
theorem futex_tidy (w : World) (h : Reach World.step World.steady {} w) :
    (∀ key, w.st.queues.lookup key ≠ some []) ∧
      (∀ id ∈ w.st.woken, id ∈ w.parked) ∧
      (∀ key q, w.st.queues.lookup key = some q → ∀ x ∈ q, x.id ∈ w.parked) ∧
      (∀ id, id ∈ w.parked ↔ (w.waits.lookup id).isSome) ∧
      (w.waits = ∅ → w.st.queues = ∅ ∧ w.st.woken = ∅ ∧ w.parked = ∅) := by
  have ht := reach_tidy h
  exact ⟨ht.places.full, fun id => ht.parked_of_marked, fun key q hq x hx => ht.parked_of_queued hq hx, ht.parked, ht.empty⟩

/-- a wait moves to another queue, and times out there -/
def movedRun : List Act :=
  [.wait 64 0 1 false (.ok 0) ⟨false, false⟩, .requeue 64 0 128 1 none (.ok 0), .unpark 1 ⟨false, true⟩]

theorem futex_tidy_moved :
    (run World.step {} (movedRun.take 2)).st.queues.lookup 128 = some [⟨1, 1⟩] ∧ (run World.step {} movedRun).st.queues = ∅ := by
  have hok : Allowed World.step World.steady {} movedRun := by
    refine ⟨trivial, ?_, trivial, trivial⟩
    rintro from_ to_ hf ht -
    cases hf
    cases ht
    decide
  have h := futex_tidy _ (Reach.run .start movedRun hok)
  have hdone : (run World.step {} movedRun).waits.entries = [] := by decide
  exact ⟨by decide, (h.2.2.2.2 (AList.ext hdone)).1⟩

/-- a requeue where nobody waits leaves an empty queue, for good -/
theorem futex_litter :
    (run World.step {} [.requeue 64 1 128 1 none (.ok 0)]).st.queues.lookup 128 = some [] ∧
      (run World.step {} [.requeue 64 1 128 1 none (.ok 0)]).waits.entries = [] := by
  decide

end Omnidroid.FutexTidy
