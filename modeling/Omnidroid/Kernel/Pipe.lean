/-
A pipe (`omni-linux/src/pipe.rs`): a byte queue with any number of calls on it, and ends that come and go.

A call turns its loop under the queue's lock until it returns or waits; a wait drops the lock. One step is one turn.
The ends are counted by atomics, so one may be opened or dropped between two turns of one critical section.
- `Conserved`: what was returned, and then what is queued, is what was accepted; and each write has accepted a prefix of
  its data. `step_conserved` keeps it.
- `pipe_fifo`: the claim's four laws, in every reachable state.
-/
import Omnidroid.Errno
import Omnidroid.Lib.FinMap
import Omnidroid.Lib.Bytes
import Omnidroid.Lib.Run

namespace Omnidroid.Pipes

/-! ## One turn of a call -/

/-- what Linux holds before a writer blocks: 64 KiB -/
def CAPACITY : ℕ := 65536

structure Pipe where
  bytes : Bytes := []
  readers : ℕ := 0
  writers : ℕ := 0
deriving DecidableEq, Repr

/-- a call on its way: `read` with room for `len`, `write` with `done` of its data accepted, a relay's `take` from a read
end, a relay's `give` that has seen a reader -/
inductive Call where
  | read (len : ℕ) (nonblocking : Bool)
  | write (data : Bytes) (done : ℕ) (nonblocking : Bool)
  | take
  | give (data : Bytes)
deriving DecidableEq, Repr

inductive Result where
  /-- the bytes of a `read` or of a `take` -/
  | got (b : Bytes)
  /-- how much a `write` accepted -/
  | wrote (n : ℕ)
  /-- a `take` that found none, of a pipe with a write end left, or with none -/
  | nothing
  | closed
  | gave
  | failed (e : Errno)
deriving DecidableEq, Repr

def Result.bytes : Result → Bytes
  | .got b => b
  | _ => []

inductive Next where
  /-- round the loop, the lock still held -/
  | again (c : Call)
  /-- to sleep, the lock dropped -/
  | waits
  | ends (r : Result)
deriving DecidableEq, Repr

/-- the queue after a turn, what the turn accepted into it, and how the call goes on -/
structure Turn where
  pipe : Pipe
  accepted : Bytes := []
  next : Next
deriving DecidableEq, Repr

/-- `wait`: not when a signal is pending or the process ends -/
def waitTurn (p : Pipe) (interrupted : Bool) : Turn :=
  if interrupted then { pipe := p, next := .ends (.failed EINTR) } else { pipe := p, next := .waits }

def readTurn (p : Pipe) (len : ℕ) (nonblocking interrupted : Bool) : Turn :=
  if p.bytes ≠ [] then
    let n := min len p.bytes.length
    { pipe := { p with bytes := p.bytes.drop n }, next := .ends (.got (p.bytes.take n)) }
  else if p.writers = 0 then { pipe := p, next := .ends (.got []) }
  else if nonblocking then { pipe := p, next := .ends (.failed EAGAIN) }
  else waitTurn p interrupted

def writeTurn (p : Pipe) (data : Bytes) (done : ℕ) (nonblocking interrupted : Bool) : Turn :=
  if done < data.length then
    if p.readers = 0 then { pipe := p, next := .ends (if done > 0 then .wrote done else .failed EPIPE) }
    else
      let room := CAPACITY - p.bytes.length
      if room = 0 then
        if nonblocking then { pipe := p, next := .ends (if done > 0 then .wrote done else .failed EAGAIN) }
        else waitTurn p interrupted
      else
        let n := min room (data.length - done)
        let chunk := (data.drop done).take n
        { pipe := { p with bytes := p.bytes ++ chunk }, accepted := chunk,
          next := .again (.write data (done + n) nonblocking) }
  else { pipe := p, next := .ends (.wrote done) }

def takeTurn (p : Pipe) : Turn :=
  if p.bytes ≠ [] then { pipe := { p with bytes := [] }, next := .ends (.got p.bytes) }
  else { pipe := p, next := .ends (if p.writers = 0 then .closed else .nothing) }

def giveTurn (p : Pipe) (data : Bytes) : Turn :=
  { pipe := { p with bytes := p.bytes ++ data }, accepted := data, next := .ends .gave }

def Call.turn (p : Pipe) (interrupted : Bool) : Call → Turn
  | .read len nb => readTurn p len nb interrupted
  | .write data done nb => writeTurn p data done nb interrupted
  | .take => takeTurn p
  | .give data => giveTurn p data

/-! ## The machine -/

structure World where
  pipe : Pipe := {}
  /-- the call that holds the queue's lock -/
  holder : Option ℕ := none
  calls : Map ℕ Call := ∅
  /-- history: the chunks accepted, and the bytes returned, in lock order, each with its call -/
  accepted : List (ℕ × Bytes) := []
  returned : List (ℕ × Bytes) := []
  /-- history: the calls that are over, and how each ended -/
  results : Map ℕ (Call × Result) := ∅

inductive Act where
  | openEnd (write : Bool)
  | dropEnd (write : Bool)
  | read (id len : ℕ) (nonblocking : Bool)
  | write (id : ℕ) (data : Bytes) (nonblocking : Bool)
  | take (id : ℕ)
  | give (id : ℕ) (data : Bytes)
  | turn (id : ℕ) (interrupted : Bool)
deriving DecidableEq, Repr

namespace World

/-- a call begins, under a name of its own -/
def begin_ (w : World) (id : ℕ) (c : Call) : World :=
  if (w.calls.lookup id).isSome || (w.results.lookup id).isSome then w
  else { w with calls := w.calls.insert id c }

def finish (w : World) (id : ℕ) (c : Call) : Next → World
  | .again c' => { w with calls := w.calls.insert id c', holder := some id }
  | .waits => { w with holder := none }
  | .ends r =>
    { w with
      calls := w.calls.erase id, results := w.results.insert id (c, r), returned := w.returned ++ [(id, r.bytes)],
      holder := none }

def turn (w : World) (id : ℕ) (interrupted : Bool) : World :=
  match w.calls.lookup id with
  | none => w
  | some c =>
    if w.holder = none ∨ w.holder = some id then
      let t := c.turn w.pipe interrupted
      { w with pipe := t.pipe, accepted := w.accepted ++ [(id, t.accepted)] }.finish id c t.next
    else w

def step (w : World) : Act → World
  | .openEnd true => { w with pipe := { w.pipe with writers := w.pipe.writers + 1 } }
  | .openEnd false => { w with pipe := { w.pipe with readers := w.pipe.readers + 1 } }
  | .dropEnd true => { w with pipe := { w.pipe with writers := w.pipe.writers - 1 } }
  | .dropEnd false => { w with pipe := { w.pipe with readers := w.pipe.readers - 1 } }
  | .read id len nb => w.begin_ id (.read len nb)
  | .write id data nb => w.begin_ id (.write data 0 nb)
  | .take id => w.begin_ id .take
  | .give id data => if w.pipe.readers = 0 then w else w.begin_ id (.give data)
  | .turn id interrupted => w.turn id interrupted

/-- what the call `id` had accepted -/
def sent (w : World) (id : ℕ) : Bytes := ((w.accepted.filter (·.1 = id)).map (·.2)).flatten

end World

/-! ## What one turn does -/

/-- a turn moves bytes from its data to the queue's end and from the queue's front to its result -/
theorem turn_moves (p : Pipe) (interrupted : Bool) (c : Call) :
    p.bytes ++ (c.turn p interrupted).accepted =
      (match (c.turn p interrupted).next with | .ends r => r.bytes | _ => []) ++ (c.turn p interrupted).pipe.bytes := by
  have hwait : ∀ p : Pipe, p.bytes ++ (waitTurn p interrupted).accepted =
      (match (waitTurn p interrupted).next with | .ends r => r.bytes | _ => []) ++ (waitTurn p interrupted).pipe.bytes :=
    fun p => by unfold waitTurn; split <;> simp [Result.bytes]
  cases c with
  | read len nb =>
    simp only [Call.turn]
    unfold readTurn
    split
    · simp [Result.bytes]
    · split
      · simp [Result.bytes]
      · split
        · simp [Result.bytes]
        · exact hwait p
  | write data done nb =>
    simp only [Call.turn]
    unfold writeTurn
    dsimp only
    split
    · split
      · split <;> simp [Result.bytes]
      · split
        · split
          · split <;> simp [Result.bytes]
          · exact hwait p
        · simp
    · simp [Result.bytes]
  | take =>
    simp only [Call.turn, takeTurn]
    split
    · simp [Result.bytes]
    · split <;> simp [Result.bytes]
  | give data => simp [Call.turn, giveTurn, Result.bytes]

/-- `b` is the call's part of the queue so far: a write's, the front of its data -/
def Call.Sent (b : Bytes) : Call → Prop
  | .write data done _ => b = data.take done ∧ done ≤ data.length
  | _ => True

/-- `b` is the part of a call that is over: a write's, as much of its data as it answered -/
def Result.Sent (b : Bytes) : Call → Result → Prop
  | .write data _ _, .wrote n => b = data.take n ∧ n ≤ data.length
  | _, _ => True

/-- the part of a call after a turn -/
def Next.Sent (c : Call) (b : Bytes) : Next → Prop
  | .again c' => c'.Sent b
  | .waits => c.Sent b
  | .ends r => r.Sent b c

theorem Result.sent_failed (b : Bytes) (c : Call) (e : Errno) : (Result.failed e).Sent b c := by
  cases c <;> trivial

theorem waitTurn_sent {p : Pipe} {interrupted : Bool} {c : Call} {b : Bytes} (h : c.Sent b) :
    (waitTurn p interrupted).next.Sent c (b ++ (waitTurn p interrupted).accepted) := by
  unfold waitTurn
  split
  · exact Result.sent_failed _ _ _
  · rw [List.append_nil]; exact h

/-- a write accepts the next of its data, or stops where it is -/
theorem writeTurn_sent {p : Pipe} {data : Bytes} {done : ℕ} {nb interrupted : Bool} {b : Bytes}
    (h : (Call.write data done nb).Sent b) :
    (writeTurn p data done nb interrupted).next.Sent (.write data done nb)
      (b ++ (writeTurn p data done nb interrupted).accepted) := by
  have stop : ∀ e : Errno, (if done > 0 then Result.wrote done else .failed e).Sent (b ++ []) (.write data done nb) := by
    intro e
    rw [List.append_nil]
    split
    · exact h
    · trivial
  unfold writeTurn
  dsimp only
  split
  · split
    · exact stop _
    · split
      · split
        · exact stop _
        · exact waitTurn_sent h
      · refine ⟨?_, by omega⟩
        rw [h.1, List.take_add]
  · rw [List.append_nil]; exact h

theorem turn_sent (p : Pipe) (interrupted : Bool) {c : Call} {b : Bytes} (h : c.Sent b) :
    (c.turn p interrupted).next.Sent c (b ++ (c.turn p interrupted).accepted) := by
  cases c with
  | write data done nb => exact writeTurn_sent h
  | read len nb =>
    simp only [Call.turn]
    unfold readTurn
    dsimp only
    repeat' split
    all_goals first | trivial | exact waitTurn_sent h
  | take =>
    simp only [Call.turn, takeTurn]
    split <;> trivial
  | give data => trivial

/-- a write fills the queue up to its capacity at most -/
theorem writeTurn_capacity (p : Pipe) (data : Bytes) (done : ℕ) (nb interrupted : Bool) :
    (writeTurn p data done nb interrupted).pipe = p ∨
      (writeTurn p data done nb interrupted).pipe.bytes.length ≤ CAPACITY := by
  unfold writeTurn waitTurn
  dsimp only
  repeat' split
  all_goals first | exact .inl rfl | skip
  right
  simp only [List.length_append, List.length_take, List.length_drop]
  omega

theorem readTurn_eof {p : Pipe} {len : ℕ} {nb interrupted : Bool} (hl : 0 < len)
    (h : (readTurn p len nb interrupted).next = .ends (.got [])) : p.bytes = [] ∧ p.writers = 0 := by
  unfold readTurn waitTurn at h
  dsimp only at h
  split at h
  · rename_i hne
    obtain ⟨b, bs, hb⟩ := List.exists_cons_of_ne_nil hne
    obtain ⟨k, hk⟩ := Nat.exists_eq_add_of_lt hl
    simp [hb, hk] at h
  · rename_i he
    split at h
    · rename_i hw; exact ⟨not_not.1 he, hw⟩
    · repeat' split at h
      all_goals cases h

/-! ## Every run -/

/-- nothing is lost between the two ends, and each call's part is the front of its data -/
structure Conserved (w : World) : Prop where
  fifo : (w.returned.map (·.2)).flatten ++ w.pipe.bytes = (w.accepted.map (·.2)).flatten
  apart : ∀ id, (w.calls.lookup id).isSome → w.results.lookup id = none
  unused : ∀ id, w.calls.lookup id = none → w.results.lookup id = none → w.sent id = []
  running : ∀ id c, w.calls.lookup id = some c → c.Sent (w.sent id)
  ended : ∀ id c r, w.results.lookup id = some (c, r) → Result.Sent (w.sent id) c r

theorem flatten_snoc (l : List (ℕ × Bytes)) (e : ℕ × Bytes) :
    ((l ++ [e]).map (·.2)).flatten = (l.map (·.2)).flatten ++ e.2 := by simp

namespace World

theorem sent_snoc {w w' : World} {id : ℕ} {b : Bytes} (h : w'.accepted = w.accepted ++ [(id, b)]) (id' : ℕ) :
    w'.sent id' = w.sent id' ++ if id' = id then b else [] := by
  unfold sent
  rw [h, List.filter_append, List.map_append, List.flatten_append]
  by_cases he : id' = id
  · simp [he]
  · simp [he, Ne.symm he]

theorem conserved_begin {w : World} (h : Conserved w) {id : ℕ} {c : Call} (hc : c.Sent []) :
    Conserved (w.begin_ id c) := by
  unfold begin_
  split
  · exact h
  · rename_i hnew
    simp only [Bool.or_eq_true, not_or, Bool.not_eq_true, Option.isSome_eq_false_iff, Option.isNone_iff_eq_none] at hnew
    refine ⟨h.fifo, fun id' hi => ?_, fun id' hn hr => ?_, fun id' c' hl => ?_, h.ended⟩
    · simp only [Map.lookup_insert_eq] at hi
      split_ifs at hi with he
      · rw [he]; exact hnew.2
      · exact h.apart id' hi
    · simp only [Map.lookup_insert_eq] at hn
      split_ifs at hn
      exact h.unused id' hn hr
    · simp only [Map.lookup_insert_eq] at hl
      split_ifs at hl with he
      · cases hl
        show c.Sent (w.sent id')
        rw [he, h.unused id hnew.1 hnew.2]
        exact hc
      · exact h.running id' c' hl

/-- a step of one call leaves the others as they were -/
theorem Conserved.update {w w' : World} (h : Conserved w) {id : ℕ} {b : Bytes}
    (ha : w'.accepted = w.accepted ++ [(id, b)])
    (hfifo : (w'.returned.map (·.2)).flatten ++ w'.pipe.bytes = (w.returned.map (·.2)).flatten ++ (w.pipe.bytes ++ b))
    (hcalls : ∀ id', id' ≠ id → w'.calls.lookup id' = w.calls.lookup id')
    (hresults : ∀ id', id' ≠ id → w'.results.lookup id' = w.results.lookup id')
    (here : (∃ c, w'.calls.lookup id = some c ∧ w'.results.lookup id = none ∧ c.Sent (w.sent id ++ b)) ∨
      ∃ c r, w'.calls.lookup id = none ∧ w'.results.lookup id = some (c, r) ∧ Result.Sent (w.sent id ++ b) c r) :
    Conserved w' := by
  have hs := sent_snoc ha
  have hhere : w'.sent id = w.sent id ++ b := by rw [hs, if_pos rfl]
  have hother : ∀ {id'}, id' ≠ id → w'.sent id' = w.sent id' := fun hne => by rw [hs, if_neg hne, List.append_nil]
  refine ⟨?_, fun id' hi => ?_, fun id' hn hr => ?_, fun id' c hl => ?_, fun id' c r hl => ?_⟩
  · rw [hfifo, ha, flatten_snoc, ← h.fifo, List.append_assoc]
  · by_cases he : id' = id
    · subst he
      rcases here with ⟨c, -, hr, -⟩ | ⟨c, r, hc, -⟩
      · exact hr
      · rw [hc] at hi; cases hi
    · rw [hresults id' he]; exact h.apart id' (hcalls id' he ▸ hi)
  · by_cases he : id' = id
    · subst he
      rcases here with ⟨c, hc, -⟩ | ⟨c, r, -, hr', -⟩
      · rw [hc] at hn; cases hn
      · rw [hr'] at hr; cases hr
    · rw [hother he]; exact h.unused id' (hcalls id' he ▸ hn) (hresults id' he ▸ hr)
  · by_cases he : id' = id
    · subst he
      rcases here with ⟨c', hc, -, hs'⟩ | ⟨c', r, hc, -⟩
      · rw [hc] at hl; cases hl; rw [hhere]; exact hs'
      · rw [hc] at hl; cases hl
    · rw [hother he]; exact h.running id' c (hcalls id' he ▸ hl)
  · by_cases he : id' = id
    · subst he
      rcases here with ⟨c', -, hr, -⟩ | ⟨c', r', -, hr, hs'⟩
      · rw [hr] at hl; cases hl
      · rw [hr] at hl; cases hl; rw [hhere]; exact hs'
    · rw [hother he]; exact h.ended id' c r (hresults id' he ▸ hl)

theorem conserved_turn {w : World} (h : Conserved w) (id : ℕ) (interrupted : Bool) : Conserved (w.turn id interrupted) := by
  unfold turn
  split
  · exact h
  · rename_i c hc
    split
    · have hm := turn_moves w.pipe interrupted c
      have hs := turn_sent w.pipe interrupted (h.running id c hc)
      have hnone : w.results.lookup id = none := h.apart id (by rw [hc]; rfl)
      dsimp only
      generalize c.turn w.pipe interrupted = t at hm hs
      cases hn : t.next with
      | again c' =>
        rw [hn] at hs hm
        refine Conserved.update h (b := t.accepted) rfl ?_ (fun id' hne => ?_) (fun _ _ => rfl) (.inl ⟨c', ?_, hnone, hs⟩)
        · rw [hm]; rfl
        · exact AList.lookup_insert_ne hne
        · exact AList.lookup_insert _
      | waits =>
        rw [hn] at hs hm
        refine Conserved.update h (b := t.accepted) rfl ?_ (fun _ _ => rfl) (fun _ _ => rfl) (.inl ⟨c, hc, hnone, hs⟩)
        rw [hm]; rfl
      | ends r =>
        rw [hn] at hs hm
        refine Conserved.update h (b := t.accepted) rfl ?_ (fun id' hne => ?_) (fun id' hne => ?_)
          (.inr ⟨c, r, ?_, ?_, hs⟩)
        · simp only [finish, flatten_snoc, List.append_assoc, hm]
        · exact AList.lookup_erase_ne hne
        · exact AList.lookup_insert_ne hne
        · exact AList.lookup_erase _ _
        · exact AList.lookup_insert _
    · exact h

theorem step_conserved (w : World) (h : Conserved w) (a : Act) : Conserved (step w a) := by
  cases a with
  | openEnd write => cases write <;> exact ⟨h.fifo, h.apart, h.unused, h.running, h.ended⟩
  | dropEnd write => cases write <;> exact ⟨h.fifo, h.apart, h.unused, h.running, h.ended⟩
  | read id len nb => exact conserved_begin h trivial
  | write id data nb => exact conserved_begin h ⟨rfl, Nat.zero_le _⟩
  | take id => exact conserved_begin h trivial
  | give id data =>
    simp only [step]
    split
    · exact h
    · exact conserved_begin h trivial
  | turn id interrupted => exact conserved_turn h id interrupted

end World

theorem conserved_init : Conserved {} :=
  ⟨rfl, fun _ h => Bool.noConfusion h, fun _ _ _ => rfl, fun _ _ h => (by cases h), fun _ _ _ h => (by cases h)⟩

theorem reach_conserved {w : World} (h : Reach World.step anyStep {} w) : Conserved w :=
  h.invariant Conserved conserved_init fun w a _ _ hc => World.step_conserved w hc a

/-- what a pipe promises in a state, and of the next turn of any of its calls -/
structure Fifo (w : World) : Prop where
  /-- what was returned, and then what is queued, is what was accepted -/
  order : (w.returned.map (·.2)).flatten ++ w.pipe.bytes = (w.accepted.map (·.2)).flatten
  /-- a write that answered `n` had the first `n` bytes of its data accepted -/
  wrote : ∀ id data done nb n, w.results.lookup id = some (.write data done nb, .wrote n) →
    w.sent id = data.take n ∧ n ≤ data.length
  /-- a write leaves the queue as it is, or no longer than its capacity -/
  capacity : ∀ id i data done nb, w.calls.lookup id = some (.write data done nb) →
    (World.step w (.turn id i)).pipe.bytes = w.pipe.bytes ∨ (World.step w (.turn id i)).pipe.bytes.length ≤ CAPACITY
  /-- a read with room answers 0 of an empty queue with no write end left -/
  eof : ∀ id i len nb c, w.calls.lookup id = some (.read len nb) → 0 < len →
    (World.step w (.turn id i)).results.lookup id = some (c, .got []) → w.pipe.bytes = [] ∧ w.pipe.writers = 0

/-- **A pipe is first in, first out.** In every reachable state. -/
theorem pipe_fifo (w : World) (h : Reach World.step anyStep {} w) : Fifo w := by
  have hc := reach_conserved h
  refine ⟨hc.fifo, fun id data done nb n hr => hc.ended id _ _ hr, fun id i data done nb hl => ?_,
    fun id i len nb c hl hlen hr => ?_⟩
  · simp only [World.step, World.turn, hl]
    split
    · have hf : ∀ (w : World) c n, (w.finish id c n).pipe = w.pipe := fun w c n => by cases n <;> rfl
      rw [hf]
      rcases writeTurn_capacity w.pipe data done nb i with he | he
      · exact .inl (congrArg Pipe.bytes he)
      · exact .inr he
    · exact .inl rfl
  · have hnone := hc.apart id (by rw [hl]; rfl)
    simp only [World.step, World.turn, hl] at hr
    split at hr
    · cases hn : (Call.turn w.pipe i (.read len nb)).next with
      | again c' => rw [hn] at hr; exact absurd (hnone.symm.trans hr) (by simp)
      | waits => rw [hn] at hr; exact absurd (hnone.symm.trans hr) (by simp)
      | ends r =>
        rw [hn] at hr
        have hl' := (AList.lookup_insert w.results).symm.trans hr
        simp only [Option.some.injEq, Prod.mk.injEq] at hl'
        exact @readTurn_eof _ _ nb i hlen (by rw [← hl'.2]; exact hn)
    · rw [hnone] at hr; cases hr

/-- a write of three bytes, half read between its turns -/
def shortRun : List Act :=
  [.openEnd false, .openEnd true, .write 0 [1, 2, 3] false, .turn 0 false, .turn 0 false, .read 1 2 false, .turn 1 false]

theorem pipe_fifo_short : Fifo (run World.step {} shortRun) := pipe_fifo _ (reach_run World.step {} shortRun)

end Omnidroid.Pipes
