/-
The futex wait queues (`omni-linux/src/futex.rs`): queues keyed by untagged address, and the marks of the waits that
were woken. One step is one critical section under the state lock; a parked wait may come back at any time, so which
threads a wake unparks is left out.
- `queued`: how often a wait is in the queues, all of them together; what each operation does to it.
- `Ledger`: each wait is in one place, and what the operations reported is what was marked. `step_ledger` keeps it.
- `futex_accounted`: in every reachable state each wait is in one place, each wake reported is a wait that returned 0 or
  will, and no other wait does.
-/
import Omnidroid.Errno
import Omnidroid.Lib.FinMap
import Omnidroid.Lib.Run

namespace Omnidroid.Futex

/-! ## Queues -/

def untag (addr : UInt64) : UInt64 := addr &&& 0x00FFFFFFFFFFFFFF

/-- the queue an address waits on -/
def keyOf (addr : UInt64) : Except Errno UInt64 := if untag addr % 4 ≠ 0 then .error EINVAL else .ok (untag addr)

structure Waiter where
  id : ℕ
  bitset : UInt32
deriving DecidableEq, Repr

structure State where
  queues : Map UInt64 (List Waiter) := ∅
  woken : Finset ℕ := ∅
  nextId : ℕ := 0

/-- a queue, gone when empty -/
def State.setQueue (s : State) (key : UInt64) (q : List Waiter) : State :=
  { s with queues := if q = [] then s.queues.erase key else s.queues.insert key q }

def State.queue (s : State) (key : UInt64) : List Waiter := (s.queues.lookup key).getD []

/-- out of whichever queues hold it -/
def State.removeAnywhere (s : State) (id : ℕ) : State :=
  { s with queues := s.queues.retain fun _ q =>
      if q.filter (·.id ≠ id) = [] then none else some (q.filter (·.id ≠ id)) }

/-- wait `id` out of `key`'s queue, or, moved by a requeue, out of whichever queue holds it -/
def State.remove (s : State) (id : ℕ) (key : UInt64) : State :=
  match s.queues.lookup key with
  | some q => if q.any (·.id = id) then s.setQueue key (q.eraseP (·.id = id)) else s.removeAnywhere id
  | none => s.removeAnywhere id

/-- `entry(key).or_default().push_back` -/
def State.push (s : State) (key : UInt64) (ws : List Waiter) : State :=
  { s with queues := s.queues.insert key (s.queue key ++ ws) }

/-- a new wait id -/
def State.register (s : State) : State × ℕ := ({ s with nextId := s.nextId + 1 }, s.nextId + 1)

/-- up to `n` waiters whose bitset meets `bitset`, oldest first, `woken` of them already: those that stay, those woken -/
def wakeQueue (n : ℕ) (bitset : UInt32) : ℕ → List Waiter → List Waiter × List ℕ
  | _, [] => ([], [])
  | woken, w :: ws =>
    if woken < n ∧ w.bitset &&& bitset ≠ 0 then
      let (kept, marked) := wakeQueue n bitset (woken + 1) ws
      (kept, w.id :: marked)
    else
      let (kept, marked) := wakeQueue n bitset woken ws
      (w :: kept, marked)

/-- the waiters woken are marked; how many there are is the answer -/
def State.wake (s : State) (key : UInt64) (n : ℕ) (bitset : UInt32) : State × List ℕ :=
  match s.queues.lookup key with
  | none => (s, [])
  | some q =>
    let (kept, marked) := wakeQueue n bitset 0 q
    ({ s.setQueue key kept with woken := s.woken ∪ marked.toFinset }, marked)

/-- up to `n` of the waiters of one queue move to the end of another -/
def State.move (s : State) (from_ to_ : UInt64) (n : ℕ) : State :=
  if from_ = to_ then s else
  match s.queues.lookup from_ with
  | none => s.push to_ []
  | some q => (s.setQueue from_ (q.drop n)).push to_ (q.take n)

/-! ## The operations -/

/-- what one pass of a wait's loop meets: a deliverable signal or the process ending, a deadline that has passed -/
structure Meets where
  interrupted : Bool
  late : Bool
deriving DecidableEq, Repr

/-- one pass of `wait`'s loop: over, or parked -/
def State.pass (s : State) (id : ℕ) (key : UInt64) (m : Meets) : State × Option (Except Errno Unit) :=
  if id ∈ s.woken then ({ s with woken := s.woken.erase id }, some (.ok ()))
  else if m.interrupted then (s.remove id key, some (.error EINTR))
  else if m.late then
    if id ∈ s.woken then ({ s with woken := s.woken.erase id }, some (.ok ()))
    else (s.remove id key, some (.error ETIMEDOUT))
  else (s, none)

/-- `v << 20 as i32 >> 20` -/
def sext12 (v : UInt32) : UInt32 := if v &&& 0x800 ≠ 0 then (v &&& 0xfff) ||| 0xfffff000 else v &&& 0xfff

def asI32 (v : UInt32) : ℤ := if v.toNat < 2 ^ 31 then v.toNat else (v.toNat : ℤ) - 2 ^ 32

/-- `FUTEX_OP_OPARG_SHIFT` makes the argument a bit: none from 32 on -/
def opArg (op : UInt32) : UInt32 :=
  let arg := sext12 (op >>> 12 &&& 0xfff)
  if op &&& 0x80000000 ≠ 0 then (if arg.toNat < 32 then 1 <<< arg else 0) else arg

/-- the word `FUTEX_WAKE_OP` leaves -/
def opUpdate (op old : UInt32) : Option UInt32 :=
  match (op >>> 28 &&& 7).toNat with
  | 0 => some (opArg op)
  | 1 => some (old + opArg op)
  | 2 => some (old ||| opArg op)
  | 3 => some (old &&& ~~~opArg op)
  | 4 => some (old ^^^ opArg op)
  | _ => none

/-- the comparison of the old word, if it is one -/
def opMet (op old : UInt32) : Option Bool :=
  let (a, b) := (asI32 old, asI32 (sext12 (op &&& 0xfff)))
  match (op >>> 24 &&& 15).toNat with
  | 0 => some (a = b)
  | 1 => some (a ≠ b)
  | 2 => some (a < b)
  | 3 => some (a ≤ b)
  | 4 => some (a > b)
  | 5 => some (a ≥ b)
  | _ => none

structure World where
  st : State := {}
  /-- the waits under way, and the queue each began on -/
  waits : Map ℕ UInt64 := ∅
  /-- history: how the waits that are over ended -/
  returned : List (ℕ × Except Errno Unit) := []
  /-- history: how many waiters wakes answered they woke, and which those were -/
  reported : ℕ := 0
  marked : List ℕ := []

inductive Act where
  /-- `FUTEX_WAIT`, up to its first park: what it meets before it queues, the word it reads, what its first pass meets -/
  | wait (addr : UInt64) (expected bitset : UInt32) (interrupted : Bool) (word : Except Errno UInt32) (first : Meets)
  /-- the park of a wait is over -/
  | unpark (id : ℕ) (m : Meets)
  | wake (addr : UInt64) (n : ℕ) (bitset : UInt32)
  | requeue (addr : UInt64) (nWake : ℕ) (addr2 : UInt64) (nRequeue : ℕ) (expected : Option UInt32)
    (word : Except Errno UInt32)
  /-- the word at `addr2` and what was in it -/
  | wakeOp (addr : UInt64) (n1 : ℕ) (addr2 : UInt64) (n2 : ℕ) (op : UInt32) (old : Except Errno UInt32)

namespace World

/-- a pass of the wait `id` is over -/
def passed (w : World) (id : ℕ) : State × Option (Except Errno Unit) → World
  | (s, none) => { w with st := s }
  | (s, some r) => { w with st := s, waits := w.waits.erase id, returned := w.returned ++ [(id, r)] }

/-- waiters were woken, and reported -/
def woke (w : World) : State × List ℕ → World
  | (s, marked) => { w with st := s, reported := w.reported + marked.length, marked := w.marked ++ marked }

/-- a wait queues, and makes its first pass -/
def enqueue (w : World) (key : UInt64) (bitset : UInt32) (first : Meets) : World :=
  let (s, id) := w.st.register
  let w := { w with st := s.push key [⟨id, bitset⟩], waits := w.waits.insert id key }
  w.passed id (w.st.pass id key first)

def step (w : World) : Act → World
  | .wait addr expected bitset interrupted word first =>
    if bitset = 0 then w else
    match keyOf addr with
    | .error _ => w
    | .ok key => if interrupted || word ≠ .ok expected then w else w.enqueue key bitset first
  | .unpark id m =>
    match w.waits.lookup id with
    | none => w
    | some key => w.passed id (w.st.pass id key m)
  | .wake addr n bitset =>
    if bitset = 0 then w else
    match keyOf addr with
    | .error _ => w
    | .ok key => w.woke (w.st.wake key n bitset)
  | .requeue addr nWake addr2 nRequeue expected word =>
    match keyOf addr, keyOf addr2 with
    | .ok from_, .ok to_ =>
      if expected.any fun e => word ≠ .ok e then w else
      let w := w.woke (w.st.wake from_ nWake 0xffffffff)
      { w with st := w.st.move from_ to_ nRequeue }
    | _, _ => w
  | .wakeOp addr n1 addr2 n2 op old =>
    match keyOf addr, keyOf addr2, old with
    | .ok k1, .ok k2, .ok old =>
      match opUpdate op old, opMet op old with
      | some _, some met =>
        let w := w.woke (w.st.wake k1 n1 0xffffffff)
        if met then w.woke (w.st.wake k2 n2 0xffffffff) else w
      | _, _ => w
    | _, _, _ => w

end World

/-! ## How often a wait is queued -/

/-- how often `id` is in a queue -/
def occurs (id : ℕ) (q : List Waiter) : ℕ := q.countP (·.id = id)

/-- how often `id` is in the queues -/
def State.queued (s : State) (id : ℕ) : ℕ := Map.weigh (fun _ q => occurs id q) s.queues

theorem queued_setQueue (s : State) (key : UInt64) (q : List Waiter) (id : ℕ) :
    (s.setQueue key q).queued id + occurs id (s.queue key) = s.queued id + occurs id q := by
  have hq : Map.weighAt (fun _ q => occurs id q) s.queues key = occurs id (s.queue key) :=
    Map.weighAt_getD (fun _ q => occurs id q) s.queues key [] rfl
  unfold State.setQueue State.queued
  rw [← hq]
  split
  · rename_i h
    rw [Map.weigh_erase, h]; rfl
  · exact Map.weigh_insert _ _ _ _

theorem queued_push (s : State) (key : UInt64) (ws : List Waiter) (id : ℕ) :
    (s.push key ws).queued id = s.queued id + occurs id ws := by
  have h := Map.weigh_insert (fun _ q => occurs id q) s.queues key (s.queue key ++ ws)
  have hq : Map.weighAt (fun _ q => occurs id q) s.queues key = occurs id (s.queue key) :=
    Map.weighAt_getD (fun _ q => occurs id q) s.queues key [] rfl
  have ha : occurs id (s.queue key ++ ws) = occurs id (s.queue key) + occurs id ws := List.countP_append
  show Map.weigh (fun _ q => occurs id q) (s.queues.insert key (s.queue key ++ ws)) = _
  unfold State.queued
  omega

theorem occurs_filter (id id' : ℕ) (q : List Waiter) :
    occurs id' (q.filter (·.id ≠ id)) = if id' = id then 0 else occurs id' q := by
  unfold occurs
  rw [List.countP_filter]
  split_ifs with h
  · rw [List.countP_eq_zero]
    intro w _
    simp [h]
  · refine List.countP_congr fun w _ => ?_
    simp only [decide_eq_true_eq, Bool.and_eq_true, ne_eq]
    constructor
    · exact fun hw => by simpa using hw.1
    · exact fun hw => ⟨by simpa using hw, by simpa [hw] using h⟩

theorem queued_removeAnywhere (s : State) (id id' : ℕ) :
    (s.removeAnywhere id).queued id' = if id' = id then 0 else s.queued id' := by
  have he : ∀ q : List Waiter, ((if q.filter (·.id ≠ id) = [] then none else some (q.filter (·.id ≠ id))).elim 0
      (occurs id')) = occurs id' (q.filter (·.id ≠ id)) := fun q => by
    split
    · rename_i h; rw [h]; rfl
    · rfl
  unfold State.removeAnywhere State.queued
  rw [Map.weigh_retain]
  simp only [he, occurs_filter]
  split_ifs
  · exact Map.weigh_eq_zero fun _ _ _ => rfl
  · rfl

/-- one of `id`'s places goes, all of them if it had one at most -/
theorem queued_remove (s : State) (id id' : ℕ) (key : UInt64) (h : s.queued id ≤ 1) :
    (s.remove id key).queued id' = if id' = id then 0 else s.queued id' := by
  unfold State.remove
  split
  · rename_i q hq
    split
    · rename_i hany
      have hs := queued_setQueue s key (q.eraseP (·.id = id)) id'
      have hqk : s.queue key = q := by simp [State.queue, hq]
      have hle : occurs id q ≤ s.queued id := Map.le_weigh (w := fun _ q => occurs id q) hq
      obtain ⟨w, hw, hwid⟩ := List.any_eq_true.1 hany
      obtain ⟨a, l₁, l₂, hl₁, ha, he, he'⟩ := List.exists_of_eraseP (p := fun w : Waiter => decide (w.id = id)) hw hwid
      have ho : ∀ i, occurs i q = occurs i (l₁ ++ l₂) + if i = a.id then 1 else 0 := fun i => by
        rw [he]
        simp only [occurs, List.countP_append, List.countP_cons, decide_eq_true_eq, eq_comm (a := i)]
        omega
      have haid : a.id = id := by simpa using ha
      rw [hqk, he', ho id', haid] at hs
      rw [he']
      rw [ho id, haid, if_pos rfl] at hle
      split_ifs at hs ⊢ with hid
      · rw [hid] at hs ⊢; omega
      · omega
    · exact queued_removeAnywhere s id id'
  · exact queued_removeAnywhere s id id'

theorem wakeQueue_occurs (n : ℕ) (bitset : UInt32) (woken : ℕ) (q : List Waiter) (id : ℕ) :
    occurs id (wakeQueue n bitset woken q).1 + (wakeQueue n bitset woken q).2.count id = occurs id q := by
  induction q generalizing woken with
  | nil => rfl
  | cons w ws ih =>
    unfold wakeQueue
    split
    · have := ih (woken + 1)
      simp only [occurs, List.count_cons, List.countP_cons, beq_iff_eq, decide_eq_true_eq] at this ⊢
      omega
    · have := ih woken
      simp only [occurs, List.countP_cons, decide_eq_true_eq] at this ⊢
      omega

/-- what a wake takes off the queues it marks -/
theorem wake_spec (s : State) (key : UInt64) (n : ℕ) (bitset : UInt32) :
    (∀ id, (s.wake key n bitset).1.queued id + (s.wake key n bitset).2.count id = s.queued id) ∧
      (s.wake key n bitset).1.woken = s.woken ∪ (s.wake key n bitset).2.toFinset ∧
      (s.wake key n bitset).1.nextId = s.nextId := by
  unfold State.wake
  split
  · simp
  · rename_i q hq
    refine ⟨fun id => ?_, rfl, rfl⟩
    have hs := queued_setQueue s key (wakeQueue n bitset 0 q).1 id
    have hqk : s.queue key = q := by simp [State.queue, hq]
    have hw := wakeQueue_occurs n bitset 0 q id
    rw [hqk] at hs
    show (s.setQueue key (wakeQueue n bitset 0 q).1).queued id + (wakeQueue n bitset 0 q).2.count id = s.queued id
    omega

/-- a requeue takes no wait out of the queues -/
theorem queued_move (s : State) (from_ to_ : UInt64) (n : ℕ) (id : ℕ) :
    (s.move from_ to_ n).queued id = s.queued id := by
  unfold State.move
  split
  · rfl
  · split
    · rw [queued_push]; rfl
    · rename_i q hq
      have hs := queued_setQueue s from_ (q.drop n) id
      have hqk : s.queue from_ = q := by simp [State.queue, hq]
      have hsplit : occurs id (q.take n) + occurs id (q.drop n) = occurs id q := by
        unfold occurs
        rw [← List.countP_append, List.take_append_drop]
      rw [queued_push]
      rw [hqk] at hs
      omega

theorem move_rest (s : State) (from_ to_ : UInt64) (n : ℕ) :
    (s.move from_ to_ n).woken = s.woken ∧ (s.move from_ to_ n).nextId = s.nextId := by
  unfold State.move
  split
  · exact ⟨rfl, rfl⟩
  · split <;> exact ⟨rfl, rfl⟩

theorem remove_rest (s : State) (id : ℕ) (key : UInt64) :
    (s.remove id key).woken = s.woken ∧ (s.remove id key).nextId = s.nextId := by
  unfold State.remove
  repeat' split
  all_goals exact ⟨rfl, rfl⟩

/-! ## Each wait in one place, each wake reported once -/

/-- the queue or the mark of a wait under way, and no other; what was marked, and where the marks went -/
structure Ledger (w : World) : Prop where
  place : ∀ id, w.st.queued id + (if id ∈ w.st.woken then 1 else 0) = if (w.waits.lookup id).isSome then 1 else 0
  known : ∀ id, (w.waits.lookup id).isSome ∨ id ∈ w.returned.map (·.1) ↔ 1 ≤ id ∧ id ≤ w.st.nextId
  apart : ∀ id, (w.waits.lookup id).isSome → id ∉ w.returned.map (·.1)
  total : w.marked.length = w.returned.countP (·.2.isOk) + w.st.woken.card
  marks : ∀ id, id ∈ w.marked ↔ id ∈ w.st.woken ∨ (id, .ok ()) ∈ w.returned
  once : (w.returned.map (·.1)).Nodup
  reported : w.reported = w.marked.length

namespace Ledger

variable {w : World}

theorem queued_le (h : Ledger w) (id : ℕ) : w.st.queued id ≤ 1 := by
  have := h.place id
  split_ifs at this <;> omega

/-- what is not under way is nowhere -/
theorem nowhere (h : Ledger w) {id : ℕ} (hn : w.waits.lookup id = none) : w.st.queued id = 0 ∧ id ∉ w.st.woken := by
  have := h.place id
  rw [hn] at this
  simp only [Option.isSome_none, Bool.false_eq_true, if_false] at this
  refine ⟨by omega, fun hm => ?_⟩
  rw [if_pos hm] at this; omega

/-- a wake marks waiters that were queued, and no one twice -/
theorem woke (h : Ledger w) (key : UInt64) (n : ℕ) (bitset : UInt32) : Ledger (w.woke (w.st.wake key n bitset)) := by
  obtain ⟨hq, hw, hn⟩ := wake_spec w.st key n bitset
  generalize w.st.wake key n bitset = r at hq hw hn
  obtain ⟨s, marked⟩ := r
  dsimp only at hq hw hn
  have hnodup : marked.Nodup := List.nodup_iff_count_le_one.2 fun id => by
    have := hq id; have := h.queued_le id; omega
  have hnew : ∀ id ∈ marked, w.st.queued id = 1 ∧ id ∉ w.st.woken ∧ marked.count id = 1 := fun id hm => by
    have h1 := hq id
    have h2 := List.count_pos_iff.2 hm
    have h3 := h.place id
    have h4 := h.queued_le id
    refine ⟨by omega, fun hc => ?_, by omega⟩
    rw [if_pos hc] at h3
    split_ifs at h3; omega
  have hdisj : Disjoint w.st.woken marked.toFinset := Finset.disjoint_left.2 fun id hi hm =>
    (hnew id (List.mem_toFinset.1 hm)).2.1 hi
  refine ⟨fun id => ?_, fun id => ?_, h.apart, ?_, fun id => ?_, h.once, ?_⟩
  · have h1 := hq id
    refine Eq.trans ?_ (h.place id)
    simp only [World.woke, hw, Finset.mem_union, List.mem_toFinset]
    by_cases hm : id ∈ marked
    · obtain ⟨h3, h4, h5⟩ := hnew id hm
      rw [if_neg h4, if_pos (.inr hm)]
      omega
    · have h3 := List.count_eq_zero.2 hm
      simp only [hm, or_false]
      omega
  · simp only [World.woke, hn]
    exact h.known id
  · simp only [World.woke, hw, List.length_append, Finset.card_union_of_disjoint hdisj,
      List.toFinset_card_of_nodup hnodup, h.total]
    omega
  · simp only [World.woke, hw, List.mem_append, Finset.mem_union, List.mem_toFinset, h.marks id]
    tauto
  · simp only [World.woke, List.length_append, h.reported]

theorem move (h : Ledger w) (from_ to_ : UInt64) (n : ℕ) : Ledger { w with st := w.st.move from_ to_ n } := by
  obtain ⟨hw, hn⟩ := move_rest w.st from_ to_ n
  refine ⟨fun id => ?_, fun id => ?_, h.apart, ?_, fun id => ?_, h.once, h.reported⟩
  · simp only [queued_move, hw]; exact h.place id
  · simp only [hn]; exact h.known id
  · simp only [hw]; exact h.total
  · simp only [hw]; exact h.marks id

/-- a wait that is over leaves its place: its mark if it returns 0, its queue if not -/
theorem finish (h : Ledger w) {id : ℕ} (hid : (w.waits.lookup id).isSome) {s : State} {r : Except Errno Unit}
    (hq : ∀ id', s.queued id' = if id' = id then 0 else w.st.queued id') (hn : s.nextId = w.st.nextId)
    (hr : r = .ok () ∧ id ∈ w.st.woken ∧ s.woken = w.st.woken.erase id ∨
      r.isOk = false ∧ id ∉ w.st.woken ∧ s.woken = w.st.woken) : Ledger (w.passed id (s, some r)) := by
  have hnew := h.apart id hid
  have hgone : id ∉ s.woken := by
    rcases hr with ⟨-, -, hs⟩ | ⟨-, hno, hs⟩
    · rw [hs]; exact Finset.notMem_erase _ _
    · rw [hs]; exact hno
  have hsame : ∀ id', id' ≠ id → (id' ∈ s.woken ↔ id' ∈ w.st.woken) := fun id' hne => by
    rcases hr with ⟨-, -, hs⟩ | ⟨-, -, hs⟩
    · rw [hs, Finset.mem_erase]; exact ⟨fun hm => hm.2, fun hm => ⟨hne, hm⟩⟩
    · rw [hs]
  refine ⟨fun id' => ?_, fun id' => ?_, fun id' hi => ?_, ?_, fun id' => ?_, ?_, h.reported⟩
  · simp only [World.passed, hq, Map.lookup_erase_eq]
    by_cases he : id' = id
    · subst he; simp [hgone]
    · simp only [if_neg he, hsame id' he]; exact h.place id'
  · simp only [World.passed, hn, Map.lookup_erase_eq, List.map_append, List.map_cons, List.map_nil, List.mem_append,
      List.mem_singleton, ← h.known id']
    by_cases he : id' = id
    · subst he; simp [hid]
    · simp [he]
  · simp only [World.passed, Map.lookup_erase_eq] at hi
    split_ifs at hi with he
    · cases hi
    · simp only [World.passed, List.map_append, List.map_cons, List.map_nil, List.mem_append, List.mem_singleton, he,
        or_false]
      exact h.apart id' hi
  · simp only [World.passed, List.countP_append, List.countP_cons, List.countP_nil]
    have ht := h.total
    rcases hr with ⟨rfl, hm, hs⟩ | ⟨hr, hm, hs⟩
    · have hc := Finset.card_erase_add_one hm
      have h1 : (.ok () : Except Errno Unit).isOk = true := rfl
      rw [h1, if_pos rfl, hs]
      omega
    · simp only [hr, hs, Bool.false_eq_true, if_false]
      omega
  · simp only [World.passed, h.marks id', List.mem_append, List.mem_singleton, Prod.mk.injEq]
    by_cases he : id' = id
    · subst he
      have hno : (id', .ok ()) ∉ w.returned := fun hm => hnew (List.mem_map_of_mem hm)
      rcases hr with ⟨rfl, hm, -⟩ | ⟨hr, hm, -⟩
      · simp [hm]
      · have : (.ok () : Except Errno Unit) ≠ r := fun he => by rw [← he] at hr; cases hr
        simp [hm, hno, hgone, this]
    · simp [he, hsame id' he]
  · simp only [World.passed, List.map_append, List.map_cons, List.map_nil]
    exact List.nodup_append.2 ⟨h.once, List.nodup_singleton _, fun a ha b hb hab => by
      rw [List.mem_singleton] at hb; rw [hab, hb] at ha; exact hnew ha⟩

theorem pass (h : Ledger w) {id : ℕ} (hid : (w.waits.lookup id).isSome) (key : UInt64) (m : Meets) :
    Ledger (w.passed id (w.st.pass id key m)) := by
  unfold State.pass
  have hremove : id ∉ w.st.woken → ∀ e, Ledger (w.passed id (w.st.remove id key, some (.error e))) := fun hm e =>
    h.finish hid (fun id' => queued_remove w.st id id' key (h.queued_le id)) (remove_rest w.st id key).2
      (.inr ⟨rfl, hm, (remove_rest w.st id key).1⟩)
  split
  · rename_i hm
    refine h.finish hid (fun id' => ?_) rfl (.inl ⟨rfl, hm, rfl⟩)
    show w.st.queued id' = _
    split_ifs with he
    · have := h.place id
      rw [if_pos hm] at this
      rw [he]
      split_ifs at this; omega
    · rfl
  · rename_i hm
    split
    · exact hremove hm _
    · split
      · exact hremove hm _
      · exact h

/-- a new wait, on its queue -/
theorem enqueue (h : Ledger w) (key : UInt64) (bitset : UInt32) (m : Meets) : Ledger (w.enqueue key bitset m) := by
  have hno : ¬ ((w.waits.lookup (w.st.nextId + 1)).isSome ∨ w.st.nextId + 1 ∈ w.returned.map (·.1)) := fun hc => by
    have := (h.known _).1 hc; omega
  simp only [not_or, Bool.not_eq_true, Option.isSome_eq_false_iff, Option.isNone_iff_eq_none] at hno
  obtain ⟨hq0, hw0⟩ := h.nowhere hno.1
  unfold World.enqueue
  simp only [State.register]
  refine Ledger.pass (w := { w with
    st := State.push { w.st with nextId := w.st.nextId + 1 } key [⟨w.st.nextId + 1, bitset⟩]
    waits := w.waits.insert (w.st.nextId + 1) key }) ?_ (by simp) key m
  refine ⟨fun id => ?_, fun id => ?_, fun id hi => ?_, h.total, h.marks, h.once, h.reported⟩
  · have hp := queued_push { w.st with nextId := w.st.nextId + 1 } key [⟨w.st.nextId + 1, bitset⟩] id
    have hs : State.queued { w.st with nextId := w.st.nextId + 1 } id = w.st.queued id := rfl
    have ho : occurs id [⟨w.st.nextId + 1, bitset⟩] = if id = w.st.nextId + 1 then 1 else 0 := by
      simp [occurs, eq_comm]
    rw [hp, hs, ho, Map.lookup_insert_eq]
    show _ + (if id ∈ w.st.woken then 1 else 0) = _
    by_cases he : id = w.st.nextId + 1
    · rw [he] at *; simp [hq0, hw0]
    · simp only [if_neg he, add_zero]; exact h.place id
  · rw [Map.lookup_insert_eq]
    by_cases he : id = w.st.nextId + 1
    · rw [if_pos he, he]
      show _ ↔ 1 ≤ w.st.nextId + 1 ∧ w.st.nextId + 1 ≤ w.st.nextId + 1
      simp
    · rw [if_neg he, h.known id]
      show _ ↔ 1 ≤ id ∧ id ≤ w.st.nextId + 1
      omega
  · rw [Map.lookup_insert_eq] at hi
    split_ifs at hi with he
    · rw [he]; exact hno.2
    · exact h.apart id hi

end Ledger

theorem ledger_init : Ledger {} :=
  ⟨fun _ => rfl, fun id => by simp; omega, fun _ _ => List.not_mem_nil, rfl, fun _ => by simp, List.nodup_nil, rfl⟩

theorem World.step_ledger (w : World) (h : Ledger w) (a : Act) : Ledger (World.step w a) := by
  cases a with
  | wait addr expected bitset interrupted word first =>
    simp only [World.step]
    split
    · exact h
    · split
      · exact h
      · split
        · exact h
        · exact h.enqueue _ bitset first
  | unpark id m =>
    simp only [World.step]
    split
    · exact h
    · rename_i key hid
      exact h.pass (by rw [hid]; rfl) key m
  | wake addr n bitset =>
    simp only [World.step]
    split
    · exact h
    · split
      · exact h
      · exact h.woke _ n bitset
  | requeue addr nWake addr2 nRequeue expected word =>
    simp only [World.step]
    split
    · split
      · exact h
      · exact (h.woke _ nWake _).move _ _ nRequeue
    · exact h
  | wakeOp addr n1 addr2 n2 op old =>
    simp only [World.step]
    split
    · split
      · split
        · exact (h.woke _ n1 _).woke _ n2 _
        · exact h.woke _ n1 _
      · exact h
    · exact h

theorem reach_ledger {w : World} (h : Reach World.step anyStep {} w) : Ledger w :=
  h.invariant Ledger ledger_init fun w a _ _ hl => World.step_ledger w hl a

/-- where the wait `id` is -/
inductive Place (w : World) (id : ℕ) : Prop
  | queued (h : w.st.queued id = 1) (hw : id ∉ w.st.woken) (hf : id ∉ w.returned.map (·.1))
  | woken (h : w.st.queued id = 0) (hw : id ∈ w.st.woken) (hf : id ∉ w.returned.map (·.1))
  | finished (h : w.st.queued id = 0) (hw : id ∉ w.st.woken) (hf : id ∈ w.returned.map (·.1))

structure Accounted (w : World) : Prop where
  /-- each wait is in one queue, once, or marked woken, or over -/
  place : ∀ id, 1 ≤ id → id ≤ w.st.nextId → Place w id
  /-- each waiter reported woken is a wait that returned 0, or will -/
  total : w.reported = w.returned.countP (·.2.isOk) + w.st.woken.card
  /-- a wait that is over returned 0 if it was woken, and only then -/
  honest : ∀ id r, (id, r) ∈ w.returned → (r = .ok () ↔ id ∈ w.marked)

/-- **Each wake is accounted for.** In every reachable state. -/
theorem futex_accounted (w : World) (h : Reach World.step anyStep {} w) : Accounted w := by
  have hl := reach_ledger h
  refine ⟨fun id h1 h2 => ?_, by rw [hl.reported, hl.total], fun id r hr => ?_⟩
  · have hp := hl.place id
    rcases (hl.known id).2 ⟨h1, h2⟩ with hk | hk
    · have hf := hl.apart id hk
      rw [if_pos hk] at hp
      by_cases hw : id ∈ w.st.woken
      · rw [if_pos hw] at hp
        exact .woken (by omega) hw hf
      · rw [if_neg hw] at hp
        exact .queued (by omega) hw hf
    · have hn : w.waits.lookup id = none := by
        by_contra hc
        exact hl.apart id (Option.isSome_iff_ne_none.2 hc) hk
      obtain ⟨h3, h4⟩ := hl.nowhere hn
      exact .finished h3 h4 hk
  · have hmem : id ∈ w.returned.map (·.1) := List.mem_map_of_mem hr
    have hn : w.waits.lookup id = none := by
      by_contra hc
      exact hl.apart id (Option.isSome_iff_ne_none.2 hc) hmem
    rw [hl.marks id]
    constructor
    · rintro rfl; exact .inr hr
    · rintro (hw | hok)
      · exact absurd hw (hl.nowhere hn).2
      · have := List.inj_on_of_nodup_map hl.once hr hok rfl
        exact (Prod.mk.inj this).2

/-- two waits, one moved to another queue and woken there, one out of time -/
def moveRun : List Act :=
  [.wait 64 0 1 false (.ok 0) ⟨false, false⟩, .wait 64 0 1 false (.ok 0) ⟨false, false⟩, .requeue 64 0 128 1 none (.ok 0),
    .wake 128 1 1, .unpark 1 ⟨false, true⟩, .unpark 2 ⟨false, true⟩]

theorem futex_accounted_move : Accounted (run World.step {} moveRun) := futex_accounted _ (reach_run World.step {} moveRun)

example : (run World.step {} moveRun).returned = [(1, .ok ()), (2, .error ETIMEDOUT)] := by decide

end Omnidroid.Futex
