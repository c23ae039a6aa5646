/-
Where a transaction can be, weighed: the bookkeeping that every "nothing is lost, nothing is doubled" result uses.

`World.spots` lists everything in its place: a queue of a process or a thread, a serving stack, a node's waiting oneways,
a delivered buffer, a host thread, the hands of a thread in its read. `Weights` says what counts in each; `Weights.state`
and `Weights.total` add the places up.
- each elementary move has one equation, whatever is counted: `state_queue`, `state_updThread`, `state_setNode`;
- `total_eq`: the whole is what the spots weigh, so a ledger kept through a run speaks of the list at its end.
-/
import Omnidroid.Binder.Machine

namespace Omnidroid.Binder

/-! ## Everything in its place -/

inductive Spot where
  /-- in a thread's queue, or its process's -/
  | queued (id : ProcId) (tid : Option Tid) (work : Work)
  | served (th : Thread) (sv : Served)
  /-- a oneway behind another to its node -/
  | waiting (node : NodeId) (work : Work)
  | recorded (key : ProcId × ℕ) (b : Buffer)
  | hosted (job : HostJob)
  /-- between its pop and the end of its delivery -/
  | inHand (th : Thread) (work : Work)
deriving DecidableEq, Repr

/-- what a thread in its read has taken and not placed -/
def Reading.item (r : Reading) : Option Work :=
  match r.phase with
  | .popped w => some w
  | .placing t _ => some (.txn t)
  | _ => none

def ThreadState.spots (th : Thread) (t : ThreadState) : List Spot :=
  t.todo.map (.queued th.1 (some th.2)) ++ t.serving.map (.served th)

def ProcState.spots (id : ProcId) (p : ProcState) : List Spot :=
  p.todo.map (.queued id none) ++ p.threads.entries.flatMap fun e => ThreadState.spots (id, e.1) e.2

def State.spots (s : State) : List Spot :=
  s.procs.entries.flatMap (fun e => e.2.spots e.1) ++ s.nodes.entries.flatMap (fun e => e.2.asyncTodo.map (.waiting e.1)) ++
    s.buffers.entries.map (fun e => .recorded e.1 e.2) ++ s.jobs.map .hosted

def World.spots (w : World) : List Spot :=
  w.st.spots ++ w.reads.entries.flatMap fun e => e.2.item.toList.map (.inHand e.1)

theorem mem_spots_recorded {w : World} {k : ProcId × ℕ} {b : Buffer} :
    .recorded k b ∈ w.spots ↔ w.st.buffers.lookup k = some b := by
  simp only [World.spots, State.spots, ProcState.spots, ThreadState.spots, List.mem_append, List.mem_flatMap,
    List.mem_map, reduceCtorEq, and_false, exists_false, or_false, false_or, Spot.recorded.injEq, ← Map.mem_entries]
  constructor
  · rintro ⟨e, he, rfl, rfl⟩
    exact he
  · exact fun h => ⟨⟨k, b⟩, h, rfl, rfl⟩

/-- a transaction on its way -/
def Spot.txn : Spot → Option Txn
  | .queued _ _ (.txn t) | .waiting _ (.txn t) | .inHand _ (.txn t) => some t
  | _ => none

/-! ## What counts -/

/-- work that is, or answers, a transaction -/
def Work.carries : Work → Bool
  | .txn _ | .deadReply _ | .failedReply _ => true
  | _ => false

/-- what each place's contents count for; only what is, or answers, a transaction counts in a queue -/
structure Weights where
  todo : ProcId → Option Tid → Work → ℕ := fun _ _ _ => 0
  serving : Thread → Served → ℕ := fun _ _ => 0
  async : NodeId → Work → ℕ := fun _ _ => 0
  buffer : ProcId × ℕ → Buffer → ℕ := fun _ _ => 0
  job : HostJob → ℕ := fun _ => 0
  hand : Thread → Work → ℕ := fun _ _ => 0
  quiet : ∀ id tid w, w.carries = false → todo id tid w = 0 := by intros; rfl

namespace Weights

/-- a list's worth -/
def sum {α : Type} (f : α → ℕ) (l : List α) : ℕ := (l.map f).sum

@[simp] theorem sum_nil {α : Type} (f : α → ℕ) : sum f [] = 0 := rfl

@[simp] theorem sum_cons {α : Type} (f : α → ℕ) (a : α) (l : List α) : sum f (a :: l) = f a + sum f l := by
  simp [sum]

@[simp] theorem sum_append {α : Type} (f : α → ℕ) (l l' : List α) : sum f (l ++ l') = sum f l + sum f l' := by
  simp [sum]

theorem sum_le {α : Type} {f g : α → ℕ} {l : List α} (h : ∀ a, f a ≤ g a) : sum f l ≤ sum g l := by
  induction l with
  | nil => exact le_rfl
  | cons a l ih =>
    have := h a
    simp only [sum_cons]; omega

theorem sum_eq_zero {α : Type} {f : α → ℕ} (h : ∀ a, f a = 0) (l : List α) : sum f l = 0 := by
  induction l with
  | nil => rfl
  | cons a l ih => rw [sum_cons, ih, h]

theorem sum_eraseIdx {α : Type} (f : α → ℕ) {l : List α} {i : ℕ} {a : α} (h : l[i]? = some a) :
    sum f (l.eraseIdx i) + f a = sum f l := by
  induction l generalizing i with
  | nil => cases h
  | cons b l ih =>
    cases i with
    | zero =>
      simp only [List.getElem?_cons_zero, Option.some.injEq] at h
      rw [List.eraseIdx_cons_zero, sum_cons, h]; omega
    | succ i =>
      have := ih h
      rw [List.eraseIdx_cons_succ, sum_cons, sum_cons]; omega

variable (W : Weights)

def thread (id : ProcId) (tid : Tid) (t : ThreadState) : ℕ :=
  sum (W.todo id (some tid)) t.todo + sum (W.serving (id, tid)) t.serving

def proc (id : ProcId) (p : ProcState) : ℕ := sum (W.todo id none) p.todo + Map.weigh (W.thread id) p.threads

def node (id : NodeId) (n : Node) : ℕ := sum (W.async id) n.asyncTodo

def state (s : State) : ℕ :=
  Map.weigh W.proc s.procs + Map.weigh W.node s.nodes + Map.weigh W.buffer s.buffers + sum W.job s.jobs

/-- what a thread in its read holds -/
def reading (th : Thread) (r : Reading) : ℕ := sum (W.hand th) r.item.toList

def total (w : World) : ℕ := W.state w.st + Map.weigh W.reading w.reads

def spot : Spot → ℕ
  | .queued id tid work => W.todo id tid work
  | .served th sv => W.serving th sv
  | .waiting node work => W.async node work
  | .recorded key b => W.buffer key b
  | .hosted j => W.job j
  | .inHand th work => W.hand th work

theorem reading_some {th : Thread} {r : Reading} {w : Work} (h : r.item = some w) : W.reading th r = W.hand th w := by
  simp [reading, h]

theorem reading_none {th : Thread} {r : Reading} (h : r.item = none) : W.reading th r = 0 := by
  simp [reading, h]

theorem sum_map {α β : Type} (f : β → ℕ) (g : α → β) (l : List α) : sum f (l.map g) = sum (fun a => f (g a)) l := by
  simp [sum, Function.comp_def]

theorem sum_flatMap {α β : Type} (f : β → ℕ) (g : α → List β) (l : List α) :
    sum f (l.flatMap g) = sum (fun a => sum f (g a)) l := by
  induction l with
  | nil => rfl
  | cons a l ih => rw [List.flatMap_cons, sum_append, ih, sum_cons]

/-- the whole is what everything weighs in its place -/
theorem total_eq (w : World) : W.total w = sum W.spot w.spots := by
  have hp : ∀ id (p : ProcState), sum W.spot (p.spots id) = W.proc id p := fun id p => by
    simp only [ProcState.spots, ThreadState.spots, sum_append, sum_flatMap, sum_map]
    rfl
  simp only [World.spots, State.spots, sum_append, sum_flatMap, sum_map, hp]
  rfl

/-! ## Elementary moves -/

theorem thread_default (id : ProcId) (tid : Tid) : W.thread id tid {} = 0 := rfl

theorem proc_default (id : ProcId) : W.proc id {} = 0 := rfl

theorem proc_setThread (id : ProcId) (p : ProcState) (tid : Tid) (t : ThreadState) :
    W.proc id (p.setThread tid t) + W.thread id tid (p.thread tid) = W.proc id p + W.thread id tid t := by
  have h := Map.weigh_insert (W.thread id) p.threads tid t
  rw [Map.weighAt_getD (W.thread id) p.threads tid {} (W.thread_default id tid)] at h
  simp only [proc, ProcState.setThread, ProcState.thread]
  omega

theorem state_setProc (s : State) (id : ProcId) (p : ProcState) :
    W.state (s.setProc id p) + W.proc id (s.proc id) = W.state s + W.proc id p := by
  have h := Map.weigh_insert W.proc s.procs id p
  rw [Map.weighAt_getD W.proc s.procs id {} (W.proc_default id)] at h
  simp only [state, State.setProc, State.proc]
  omega

theorem state_updThread (s : State) (th : Thread) (f : ThreadState → ThreadState) :
    W.state (s.updThread th f) + W.thread th.1 th.2 (s.thread th) =
      W.state s + W.thread th.1 th.2 (f (s.thread th)) := by
  have h1 := W.state_setProc s th.1 ((s.proc th.1).setThread th.2 (f (s.thread th)))
  have h2 := W.proc_setThread th.1 (s.proc th.1) th.2 (f (s.thread th))
  have h3 : (s.proc th.1).thread th.2 = s.thread th := rfl
  rw [h3] at h2
  unfold State.updThread
  omega

theorem state_setNode (s : State) (n : NodeId) (nd : Node) :
    W.state (s.setNode n nd) + W.node n (s.node n) = W.state s + W.node n nd := by
  have h := Map.weigh_insert W.node s.nodes n nd
  rw [Map.weighAt_getD W.node s.nodes n { owner := .host, ptr := 0, cookie := 0 } rfl] at h
  simp only [state, State.setNode, State.node]
  omega

theorem state_queue (s : State) (id : ProcId) (tid : Option Tid) (work : Work) :
    W.state (s.queue id tid work) = W.state s + W.todo id tid work := by
  cases tid with
  | none =>
    have h := W.state_setProc s id { s.proc id with todo := (s.proc id).todo ++ [work] }
    simp only [proc, sum_append, sum_cons, sum_nil] at h
    simp only [State.queue]
    omega
  | some t =>
    have h := W.state_updThread s (id, t) fun th => { th with todo := th.todo ++ [work] }
    simp only [thread, sum_append, sum_cons, sum_nil] at h
    simp only [State.queue]
    omega

theorem state_congr {s s' : State} (hp : s'.procs = s.procs) (hn : s'.nodes = s.nodes) (hb : s'.buffers = s.buffers)
    (hj : s'.jobs = s.jobs) : W.state s' = W.state s := by
  simp only [state, hp, hn, hb, hj]

end Weights

end Omnidroid.Binder
