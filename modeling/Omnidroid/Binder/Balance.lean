/-
What each operation on the traffic does to a ledger, whatever the ledger counts: one equation for each, written without
subtraction (what leaves a place stands on the left).
-/
import Omnidroid.Binder.Steps

namespace Omnidroid.Binder

namespace Weights

variable (W : Weights)

/-! ## Oneways -/

/-- the oneway that waits next on a node -/
def next (s : State) (node : NodeId) : List Work := (s.node node).asyncTodo.head?.toList

theorem state_asyncDone (s : State) (node : NodeId) (owner : ProcId) :
    W.state (s.asyncDone node owner) + sum (W.async node) (next s node) =
      W.state s + sum (W.todo owner none) (next s node) := by
  unfold State.asyncDone
  split
  · rename_i h
    simp [next, State.node, h]
  · rename_i n h
    have hn := State.node_of_lookup h
    split
    · rename_i ht
      have hs := W.state_setNode s node { n with hasAsync := false }
      simp only [hn, Weights.node, ht, sum_nil] at hs
      simp only [next, hn, ht, List.head?_nil, Option.toList_none, sum_nil]
      exact hs
    · rename_i w rest ht
      have hs := W.state_setNode s node { n with hasAsync := true, asyncTodo := rest }
      simp only [hn, Weights.node, ht, sum_cons] at hs
      simp only [next, hn, ht, List.head?_cons, Option.toList_some, sum_cons, sum_nil, state_queue]
      omega

/-- a waiting oneway weighs what it will weigh in its process's queue -/
def Level : Prop := ∀ owner node w, W.todo owner none w = W.async node w

variable {W} in
theorem Level.state_asyncDone (h : W.Level) (s : State) (node : NodeId) (owner : ProcId) :
    W.state (s.asyncDone node owner) = W.state s := by
  have hs := W.state_asyncDone s node owner
  rw [show W.todo owner none = W.async node from funext (h owner node)] at hs
  omega

theorem state_queueOneway (s : State) (target : ProcId) (node : NodeId) (txn : Txn) :
    W.state (s.queueOneway target node txn) = W.state s +
      if (s.node node).hasAsync then W.async node (.txn { txn with asyncNode := some node })
      else W.todo target none (.txn { txn with asyncNode := some node }) := by
  unfold State.queueOneway
  dsimp only
  split
  · rename_i h
    simp [State.node, h, state_queue]
  · rename_i n h
    have hn := State.node_of_lookup h
    rw [hn]
    split
    · have hs := W.state_setNode s node { n with
        history := { n.history with accepted := n.history.accepted ++ [txn.serial] },
        asyncTodo := n.asyncTodo ++ [.txn { txn with asyncNode := some node }] }
      simp only [hn, Weights.node, sum_append, sum_cons, sum_nil] at hs
      omega
    · have hs := W.state_setNode s node { n with
        history := { n.history with accepted := n.history.accepted ++ [txn.serial] }, hasAsync := true }
      simp only [hn, Weights.node] at hs
      rw [state_queue]
      omega

variable {W} in
theorem Level.state_queueOneway (h : W.Level) (s : State) (target : ProcId) (node : NodeId) (txn : Txn) :
    W.state (s.queueOneway target node txn) = W.state s + W.async node (.txn { txn with asyncNode := some node }) := by
  rw [W.state_queueOneway, h target node]
  split <;> rfl

/-! ## Waits and serving stacks -/

theorem state_mark (s : State) (th : Thread) (f : ThreadState → ThreadState)
    (ht : (f (s.thread th)).todo = (s.thread th).todo) (hs : (f (s.thread th)).serving = (s.thread th).serving) :
    W.state (s.updThread th f) = W.state s := by
  have h := W.state_updThread s th f
  simp only [thread, ht, hs] at h
  omega

theorem state_await (s : State) (th : Thread) (k : ℕ) : W.state (s.await th k) = W.state s :=
  W.state_mark s th _ rfl rfl

theorem state_endWait (s : State) (th : Thread) (k : ℕ) : W.state (s.endWait th k) = W.state s :=
  W.state_mark s th _ rfl rfl

theorem state_hear (s : State) (th : Thread) (w : Work) : W.state (s.hear th w) = W.state s := by
  unfold State.hear
  split
  · exact W.state_endWait s th _
  · exact W.state_endWait s th _
  · rfl

theorem state_complete (s : State) (th : Thread) : W.state (s.complete th) = W.state s := (complete_calm s th).weight W

theorem state_pushServing (s : State) (th : Thread) (sv : Served) :
    W.state (s.updThread th fun t => { t with serving := t.serving ++ [sv] }) = W.state s + W.serving th sv := by
  have h := W.state_updThread s th fun t => { t with serving := t.serving ++ [sv] }
  simp only [thread, Prod.mk.eta, sum_append, sum_cons, sum_nil] at h
  omega

theorem sum_dropLast {α : Type} (f : α → ℕ) (l : List α) : sum f l.dropLast + sum f l.getLast?.toList = sum f l := by
  cases l using List.reverseRecOn with
  | nil => rfl
  | append_singleton l a => simp

theorem state_popServing (s : State) (th : Thread) :
    W.state (s.updThread th fun t => { t with serving := t.serving.dropLast }) +
      sum (W.serving th) (s.thread th).serving.getLast?.toList = W.state s := by
  have h := W.state_updThread s th fun t => { t with serving := t.serving.dropLast }
  have hd := sum_dropLast (W.serving th) (s.thread th).serving
  simp only [thread, Prod.mk.eta] at h
  omega

/-- the innermost call a thread serves comes off it, or the thread is as it was -/
theorem state_failServed (s : State) (sv : Served) :
    W.state (s.failServed sv) = W.state s +
      sum (fun c : Thread => W.todo c.1 (some c.2) (.deadReply sv.serial)) sv.caller.toList := by
  unfold State.failServed
  split <;> rename_i h <;> simp [h, state_queue]

/-! ## Buffers -/

theorem state_eraseBuffer (s : State) (key : ProcId × ℕ) (b : Buffer) (h : s.buffers.lookup key = some b) :
    W.state { s with buffers := s.buffers.erase key } + W.buffer key b = W.state s := by
  have hs := Map.weigh_erase W.buffer s.buffers key
  rw [Map.weighAt_some h] at hs
  simp only [state]
  omega

/-- what a delivered transaction is recorded as, if it is -/
def recorded (th : Thread) (txn : Txn) : List Buffer :=
  if txn.asyncNode.isSome || txn.pinned ≠ [] then [⟨txn.asyncNode, txn.pinned, th.2, txn.code⟩] else []

theorem state_recordBuffer (s : State) (th : Thread) (buf : ℕ) (txn : Txn) :
    W.state (s.recordBuffer th buf txn) +
        (if recorded th txn = [] then 0 else Map.weighAt W.buffer s.buffers (th.1, buf)) =
      W.state s + sum (W.buffer (th.1, buf)) (recorded th txn) := by
  unfold State.recordBuffer recorded
  split
  · have hs := Map.weigh_insert W.buffer s.buffers (th.1, buf) ⟨txn.asyncNode, txn.pinned, th.2, txn.code⟩
    simp only [state, List.cons_ne_nil, if_false, sum_cons, sum_nil]
    omega
  · simp

theorem state_logDelivered (s : State) (node : Option NodeId) (serial : ℕ) :
    W.state (s.logDelivered node serial) = W.state s := by
  unfold State.logDelivered
  split
  · rfl
  · split
    · rfl
    · rename_i node _ n h
      have hs := W.state_setNode s node { n with
        history := { n.history with delivered := n.history.delivered ++ [serial] } }
      rw [State.node_of_lookup h] at hs
      exact Nat.add_right_cancel hs

/-! ## Ends -/

theorem state_killNode (s : State) (node : NodeId) :
    W.state (s.killNode node).1 + sum (W.async node) (s.killNode node).2 = W.state s := by
  unfold State.killNode
  split
  · simp
  · rename_i n h
    have hs := W.state_setNode s node n.killed
    rw [State.node_of_lookup h] at hs
    have he : W.node node n.killed = 0 := rfl
    have hw := ((tellWatchers_calm (s.setNode node n.killed) n.watchers).trans (dropContextMgr_calm _ node)).weight W
    have hn : W.node node n = sum (W.async node) n.asyncTodo := rfl
    dsimp only
    omega

/-- dying nodes' waiting oneways, when they weigh the same on every node -/
theorem state_killNodes {f : Work → ℕ} (hf : ∀ n w, W.async n w = f w) (s : State) (l : List NodeId) :
    W.state (s.killNodes l).1 + sum f (s.killNodes l).2 = W.state s := by
  induction l generalizing s with
  | nil => simp [State.killNodes]
  | cons n l ih =>
    have h := W.state_killNode s n
    rw [show W.async n = f from funext (hf n)] at h
    have hl := ih (s.killNode n).1
    simp only [State.killNodes, sum_append]
    omega

end Weights

end Omnidroid.Binder
