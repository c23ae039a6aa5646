/-
What an operation leaves alone. The broker's state has two sides that few operations both touch:
- the traffic: the transactions, their answers, the threads that serve and wait, each node's oneways, the buffers;
- the standing: who has which handle, which node is held, pinned or dead, who watches it.

`Calm s s'`: the traffic is as it was. So it is after any bookkeeping of references, which queues only work that carries
no transaction. `Still s s'`: the standing is as it was. So it is after anything that only queues, reads or serves.
-/
import Omnidroid.Binder.Ledger

namespace Omnidroid.Binder

/-! ## The traffic is as it was -/

/-- the side of a node that oneways move -/
structure Async where
  out : Bool
  todo : List Work
  accepted : List ℕ
  delivered : List ℕ

def Node.async (n : Node) : Async := ⟨n.hasAsync, n.asyncTodo, n.history.accepted, n.history.delivered⟩

/-- node ids count up -/
def State.Fresh (s : State) : Prop := ∀ n, s.nextNode < n → s.nodes.lookup n = none

theorem State.Fresh.setNode {s : State} (hf : s.Fresh) {n : NodeId} {nd : Node} (h : s.nodes.lookup n = some nd)
    (nd' : Node) : (s.setNode n nd').Fresh := by
  intro m hm
  have hm0 : s.nodes.lookup m = none := hf m hm
  have hne : m ≠ n := fun he => by rw [← he, hm0] at h; cases h
  simpa [State.setNode, hne] using hm0

/-- from `s` to `s'` no transaction moved, and no answer to one -/
structure Calm (s s' : State) : Prop where
  weight : ∀ W : Weights, W.state s' = W.state s
  dead : ∀ id, (s'.proc id).dead = (s.proc id).dead
  serving : ∀ th, (s'.thread th).serving = (s.thread th).serving
  waits : ∀ th, (s'.thread th).waits = (s.thread th).waits
  async : ∀ n, (s'.node n).async = (s.node n).async
  nodeDead : ∀ n, (s'.node n).dead = (s.node n).dead
  owner : ∀ n nd, s.nodes.lookup n = some nd → ∃ nd', s'.nodes.lookup n = some nd' ∧ nd'.owner = nd.owner
  buffers : s'.buffers = s.buffers
  jobs : s'.jobs = s.jobs
  lost : s'.lost = s.lost
  nextSerial : s'.nextSerial = s.nextSerial
  fresh : s.Fresh → s'.Fresh

namespace Calm

theorem refl (s : State) : Calm s s :=
  ⟨fun _ => rfl, fun _ => rfl, fun _ => rfl, fun _ => rfl, fun _ => rfl, fun _ => rfl, fun _ nd h => ⟨nd, h, rfl⟩,
    rfl, rfl, rfl, rfl, id⟩

theorem trans {s t u : State} (h1 : Calm s t) (h2 : Calm t u) : Calm s u where
  weight W := (h2.weight W).trans (h1.weight W)
  dead id := (h2.dead id).trans (h1.dead id)
  serving th := (h2.serving th).trans (h1.serving th)
  waits th := (h2.waits th).trans (h1.waits th)
  async n := (h2.async n).trans (h1.async n)
  nodeDead n := (h2.nodeDead n).trans (h1.nodeDead n)
  owner n nd h := by
    obtain ⟨nd', h', ho⟩ := h1.owner n nd h
    obtain ⟨nd'', h'', ho'⟩ := h2.owner n nd' h'
    exact ⟨nd'', h'', ho'.trans ho⟩
  buffers := h2.buffers.trans h1.buffers
  jobs := h2.jobs.trans h1.jobs
  lost := h2.lost.trans h1.lost
  nextSerial := h2.nextSerial.trans h1.nextSerial
  fresh h := h2.fresh (h1.fresh h)

/-- tables that no transaction is in may change -/
theorem of_tables {s s' : State} (hp : s'.procs = s.procs) (hn : s'.nodes = s.nodes) (hb : s'.buffers = s.buffers)
    (hj : s'.jobs = s.jobs) (hl : s'.lost = s.lost) (hs : s'.nextSerial = s.nextSerial)
    (hi : s'.nextNode = s.nextNode) : Calm s s' where
  weight W := W.state_congr hp hn hb hj
  dead id := by simp only [State.proc, hp]
  serving th := by simp only [State.thread, State.proc, hp]
  waits th := by simp only [State.thread, State.proc, hp]
  async n := by simp only [State.node, hn]
  nodeDead n := by simp only [State.node, hn]
  owner n nd h := ⟨nd, hn ▸ h, rfl⟩
  buffers := hb
  jobs := hj
  lost := hl
  nextSerial := hs
  fresh h n hm := by rw [hn]; exact h n (hi ▸ hm)

/-- a process's tables of handles may change, and its counters -/
theorem setProc (s : State) (id : ProcId) (p : ProcState) (hd : p.dead = (s.proc id).dead)
    (ht : p.todo = (s.proc id).todo) (hth : p.threads = (s.proc id).threads) : Calm s (s.setProc id p) where
  weight W := by
    have h := W.state_setProc s id p
    simp only [Weights.proc, ht, hth] at h
    omega
  dead id' := by rw [State.proc_setProc]; split_ifs with h <;> simp [h, hd]
  serving th := by
    rw [State.thread_setProc]; split_ifs with h
    · simp [ProcState.thread, hth, State.thread, h]
    · rfl
  waits th := by
    rw [State.thread_setProc]; split_ifs with h
    · simp [ProcState.thread, hth, State.thread, h]
    · rfl
  async _ := rfl
  nodeDead _ := rfl
  owner _ nd h := ⟨nd, h, rfl⟩
  buffers := rfl
  jobs := rfl
  lost := rfl
  nextSerial := rfl
  fresh h := h

/-- a thread's marks may change, and what is queued for it that carries nothing -/
theorem updThread (s : State) (th : Thread) (f : ThreadState → ThreadState)
    (hs : (f (s.thread th)).serving = (s.thread th).serving) (hw : (f (s.thread th)).waits = (s.thread th).waits)
    (hf : ∀ W : Weights, W.thread th.1 th.2 (f (s.thread th)) = W.thread th.1 th.2 (s.thread th)) :
    Calm s (s.updThread th f) where
  weight W := by
    have h := W.state_updThread s th f
    rw [hf W] at h
    omega
  dead id := by
    unfold State.updThread
    rw [State.proc_setProc]
    split_ifs with h
    · rw [h]; rfl
    · rfl
  serving th' := by rw [State.thread_updThread]; split_ifs with h <;> simp [h, hs]
  waits th' := by rw [State.thread_updThread]; split_ifs with h <;> simp [h, hw]
  async _ := rfl
  nodeDead _ := rfl
  owner _ nd h := ⟨nd, h, rfl⟩
  buffers := rfl
  jobs := rfl
  lost := rfl
  nextSerial := rfl
  fresh h := h

theorem queue (s : State) (id : ProcId) (tid : Option Tid) (work : Work) (h : work.carries = false) :
    Calm s (s.queue id tid work) := by
  cases tid with
  | none =>
    have hw : ∀ W : Weights, W.state (s.queue id none work) = W.state s := fun W => by
      rw [W.state_queue, W.quiet id none work h, add_zero]
    refine ⟨hw, fun id' => ?_, fun th => ?_, fun th => ?_, fun _ => rfl, fun _ => rfl, fun _ nd hn => ⟨nd, hn, rfl⟩,
      rfl, rfl, rfl, rfl, fun h => h⟩
    · simp only [State.queue, State.proc_setProc]; split_ifs with hi <;> simp [hi]
    · simp only [State.queue, State.thread_setProc]; split_ifs with hi
      · rw [← hi]; rfl
      · rfl
    · simp only [State.queue, State.thread_setProc]; split_ifs with hi
      · rw [← hi]; rfl
      · rfl
  | some t =>
    refine updThread s (id, t) (fun th => { th with todo := th.todo ++ [work] }) rfl rfl fun W => ?_
    simp [Weights.thread, W.quiet id (some t) work h]

theorem andQueue {s t : State} {id : ProcId} {tid : Option Tid} {work : Work} (h : Calm s t)
    (hw : work.carries = false) : Calm s (t.queue id tid work) :=
  h.trans (queue t id tid work hw)

/-- a node's hold, its watchers and its history of both may change -/
theorem setNode (s : State) (n : NodeId) (nd nd' : Node) (h : s.nodes.lookup n = some nd)
    (ho : nd'.owner = nd.owner) (hd : nd'.dead = nd.dead) (ha : nd'.async = nd.async) : Calm s (s.setNode n nd') where
  weight W := by
    have hs := W.state_setNode s n nd'
    have he : nd'.asyncTodo = nd.asyncTodo := congrArg Async.todo ha
    rw [State.node_of_lookup h] at hs
    simp only [Weights.node, he] at hs
    omega
  dead _ := rfl
  serving _ := rfl
  waits _ := rfl
  async n' := by
    rw [State.node_setNode]; split_ifs with hn
    · rw [hn, State.node_of_lookup h, ha]
    · rfl
  nodeDead n' := by
    rw [State.node_setNode]; split_ifs with hn
    · rw [hn, State.node_of_lookup h, hd]
    · rfl
  owner n' x hx := by
    by_cases hn : n' = n
    · subst hn
      rw [h] at hx; cases hx
      exact ⟨nd', by simp [State.setNode], ho⟩
    · exact ⟨x, by simpa [State.setNode, hn] using hx, rfl⟩
  buffers := rfl
  jobs := rfl
  lost := rfl
  nextSerial := rfl
  fresh hf := hf.setNode h nd'

/-- a node appears: nothing was ever sent to it -/
theorem addNode (s : State) (nd : Node) (hf : s.Fresh) (hd : nd.dead = false) (ha : nd.async = ⟨false, [], [], []⟩) :
    Calm s (s.addNode nd) where
  weight W := by
    have hs := W.state_setNode s (s.nextNode + 1) nd
    have he : nd.asyncTodo = [] := congrArg Async.todo ha
    have h0 : (s.node (s.nextNode + 1)).asyncTodo = [] := by simp [State.node, hf _ (Nat.lt_succ_self _)]
    have hc : W.state (s.addNode nd) = W.state (s.setNode (s.nextNode + 1) nd) := W.state_congr rfl rfl rfl rfl
    simp only [Weights.node, he, h0, Weights.sum_nil] at hs
    omega
  dead _ := rfl
  serving _ := rfl
  waits _ := rfl
  async n := by
    rw [State.node_addNode]; split_ifs with hn
    · rw [hn, ha]; simp [State.node, hf _ (Nat.lt_succ_self _), Node.async]
    · rfl
  nodeDead n := by
    rw [State.node_addNode]; split_ifs with hn
    · rw [hn, hd]; simp [State.node, hf _ (Nat.lt_succ_self _)]
    · rfl
  owner n x hx := by
    have hn : n ≠ s.nextNode + 1 := fun hn => by rw [hn, hf _ (Nat.lt_succ_self _)] at hx; cases hx
    exact ⟨x, by simpa [State.addNode, hn] using hx, rfl⟩
  buffers := rfl
  jobs := rfl
  lost := rfl
  nextSerial := rfl
  fresh _ n hn := by
    have hn' : s.nextNode + 1 < n := hn
    simpa [State.addNode, Nat.ne_of_gt hn'] using hf n (Nat.lt_of_succ_lt hn')

theorem foldl {α : Type} {f : State → α → State} (hf : ∀ s a, Calm s (f s a)) (l : List α) (s : State) :
    Calm s (l.foldl f s) := by
  induction l generalizing s with
  | nil => exact refl s
  | cons a l ih => exact (hf s a).trans (ih (f s a))

end Calm

/-! ## Each operation on references is calm -/

theorem complete_calm (s : State) (th : Thread) : Calm s (s.complete th) := Calm.queue s _ _ _ rfl

theorem returnError_calm (s : State) (th : Thread) (cmd : UInt32) : Calm s (s.returnError th cmd) :=
  Calm.queue s _ _ _ rfl

theorem pin_calm (s : State) (node : NodeId) : Calm s (s.pin node) := Calm.of_tables rfl rfl rfl rfl rfl rfl rfl

theorem hold_calm (s : State) (node : NodeId) (n : Node) (sender : Option Thread) (h : s.nodes.lookup node = some n) :
    Calm s (s.hold node n sender) :=
  Calm.andQueue (Calm.andQueue (Calm.setNode s node n _ h rfl rfl rfl) rfl) rfl

theorem handleFor_calm (s : State) (id : ProcId) (node : NodeId) (sender : Option Thread) :
    Calm s (s.handleFor id node sender).1 := by
  have hp : Calm s (s.setProc id ((s.proc id).give node).1) := Calm.setProc s id _ rfl rfl rfl
  unfold State.handleFor
  split_ifs with hc
  · exact Calm.refl s
  · split
    · exact Calm.refl s
    · dsimp only
      split
      · exact hp
      · rename_i n hn
        split
        · exact hp
        · exact hp.trans (hold_calm _ node n sender hn)

theorem localNode_calm (s : State) (owner : ProcId) (ptr cookie : UInt64) (flags : UInt32) (hf : s.Fresh) :
    Calm s (s.localNode owner ptr cookie flags).1 := by
  unfold State.localNode
  split
  · exact Calm.refl s
  · exact Calm.addNode s _ hf rfl rfl

theorem unlist_calm (s : State) (node : NodeId) (n : Node) : Calm s (s.unlist node n) := by
  unfold State.unlist
  split_ifs
  · exact Calm.of_tables rfl rfl rfl rfl rfl rfl rfl
  · exact Calm.refl s

theorem unlist_nodes (s : State) (node : NodeId) (n : Node) : (s.unlist node n).nodes = s.nodes := by
  unfold State.unlist; split_ifs <;> rfl

theorem letGo_calm (s : State) (node : NodeId) (n : Node) (h : s.nodes.lookup node = some n) :
    Calm s (s.letGo node n) := by
  have hn : (s.unlist node n).nodes.lookup node = some n := by rw [unlist_nodes]; exact h
  unfold State.letGo
  dsimp only
  refine (unlist_calm s node n).trans ?_
  split_ifs
  · exact Calm.setNode _ node n _ hn rfl rfl rfl
  · exact Calm.andQueue (Calm.andQueue (Calm.setNode _ node n _ hn rfl rfl rfl) rfl) rfl

theorem releaseIfUnreferenced_calm (s : State) (node : NodeId) : Calm s (s.releaseIfUnreferenced node) := by
  unfold State.releaseIfUnreferenced
  split_ifs
  · exact Calm.refl s
  · split
    · exact Calm.refl s
    · rename_i n hn
      split_ifs
      · exact Calm.refl s
      · exact letGo_calm s node n hn

theorem logDeath_calm (s : State) (node : NodeId) (es : List DeathEvent) : Calm s (s.logDeath node es) := by
  unfold State.logDeath
  split
  · exact Calm.refl s
  · rename_i n hn
    exact Calm.setNode s node n _ hn rfl rfl rfl

theorem dropHandleIfUnheld_calm (s : State) (id : ProcId) (h : UInt32) : Calm s (s.dropHandleIfUnheld id h) := by
  unfold State.dropHandleIfUnheld
  split_ifs
  · exact Calm.refl s
  · split
    · exact Calm.refl s
    · rename_i p hp
      have hproc : s.proc id = p := by simp [State.proc, hp]
      split_ifs
      · exact Calm.refl s
      · split
        · exact Calm.refl s
        · rename_i node _
          split_ifs
          · exact Calm.refl s
          · have hd : Calm s (s.setProc id (p.deleteHandle h node)) := by
              subst hproc; exact Calm.setProc s id _ rfl rfl rfl
            exact (hd.trans (logDeath_calm _ node _)).trans (releaseIfUnreferenced_calm _ node)

theorem dropUnheldHandles_calm (s : State) (node : NodeId) : Calm s (s.dropUnheldHandles node) :=
  Calm.foldl (f := fun s (e : ProcId × UInt32) => s.dropHandleIfUnheld e.1 e.2)
    (fun s e => dropHandleIfUnheld_calm s e.1 e.2) _ s

theorem unpinned_calm (s : State) (node : NodeId) : Calm s (s.unpinned node) := by
  unfold State.unpinned
  split_ifs
  · exact (dropUnheldHandles_calm s node).trans (releaseIfUnreferenced_calm _ node)
  · exact releaseIfUnreferenced_calm s node

theorem unpinOne_calm (s : State) (node : NodeId) : Calm s (s.unpinOne node) := by
  unfold State.unpinOne
  split
  · exact Calm.refl s
  · split_ifs
    · refine Calm.trans ?_ (unpinned_calm _ node)
      exact Calm.of_tables rfl rfl rfl rfl rfl rfl rfl
    · exact Calm.of_tables rfl rfl rfl rfl rfl rfl rfl

theorem unpin_calm (s : State) (nodes : List NodeId) : Calm s (s.unpin nodes) := Calm.foldl unpinOne_calm nodes s

theorem countHandle_calm (s : State) (id : ProcId) (cmd : RefCmd) (h : UInt32) : Calm s (s.countHandle id cmd h) := by
  unfold State.countHandle
  split
  · exact Calm.refl s
  · rename_i p hp
    have hproc : s.proc id = p := by simp [State.proc, hp]
    have hc : ∀ c, Calm s (s.setProc id { p with counts := p.counts.insert h c }) := fun c => by
      subst hproc; exact Calm.setProc s id _ rfl rfl rfl
    split_ifs
    · exact Calm.refl s
    · dsimp only
      split_ifs
      · exact (hc _).trans (dropHandleIfUnheld_calm _ id h)
      · exact hc _

theorem mem_acquiringAt {s : State} {owner : ProcId} {ptr : UInt64} {id : NodeId} {n : Node}
    (h : (id, n) ∈ s.acquiringAt owner ptr) :
    s.nodes.lookup id = some n ∧ n.owner = owner ∧ n.ptr = ptr ∧ n.acquiring = true := by
  simp only [State.acquiringAt, List.mem_filterMap, Option.ite_none_right_eq_some, Option.some.injEq,
    Prod.mk.injEq] at h
  obtain ⟨e, he, hc, rfl, rfl⟩ := h
  exact ⟨(Map.mem_entries _ _ _).1 he, hc⟩

theorem acquireDone_calm (s : State) (owner : ProcId) (ptr : UInt64) (i : ℕ) : Calm s (s.acquireDone owner ptr i) := by
  unfold State.acquireDone
  split
  · exact Calm.refl s
  · rename_i id n hi
    have hn := (mem_acquiringAt (List.mem_of_getElem? hi)).1
    dsimp only
    split_ifs
    · exact Calm.andQueue (Calm.andQueue (Calm.setNode s id n _ hn rfl rfl rfl) rfl) rfl
    · exact Calm.setNode s id n _ hn rfl rfl rfl

theorem deathNotification_calm (s : State) (th : Thread) (request : Bool) (handle : UInt32) (cookie : UInt64) :
    Calm s (s.deathNotification th request handle cookie) := by
  unfold State.deathNotification
  dsimp only
  split
  · exact Calm.refl s
  · split
    · exact Calm.queue _ _ _ _ rfl
    · rename_i n hn
      split_ifs <;> first
        | exact Calm.andQueue (Calm.setNode s _ n _ hn rfl rfl rfl) rfl
        | exact Calm.setNode s _ n _ hn rfl rfl rfl
    · exact Calm.queue _ _ _ _ rfl
    · rename_i n hn
      exact Calm.andQueue (Calm.setNode s _ n _ hn rfl rfl rfl) rfl

theorem tellWatchers_calm (s : State) (watchers : List (ProcId × UInt64)) : Calm s (s.tellWatchers watchers) :=
  Calm.foldl (f := fun s (w : ProcId × UInt64) => s.queue w.1 none (.deadBinder w.2))
    (fun s w => Calm.queue s w.1 none (.deadBinder w.2) rfl) watchers s

theorem dropContextMgr_calm (s : State) (node : NodeId) : Calm s (s.dropContextMgr node) := by
  unfold State.dropContextMgr
  split
  · exact Calm.of_tables rfl rfl rfl rfl rfl rfl rfl
  · exact Calm.refl s

/-! ## The standing is as it was -/

/-- a process's table of handles -/
structure Table where
  refs : Map UInt32 NodeId
  byNode : Map NodeId UInt32
  counts : Map UInt32 (UInt32 × UInt32)
  lastHandle : UInt32
  given : List UInt32
  dead : Bool

def ProcState.table (p : ProcState) : Table := ⟨p.refs, p.byNode, p.counts, p.lastHandle, p.given, p.dead⟩

/-- the side of a node that references and watches move -/
structure Standing where
  owner : ProcId
  ptr : UInt64
  cookie : UInt64
  held : Bool
  acquiring : Bool
  releaseDeferred : Bool
  dead : Bool
  watchers : List (ProcId × UInt64)
  holds : List Hold
  deaths : List DeathEvent

def Node.standing (n : Node) : Standing :=
  ⟨n.owner, n.ptr, n.cookie, n.held, n.acquiring, n.releaseDeferred, n.dead, n.watchers, n.history.holds,
    n.history.deaths⟩

def State.standing (s : State) (n : NodeId) : Option Standing := (s.nodes.lookup n).map Node.standing

structure Still (s s' : State) : Prop where
  table : ∀ id, (s'.proc id).table = (s.proc id).table
  standing : ∀ n, s'.standing n = s.standing n
  pins : s'.pins = s.pins
  localNodes : s'.localNodes = s.localNodes
  contextMgr : s'.contextMgr = s.contextMgr
  nextNode : s'.nextNode = s.nextNode

namespace Still

theorem refl (s : State) : Still s s := ⟨fun _ => rfl, fun _ => rfl, rfl, rfl, rfl, rfl⟩

theorem trans {s t u : State} (h1 : Still s t) (h2 : Still t u) : Still s u :=
  ⟨fun id => (h2.table id).trans (h1.table id), fun n => (h2.standing n).trans (h1.standing n), h2.pins.trans h1.pins,
    h2.localNodes.trans h1.localNodes, h2.contextMgr.trans h1.contextMgr, h2.nextNode.trans h1.nextNode⟩

theorem of_tables {s s' : State} (hp : s'.procs = s.procs) (hn : s'.nodes = s.nodes) (hpin : s'.pins = s.pins)
    (hl : s'.localNodes = s.localNodes) (hc : s'.contextMgr = s.contextMgr) (hi : s'.nextNode = s.nextNode) :
    Still s s' :=
  ⟨fun id => by simp only [State.proc, hp], fun n => by simp only [State.standing, hn], hpin, hl, hc, hi⟩

theorem setProc (s : State) (id : ProcId) (p : ProcState) (h : p.table = (s.proc id).table) :
    Still s (s.setProc id p) :=
  ⟨fun id' => by rw [State.proc_setProc]; split_ifs with hi <;> simp [hi, h], fun _ => rfl, rfl, rfl, rfl, rfl⟩

theorem updThread (s : State) (th : Thread) (f : ThreadState → ThreadState) : Still s (s.updThread th f) :=
  setProc s th.1 _ rfl

theorem queue (s : State) (id : ProcId) (tid : Option Tid) (work : Work) : Still s (s.queue id tid work) := by
  cases tid <;> exact setProc s id _ rfl

theorem andQueue {s t : State} {id : ProcId} {tid : Option Tid} {work : Work} (h : Still s t) :
    Still s (t.queue id tid work) :=
  h.trans (queue t id tid work)

theorem setNode (s : State) (n : NodeId) (nd nd' : Node) (h : s.nodes.lookup n = some nd)
    (hs : nd'.standing = nd.standing) : Still s (s.setNode n nd') := by
  refine ⟨fun _ => rfl, fun m => ?_, rfl, rfl, rfl, rfl⟩
  simp only [State.standing, State.setNode, Map.lookup_insert_eq]
  split_ifs with hm
  · rw [hm, h]; simp [hs]
  · rfl

theorem foldl {α : Type} {f : State → α → State} (hf : ∀ s a, Still s (f s a)) (l : List α) (s : State) :
    Still s (l.foldl f s) := by
  induction l generalizing s with
  | nil => exact refl s
  | cons a l ih => exact (hf s a).trans (ih (f s a))

/-- a node is there as it was -/
theorem lookup {s s' : State} (h : Still s s') {n : NodeId} {nd : Node} (hn : s.nodes.lookup n = some nd) :
    ∃ nd', s'.nodes.lookup n = some nd' ∧ nd'.standing = nd.standing := by
  have hs := h.standing n
  simp only [State.standing, hn, Option.map_some] at hs
  exact Option.map_eq_some_iff.1 hs

theorem lookup_none {s s' : State} (h : Still s s') {n : NodeId} (hn : s.nodes.lookup n = none) :
    s'.nodes.lookup n = none := by
  have hs := h.standing n
  simpa only [State.standing, hn, Option.map_none, Option.map_eq_none_iff] using hs

theorem dead {s s' : State} (h : Still s s') (id : ProcId) : (s'.proc id).dead = (s.proc id).dead :=
  congrArg Table.dead (h.table id)

theorem fresh {s s' : State} (h : Still s s') (hf : s.Fresh) : s'.Fresh := fun n hn =>
  h.lookup_none (hf n (h.nextNode ▸ hn))

end Still

/-! ## What only moves traffic is still -/

theorem asyncDone_still (s : State) (node : NodeId) (owner : ProcId) : Still s (s.asyncDone node owner) := by
  unfold State.asyncDone
  split
  · exact Still.refl s
  · rename_i n hn
    split
    · exact Still.setNode s node n _ hn rfl
    · exact Still.andQueue (Still.setNode s node n _ hn rfl)

theorem queueOneway_still (s : State) (target : ProcId) (node : NodeId) (txn : Txn) :
    Still s (s.queueOneway target node txn) := by
  unfold State.queueOneway
  dsimp only
  split
  · exact Still.queue _ _ _ _
  · rename_i n hn
    split
    · exact Still.setNode s node n _ hn rfl
    · exact Still.andQueue (Still.setNode s node n _ hn rfl)

theorem failServed_still (s : State) (sv : Served) : Still s (s.failServed sv) := by
  unfold State.failServed
  split
  · exact Still.queue _ _ _ _
  · exact Still.refl s

theorem hear_still (s : State) (th : Thread) (w : Work) : Still s (s.hear th w) := by
  unfold State.hear
  split
  · exact Still.updThread _ _ _
  · exact Still.updThread _ _ _
  · exact Still.refl s

theorem recordBuffer_still (s : State) (th : Thread) (buf : ℕ) (txn : Txn) : Still s (s.recordBuffer th buf txn) := by
  unfold State.recordBuffer
  split
  · exact Still.of_tables rfl rfl rfl rfl rfl rfl
  · exact Still.refl s

theorem logDelivered_still (s : State) (node : Option NodeId) (serial : ℕ) : Still s (s.logDelivered node serial) := by
  unfold State.logDelivered
  split
  · exact Still.refl s
  · split
    · exact Still.refl s
    · rename_i n hn
      exact Still.setNode s _ n _ hn rfl

theorem placed_still (s : State) (th : Thread) (buf : ℕ) (txn : Txn) : Still s (s.placed th buf txn) := by
  have h := (recordBuffer_still s th buf txn).trans (logDelivered_still _ txn.asyncNode txn.serial)
  unfold State.placed
  dsimp only
  split
  · exact h.trans (Still.updThread _ _ _)
  · split
    · exact h
    · exact h.trans (Still.updThread _ _ _)

theorem repeatedRelayout_nodes (s : State) (sender : ProcId) (node : NodeId) (code : UInt32) (data : Bytes)
    (fds dedupe : Bool) : (s.repeatedRelayout sender node code data fds dedupe).1.nodes = s.nodes := by
  unfold State.repeatedRelayout
  repeat' split
  all_goals rfl

theorem repeatedRelayout_still (s : State) (sender : ProcId) (node : NodeId) (code : UInt32) (data : Bytes)
    (fds dedupe : Bool) : Still s (s.repeatedRelayout sender node code data fds dedupe).1 := by
  unfold State.repeatedRelayout
  split
  · exact Still.refl s
  · split
    · exact Still.refl s
    · exact Still.of_tables rfl rfl rfl rfl rfl rfl

theorem repeatedRelayout_calm (s : State) (sender : ProcId) (node : NodeId) (code : UInt32) (data : Bytes)
    (fds dedupe : Bool) : Calm s (s.repeatedRelayout sender node code data fds dedupe).1 := by
  unfold State.repeatedRelayout
  split
  · exact Calm.refl s
  · split
    · exact Calm.refl s
    · exact Calm.of_tables rfl rfl rfl rfl rfl rfl rfl

end Omnidroid.Binder
