/-
The broker's operations on its state (`impl State`, `BinderFile::release`, `BINDER_THREAD_EXIT`), each as the code
computes it under its one lock. Waking sleepers (`poll::notify_key`) changes nothing here and is modelled apart.

A `HashMap` is walked in no order the code relies on. Where the order shows (which works are dropped first, which of
two nodes an acquire is matched with) it is an argument, and every order is allowed. In `dropUnheldHandles` it does not
show: a handle's deletion neither looks at nor changes another process's.
-/
import Omnidroid.Binder.Types

namespace Omnidroid.Binder

/-! ## Access -/

/-- `procs.entry(id).or_default()` -/
def State.proc (s : State) (id : ProcId) : ProcState := (s.procs.lookup id).getD {}

def State.setProc (s : State) (id : ProcId) (p : ProcState) : State := { s with procs := s.procs.insert id p }

/-- `threads.entry(tid).or_default()` -/
def ProcState.thread (p : ProcState) (t : Tid) : ThreadState := (p.threads.lookup t).getD {}

def ProcState.setThread (p : ProcState) (t : Tid) (th : ThreadState) : ProcState :=
  { p with threads := p.threads.insert t th }

def State.thread (s : State) (th : Thread) : ThreadState := (s.proc th.1).thread th.2

def State.updThread (s : State) (th : Thread) (f : ThreadState → ThreadState) : State :=
  s.setProc th.1 ((s.proc th.1).setThread th.2 (f (s.thread th)))

def State.setNode (s : State) (n : NodeId) (nd : Node) : State := { s with nodes := s.nodes.insert n nd }

/-- a new node, its owner's object at its address -/
def State.addNode (s : State) (nd : Node) : State :=
  { s with
    nextNode := s.nextNode + 1
    nodes := s.nodes.insert (s.nextNode + 1) nd
    localNodes := s.localNodes.insert (nd.owner, nd.ptr) (s.nextNode + 1) }

/-- no process of that id, or a dead one -/
def State.isDead (s : State) (id : ProcId) : Bool := (s.procs.lookup id).elim true (·.dead)

def Node.logHold (n : Node) (hs : List Hold) : Node :=
  { n with history := { n.history with holds := n.history.holds ++ hs } }

def Node.logDeath (n : Node) (es : List DeathEvent) : Node :=
  { n with history := { n.history with deaths := n.history.deaths ++ es } }

/-- what is known of a node that is not there: nothing -/
def State.node (s : State) (n : NodeId) : Node := (s.nodes.lookup n).getD { owner := .host, ptr := 0, cookie := 0 }

theorem State.node_of_lookup {s : State} {n : NodeId} {nd : Node} (h : s.nodes.lookup n = some nd) : s.node n = nd := by
  simp [State.node, h]

@[simp] theorem State.proc_setProc (s : State) (id id' : ProcId) (p : ProcState) :
    (s.setProc id p).proc id' = if id' = id then p else s.proc id' := by
  unfold State.proc State.setProc
  rw [Map.lookup_insert_eq]
  split_ifs <;> rfl

@[simp] theorem ProcState.thread_setThread (p : ProcState) (t t' : Tid) (th : ThreadState) :
    (p.setThread t th).thread t' = if t' = t then th else p.thread t' := by
  unfold ProcState.thread ProcState.setThread
  rw [Map.lookup_insert_eq]
  split_ifs <;> rfl

theorem State.thread_setProc (s : State) (id : ProcId) (p : ProcState) (th : Thread) :
    (s.setProc id p).thread th = if th.1 = id then p.thread th.2 else s.thread th := by
  unfold State.thread
  rw [State.proc_setProc]
  split_ifs <;> rfl

theorem State.thread_updThread (s : State) (th th' : Thread) (f : ThreadState → ThreadState) :
    (s.updThread th f).thread th' = if th' = th then f (s.thread th) else s.thread th' := by
  unfold State.updThread
  rw [State.thread_setProc]
  by_cases h : th' = th
  · simp [h]
  · split_ifs with h1
    · have h2 : th'.2 ≠ th.2 := fun h2 => h (Prod.ext h1 h2)
      simp [h2, State.thread, h1]
    · rfl

@[simp] theorem State.node_setNode (s : State) (n n' : NodeId) (nd : Node) :
    (s.setNode n nd).node n' = if n' = n then nd else s.node n' := by
  unfold State.node State.setNode
  rw [Map.lookup_insert_eq]
  split_ifs <;> rfl

@[simp] theorem State.node_addNode (s : State) (nd : Node) (n : NodeId) :
    (s.addNode nd).node n = if n = s.nextNode + 1 then nd else s.node n := by
  unfold State.node State.addNode
  rw [Map.lookup_insert_eq]
  split_ifs <;> rfl

/-! ## Queues -/

/-- work for `tid` of `id` goes to that thread's own queue, the rest to the process's -/
def State.queue (s : State) (id : ProcId) (tid : Option Tid) (work : Work) : State :=
  match tid with
  | some t => s.updThread (id, t) fun th => { th with todo := th.todo ++ [work] }
  | none => s.setProc id { s.proc id with todo := (s.proc id).todo ++ [work] }

theorem State.queue_eq (s : State) (id : ProcId) (tid : Option Tid) (work : Work) :
    s.queue id tid work = s.setProc id (match tid with
      | some t => (s.proc id).setThread t { s.thread (id, t) with todo := (s.thread (id, t)).todo ++ [work] }
      | none => { s.proc id with todo := (s.proc id).todo ++ [work] }) := by
  cases tid <;> rfl

/-- a oneway to `node` is done with: the next waiting one goes to `owner`'s process queue -/
def State.asyncDone (s : State) (node : NodeId) (owner : ProcId) : State :=
  match s.nodes.lookup node with
  | none => s
  | some n =>
    match n.asyncTodo with
    | [] => s.setNode node { n with hasAsync := false }
    | w :: rest => (s.setNode node { n with hasAsync := true, asyncTodo := rest }).queue owner none w

/-- a oneway goes to its process, or waits on the node while one to the same node is out -/
def State.queueOneway (s : State) (target : ProcId) (node : NodeId) (txn : Txn) : State :=
  let txn := { txn with asyncNode := some node }
  match s.nodes.lookup node with
  | none => s.queue target none (.txn txn)
  | some n =>
    let n := { n with history := { n.history with accepted := n.history.accepted ++ [txn.serial] } }
    if n.hasAsync then s.setNode node { n with asyncTodo := n.asyncTodo ++ [.txn txn] }
    else (s.setNode node { n with hasAsync := true }).queue target none (.txn txn)

/-! ## Nodes, handles and pins -/

/-- the largest key of a process's handles, 0 when it has none -/
def lastKey (refs : Map UInt32 NodeId) : UInt32 := refs.keys.foldr max 0

def State.nodeForHandle (s : State) (id : ProcId) (h : UInt32) : Option NodeId :=
  if h = 0 then s.contextMgr else (s.proc id).refs.lookup h

/-- the owner is asked to hold `node`: by the sending thread when the owner is the sender -/
def State.hold (s : State) (node : NodeId) (n : Node) (sender : Option Thread) : State :=
  let thread := (sender.filter (·.1 = n.owner)).map (·.2)
  let s := s.setNode node ({ n with held := true, acquiring := true }.logHold [.acquire])
  (s.queue n.owner thread (.increfs n.ptr n.cookie)).queue n.owner thread (.acquire n.ptr n.cookie)

/-- the next handle number goes to `node`; it wraps as a `u32` does -/
def ProcState.give (p : ProcState) (node : NodeId) : ProcState × UInt32 :=
  let h := max p.lastHandle (lastKey p.refs) + 1
  ({ p with
      lastHandle := h, refs := p.refs.insert h node, byNode := p.byNode.insert node h, given := p.given ++ [h] }, h)

/-- `id`'s handle for `node`, made (and the node held by its owner) if it has none -/
def State.handleFor (s : State) (id : ProcId) (node : NodeId) (sender : Option Thread) : State × UInt32 :=
  if s.contextMgr = some node then (s, 0) else
  match (s.proc id).byNode.lookup node with
  | some h => (s, h)
  | none =>
    let (p, h) := (s.proc id).give node
    let s := s.setProc id p
    match s.nodes.lookup node with
    | none => (s, h)
    | some n => if n.held then (s, h) else (s.hold node n sender, h)

def State.localNode (s : State) (owner : ProcId) (ptr cookie : UInt64) (flags : UInt32) : State × NodeId :=
  match s.localNodes.lookup (owner, ptr) with
  | some n => (s, n)
  | none =>
    (s.addNode
      { owner := owner, ptr := ptr, cookie := cookie, txnSecurityCtx := flags &&& flatBinderFlagTxnSecurityCtx != 0 },
      s.nextNode + 1)

/-- hold `node` for a transaction in flight -/
def State.pin (s : State) (node : NodeId) : State :=
  { s with pins := s.pins.insert node ((s.pins.lookup node).getD 0 + 1) }

/-- the context manager, a node in flight, or one a live process has a handle for -/
def State.referenced (s : State) (node : NodeId) : Bool :=
  s.contextMgr = some node || (s.pins.lookup node).isSome ||
    s.procs.entries.any fun e => !e.2.dead && (e.2.byNode.lookup node).isSome

/-- `node`'s address may later name a new node -/
def State.unlist (s : State) (node : NodeId) (n : Node) : State :=
  if s.localNodes.lookup (n.owner, n.ptr) = some node then
    { s with localNodes := s.localNodes.erase (n.owner, n.ptr) }
  else s

/-- `BR_RELEASE` and `BR_DECREFS` to the owner, or once its `BC_ACQUIRE_DONE` has come -/
def State.letGo (s : State) (node : NodeId) (n : Node) : State :=
  let s := s.unlist node n
  if n.acquiring then s.setNode node { n with held := false, releaseDeferred := true } else
  let s := s.setNode node ({ n with held := false }.logHold [.release])
  (s.queue n.owner none (.release n.ptr n.cookie)).queue n.owner none (.decrefs n.ptr n.cookie)

/-- a node nothing refers to any more is let go by its owner -/
def State.releaseIfUnreferenced (s : State) (node : NodeId) : State :=
  if s.referenced node then s else
  match s.nodes.lookup node with
  | none => s
  | some n => if !n.held || n.dead || n.owner = .host then s else s.letGo node n

def State.logDeath (s : State) (node : NodeId) (es : List DeathEvent) : State :=
  match s.nodes.lookup node with
  | none => s
  | some n => s.setNode node (n.logDeath es)

def ProcState.deleteHandle (p : ProcState) (h : UInt32) (node : NodeId) : ProcState :=
  { p with refs := p.refs.erase h, byNode := p.byNode.erase node, counts := p.counts.erase h }

/-- `id`'s handle `h` is deleted if its process counts no reference to it and its node is not in flight -/
def State.dropHandleIfUnheld (s : State) (id : ProcId) (h : UInt32) : State :=
  if h = 0 ∨ id = .host then s else
  match s.procs.lookup id with
  | none => s
  | some p =>
    if p.dead || (p.counts.lookup h).any (· != (0, 0)) then s else
    match p.refs.lookup h with
    | none => s
    | some node =>
      if (s.pins.lookup node).isSome then s else
      ((s.setProc id (p.deleteHandle h node)).logDeath node [.dropped id]).releaseIfUnreferenced node

/-- every live process's handle for `node` that nothing holds goes -/
def State.dropUnheldHandles (s : State) (node : NodeId) : State :=
  let holders := s.procs.entries.filterMap fun e =>
    if e.1 ≠ .host ∧ !e.2.dead then (e.2.byNode.lookup node).map fun h => (e.1, h) else none
  holders.foldl (fun s e => s.dropHandleIfUnheld e.1 e.2) s

/-- `node` is no longer in flight -/
def State.unpinned (s : State) (node : NodeId) : State :=
  (if s.refcount then s.dropUnheldHandles node else s).releaseIfUnreferenced node

/-- one hold of a transaction in flight on `node` ends -/
def State.unpinOne (s : State) (node : NodeId) : State :=
  match s.pins.lookup node with
  | none => s
  | some count =>
    if count - 1 = 0 then { s with pins := s.pins.erase node }.unpinned node
    else { s with pins := s.pins.insert node (count - 1) }

def State.unpin (s : State) (nodes : List NodeId) : State := nodes.foldl State.unpinOne s

/-- a oneway is done with, if it is one: its node lets its next go -/
def State.doneWith (s : State) (node : Option NodeId) (owner : ProcId) : State :=
  match node with
  | some node => s.asyncDone node owner
  | none => s

/-- who waits for `txn` hears what became of it, if it is a call -/
def State.tellSender (s : State) (txn : Txn) (answer : Work) : State :=
  match txn.from_ with
  | some (c, t) => if txn.isCall then s.queue c (some t) answer else s
  | none => s

/-- work that will never be read: a sync call's sender hears so, a oneway's node lets its next go, the pins are let go -/
def State.dropWork (receiver : ProcId) (s : State) (work : Work) : State :=
  match work with
  | .txn txn =>
    ((s.tellSender txn (.deadReply txn.serial)).doneWith txn.asyncNode receiver).unpin txn.pinned
  | _ => s

/-! ## Reference commands -/

/-- `BC_ACQUIRE`, `BC_INCREFS`, `BC_RELEASE`, `BC_DECREFS` -/
inductive RefCmd where
  | acquire | increfs | release | decrefs
deriving DecidableEq, Repr

def RefCmd.count (cmd : RefCmd) (c : UInt32 × UInt32) : UInt32 × UInt32 :=
  match cmd with
  | .acquire => (c.1 + 1, c.2)
  | .increfs => (c.1, c.2 + 1)
  | .release => (if c.1 = 0 then 0 else c.1 - 1, c.2)
  | .decrefs => (c.1, if c.2 = 0 then 0 else c.2 - 1)

def State.countHandle (s : State) (id : ProcId) (cmd : RefCmd) (h : UInt32) : State :=
  match s.procs.lookup id with
  | none => s
  | some p =>
    if (p.refs.lookup h).isNone then s else
    let c := cmd.count ((p.counts.lookup h).getD (0, 0))
    let counted := s.setProc id { p with counts := p.counts.insert h c }
    if c = (0, 0) then counted.dropHandleIfUnheld id h else counted

/-- the nodes a `BC_ACQUIRE_DONE` may be for -/
def State.acquiringAt (s : State) (owner : ProcId) (ptr : UInt64) : List (NodeId × Node) :=
  s.nodes.entries.filterMap fun e =>
    if e.2.owner = owner ∧ e.2.ptr = ptr ∧ e.2.acquiring then some (e.1, e.2) else none

/-- `BC_ACQUIRE_DONE`: a release that waited goes now. The search takes any one of the nodes: the `i`-th -/
def State.acquireDone (s : State) (owner : ProcId) (ptr : UInt64) (i : ℕ) : State :=
  match (s.acquiringAt owner ptr)[i % (s.acquiringAt owner ptr).length]? with
  | none => s
  | some (id, n) =>
    let n' := { n with acquiring := false, releaseDeferred := false }
    if n.releaseDeferred then
      let s := s.setNode id (n'.logHold [.done, .release])
      (s.queue owner none (.release ptr n.cookie)).queue owner none (.decrefs ptr n.cookie)
    else s.setNode id (n'.logHold [.done])

/-! ## Death notifications -/

/-- `BC_REQUEST_DEATH_NOTIFICATION` and `BC_CLEAR_DEATH_NOTIFICATION`: answered to a looper's own queue, else to the
process's -/
def State.deathNotification (s : State) (th : Thread) (request : Bool) (handle : UInt32) (cookie : UInt64) : State :=
  let looper := ((s.proc th.1).threads.lookup th.2).any (·.looper)
  let dest := if looper then some th.2 else none
  match s.nodeForHandle th.1 handle with
  | none => s
  | some node =>
    match request, s.nodes.lookup node with
    | true, none => s.queue th.1 dest (.deadBinder cookie)
    | true, some n =>
      if n.dead then
        (s.setNode node (n.logDeath [.requested th.1 cookie, .told th.1 cookie])).queue th.1 dest (.deadBinder cookie)
      else s.setNode node ({ n with watchers := n.watchers ++ [(th.1, cookie)] }.logDeath [.requested th.1 cookie])
    | false, none => s.queue th.1 dest (.clearDeathDone cookie)
    | false, some n =>
      let n := { n with watchers := n.watchers.filter (· != (th.1, cookie)) }.logDeath [.cleared th.1 cookie]
      (s.setNode node n).queue th.1 dest (.clearDeathDone cookie)

/-! ## Ends of threads and processes -/

/-- `BINDER_THREAD_EXIT`: the caller of the transaction it was serving hears so, its own queue is dropped -/
def State.threadExit (s : State) (th : Thread) : State :=
  match s.procs.lookup th.1 with
  | none => s
  | some p =>
    match p.threads.lookup th.2 with
    | none => s
    | some gone =>
      let s := s.setProc th.1 { p with threads := p.threads.erase th.2 }
      let s := match gone.serving.getLast? with
        | some ⟨some (c, t), serial⟩ => s.queue c (some t) (.deadReply serial)
        | _ => s
      gone.todo.foldl (State.dropWork th.1) s

/-- the orders in which a release walks its nodes, its threads and its buffers -/
structure ReleaseOrder where
  nodes : List NodeId
  threads : List Tid
  buffers : List ℕ
deriving DecidableEq, Repr

def State.ownedNodes (s : State) (id : ProcId) : List NodeId :=
  s.nodes.entries.filterMap fun e => if e.2.owner = id then some e.1 else none

def State.buffersOf (s : State) (id : ProcId) : List ℕ :=
  s.buffers.keys.filterMap fun k => if k.1 = id then some k.2 else none

def ReleaseOrder.Valid (o : ReleaseOrder) (s : State) (id : ProcId) : Prop :=
  o.nodes.Perm (s.ownedNodes id) ∧ o.threads.Perm (s.proc id).threads.keys ∧ o.buffers.Perm (s.buffersOf id)

instance (o : ReleaseOrder) (s : State) (id : ProcId) : Decidable (o.Valid s id) := by
  unfold ReleaseOrder.Valid; infer_instance

def Node.killed (n : Node) : Node :=
  Node.logDeath { n with dead := true, hasAsync := false, asyncTodo := [], watchers := [] }
    (n.watchers.map fun w => .told w.1 w.2)

def State.tellWatchers (s : State) (watchers : List (ProcId × UInt64)) : State :=
  watchers.foldl (fun s w => s.queue w.1 none (.deadBinder w.2)) s

def State.dropContextMgr (s : State) (node : NodeId) : State :=
  if s.contextMgr = some node then { s with contextMgr := none } else s

/-- one node of a released process dies: its watchers hear so, its waiting oneways are dropped -/
def State.killNode (s : State) (node : NodeId) : State × List Work :=
  match s.nodes.lookup node with
  | none => (s, [])
  | some n => (((s.setNode node n.killed).tellWatchers n.watchers).dropContextMgr node, n.asyncTodo)

def State.killNodes (s : State) : List NodeId → State × List Work
  | [] => (s, [])
  | n :: ns =>
    let (s, works) := s.killNode n
    let (s, more) := s.killNodes ns
    (s, works ++ more)

/-- a delivered buffer of a released process lets go what it holds -/
def State.dropBuffer (id : ProcId) (s : State) (addr : ℕ) : State :=
  match s.buffers.lookup (id, addr) with
  | none => s
  | some b => { s with buffers := s.buffers.erase (id, addr) }.unpin b.pinned

/-- the caller of a transaction a gone thread served hears so -/
def State.failServed (s : State) (sv : Served) : State :=
  match sv.caller with
  | some (c, t) => s.queue c (some t) (.deadReply sv.serial)
  | none => s

/-- what is left of a released process -/
def ProcState.released (p : ProcState) : ProcState :=
  { p with dead := true, todo := [], threads := ∅, byNode := ∅, refs := ∅ }

/-- `relayouts.retain(|(sender, _), _| *sender != gone)` -/
def State.forgetRelayouts (s : State) (id : ProcId) : State :=
  { s with relayouts :=
      s.relayouts.keys.foldl (fun m (k : ProcId × NodeId) => if k.1 = id then m.erase k else m) s.relayouts }

/-- what a released process leaves behind: the calls its threads served, its unread work, the nodes it had handles for -/
structure Remains where
  serving : List Served
  dropped : List Work
  held : List NodeId

/-- its nodes die, its queues, its threads and its handles are taken from it -/
def State.bury (s : State) (id : ProcId) (o : ReleaseOrder) : State × Remains :=
  let (s, waiting) := s.killNodes o.nodes
  let s := s.forgetRelayouts id
  let p := s.proc id
  let gone := o.threads.map p.thread
  (s.setProc id p.released,
    { serving := (gone.map (·.serving)).flatten
      dropped := waiting ++ p.todo ++ (gone.map (·.todo)).flatten
      held := (p.refs.keys.insertionSort (· ≤ ·)).filterMap p.refs.lookup })

/-- everything that waits on it fails, its buffers and its references are let go -/
def State.settle (s : State) (id : ProcId) (buffers : List ℕ) (r : Remains) : State :=
  let s := r.serving.foldl State.failServed s
  let s := r.dropped.foldl (State.dropWork id) s
  let s := buffers.foldl (State.dropBuffer id) s
  r.held.foldl State.releaseIfUnreferenced s

/-- `BinderFile::release` -/
def State.release (s : State) (id : ProcId) (o : ReleaseOrder) : State :=
  let (s, r) := s.bury id o
  s.settle id o.buffers r

end Omnidroid.Binder
