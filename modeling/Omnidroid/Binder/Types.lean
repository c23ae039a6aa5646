/-
The data of the binder driver (`omni-linux/src/binder.rs`): objects, transactions, queued work, threads, processes,
nodes and the broker's state.

Names are the source's. What is added is history: fields no code reads, written where the code does what they record,
so that properties over time can be stated about a state.
- `serial` (of a transaction, a served call, a failed call's answer) tells one sync call from another, which the driver
  itself never does: a reply answers the innermost call its thread is serving;
- `waits` (of a thread): the sync calls it counted into `awaiting` and has not read an answer to;
- `given` (of a process): the handle numbers it was given, in order;
- `History` (of a node): the hold commands queued for it, its death notifications, its oneways as they were accepted
  and as they reached a buffer;
- `lost` (of the broker): the nodes held by buffer records that another record replaced.

Machine integers: `u32` and `u64` values that travel in parcels or wrap are `UInt32` and `UInt64`. Sizes, addresses and
the 64-bit counters (process, node and host ids) are natural numbers: none of these runs out.
-/
import Omnidroid.Lib.FinMap
import Omnidroid.Lib.Bytes

namespace Omnidroid.Binder

/-! ## Words of the protocol -/

def brTransactionSecCtx : UInt32 := 0x80487202
def brTransaction : UInt32 := 0x80407202
def brReply : UInt32 := 0x80407203
def brDeadReply : UInt32 := 0x00007205
def brTransactionComplete : UInt32 := 0x00007206
def brIncrefs : UInt32 := 0x80107207
def brAcquire : UInt32 := 0x80107208
def brRelease : UInt32 := 0x80107209
def brDecrefs : UInt32 := 0x8010720a
def brNoop : UInt32 := 0x0000720c
def brSpawnLooper : UInt32 := 0x0000720d
def brDeadBinder : UInt32 := 0x8008720f
def brClearDeathNotificationDone : UInt32 := 0x80087210
def brFailedReply : UInt32 := 0x00007211

def typeBinder : UInt32 := 0x73622a85
def typeWeakBinder : UInt32 := 0x77622a85
def typeHandle : UInt32 := 0x73682a85
def typeWeakHandle : UInt32 := 0x77682a85
def typeFd : UInt32 := 0x66642a85
/-- `binder_fd_array_object`: fds in a parent buffer -/
def typeFda : UInt32 := 0x66646185
/-- `binder_buffer_object`: a buffer copied beside the data -/
def typePtr : UInt32 := 0x70742a85
def bufferFlagHasParent : UInt32 := 1

def tfOneWay : UInt32 := 0x01
def flatBinderFlagTxnSecurityCtx : UInt32 := 0x1000

/-- the uid the host's transactions come from -/
def hostEuid : UInt32 := 1000

/-- what a transaction's sender is labelled when a node asks for a security context: `u:r:untrusted_app:s0` and a NUL -/
def secctxLabel : Bytes :=
  [117, 58, 114, 58, 117, 110, 116, 114, 117, 115, 116, 101, 100, 95, 97, 112, 112, 58, 115, 48, 0]

inductive Errno where
  | EAGAIN | EBADF | EBUSY | EFAULT | EINTR | EINVAL | ENOMEM | EPIPE | ETIMEDOUT
  /-- what another subsystem refuses with -/
  | other (code : ℕ)
deriving DecidableEq, Repr

/-- `HOST` is the owner of host services' nodes; a guest's id counts up from 1 and never meets it -/
inductive ProcId where
  | host
  | guest (n : ℕ)
deriving DecidableEq, Repr

abbrev Tid := ℤ
abbrev NodeId := ℕ
/-- a thread, by its process and its tid -/
abbrev Thread := ProcId × Tid
/-- an open file, by identity -/
abbrev FileId := ℕ

/-! ## Transactions and work -/

structure SgBuffer where
  objOff : ℕ
  bytes : Bytes
  /-- (index in `sg` of the parent buffer, offset in it where this buffer's address goes) -/
  parent : Option (ℕ × ℕ)
deriving DecidableEq, Repr

/-- a transaction or reply on its way, its objects already translated for the receiver -/
structure Txn where
  reply : Bool
  oneway : Bool
  /-- who waits for the reply to this (a sync transaction) -/
  from_ : Option Thread
  targetPtr : UInt64
  targetCookie : UInt64
  secctx : Bool
  code : UInt32
  flags : UInt32
  senderPid : ℤ
  senderEuid : UInt32
  data : Bytes
  offsets : List UInt64
  /-- files to install in the receiver, by the offset of their object in `data` -/
  fds : List (ℕ × FileId)
  sg : List SgBuffer
  /-- fd arrays: (index of the parent buffer in `sg`, offset in it, the files) -/
  fda : List (ℕ × ℕ × List FileId)
  asyncNode : Option NodeId
  pinned : List NodeId
  /-- history: the sync call this is, or answers -/
  serial : ℕ
deriving DecidableEq, Repr

/-- a sync call, that its sender waits on -/
def Txn.isCall (t : Txn) : Bool := !t.reply && !t.oneway

/-- a delivered buffer not yet freed -/
structure Buffer where
  asyncNode : Option NodeId
  pinned : List NodeId
  tid : Tid
  code : UInt32
deriving DecidableEq, Repr

inductive Work where
  | txn (t : Txn)
  | complete
  /-- a sync transaction this thread waits on failed: the wait is over -/
  | deadReply (serial : ℕ)
  | failedReply (serial : ℕ)
  /-- a transaction this thread could not send; no wait ends -/
  | returnError (cmd : UInt32)
  | increfs (ptr cookie : UInt64)
  | acquire (ptr cookie : UInt64)
  | release (ptr cookie : UInt64)
  | decrefs (ptr cookie : UInt64)
  | deadBinder (cookie : UInt64)
  | clearDeathDone (cookie : UInt64)
deriving DecidableEq, Repr

/-- a transaction a thread is serving: whom its reply goes to -/
structure Served where
  caller : Option Thread
  serial : ℕ
deriving DecidableEq, Repr

/-! ## Threads and processes -/

structure ThreadState where
  todo : List Work := []
  /-- `BC_ENTER_LOOPER` or `BC_REGISTER_LOOPER` came; never cleared -/
  looper : Bool := false
  exited : Bool := false
  /-- waiting in a read for its process's work -/
  idle : Bool := false
  /-- transactions this thread is serving, innermost last -/
  serving : List Served := []
  /-- sync transactions this thread sent and waits on the reply of -/
  awaiting : ℕ := 0
  /-- history: which ones -/
  waits : List ℕ := []
deriving DecidableEq, Repr

structure ProcState where
  pid : ℤ := 0
  refs : Map UInt32 NodeId := ∅
  byNode : Map NodeId UInt32 := ∅
  /-- each handle's references as its process counts them (strong, weak) -/
  counts : Map UInt32 (UInt32 × UInt32) := ∅
  /-- the last handle number given out: numbers are not reused -/
  lastHandle : UInt32 := 0
  todo : List Work := []
  threads : Map Tid ThreadState := ∅
  maxThreads : UInt32 := 0
  spawnRequested : ℕ := 0
  dead : Bool := false
  polled : Bool := false
  /-- history: the handle numbers given to it -/
  given : List UInt32 := []

/-! ## Nodes and the broker -/

/-- what happened to a node's hold: a `BR_ACQUIRE` queued, its `BC_ACQUIRE_DONE` taken, a `BR_RELEASE` queued -/
inductive Hold where
  | acquire
  | done
  | release
deriving DecidableEq, Repr

/-- what happened to a node's death notifications -/
inductive DeathEvent where
  /-- `BC_REQUEST_DEATH_NOTIFICATION` accepted -/
  | requested (id : ProcId) (cookie : UInt64)
  /-- `BC_CLEAR_DEATH_NOTIFICATION` answered -/
  | cleared (id : ProcId) (cookie : UInt64)
  /-- `BR_DEAD_BINDER` queued -/
  | told (id : ProcId) (cookie : UInt64)
  /-- the process's handle for the node deleted -/
  | dropped (id : ProcId)
deriving DecidableEq, Repr

structure History where
  holds : List Hold := []
  deaths : List DeathEvent := []
  /-- its oneways in the order `queue_oneway` took them, and in the order they reached a receiver's buffer -/
  accepted : List ℕ := []
  delivered : List ℕ := []
deriving DecidableEq, Repr

structure Node where
  owner : ProcId
  ptr : UInt64
  cookie : UInt64
  /-- `BR_INCREFS`/`BR_ACQUIRE` sent: the owner holds the object for its remote references -/
  held : Bool := false
  /-- `BR_ACQUIRE` sent and its `BC_ACQUIRE_DONE` not yet back: a release waits for it -/
  acquiring : Bool := false
  /-- released while `acquiring`: `BR_RELEASE`/`BR_DECREFS` go once the acquire is done -/
  releaseDeferred : Bool := false
  txnSecurityCtx : Bool := false
  dead : Bool := false
  watchers : List (ProcId × UInt64) := []
  /-- a oneway to this node is out: the next waits in `asyncTodo` -/
  hasAsync : Bool := false
  asyncTodo : List Work := []
  history : History := {}
deriving DecidableEq, Repr

/-- a host service's call on its way through a host thread (`host_pool_run`), until its reply is queued -/
structure HostJob where
  caller : Thread
  oneway : Bool
  serial : ℕ
deriving DecidableEq, Repr

structure State where
  /-- handle references are counted (`OMNI_BINDER_REFCOUNT`, read once) -/
  refcount : Bool
  procs : Map ProcId ProcState := ∅
  nodes : Map NodeId Node := ∅
  /-- delivered buffers that hold something until freed, by (receiver, address) -/
  buffers : Map (ProcId × ℕ) Buffer := ∅
  /-- nodes in flight, with how many transactions hold each -/
  pins : Map NodeId ℕ := ∅
  /-- (owner, ptr) -> node -/
  localNodes : Map (ProcId × UInt64) NodeId := ∅
  contextMgr : Option NodeId := none
  nextProc : ℕ := 0
  nextNode : NodeId := 0
  nextHostPtr : UInt64 := 0
  nextHostTid : Tid := 0
  /-- what the host answers in a node's place, by node and code (`Broker::intercept`) -/
  intercepts : List (NodeId × UInt32 × (Bytes → Option Bytes)) := []
  /-- the last window relayout each process sent each session, but for its sequence number -/
  relayouts : Map (ProcId × NodeId) Bytes := ∅
  /-- the host's threads answering calls -/
  jobs : List HostJob := []
  nextSerial : ℕ := 0
  lost : List NodeId := []

end Omnidroid.Binder
