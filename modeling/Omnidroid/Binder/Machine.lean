/-
The driver as a machine: the broker's state, each process's receive area, and each thread's read as far as it has come.

A read (`read`, `read_waiting`, `deliver`) is several steps, between any two of which other threads' steps may come: the
look that takes a work item off its queue, the return written into the reply (`deliver`; a transaction first gets its
buffer), the transaction filled in and recorded (`place`), the copy out to the guest, the read's end. Everything else is
one step. An action that is not possible where it is taken (a command of a thread in its read, a step of a read that has
not come to it) changes nothing.

A process's release may come at any point, also while its own threads are in a command or a read: a descriptor is
dropped by whichever thread closes it last.
-/
import Omnidroid.Lib.Run
import Omnidroid.Binder.Transact

namespace Omnidroid.Binder

open Bytes

/-! ## When another looper is asked for -/

/-- `binder_spawn`, `OMNI_BINDER_MAX_LOOPERS` and `OMNI_BINDER_LOOPERS_KEEP`, and the process's name -/
structure SpawnEnv where
  kernelRule : Bool
  cap : Option ℕ
  keep : List Bytes
  comm : Bytes
deriving DecidableEq, Repr

/-- the most loopers a process may be asked for -/
def SpawnEnv.limit (env : SpawnEnv) (maxThreads : UInt32) : ℕ :=
  let own := min (maxThreads.toNat + 1) (2 ^ 32 - 1)
  match env.cap with
  | some n => if env.comm ∈ env.keep then own else min own n
  | none => own

/-- a looper of the pool -/
def ThreadState.live (t : ThreadState) : Bool := t.looper && !t.exited

/-- whether `tid`, taking its process's work, asks for another looper (`decide`) -/
def SpawnEnv.wanted (env : SpawnEnv) (p : ProcState) (tid : Tid) : Bool :=
  if p.spawnRequested ≠ 0 then false
  else if env.kernelRule && p.threads.entries.any fun e => e.1 ≠ tid && e.2.live && e.2.idle then false
  else (p.threads.entries.countP fun e => e.2.live) % 2 ^ 32 < env.limit p.maxThreads

/-! ## A read -/

/-- what a delivered transaction was, for taking it back; the serial is history -/
structure Handed where
  buf : ℕ
  fds : List ℤ
  reply : Bool
  oneway : Bool
  from_ : Option Thread
  serial : ℕ
deriving DecidableEq, Repr

/-- how far a read has come -/
inductive Phase where
  | looking
  /-- an item is off its queue -/
  | popped (w : Work)
  /-- a transaction has its buffer -/
  | placing (t : Txn) (buf : ℕ)
  /-- an item is in the reply -/
  | written (w : Work) (handed : Option Handed)
  /-- `read_waiting` came back: what it wrote, or its error -/
  | ended (result : Except Errno Bytes)

structure Reading where
  size : ℕ
  /-- nothing was read before in this call -/
  first : Bool
  nonblocking : Bool
  out : Bytes
  /-- this read asked for another looper -/
  asked : Bool := false
  phase : Phase := .looking

def Reading.start (size : ℕ) (first nonblocking : Bool) : Reading :=
  { size := size, first := first, nonblocking := nonblocking, out := if first then le32 brNoop else [] }

/-- whether a thread may take its process's work: a looper with no transaction on its stack -/
def ThreadState.takesProc (t : ThreadState) : Bool := t.looper && t.awaiting = 0 && t.serving = []

/-- one look for work: the item taken, and whether another looper was asked for -/
def ProcState.take (p : ProcState) (env : SpawnEnv) (tid : Tid) : ProcState × Option Work × Bool :=
  let t := p.thread tid
  match t.todo with
  | w :: rest => (p.setThread tid { t with todo := rest, idle := false }, some w, false)
  | [] =>
    if t.takesProc then
      match p.todo with
      | w :: rest =>
        let p := { p with todo := rest }.setThread tid t
        let asks := env.wanted p tid
        let p := p.setThread tid { t with idle := false }
        ({ p with spawnRequested := if asks then p.spawnRequested + 1 else p.spawnRequested }, some w, asks)
      | [] => (p.setThread tid { t with idle := true }, none, false)
    else (p.setThread tid { t with idle := false }, none, false)

/-- what a read that found nothing meets: a descriptor closed meanwhile, a signal, an unwritable reply -/
structure LookEnv where
  spawn : SpawnEnv
  flushed : Bool
  interrupted : Bool
  write : Except Errno Unit

/-- a read that found nothing: over, or back to sleep -/
def Reading.idle (r : Reading) (env : LookEnv) (released : Bool) : Phase :=
  if r.nonblocking || (!r.first && r.out ≠ []) then
    if r.out = [] then .ended (.error .EAGAIN) else .ended (env.write.map fun _ => r.out)
  else if released then .ended (.error .EBADF)
  else if env.flushed then .ended (env.write.map fun _ => r.out)
  else if env.interrupted then .ended (.error .EINTR)
  else .looking

/-- the return an item is read as, but for a transaction's -/
def Work.encode : Work → Bytes
  | .txn _ => []
  | .complete => le32 brTransactionComplete
  | .deadReply _ => le32 brDeadReply
  | .failedReply _ => le32 brFailedReply
  | .returnError cmd => le32 cmd
  | .increfs ptr cookie => le32 brIncrefs ++ le64 ptr ++ le64 cookie
  | .acquire ptr cookie => le32 brAcquire ++ le64 ptr ++ le64 cookie
  | .release ptr cookie => le32 brRelease ++ le64 ptr ++ le64 cookie
  | .decrefs ptr cookie => le32 brDecrefs ++ le64 ptr ++ le64 cookie
  | .deadBinder cookie => le32 brDeadBinder ++ le64 cookie
  | .clearDeathDone cookie => le32 brClearDeathNotificationDone ++ le64 cookie

/-- `awaiting.saturating_sub(1)`: the answer to `serial` was read -/
def State.endWait (s : State) (th : Thread) (serial : ℕ) : State :=
  s.updThread th fun t => { t with awaiting := t.awaiting - 1, waits := t.waits.erase serial }

/-- what an item that is no transaction does as it is read -/
def State.hear (s : State) (th : Thread) : Work → State
  | .deadReply serial | .failedReply serial => s.endWait th serial
  | _ => s

/-- `txn` could not be placed: it fails towards its sender. A reply's failure is this thread's to read -/
def State.failUndelivered (s : State) (th : Thread) (txn : Txn) : State :=
  let s := s.unpin txn.pinned
  if txn.reply then s.endWait th txn.serial
  else (s.doneWith txn.asyncNode th.1).tellSender txn (.failedReply txn.serial)

/-- the record of a delivered transaction that holds something until its buffer is freed -/
def State.recordBuffer (s : State) (th : Thread) (buf : ℕ) (txn : Txn) : State :=
  if txn.asyncNode.isSome || txn.pinned ≠ [] then
    { s with
      lost := s.lost ++ (s.buffers.lookup (th.1, buf)).elim [] (·.pinned)
      buffers := s.buffers.insert (th.1, buf) ⟨txn.asyncNode, txn.pinned, th.2, txn.code⟩ }
  else s

/-- history: a oneway to `node` reached its buffer -/
def State.logDelivered (s : State) (node : Option NodeId) (serial : ℕ) : State :=
  match node with
  | none => s
  | some node =>
    match s.nodes.lookup node with
    | none => s
    | some n =>
      s.setNode node { n with history := { n.history with delivered := n.history.delivered ++ [serial] } }

/-- `txn` is in its buffer: a reply ends this thread's wait, a call is now this thread's to serve -/
def State.placed (s : State) (th : Thread) (buf : ℕ) (txn : Txn) : State :=
  let s := (s.recordBuffer th buf txn).logDelivered txn.asyncNode txn.serial
  if txn.reply then s.endWait th txn.serial
  else if txn.oneway then s
  else s.updThread th fun t => { t with serving := t.serving ++ [⟨txn.from_, txn.serial⟩] }

/-- what the record of a freed buffer held is let go -/
def State.freeRecord (s : State) (id : ProcId) (buf : ℕ) : State :=
  match s.buffers.lookup (id, buf) with
  | none => s
  | some b => (State.doneWith { s with buffers := s.buffers.erase (id, buf) } b.asyncNode id).unpin b.pinned

/-- a thread no longer serves a transaction taken back, if that is its innermost -/
def State.unserve (s : State) (th : Thread) (from_ : Option Thread) : State :=
  if (s.thread th).serving.getLast?.map (·.caller) = some from_ then
    s.updThread th fun t => { t with serving := t.serving.dropLast }
  else s

/-- a delivered transaction whose read could not reach its thread fails towards its sender -/
def State.undeliver (s : State) (th : Thread) (h : Handed) : State :=
  let s := s.freeRecord th.1 h.buf
  if h.reply || h.oneway then s else
  let s := s.unserve th h.from_
  match h.from_ with
  | some (c, t) => s.queue c (some t) (.failedReply h.serial)
  | none => s

/-- the read's end: the thread is no longer idle, and a looper a failed read asked for will not come -/
def ProcState.endRead (p : ProcState) (tid : Tid) (failed : Bool) : ProcState :=
  let p := match p.threads.lookup tid with
    | some t => p.setThread tid { t with idle := false }
    | none => p
  { p with spawnRequested := if failed then p.spawnRequested - 1 else p.spawnRequested }

/-! ## The machine -/

/-- `BINDER_SET_CONTEXT_MGR`: the context manager lives as long as its process -/
def State.setContextMgr (s : State) (id : ProcId) (flags : UInt32) : State :=
  if (s.contextMgr.bind s.nodes.lookup).any (!·.dead) then s else
  let (s, node) := s.localNode id 0 0 flags
  let s := match s.nodes.lookup node with
    | some n => s.setNode node { n with held := true }
    | none => s
  { s with contextMgr := some node }

structure World where
  st : State
  /-- the receive area of each process that opened the driver -/
  areas : Map ProcId Area := ∅
  /-- the reads under way -/
  reads : Map Thread Reading := ∅

def World.init (refcount : Bool) : World := { st := { refcount := refcount } }

inductive Act where
  | openFile
  | setArea (id : ProcId) (base size : ℕ)
  | setMaxThreads (id : ProcId) (n : UInt32)
  | setContextMgr (id : ProcId) (flags : UInt32)
  | readiness (id : ProcId)
  | release (id : ProcId) (order : ReleaseOrder)
  | threadExit (th : Thread)
  /-- the start of a `BINDER_WRITE_READ`; its commands and its read follow -/
  | writeRead (th : Thread) (pid : ℤ)
  | transaction (th : Thread) (env : SendEnv) (tr : Tr)
  | reply (th : Thread) (env : SendEnv) (tr : Tr)
  | freeBuffer (th : Thread) (ptr : UInt64)
  | count (th : Thread) (cmd : RefCmd) (handle : UInt32)
  | acquireDone (th : Thread) (ptr : UInt64) (i : ℕ)
  | looper (th : Thread) (register : Bool)
  | exitLooper (th : Thread)
  | death (th : Thread) (request : Bool) (handle : UInt32) (cookie : UInt64)
  | startRead (th : Thread) (size : ℕ) (first nonblocking : Bool)
  | look (th : Thread) (env : LookEnv)
  | deliver (th : Thread)
  | place (th : Thread) (env : PlaceEnv)
  | copyOut (th : Thread) (write : Except Errno Unit)
  | endRead (th : Thread)
  | createHostService
  | intercept (handle code : UInt32) (f : Bytes → Option Bytes)
  | hostTransact (euid handle code : UInt32) (data : Bytes) (offsets : List UInt64) (serving : Option (ℕ × Tid))
  | hostLook (tid : Tid)
  | hostGiveUp (tid : Tid)
  | hostTransactOneway (handle code : UInt32) (data : Bytes) (offsets : List UInt64)
  | hostReply (i : ℕ) (reply : HostReply)

namespace World

/-- a thread of a process that opened the driver, not in a read: it may give a command -/
def commanding (w : World) (th : Thread) : Bool := (w.areas.lookup th.1).isSome && (w.reads.lookup th).isNone

def onState (w : World) (f : State → State) : World := { w with st := f w.st }

def setReading (w : World) (th : Thread) (r : Reading) : World := { w with reads := w.reads.insert th r }

/-- the broker's `procs` entry of `id` changed -/
def updProc (w : World) (id : ProcId) (f : ProcState → ProcState) : World :=
  w.onState fun s => s.setProc id (f (s.proc id))

/-- the next id is given out; ids count up, so nothing is there yet -/
def openFile (w : World) : World :=
  let id := ProcId.guest (w.st.nextProc + 1)
  if (w.st.procs.lookup id).isSome || (w.areas.lookup id).isSome then w else
  { w with
    st := { w.st with nextProc := w.st.nextProc + 1 }.setProc id {}
    areas := w.areas.insert id {} }

/-- the record of a freed buffer goes before its memory, under the same lock -/
def freeBuffer (w : World) (id : ProcId) (buf : ℕ) : World :=
  { w with st := w.st.freeRecord id buf, areas := w.areas.insert id (((w.areas.lookup id).getD {}).free buf) }

def look (w : World) (th : Thread) (r : Reading) (env : LookEnv) : World :=
  match (w.st.proc th.1).take env.spawn th.2 with
  | (p, some item, asks) =>
    let out := if asks then r.out ++ le32 brSpawnLooper else r.out
    { w with st := w.st.setProc th.1 p }.setReading th
      { r with out := out, asked := r.asked || asks, phase := .popped item }
  | (p, none, _) =>
    { w with st := w.st.setProc th.1 p }.setReading th { r with phase := r.idle env p.dead }

/-- a transaction that could not be placed: a reply's failure is read, else the read goes on -/
def failPlacing (w : World) (th : Thread) (r : Reading) (txn : Txn) : World :=
  (w.onState fun s => s.failUndelivered th txn).setReading th
    (if txn.reply then { r with out := r.out ++ le32 brFailedReply, phase := .written (.txn txn) none }
     else { r with phase := .looking })

def deliver (w : World) (th : Thread) (r : Reading) (item : Work) : World :=
  match item with
  | .txn txn =>
    match ((w.areas.lookup th.1).getD {}).alloc txn.placeLen with
    | none => w.failPlacing th r txn
    | some (buf, area) =>
      { w with areas := w.areas.insert th.1 area }.setReading th { r with phase := .placing txn buf }
  | item =>
    (w.onState fun s => s.hear th item).setReading th
      { r with out := r.out ++ item.encode, phase := .written item none }

def place (w : World) (th : Thread) (r : Reading) (txn : Txn) (buf : ℕ) (env : PlaceEnv) : World :=
  let filled := fill env txn buf
  match filled.result with
  | .error _ =>
    { w with areas := w.areas.insert th.1 (((w.areas.lookup th.1).getD {}).free buf) }.failPlacing th r txn
  | .ok _ =>
    (w.onState fun s => s.placed th buf txn).setReading th
      { r with
        out := r.out ++ le32 txn.cmd ++ txn.trBytes buf
        phase := .written (.txn txn) (some ⟨buf, filled.fds, txn.reply, txn.oneway, txn.from_, txn.serial⟩) }

/-- the reply, cut to the guest's size, is written out; an item that cannot be reached is taken back -/
def copyOut (w : World) (th : Thread) (r : Reading) (handed : Option Handed) (write : Except Errno Unit) : World :=
  match write with
  | .ok () => w.setReading th { r with phase := .ended (.ok (r.out.take r.size)) }
  | .error e =>
    let w := match handed with
      | some h =>
        { w with
          st := w.st.undeliver th h
          areas := w.areas.insert th.1 (((w.areas.lookup th.1).getD {}).free h.buf) }
      | none => w
    w.setReading th { r with phase := .ended (.error e) }

def endRead (w : World) (th : Thread) (r : Reading) (result : Except Errno Bytes) : World :=
  { w.updProc th.1 fun p => p.endRead th.2 (r.asked && !result.isOk) with reads := w.reads.erase th }

def step (w : World) : Act → World
  | .openFile => w.openFile
  | .setArea id base size =>
    match w.areas.lookup id with
    | some a => { w with areas := w.areas.insert id { a with base := base, size := size } }
    | none => w
  | .setMaxThreads id n =>
    if (w.areas.lookup id).isSome then w.updProc id fun p => { p with maxThreads := n } else w
  | .setContextMgr id flags =>
    if (w.areas.lookup id).isSome then w.onState fun s => s.setContextMgr id flags else w
  | .readiness id => if (w.areas.lookup id).isSome then w.updProc id fun p => { p with polled := true } else w
  | .release id order =>
    if (w.areas.lookup id).isSome ∧ !w.st.isDead id ∧ order.Valid w.st id then w.onState fun s => s.release id order
    else w
  | .threadExit th => if w.commanding th then w.onState fun s => s.threadExit th else w
  | .writeRead th pid =>
    if w.commanding th then w.updProc th.1 fun p => { p with pid := pid }.setThread th.2 (p.thread th.2) else w
  | .transaction th env tr => if w.commanding th then w.onState fun s => s.transaction env th tr else w
  | .reply th env tr => if w.commanding th then w.onState fun s => s.reply env th tr else w
  | .freeBuffer th ptr => if w.commanding th then w.freeBuffer th.1 ptr.toNat else w
  | .count th cmd h =>
    if w.commanding th ∧ w.st.refcount then w.onState fun s => s.countHandle th.1 cmd h else w
  | .acquireDone th ptr i => if w.commanding th then w.onState fun s => s.acquireDone th.1 ptr i else w
  | .looper th register =>
    if w.commanding th then
      w.updProc th.1 fun p =>
        { p with spawnRequested := if register then p.spawnRequested - 1 else p.spawnRequested }.setThread th.2
          { p.thread th.2 with looper := true }
    else w
  | .exitLooper th =>
    if w.commanding th then w.updProc th.1 fun p => p.setThread th.2 { p.thread th.2 with exited := true } else w
  | .death th request h cookie =>
    if w.commanding th then w.onState fun s => s.deathNotification th request h cookie else w
  | .startRead th size first nonblocking =>
    if w.commanding th then w.setReading th (.start size first nonblocking) else w
  | .look th env =>
    match w.reads.lookup th with
    | some r =>
      match r.phase with
      | .looking => w.look th r env
      | _ => w
    | none => w
  | .deliver th =>
    match w.reads.lookup th with
    | some r =>
      match r.phase with
      | .popped item => w.deliver th r item
      | _ => w
    | none => w
  | .place th env =>
    match w.reads.lookup th with
    | some r =>
      match r.phase with
      | .placing txn buf => w.place th r txn buf env
      | _ => w
    | none => w
  | .copyOut th write =>
    match w.reads.lookup th with
    | some r =>
      match r.phase with
      | .written _ handed => w.copyOut th r handed write
      | _ => w
    | none => w
  | .endRead th =>
    match w.reads.lookup th with
    | some r =>
      match r.phase with
      | .ended result => w.endRead th r result
      | _ => w
    | none => w
  | .createHostService => w.onState State.createHostService
  | .intercept h code f => w.onState fun s => s.intercept h code f
  | .hostTransact euid h code data offsets serving =>
    w.onState fun s => s.hostTransact euid h code data offsets serving
  | .hostLook tid => w.onState fun s => s.hostLook tid
  | .hostGiveUp tid => w.onState fun s => s.hostGiveUp tid
  | .hostTransactOneway h code data offsets => w.onState fun s => s.hostTransactOneway h code data offsets
  | .hostReply i reply => w.onState fun s => s.hostReply i reply

end World

/-! ## Plain environments, for concrete runs -/

/-- memory reads as zeros, no descriptor is open -/
def SendEnv.zeros : SendEnv :=
  { read := fun _ n => .ok (List.replicate n 0), fd := fun _ => .error .EBADF, pid := 7, euid := 1000, dedupe := true,
    spawned := .ok () }

/-- memory reads as `b` wherever it is read -/
def SendEnv.parcel (b : Bytes) : SendEnv := { SendEnv.zeros with read := fun _ n => .ok (b.take n) }

/-- descriptors count up, memory can be written -/
def PlaceEnv.plain : PlaceEnv := ⟨fun n => .ok n, .ok ()⟩

/-- nothing interrupts a sleep -/
def LookEnv.plain : LookEnv := ⟨⟨true, none, [], []⟩, false, false, .ok ()⟩

end Omnidroid.Binder
