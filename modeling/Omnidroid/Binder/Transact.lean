/-
Transactions and replies from their command to their queue (`transaction`, `command`'s error path), and the host's side:
its services' replies (`reply_from_host`), its own transactions (`host_transact_as`, `host_transact_oneway`) and what it
answers in a node's place (`intercept`).

A command is one step. For a reply the code holds the broker's lock up to three times (the transaction it answers comes
off the thread, the reply is sent, its failure is told); these are taken together.
-/
import Omnidroid.Binder.Parcel

namespace Omnidroid.Binder

open Bytes

/-! ## Sending -/

/-- `binder_transaction_data`, as `BC_TRANSACTION` and `BC_REPLY` carry it -/
structure Tr where
  handle : UInt32
  code : UInt32
  flags : UInt32
  dataSize : ℕ
  offsetsSize : ℕ
  buffer : ℕ
  offsetsPtr : ℕ
deriving DecidableEq, Repr

def Tr.oneway (tr : Tr) : Bool := tr.flags &&& tfOneWay != 0

/-- the sender's buffer and the offsets of its objects (`chunks_exact(8)`) -/
def Tr.parcel (tr : Tr) (env : SendEnv) : Except Errno (Bytes × List UInt64) := do
  if tr.dataSize > 2 ^ 20 ∨ tr.offsetsSize > 2 ^ 18 then throw .EINVAL
  let data ← env.read tr.buffer tr.dataSize
  let raw ← env.read tr.offsetsPtr tr.offsetsSize
  return (data, (List.range (raw.length / 8)).map fun i => u64At raw (i * 8))

/-- the objects translated and their nodes held, the target's too; what goes to the host holds none -/
def State.carry (s : State) (env : SendEnv) (th : Thread) (target : ProcId) (node : Option NodeId) (data : Bytes)
    (offsets : List UInt64) : State × Except Errno (Bytes × Objects × List NodeId) :=
  match translateObjects env th target 0 offsets { st := s, data := data } with
  | (x, .error e) => (x.st.unpin x.pins, .error e)
  | (x, .ok ()) =>
    let (s, pins) := match node with
      | some n => (x.st.pin n, x.pins ++ [n])
      | none => (x.st, x.pins)
    if target = .host then (s.unpin pins, .ok (x.data, x.objs, [])) else (s, .ok (x.data, x.objs, pins))

/-- history: the next serial is taken -/
def State.bump (s : State) : State := { s with nextSerial := s.nextSerial + 1 }

/-- `th` waits for the reply to one more sync transaction -/
def State.await (s : State) (th : Thread) (serial : ℕ) : State :=
  s.updThread th fun t => { t with awaiting := t.awaiting + 1, waits := t.waits ++ [serial] }

def State.complete (s : State) (th : Thread) : State := s.queue th.1 (some th.2) .complete

def State.returnError (s : State) (th : Thread) (cmd : UInt32) : State := s.queue th.1 (some th.2) (.returnError cmd)

/-- a reply to the transaction `sv`: nothing to answer when no one asked, or the one who asked is gone -/
def State.sendReply (s : State) (env : SendEnv) (th : Thread) (tr : Tr) (data : Bytes) (offsets : List UInt64)
    (sv : Option Served) : State × Except Errno Unit :=
  match sv with
  | some ⟨some (c, t), serial⟩ =>
    if c ≠ .host ∧ s.isDead c then (s.complete th, .ok ()) else
    match s.carry env th c none data offsets with
    | (s, .error e) => (s, .error e)
    | (s, .ok (data, objs, pins)) =>
      let txn : Txn :=
        { reply := true, oneway := false, from_ := none, targetPtr := 0, targetCookie := 0, secctx := false,
          code := tr.code, flags := tr.flags, senderPid := env.pid, senderEuid := env.euid, data := data,
          offsets := offsets, fds := objs.fds, sg := objs.sg, fda := objs.fda, asyncNode := none, pinned := pins,
          serial := serial }
      ((s.queue c (some t) (.txn txn)).complete th, .ok ())
  | _ => (s.complete th, .ok ())

/-- the thread of `owner` that waits for what `th` is serving: a nested call goes to it -/
def State.nested (s : State) (th : Thread) (owner : ProcId) : Option Tid :=
  (((s.thread th).serving.reverse.filterMap (·.caller)).find? (·.1 = owner)).map (·.2)

/-! ## The host's replies -/

/-- a host service's reply: bytes, the files of its `TYPE_FD` objects, the offsets of its binders -/
structure HostReply where
  data : Bytes := []
  fds : List (ℕ × FileId) := []
  binders : List ℕ := []
deriving DecidableEq, Repr

/-- a host service's reply as `caller` receives it -/
def State.replyFromHost (s : State) (caller : ProcId) (reply : HostReply) (serial : ℕ) : State × Except Errno Txn :=
  if reply.fds.any fun f => (get? reply.data f.1 24).map (u32At · 0) ≠ some typeFd then (s, .error .EINVAL) else
  match s.translateRefs (.host, 0) caller reply.data reply.binders [] with
  | (s, .error e) => (s, .error e)
  | (s, .ok (data, pins)) =>
    (s, .ok
      { reply := true, oneway := false, from_ := none, targetPtr := 0, targetCookie := 0, secctx := false, code := 0,
        flags := 0, senderPid := 0, senderEuid := hostEuid, data := data,
        offsets := ((reply.binders ++ reply.fds.map (·.1)).map UInt64.ofNat).insertionSort (· ≤ ·),
        fds := reply.fds, sg := [], fda := [], asyncNode := none, pinned := pins, serial := serial })

/-- what the host answers itself to `code` on `node` -/
def State.interceptOf (s : State) (node : NodeId) (code : UInt32) (data : Bytes) : Option Bytes :=
  (s.intercepts.filter fun i => i.1 = node ∧ i.2.1 = code).findSome? fun i => i.2.2 data

/-! ## A guest's call -/

/-- a guest's call to `n`, its objects translated -/
def guestTxn (env : SendEnv) (th : Thread) (tr : Tr) (n : Node) (data : Bytes) (offsets : List UInt64) (objs : Objects)
    (pins : List NodeId) (serial : ℕ) : Txn :=
  { reply := false, oneway := tr.oneway, from_ := if tr.oneway then none else some th, targetPtr := n.ptr,
    targetCookie := n.cookie, secctx := n.txnSecurityCtx, code := tr.code, flags := tr.flags, senderPid := env.pid,
    senderEuid := env.euid, data := data, offsets := offsets, fds := objs.fds, sg := objs.sg, fda := objs.fda,
    asyncNode := none, pinned := pins, serial := serial }

/-- a host service's call goes to a host thread -/
def State.handOff (s : State) (th : Thread) (oneway : Bool) (serial : ℕ) : State :=
  { s with jobs := s.jobs ++ [⟨th, oneway, serial⟩] }

/-- `txn` goes where it is served; its sender hears it went, and waits if it is a call -/
def State.dispatch (s : State) (th : Thread) (node : NodeId) (owner : ProcId) (nested : Option Tid) (txn : Txn)
    (spawned : Except Errno Unit) : State × Except Errno Unit :=
  if owner = .host then
    match spawned with
    | .error e => (s, .error e)
    | .ok () =>
      if txn.oneway then ((s.handOff th true txn.serial).complete th, .ok ())
      else (((s.handOff th false txn.serial).await th txn.serial).complete th, .ok ())
  else if txn.oneway then ((s.queueOneway owner node txn).complete th, .ok ())
  else (((s.await th txn.serial).queue owner nested (.txn txn)).complete th, .ok ())

/-- a call past its route's checks: translated, and on its way -/
def State.send (s : State) (env : SendEnv) (th : Thread) (tr : Tr) (data : Bytes) (offsets : List UInt64)
    (node : NodeId) (n : Node) (nested : Option Tid) (serial : ℕ) : State × Except Errno Unit :=
  match s.carry env th n.owner (some node) data offsets with
  | (s, .error e) => (s, .error e)
  | (s, .ok (data, objs, pins)) =>
    s.dispatch th node n.owner nested (guestTxn env th tr n data offsets objs pins serial) env.spawned

/-- a call: no context manager and a dead node are `BR_DEAD_REPLY`, a handle the process does not have
`BR_FAILED_REPLY`. A node that is not there is a panic in the code; `EINVAL` stands for it, and no run meets it -/
def State.sendCall (s : State) (env : SendEnv) (th : Thread) (tr : Tr) (data : Bytes) (offsets : List UInt64)
    (serial : ℕ) : State × Except Errno Unit :=
  match s.nodeForHandle th.1 tr.handle with
  | none => (s.returnError th (if tr.handle = 0 then brDeadReply else brFailedReply), .ok ())
  | some node =>
    match s.nodes.lookup node with
    | none => (s, .error .EINVAL)
    | some n =>
      if n.dead then (s.returnError th brDeadReply, .ok ())
      else if n.owner ≠ .host ∧ s.isDead n.owner then (s.returnError th brDeadReply, .ok ())
      else
        let nested := if tr.oneway then none else s.nested th n.owner
        match if tr.oneway then none else s.interceptOf node tr.code data with
        | some answer =>
          match s.replyFromHost th.1 { data := answer } serial with
          | (s, .error e) => (s, .error e)
          | (s, .ok r) => (((s.await th serial).complete th).queue th.1 (some th.2) (.txn r), .ok ())
        | none =>
          if tr.oneway then
            match s.repeatedRelayout th.1 node tr.code data (hasFds data offsets) env.dedupe with
            | (s, true) => (s.complete th, .ok ())
            | (s, false) => s.send env th tr data offsets node n nested serial
          else s.send env th tr data offsets node n nested serial

/-- `BC_TRANSACTION`: one that could not be made is the thread's `BR_FAILED_REPLY` to read -/
def State.transaction (s : State) (env : SendEnv) (th : Thread) (tr : Tr) : State :=
  match tr.parcel env with
  | .error _ => s.bump.returnError th brFailedReply
  | .ok (data, offsets) =>
    match s.bump.sendCall env th tr data offsets s.nextSerial with
    | (s, .error _) => s.returnError th brFailedReply
    | (s, .ok ()) => s

/-- a reply that could not be made: the replier completes, the one waiting for it hears `BR_FAILED_REPLY` -/
def State.failReply (s : State) (th : Thread) (sv : Option Served) : State :=
  match sv with
  | some ⟨some (c, t), serial⟩ => (s.complete th).queue c (some t) (.failedReply serial)
  | _ => s.complete th

/-- `BC_REPLY`: the transaction it answers comes off the thread, whatever becomes of the reply -/
def State.reply (s : State) (env : SendEnv) (th : Thread) (tr : Tr) : State :=
  let sv := (s.thread th).serving.getLast?
  let s := s.updThread th fun t => { t with serving := t.serving.dropLast }
  match tr.parcel env with
  | .error _ => s.failReply th sv
  | .ok (data, offsets) =>
    match s.sendReply env th tr data offsets sv with
    | (s, .error _) => s.failReply th sv
    | (s, .ok ()) => s

/-! ## The host -/

/-- `procs.entry(HOST).or_default()` -/
def State.touch (s : State) (id : ProcId) : State := s.setProc id (s.proc id)

/-- `create_host_service`: a node of the host's, held from the start -/
def State.createHostService (s : State) : State :=
  let ptr := s.nextHostPtr + 1
  let (s, node) := { s.touch .host with nextHostPtr := ptr }.localNode .host ptr ptr 0
  match s.nodes.lookup node with
  | none => s
  | some n => s.setNode node { n with held := true }

def State.intercept (s : State) (handle code : UInt32) (f : Bytes → Option Bytes) : State :=
  match s.nodeForHandle .host handle with
  | none => s
  | some node =>
    { s with intercepts := s.intercepts.filter (fun i => ¬ (i.1 = node ∧ i.2.1 = code)) ++ [(node, code, f)] }

/-- the host's parcel to a node that can be reached: its target, what it became and the nodes it holds -/
def State.hostCarry (s : State) (th : Thread) (handle : UInt32) (data : Bytes) (offsets : List UInt64) :
    State × Option (NodeId × Node × Bytes × List NodeId) :=
  match s.nodeForHandle .host handle with
  | none => (s, none)
  | some node =>
    match s.nodes.lookup node with
    | none => (s, none)
    | some n =>
      if n.dead || s.isDead n.owner then (s, none) else
      match s.translateRefs th n.owner data (offsets.map (·.toNat)) [] with
      | (s, .error _) => (s, none)
      | (s, .ok (data, pins)) => (s.pin node, some (node, n, data, pins ++ [node]))

def hostTxn (n : Node) (from_ : Option Thread) (oneway : Bool) (code euid : UInt32) (data : Bytes)
    (offsets : List UInt64) (pins : List NodeId) (serial : ℕ) : Txn :=
  { reply := false, oneway := oneway, from_ := from_, targetPtr := n.ptr, targetCookie := n.cookie,
    secctx := n.txnSecurityCtx, code := code, flags := if oneway then tfOneWay else 0, senderPid := 0,
    senderEuid := euid, data := data, offsets := offsets, fds := [], sg := [], fda := [], asyncNode := none,
    pinned := pins, serial := serial }

/-- `host_transact_as`, until it waits; `serving` is the guest thread a host service's handler runs for -/
def State.hostTransact (s : State) (euid handle code : UInt32) (data : Bytes) (offsets : List UInt64)
    (serving : Option (ℕ × Tid)) : State :=
  let tid := s.nextHostTid + 1
  match { s.bump.touch .host with nextHostTid := tid }.hostCarry (.host, tid) handle data offsets with
  | (s', none) => s'
  | (s', some (_, n, data, pins)) =>
    s'.queue n.owner ((serving.filter fun t => .guest t.1 = n.owner).map (·.2))
      (.txn (hostTxn n (some (.host, tid)) false code euid data offsets pins s.nextSerial))

/-- a reply or a failure: what a host thread waits for -/
def Work.endsHostWait : Work → Bool
  | .txn t => t.reply
  | .deadReply _ | .failedReply _ | .returnError _ => true
  | _ => false

/-- `host_transact_as`, one look at its thread's queue: what does not end the wait is passed over -/
def State.hostLook (s : State) (tid : Tid) : State :=
  match (s.thread (.host, tid)).todo with
  | [] => s
  | w :: rest =>
    if w.endsHostWait then s.setProc .host { s.proc .host with threads := (s.proc .host).threads.erase tid }
    else s.updThread (.host, tid) fun t => { t with todo := rest }

/-- `host_transact_as`, out of time -/
def State.hostGiveUp (s : State) (tid : Tid) : State :=
  s.setProc .host { s.proc .host with threads := (s.proc .host).threads.erase tid }

def State.hostTransactOneway (s : State) (handle code : UInt32) (data : Bytes) (offsets : List UInt64) : State :=
  match (s.bump.touch .host).hostCarry (.host, 0) handle data offsets with
  | (s', none) => s'
  | (s', some (node, n, data, pins)) =>
    s'.queueOneway n.owner node (hostTxn n none true code hostEuid data offsets pins s.nextSerial)

/-- a host thread is done with a call: a reply the host built wrong fails it -/
def State.hostAnswer (s : State) (job : HostJob) (reply : HostReply) : State :=
  if job.oneway || s.isDead job.caller.1 then s else
  match s.replyFromHost job.caller.1 reply job.serial with
  | (s, .error _) => s.queue job.caller.1 (some job.caller.2) (.failedReply job.serial)
  | (s, .ok r) => s.queue job.caller.1 (some job.caller.2) (.txn r)

/-- the `i`-th call the host is answering is answered -/
def State.hostReply (s : State) (i : ℕ) (reply : HostReply) : State :=
  match s.jobs[i]? with
  | none => s
  | some job => { s with jobs := s.jobs.eraseIdx i }.hostAnswer job reply

end Omnidroid.Binder
