/-
Window relayouts that are not delivered (`RELAYOUT_DEDUPE`, `repeated_relayout` of `omni-linux/src/binder.rs`): a oneway
`relayoutAsync` the same as the last one its process sent that session is completed and dropped.
- `World.step_relayouts`: but for a transaction, no step remembers one.
- `Relayout`: a relayout past its route's checks; what `BC_TRANSACTION` does with it (`transaction_eq`,
  `transaction_queued`).
- `Watched`: the machine beside the last relayout each process had queued to each session.
- `relayout_dropped`: what is dropped is what was queued last, as long as the runs are `orderly`. The code does not see
  to that: a relayout is remembered before it is known to go (`relayout_refused_then_dropped`), and one with
  descriptors, or sent while the lever is off, is not remembered where it should take the last one's place.
-/
import Omnidroid.Binder.Machine

namespace Omnidroid.Binder

open Bytes

/-! ## What leaves the memory of relayouts alone -/

section Frame

variable (s : State)

@[simp] theorem queue_relayouts (id : ProcId) (tid : Option Tid) (work : Work) :
    (s.queue id tid work).relayouts = s.relayouts := by
  cases tid <;> rfl

@[simp] theorem asyncDone_relayouts (node : NodeId) (owner : ProcId) :
    (s.asyncDone node owner).relayouts = s.relayouts := by
  unfold State.asyncDone
  repeat' split
  all_goals rfl

@[simp] theorem queueOneway_relayouts (target : ProcId) (node : NodeId) (txn : Txn) :
    (s.queueOneway target node txn).relayouts = s.relayouts := by
  unfold State.queueOneway
  dsimp only
  repeat' split
  all_goals rfl

@[simp] theorem hold_relayouts (node : NodeId) (n : Node) (sender : Option Thread) :
    (s.hold node n sender).relayouts = s.relayouts := by
  unfold State.hold
  simp only [queue_relayouts]
  rfl

@[simp] theorem handleFor_relayouts (id : ProcId) (node : NodeId) (sender : Option Thread) :
    (s.handleFor id node sender).1.relayouts = s.relayouts := by
  unfold State.handleFor
  dsimp only
  repeat' split
  all_goals first | rfl | exact hold_relayouts _ _ _ _

@[simp] theorem localNode_relayouts (owner : ProcId) (ptr cookie : UInt64) (flags : UInt32) :
    (s.localNode owner ptr cookie flags).1.relayouts = s.relayouts := by
  unfold State.localNode
  split <;> rfl

@[simp] theorem letGo_relayouts (node : NodeId) (n : Node) : (s.letGo node n).relayouts = s.relayouts := by
  have h : (s.unlist node n).relayouts = s.relayouts := by unfold State.unlist; split <;> rfl
  unfold State.letGo
  dsimp only
  split
  · exact h
  · rw [queue_relayouts, queue_relayouts]
    exact h

@[simp] theorem releaseIfUnreferenced_relayouts (node : NodeId) :
    (s.releaseIfUnreferenced node).relayouts = s.relayouts := by
  unfold State.releaseIfUnreferenced
  repeat' split
  all_goals first | rfl | exact letGo_relayouts _ _ _

@[simp] theorem logDeath_relayouts (node : NodeId) (es : List DeathEvent) :
    (s.logDeath node es).relayouts = s.relayouts := by
  unfold State.logDeath
  split <;> rfl

@[simp] theorem dropHandleIfUnheld_relayouts (id : ProcId) (h : UInt32) :
    (s.dropHandleIfUnheld id h).relayouts = s.relayouts := by
  unfold State.dropHandleIfUnheld
  repeat' split
  all_goals first | rfl | simp only [releaseIfUnreferenced_relayouts, logDeath_relayouts]; rfl

theorem foldl_relayouts {α : Type} {f : State → α → State} (hf : ∀ s a, (f s a).relayouts = s.relayouts) (l : List α) :
    (l.foldl f s).relayouts = s.relayouts := by
  induction l generalizing s with
  | nil => rfl
  | cons a l ih => rw [List.foldl_cons, ih, hf]

@[simp] theorem unpinOne_relayouts (node : NodeId) : (s.unpinOne node).relayouts = s.relayouts := by
  have hd : ∀ s : State, (s.dropUnheldHandles node).relayouts = s.relayouts := fun s =>
    foldl_relayouts s (fun s (e : ProcId × UInt32) => dropHandleIfUnheld_relayouts s e.1 e.2) _
  unfold State.unpinOne State.unpinned
  repeat' split
  all_goals first | rfl | simp only [releaseIfUnreferenced_relayouts, hd]

@[simp] theorem unpin_relayouts (nodes : List NodeId) : (s.unpin nodes).relayouts = s.relayouts :=
  foldl_relayouts s unpinOne_relayouts nodes

@[simp] theorem doneWith_relayouts (node : Option NodeId) (owner : ProcId) :
    (s.doneWith node owner).relayouts = s.relayouts := by
  cases node with
  | none => rfl
  | some n => exact asyncDone_relayouts s n owner

@[simp] theorem tellSender_relayouts (txn : Txn) (answer : Work) :
    (s.tellSender txn answer).relayouts = s.relayouts := by
  unfold State.tellSender
  repeat' split
  all_goals rfl

@[simp] theorem dropWork_relayouts (receiver : ProcId) (work : Work) :
    (State.dropWork receiver s work).relayouts = s.relayouts := by
  cases work with
  | txn txn => simp only [State.dropWork, unpin_relayouts, doneWith_relayouts, tellSender_relayouts]
  | _ => rfl

@[simp] theorem countHandle_relayouts (id : ProcId) (cmd : RefCmd) (h : UInt32) :
    (s.countHandle id cmd h).relayouts = s.relayouts := by
  unfold State.countHandle
  dsimp only
  repeat' split
  all_goals first | rfl | exact dropHandleIfUnheld_relayouts _ _ _

@[simp] theorem acquireDone_relayouts (owner : ProcId) (ptr : UInt64) (i : ℕ) :
    (s.acquireDone owner ptr i).relayouts = s.relayouts := by
  unfold State.acquireDone
  dsimp only
  repeat' split
  all_goals rfl

@[simp] theorem deathNotification_relayouts (th : Thread) (request : Bool) (handle : UInt32) (cookie : UInt64) :
    (s.deathNotification th request handle cookie).relayouts = s.relayouts := by
  unfold State.deathNotification
  dsimp only
  repeat' split
  all_goals rfl

@[simp] theorem threadExit_relayouts (th : Thread) : (s.threadExit th).relayouts = s.relayouts := by
  unfold State.threadExit
  dsimp only
  split
  · rfl
  · split
    · rfl
    · rw [foldl_relayouts _ (fun s a => dropWork_relayouts s th.1 a)]
      split
      · exact queue_relayouts _ _ _ _
      · rfl

@[simp] theorem setContextMgr_relayouts (id : ProcId) (flags : UInt32) :
    (s.setContextMgr id flags).relayouts = s.relayouts := by
  unfold State.setContextMgr
  split
  · rfl
  · refine Eq.trans ?_ (localNode_relayouts s id 0 0 flags)
    dsimp only
    split <;> rfl

/-! ### A parcel's objects -/

theorem exportLocal_relayouts (sender : Thread) (target : ProcId) (kind flags : UInt32) (ptr cookie : UInt64)
    (pins : List NodeId) :
    (s.exportLocal sender target kind flags ptr cookie pins).1.relayouts = s.relayouts := by
  have h := localNode_relayouts s sender.1 ptr cookie flags
  unfold State.exportLocal
  dsimp only
  split
  · exact h
  · exact (handleFor_relayouts _ _ _ _).trans h

theorem forwardHandle_relayouts (sender : Thread) (target : ProcId) (kind handle : UInt32) (pins : List NodeId) :
    (s.forwardHandle sender target kind handle pins).1.relayouts = s.relayouts := by
  unfold State.forwardHandle
  dsimp only
  repeat' split
  all_goals first | rfl | exact handleFor_relayouts _ _ _ _

theorem translateRef_relayouts (sender : Thread) (target : ProcId) (obj : Bytes) (pins : List NodeId) :
    (s.translateRef sender target obj pins).1.relayouts = s.relayouts := by
  unfold State.translateRef
  dsimp only
  split_ifs
  · exact exportLocal_relayouts _ _ _ _ _ _ _ _
  · exact forwardHandle_relayouts _ _ _ _ _ _
  · rfl

theorem translateRefs_relayouts (sender : Thread) (target : ProcId) (data : Bytes) (offs : List ℕ)
    (pins : List NodeId) : (s.translateRefs sender target data offs pins).1.relayouts = s.relayouts := by
  induction offs generalizing s data pins with
  | nil => rfl
  | cons off offs ih =>
    rw [State.translateRefs]
    split
    · exact unpin_relayouts s pins
    · rename_i obj _
      have hr := translateRef_relayouts s sender target obj pins
      split
      · rename_i h
        rw [h] at hr
        exact (unpin_relayouts _ _).trans hr
      · rename_i h
        rw [h] at hr
        exact (ih _ _ _).trans hr
      · rename_i h
        rw [h] at hr
        exact (ih _ _ _).trans hr

theorem translateFlat_relayouts (sender : Thread) (target : ProcId) (off : ℕ) (obj : Bytes) (x : Translation) :
    (translateFlat sender target off obj x).1.st.relayouts = x.st.relayouts := by
  have hr := translateRef_relayouts x.st sender target obj x.pins
  unfold translateFlat
  split
  all_goals
    rename_i h
    rw [h] at hr
    exact hr

theorem translateObject_relayouts (env : SendEnv) (sender : Thread) (target : ProcId) (index off : ℕ)
    (x : Translation) : (translateObject env sender target index off x).1.st.relayouts = x.st.relayouts := by
  unfold translateObject
  repeat' split
  all_goals first | rfl | exact translateFlat_relayouts _ _ _ _ _

theorem translateObjects_relayouts (env : SendEnv) (sender : Thread) (target : ProcId) (index : ℕ) (offs : List UInt64)
    (x : Translation) : (translateObjects env sender target index offs x).1.st.relayouts = x.st.relayouts := by
  induction offs generalizing index x with
  | nil => rfl
  | cons off offs ih =>
    have hr := translateObject_relayouts env sender target index off.toNat x
    rw [translateObjects]
    split
    · rename_i h
      rw [h] at hr
      exact hr
    · rename_i h
      rw [h] at hr
      exact (ih _ _).trans hr

theorem carry_relayouts (env : SendEnv) (th : Thread) (target : ProcId) (node : Option NodeId) (data : Bytes)
    (offsets : List UInt64) : (s.carry env th target node data offsets).1.relayouts = s.relayouts := by
  have hr := translateObjects_relayouts env th target 0 offsets { st := s, data := data }
  unfold State.carry
  split
  · rename_i h
    rw [h] at hr
    exact (unpin_relayouts _ _).trans hr
  · rename_i x h
    rw [h] at hr
    cases node with
    | none =>
      dsimp only
      split_ifs
      · exact (unpin_relayouts _ _).trans hr
      · exact hr
    | some n =>
      dsimp only
      split_ifs
      · exact (unpin_relayouts _ _).trans hr
      · exact hr

/-! ### Calls, replies and the host -/

@[simp] theorem complete_relayouts (th : Thread) : (s.complete th).relayouts = s.relayouts := queue_relayouts _ _ _ _

@[simp] theorem returnError_relayouts (th : Thread) (cmd : UInt32) :
    (s.returnError th cmd).relayouts = s.relayouts :=
  queue_relayouts _ _ _ _

theorem dispatch_relayouts (th : Thread) (node : NodeId) (owner : ProcId) (nested : Option Tid) (txn : Txn)
    (spawned : Except Errno Unit) : (s.dispatch th node owner nested txn spawned).1.relayouts = s.relayouts := by
  unfold State.dispatch
  repeat' split
  · rfl
  · exact complete_relayouts _ _
  · exact complete_relayouts _ _
  · exact (complete_relayouts _ _).trans (queueOneway_relayouts _ _ _ _)
  · exact (complete_relayouts _ _).trans (queue_relayouts _ _ _ _)

theorem send_relayouts (env : SendEnv) (th : Thread) (tr : Tr) (data : Bytes) (offsets : List UInt64) (node : NodeId)
    (n : Node) (nested : Option Tid) (serial : ℕ) :
    (s.send env th tr data offsets node n nested serial).1.relayouts = s.relayouts := by
  have hc := carry_relayouts s env th n.owner (some node) data offsets
  unfold State.send
  split
  · rename_i h
    rw [h] at hc
    exact hc
  · rename_i h
    rw [h] at hc
    exact (dispatch_relayouts _ _ _ _ _ _ _).trans hc

theorem replyFromHost_relayouts (caller : ProcId) (reply : HostReply) (serial : ℕ) :
    (s.replyFromHost caller reply serial).1.relayouts = s.relayouts := by
  have hr := translateRefs_relayouts s (.host, 0) caller reply.data reply.binders []
  unfold State.replyFromHost
  split_ifs
  · rfl
  · split
    · rename_i h
      rw [h] at hr
      exact hr
    · rename_i h
      rw [h] at hr
      exact hr

theorem failReply_relayouts (th : Thread) (sv : Option Served) : (s.failReply th sv).relayouts = s.relayouts := by
  unfold State.failReply
  split
  · exact (queue_relayouts _ _ _ _).trans (complete_relayouts s th)
  · exact complete_relayouts s th

theorem sendReply_relayouts (env : SendEnv) (th : Thread) (tr : Tr) (data : Bytes) (offsets : List UInt64)
    (sv : Option Served) : (s.sendReply env th tr data offsets sv).1.relayouts = s.relayouts := by
  unfold State.sendReply
  split
  · rename_i c t serial
    have hc := carry_relayouts s env th c none data offsets
    split_ifs
    · exact complete_relayouts s th
    · split
      · rename_i h
        rw [h] at hc
        exact hc
      · rename_i h
        rw [h] at hc
        exact ((complete_relayouts _ _).trans (queue_relayouts _ _ _ _)).trans hc
  · exact complete_relayouts s th

theorem reply_relayouts (env : SendEnv) (th : Thread) (tr : Tr) : (s.reply env th tr).relayouts = s.relayouts := by
  unfold State.reply
  dsimp only
  split
  · exact failReply_relayouts _ _ _
  · rename_i data offsets _
    have hr := sendReply_relayouts (s.updThread th fun t => { t with serving := t.serving.dropLast }) env th tr data
      offsets (s.thread th).serving.getLast?
    split
    · rename_i h
      rw [h] at hr
      exact (failReply_relayouts _ _ _).trans hr
    · rename_i h
      rw [h] at hr
      exact hr

theorem createHostService_relayouts : s.createHostService.relayouts = s.relayouts := by
  have h := localNode_relayouts { s.touch .host with nextHostPtr := s.nextHostPtr + 1 } .host (s.nextHostPtr + 1)
    (s.nextHostPtr + 1) 0
  unfold State.createHostService
  dsimp only
  split
  · exact h
  · exact h

theorem intercept_relayouts (handle code : UInt32) (f : Bytes → Option Bytes) :
    (s.intercept handle code f).relayouts = s.relayouts := by
  unfold State.intercept
  split <;> rfl

theorem hostCarry_relayouts (th : Thread) (handle : UInt32) (data : Bytes) (offsets : List UInt64) :
    (s.hostCarry th handle data offsets).1.relayouts = s.relayouts := by
  unfold State.hostCarry
  split
  · rfl
  · split
    · rfl
    · rename_i n _
      split_ifs
      · rfl
      · have hr := translateRefs_relayouts s th n.owner data (offsets.map (·.toNat)) []
        split
        · rename_i h
          rw [h] at hr
          exact hr
        · rename_i h
          rw [h] at hr
          exact hr

theorem hostTransact_relayouts (euid handle code : UInt32) (data : Bytes) (offsets : List UInt64)
    (serving : Option (ℕ × Tid)) : (s.hostTransact euid handle code data offsets serving).relayouts = s.relayouts := by
  have hc := hostCarry_relayouts { s.bump.touch .host with nextHostTid := s.nextHostTid + 1 }
    (.host, s.nextHostTid + 1) handle data offsets
  unfold State.hostTransact
  dsimp only
  split
  · rename_i h
    rw [h] at hc
    exact hc
  · rename_i h
    rw [h] at hc
    exact (queue_relayouts _ _ _ _).trans hc

theorem hostTransactOneway_relayouts (handle code : UInt32) (data : Bytes) (offsets : List UInt64) :
    (s.hostTransactOneway handle code data offsets).relayouts = s.relayouts := by
  have hc := hostCarry_relayouts (s.bump.touch .host) (.host, 0) handle data offsets
  unfold State.hostTransactOneway
  split
  · rename_i h
    rw [h] at hc
    exact hc
  · rename_i h
    rw [h] at hc
    exact (queueOneway_relayouts _ _ _ _).trans hc

theorem hostReply_relayouts (i : ℕ) (reply : HostReply) : (s.hostReply i reply).relayouts = s.relayouts := by
  unfold State.hostReply State.hostAnswer
  split
  · rfl
  · rename_i job _
    have hr := replyFromHost_relayouts { s with jobs := s.jobs.eraseIdx i } job.caller.1 reply job.serial
    split_ifs
    · rfl
    · split
      · rename_i h
        rw [h] at hr
        exact (queue_relayouts _ _ _ _).trans hr
      · rename_i h
        rw [h] at hr
        exact (queue_relayouts _ _ _ _).trans hr

/-! ### Reads -/

theorem failUndelivered_relayouts (th : Thread) (txn : Txn) : (s.failUndelivered th txn).relayouts = s.relayouts := by
  unfold State.failUndelivered
  dsimp only
  split
  · exact unpin_relayouts _ _
  · rw [tellSender_relayouts, doneWith_relayouts, unpin_relayouts]

theorem placed_relayouts (th : Thread) (buf : ℕ) (txn : Txn) : (s.placed th buf txn).relayouts = s.relayouts := by
  have hb : (s.recordBuffer th buf txn).relayouts = s.relayouts := by
    unfold State.recordBuffer
    split <;> rfl
  have hl : ∀ s : State, (s.logDelivered txn.asyncNode txn.serial).relayouts = s.relayouts := fun s => by
    unfold State.logDelivered
    repeat' split
    all_goals rfl
  unfold State.placed
  dsimp only
  repeat' split
  all_goals exact (hl _).trans hb

theorem freeRecord_relayouts (id : ProcId) (buf : ℕ) : (s.freeRecord id buf).relayouts = s.relayouts := by
  unfold State.freeRecord
  split
  · rfl
  · rw [unpin_relayouts, doneWith_relayouts]

theorem undeliver_relayouts (th : Thread) (h : Handed) : (s.undeliver th h).relayouts = s.relayouts := by
  have hu : ∀ s : State, (s.unserve th h.from_).relayouts = s.relayouts := fun s => by
    unfold State.unserve
    split <;> rfl
  rw [← freeRecord_relayouts s th.1 h.buf]
  unfold State.undeliver
  dsimp only
  split
  · rfl
  · split
    · rw [queue_relayouts, hu]
    · rw [hu]

/-! ### A release only forgets -/

theorem killNode_relayouts (node : NodeId) : (s.killNode node).1.relayouts = s.relayouts := by
  unfold State.killNode
  split
  · rfl
  · have h : ∀ s : State, (s.dropContextMgr node).relayouts = s.relayouts := fun s => by
      unfold State.dropContextMgr
      split <;> rfl
    rw [h, State.tellWatchers,
      foldl_relayouts _ fun s (w : ProcId × UInt64) => queue_relayouts s w.1 none (.deadBinder w.2)]
    rfl

theorem killNodes_relayouts (l : List NodeId) : (s.killNodes l).1.relayouts = s.relayouts := by
  induction l generalizing s with
  | nil => rfl
  | cons n l ih => exact (ih _).trans (killNode_relayouts s n)

theorem forgetRelayouts_lookup (id : ProcId) {k : ProcId × NodeId} {b : Bytes}
    (h : (s.forgetRelayouts id).relayouts.lookup k = some b) : s.relayouts.lookup k = some b := by
  unfold State.forgetRelayouts at h
  dsimp only at h
  generalize s.relayouts.keys = keys at h
  generalize s.relayouts = m at h ⊢
  induction keys generalizing m with
  | nil => exact h
  | cons k' keys ih =>
    have h' := ih _ h
    beta_reduce at h'
    split_ifs at h' with hk
    · rw [Map.lookup_erase_eq] at h'
      split_ifs at h' with he
      exact h'
    · exact h'

theorem release_relayouts (id : ProcId) (o : ReleaseOrder) {k : ProcId × NodeId} {b : Bytes}
    (h : (s.release id o).relayouts.lookup k = some b) : s.relayouts.lookup k = some b := by
  have hb : ∀ s a, (State.dropBuffer id s a).relayouts = s.relayouts := fun s a => by
    unfold State.dropBuffer
    split
    · rfl
    · exact unpin_relayouts _ _
  have hs : ∀ s sv, (State.failServed s sv).relayouts = s.relayouts := fun s sv => by
    unfold State.failServed
    split
    · exact queue_relayouts _ _ _ _
    · rfl
  have hr : (s.release id o).relayouts = ((s.killNodes o.nodes).1.forgetRelayouts id).relayouts := by
    unfold State.release State.settle
    dsimp only
    rw [foldl_relayouts _ releaseIfUnreferenced_relayouts, foldl_relayouts _ hb,
      foldl_relayouts _ fun s a => dropWork_relayouts s id a, foldl_relayouts _ hs]
    rfl
  rw [hr] at h
  rw [← killNodes_relayouts s o.nodes]
  exact forgetRelayouts_lookup _ id h

end Frame

/-- but for a transaction, no step remembers a relayout -/
theorem World.step_relayouts (w : World) (a : Act) (ha : ∀ th env tr, a ≠ .transaction th env tr)
    {k : ProcId × NodeId} {b : Bytes} (h : (step w a).st.relayouts.lookup k = some b) :
    w.st.relayouts.lookup k = some b := by
  have keep : ∀ s : State, s.relayouts = w.st.relayouts → s.relayouts.lookup k = some b →
      w.st.relayouts.lookup k = some b := fun s hs h => hs ▸ h
  cases a with
  | transaction th env tr => exact absurd rfl (ha th env tr)
  | release id o =>
    simp only [step] at h
    split at h
    · exact release_relayouts _ _ _ h
    · exact h
  | openFile =>
    refine keep _ ?_ h
    simp only [step, openFile]
    split <;> rfl
  | setArea id base size =>
    refine keep _ ?_ h
    simp only [step]
    split <;> rfl
  | setContextMgr id flags =>
    refine keep _ ?_ h
    simp only [step]
    split
    · exact setContextMgr_relayouts _ _ _
    · rfl
  | threadExit th =>
    refine keep _ ?_ h
    simp only [step]
    split
    · exact threadExit_relayouts _ _
    · rfl
  | reply th env tr =>
    refine keep _ ?_ h
    simp only [step]
    split
    · exact reply_relayouts _ _ _ _
    · rfl
  | freeBuffer th ptr =>
    refine keep _ ?_ h
    simp only [step]
    split
    · exact freeRecord_relayouts _ _ _
    · rfl
  | count th cmd handle =>
    refine keep _ ?_ h
    simp only [step]
    split
    · exact countHandle_relayouts _ _ _ _
    · rfl
  | acquireDone th ptr i =>
    refine keep _ ?_ h
    simp only [step]
    split
    · exact acquireDone_relayouts _ _ _ _
    · rfl
  | death th request handle cookie =>
    refine keep _ ?_ h
    simp only [step]
    split
    · exact deathNotification_relayouts _ _ _ _ _
    · rfl
  | look th env =>
    refine keep _ ?_ h
    simp only [step]
    split
    · split
      · unfold look
        split <;> rfl
      · rfl
    · rfl
  | deliver th =>
    refine keep _ ?_ h
    simp only [step]
    split
    · split
      · unfold deliver
        split
        · split
          · exact failUndelivered_relayouts _ _ _
          · rfl
        · show (w.st.hear th _).relayouts = _
          unfold State.hear
          split <;> rfl
      · rfl
    · rfl
  | place th env =>
    refine keep _ ?_ h
    simp only [step]
    split
    · split
      · unfold place
        dsimp only
        split
        · exact failUndelivered_relayouts _ _ _
        · exact placed_relayouts _ _ _ _
      · rfl
    · rfl
  | copyOut th write =>
    refine keep _ ?_ h
    simp only [step]
    split
    · split
      · unfold copyOut
        split
        · rfl
        · dsimp only
          split
          · exact undeliver_relayouts _ _ _
          · rfl
      · rfl
    · rfl
  | endRead th =>
    refine keep _ ?_ h
    simp only [step]
    repeat' split
    all_goals rfl
  | createHostService => exact keep _ (createHostService_relayouts _) h
  | intercept handle code f => exact keep _ (intercept_relayouts _ _ _ _) h
  | hostTransact euid handle code data offsets serving => exact keep _ (hostTransact_relayouts _ _ _ _ _ _ _) h
  | hostLook tid =>
    refine keep _ ?_ h
    show (w.st.hostLook tid).relayouts = _
    unfold State.hostLook
    repeat' split
    all_goals rfl
  | hostTransactOneway handle code data offsets => exact keep _ (hostTransactOneway_relayouts _ _ _ _ _) h
  | hostReply i reply => exact keep _ (hostReply_relayouts _ _ _) h
  | hostGiveUp tid => exact keep _ rfl h
  | _ =>
    refine keep _ ?_ h
    simp only [step]
    split <;> rfl

/-! ## Relayouts sent -/

/-- a oneway `relayoutAsync` past its route's checks: its session, and the parcel as it was sent -/
structure Relayout where
  node : NodeId
  session : Node
  data : Bytes
  offsets : List UInt64

namespace Relayout

/-- what `BC_TRANSACTION` takes for a relayout, if it is one that can be sent -/
def of (s : State) (th : Thread) (env : SendEnv) (tr : Tr) : Option Relayout :=
  match tr.parcel env with
  | .error _ => none
  | .ok (data, offsets) =>
    match s.nodeForHandle th.1 tr.handle with
    | none => none
    | some node =>
      match s.nodes.lookup node with
      | none => none
      | some n =>
        if n.dead || (n.owner ≠ .host && s.isDead n.owner) then none
        else if tr.oneway && tr.code = 7 && readString16 data 12 = some windowSession then some ⟨node, n, data, offsets⟩
        else none

variable (r : Relayout) (s : State) (th : Thread) (env : SendEnv) (tr : Tr)

/-- it is compared with the last one, and remembered -/
def remembered : Bool := !hasFds r.data r.offsets && env.dedupe

/-- the state after the comparison -/
def compared : State × Bool :=
  s.bump.repeatedRelayout th.1 r.node tr.code r.data (hasFds r.data r.offsets) env.dedupe

def suppressed : Bool := (r.compared s th env tr).2

/-- queued to its session: whether it carried no descriptors. `none` when it was not: its objects could not be
translated, or no host thread was to be had for it -/
def queued : Option Bool :=
  match (r.compared s th env tr).1.carry env th r.session.owner (some r.node) r.data r.offsets with
  | (_, .error _) => none
  | (_, .ok (_, objs, _)) =>
    if r.session.owner = .host && !env.spawned.isOk then none else some (objs.fds.isEmpty && objs.fda.isEmpty)

end Relayout

/-- what a relayout is compared by: its bytes, the sequence number cleared -/
def relayoutKey (data : Bytes) : Bytes := patch data (data.length - 8) [0, 0, 0, 0]

/-- two parcels the same but for the sequence number, which is the last word but one -/
def SameButSeq (a b : Bytes) : Prop :=
  a.length = b.length ∧ ∀ i, i < a.length - 8 ∨ a.length - 4 ≤ i → a[i]? = b[i]?

theorem SameButSeq.of_key {a b : Bytes} (ha : 8 ≤ a.length) (hb : 8 ≤ b.length) (h : relayoutKey a = relayoutKey b) :
    SameButSeq a b := by
  have hia : a.length - 8 + ([0, 0, 0, 0] : Bytes).length ≤ a.length := by
    show a.length - 8 + 4 ≤ a.length
    omega
  have hib : b.length - 8 + ([0, 0, 0, 0] : Bytes).length ≤ b.length := by
    show b.length - 8 + 4 ≤ b.length
    omega
  have hlen : a.length = b.length := by
    rw [← length_patch hia, ← length_patch hib]
    exact congrArg List.length h
  refine ⟨hlen, fun i hi => ?_⟩
  have hout : ∀ d : Bytes, d.length = a.length → d.length - 8 + ([0, 0, 0, 0] : Bytes).length ≤ d.length →
      (relayoutKey d)[i]? = d[i]? := by
    intro d hc hic
    rw [relayoutKey, getElem?_patch hic, if_neg]
    show ¬(d.length - 8 ≤ i ∧ i < d.length - 8 + 4)
    omega
  rw [← hout a rfl hia, ← hout b hlen.symm hib, h]

theorem length_of_windowSession {data : Bytes} (h : readString16 data 12 = some windowSession) : 64 ≤ data.length := by
  unfold readString16 at h
  cases hl : get? data 12 4 with
  | none => rw [hl] at h; cases h
  | some len =>
    rw [hl] at h
    dsimp only [Option.bind_eq_bind, Option.bind_some] at h
    split_ifs at h
    · cases h
    cases hu : get? data (12 + 4) ((u32At len 0).toNat * 2) with
    | none => rw [hu] at h; cases h
    | some units =>
      rw [hu] at h
      have hn : (u32At len 0).toNat = 27 := by
        have := congrArg (fun o => o.map List.length) h
        simpa [windowSession] using this
      have := (get?_eq_some.1 hu).1
      omega

namespace Relayout

section

variable {s : State} {th : Thread} {env : SendEnv} {tr : Tr} {r : Relayout}

theorem of_spec (h : Relayout.of s th env tr = some r) :
    tr.parcel env = .ok (r.data, r.offsets) ∧ s.nodeForHandle th.1 tr.handle = some r.node ∧
      s.nodes.lookup r.node = some r.session ∧ r.session.dead = false ∧
      (r.session.owner ≠ .host → s.isDead r.session.owner = false) ∧ tr.oneway = true ∧ tr.code = 7 ∧
      readString16 r.data 12 = some windowSession := by
  unfold Relayout.of at h
  split at h
  · cases h
  · rename_i data offsets hp
    split at h
    · cases h
    · rename_i node hnode
      split at h
      · cases h
      · rename_i n hn
        split_ifs at h with hdead hkind
        cases h
        simp only [Bool.or_eq_true, Bool.and_eq_true, decide_eq_true_eq, not_or, not_and, Bool.not_eq_true] at hdead
        simp only [Bool.and_eq_true, decide_eq_true_eq] at hkind
        exact ⟨hp, hnode, hn, hdead.1, hdead.2, hkind.1.1, hkind.1.2, hkind.2⟩

/-- a remembered relayout is compared with the last; any other leaves what is remembered alone -/
theorem compared_eq (h : Relayout.of s th env tr = some r) : r.compared s th env tr =
    if r.remembered env then
      ({ s.bump with relayouts := s.relayouts.insert (th.1, r.node) (relayoutKey r.data) },
        decide (s.relayouts.lookup (th.1, r.node) = some (relayoutKey r.data)))
    else (s.bump, false) := by
  obtain ⟨-, -, -, -, -, -, hcode, hname⟩ := of_spec h
  have hlong : ¬r.data.length < 64 := not_lt.2 (length_of_windowSession hname)
  unfold compared State.repeatedRelayout remembered
  rw [hcode, hname]
  cases hasFds r.data r.offsets with
  | true => rfl
  | false =>
    cases env.dedupe with
    | false => simp
    | true =>
      simp only [hlong, decide_false, Bool.or_false, bne_self_eq_false, Bool.false_eq_true, if_false, Bool.not_true,
        Bool.not_false, Bool.and_self, if_true]
      rfl

/-- a relayout is complete for its sender and gone, or sent -/
theorem transaction_eq (h : Relayout.of s th env tr = some r) : s.transaction env th tr =
    if r.suppressed s th env tr then (r.compared s th env tr).1.complete th
    else
      match (r.compared s th env tr).1.send env th tr r.data r.offsets r.node r.session none s.nextSerial with
      | (s, .error _) => s.returnError th brFailedReply
      | (s, .ok ()) => s := by
  obtain ⟨hparcel, hnode, hn, hdead, halive, hone, -, -⟩ := of_spec h
  have hnode' : s.bump.nodeForHandle th.1 tr.handle = some r.node := hnode
  have hn' : s.bump.nodes.lookup r.node = some r.session := hn
  have hgone : ¬(r.session.owner ≠ .host ∧ s.bump.isDead r.session.owner = true) := by
    rintro ⟨ho, hd⟩
    rw [show s.bump.isDead r.session.owner = false from halive ho] at hd
    cases hd
  unfold State.transaction
  rw [hparcel]
  dsimp only
  unfold State.sendCall
  rw [hnode']
  dsimp only
  rw [hn']
  dsimp only
  rw [hdead, if_neg Bool.false_ne_true, if_neg hgone, if_pos hone, if_pos hone, if_pos hone]
  unfold suppressed compared
  generalize s.bump.repeatedRelayout th.1 r.node tr.code r.data (hasFds r.data r.offsets) env.dedupe = c
  obtain ⟨s', b⟩ := c
  cases b with
  | true => rfl
  | false => rfl

theorem transaction_relayouts (h : Relayout.of s th env tr = some r) :
    (s.transaction env th tr).relayouts = (r.compared s th env tr).1.relayouts := by
  rw [transaction_eq h]
  split
  · exact complete_relayouts _ _
  · have hs := send_relayouts (r.compared s th env tr).1 env th tr r.data r.offsets r.node r.session none s.nextSerial
    split
    · rename_i hsend
      rw [hsend] at hs
      exact (returnError_relayouts _ _ _).trans hs
    · rename_i hsend
      rw [hsend] at hs
      exact hs

/-- a relayout that is queued is queued as it is sent, its objects translated -/
theorem transaction_queued (h : Relayout.of s th env tr = some r) (hs : r.suppressed s th env tr = false) {plain : Bool}
    (hq : r.queued s th env tr = some plain) : ∃ s₁ data objs pins,
      (r.compared s th env tr).1.carry env th r.session.owner (some r.node) r.data r.offsets =
        (s₁, .ok (data, objs, pins)) ∧ plain = (objs.fds.isEmpty && objs.fda.isEmpty) ∧
      s.transaction env th tr =
        (if r.session.owner = .host then s₁.handOff th true s.nextSerial
        else s₁.queueOneway r.session.owner r.node
          (guestTxn env th tr r.session data r.offsets objs pins s.nextSerial)).complete th := by
  obtain ⟨-, -, -, -, -, hone, -, -⟩ := of_spec h
  rw [transaction_eq h, hs, if_neg Bool.false_ne_true]
  unfold queued at hq
  unfold State.send
  cases hc : (r.compared s th env tr).1.carry env th r.session.owner (some r.node) r.data r.offsets with
  | mk s₁ result =>
    rw [hc] at hq
    cases result with
    | error e => cases hq
    | ok o =>
      obtain ⟨data, objs, pins⟩ := o
      dsimp only at hq ⊢
      split_ifs at hq with hsp
      cases hq
      refine ⟨s₁, data, objs, pins, rfl, rfl, ?_⟩
      unfold State.dispatch
      by_cases ho : r.session.owner = .host
      · rw [if_pos ho, if_pos ho]
        cases hspawn : env.spawned with
        | error e => rw [ho, hspawn] at hsp; exact absurd rfl hsp
        | ok u => simp only [guestTxn, hone, if_true]
      · simp only [if_neg ho, guestTxn, hone, if_true]

end

/-- what is no relayout leaves what is remembered alone -/
theorem transaction_other {s : State} {th : Thread} {env : SendEnv} {tr : Tr} (h : Relayout.of s th env tr = none) :
    (s.transaction env th tr).relayouts = s.relayouts := by
  unfold Relayout.of at h
  unfold State.transaction
  cases hparcel : tr.parcel env with
  | error e => exact returnError_relayouts _ _ _
  | ok p =>
    obtain ⟨data, offsets⟩ := p
    rw [hparcel] at h
    dsimp only at h ⊢
    have hend : ∀ x : State × Except Errno Unit, x.1.relayouts = s.relayouts →
        (match x with
          | (s, .error _) => s.returnError th brFailedReply
          | (s, .ok ()) => s).relayouts = s.relayouts := by
      rintro ⟨s', e | ⟨⟩⟩ hx
      · exact (returnError_relayouts _ _ _).trans hx
      · exact hx
    refine hend _ ?_
    unfold State.sendCall
    cases hnode : s.nodeForHandle th.1 tr.handle with
    | none =>
      rw [show s.bump.nodeForHandle th.1 tr.handle = none from hnode]
      exact returnError_relayouts _ _ _
    | some node =>
      rw [show s.bump.nodeForHandle th.1 tr.handle = some node from hnode]
      rw [hnode] at h
      dsimp only at h ⊢
      cases hn : s.nodes.lookup node with
      | none =>
        rw [show s.bump.nodes.lookup node = none from hn]
        rfl
      | some n =>
        rw [show s.bump.nodes.lookup node = some n from hn]
        rw [hn] at h
        dsimp only at h ⊢
        by_cases hdead : n.dead = true
        · rw [if_pos hdead]
          exact returnError_relayouts _ _ _
        by_cases hgone : n.owner ≠ .host ∧ s.bump.isDead n.owner = true
        · rw [if_neg hdead, if_pos hgone]
          exact returnError_relayouts _ _ _
        rw [if_neg hdead, if_neg hgone]
        have hroute : ¬(n.dead || (n.owner ≠ .host && s.isDead n.owner)) = true := by
          simp only [Bool.or_eq_true, Bool.and_eq_true, decide_eq_true_eq, not_or]
          exact ⟨hdead, hgone⟩
        rw [if_neg hroute] at h
        cases hone : tr.oneway with
        | false =>
          simp only [Bool.false_eq_true, if_false]
          split
          · rename_i answer _
            have hr := replyFromHost_relayouts s.bump th.1 { data := answer } s.nextSerial
            split
            · rename_i hreply
              rw [hreply] at hr
              exact hr
            · rename_i hreply
              rw [hreply] at hr
              refine (queue_relayouts _ _ _ _).trans ((complete_relayouts _ _).trans ?_)
              exact hr
          · exact send_relayouts _ _ _ _ _ _ _ _ _ _
        | true =>
          have hkind : ¬(tr.code = 7 ∧ readString16 data 12 = some windowSession) := by
            rintro ⟨hcode, hname⟩
            simp [hone, hcode, hname] at h
          have hno : s.bump.repeatedRelayout th.1 node tr.code data (hasFds data offsets) env.dedupe =
              (s.bump, false) := by
            unfold State.repeatedRelayout
            split_ifs with hskip hname
            · rfl
            · rfl
            · refine absurd ⟨?_, ?_⟩ hkind
              · by_contra hcode
                exact hskip (by simp [hcode])
              · by_contra hne
                exact hname (by simpa using hne)
          simp only [if_true, hno]
          exact send_relayouts _ _ _ _ _ _ _ _ _ _

end Relayout

/-! ## The last relayout queued -/

/-- the machine, and the last relayout each process had queued to each session: its parcel, and whether it carried no
descriptors -/
structure Watched where
  w : World
  last : ProcId × NodeId → Option (Bytes × Bool)

namespace Watched

def init (refcount : Bool) : Watched := ⟨World.init refcount, fun _ => none⟩

/-- the relayout a step takes from its sender -/
def relayout (w : World) : Act → Option Relayout
  | .transaction th env tr => if w.commanding th then Relayout.of w.st th env tr else none
  | _ => none

/-- the relayout a step queues -/
def queues (w : World) : Act → Option ((ProcId × NodeId) × Bytes × Bool)
  | .transaction th env tr =>
    (relayout w (.transaction th env tr)).bind fun r =>
      if r.suppressed w.st th env tr then none
      else (r.queued w.st th env tr).map fun plain => ((th.1, r.node), r.data, plain)
  | _ => none

def step (x : Watched) (a : Act) : Watched where
  w := x.w.step a
  last := match queues x.w a with
    | some (k, d) => Function.update x.last k (some d)
    | none => x.last

/-- a relayout that is remembered is queued, without descriptors; one that is not goes to no session a relayout of its
sender's is remembered for -/
def orderly (x : Watched) : Act → Prop
  | .transaction th env tr => ∀ r ∈ relayout x.w (.transaction th env tr), r.suppressed x.w.st th env tr = false →
    if r.remembered env then r.queued x.w.st th env tr = some true
    else r.queued x.w.st th env tr = none ∨ x.w.st.relayouts.lookup (th.1, r.node) = none
  | _ => True

/-- what is remembered of a session is the last relayout queued to it -/
def Recalled (x : Watched) : Prop :=
  ∀ k b, x.w.st.relayouts.lookup k = some b →
    ∃ data, x.last k = some (data, true) ∧ relayoutKey data = b ∧ 64 ≤ data.length

theorem step_other {x : Watched} {a : Act} (ha : ∀ th env tr, a ≠ .transaction th env tr) :
    (step x a).last = x.last := by
  cases a with
  | transaction th env tr => exact absurd rfl (ha th env tr)
  | _ => rfl

theorem step_recalled {x : Watched} {a : Act} (hr : Recalled x) (ho : orderly x a) : Recalled (step x a) := by
  by_cases ha : ∀ th env tr, a ≠ .transaction th env tr
  · intro k b hk
    rw [step_other ha]
    exact hr k b (x.w.step_relayouts a ha hk)
  push Not at ha
  obtain ⟨th, env, tr, rfl⟩ := ha
  by_cases hc : x.w.commanding th = true
  swap
  · have hw : x.w.step (.transaction th env tr) = x.w := if_neg hc
    have hq : queues x.w (.transaction th env tr) = none := by
      simp only [queues, relayout, if_neg hc, Option.bind_none]
    intro k b hk
    simp only [step, hw, hq] at hk ⊢
    exact hr k b hk
  have hw : (x.w.step (.transaction th env tr)).st = x.w.st.transaction env th tr := by
    simp only [World.step, if_pos hc, World.onState]
  cases hof : Relayout.of x.w.st th env tr with
  | none =>
    have hq : queues x.w (.transaction th env tr) = none := by
      simp only [queues, relayout, if_pos hc, hof, Option.bind_none]
    intro k b hk
    simp only [step, hw, hq, Relayout.transaction_other hof] at hk ⊢
    exact hr k b hk
  | some r =>
    have hrel : relayout x.w (.transaction th env tr) = some r := by simp only [relayout, if_pos hc, hof]
    have hlong : 64 ≤ r.data.length := length_of_windowSession (Relayout.of_spec hof).2.2.2.2.2.2.2
    have ho' := ho r hrel
    intro k b hk
    have hst : ((step x (.transaction th env tr)).w.st).relayouts = (r.compared x.w.st th env tr).1.relayouts := by
      rw [← Relayout.transaction_relayouts hof]
      exact congrArg State.relayouts hw
    rw [hst, Relayout.compared_eq hof] at hk
    by_cases hsup : r.suppressed x.w.st th env tr = true
    · -- dropped: what is remembered is what was
      have hq : queues x.w (.transaction th env tr) = none := by
        simp only [queues, hrel, Option.bind_some, if_pos hsup]
      have hlast : (step x (.transaction th env tr)).last = x.last := by simp only [step, hq]
      rw [hlast]
      have hcmp := hsup
      rw [Relayout.suppressed, Relayout.compared_eq hof] at hcmp
      split_ifs at hk hcmp with hrem
      · have hsame : x.w.st.relayouts.lookup (th.1, r.node) = some (relayoutKey r.data) := by simpa using hcmp
        rw [Map.lookup_insert_eq] at hk
        split_ifs at hk with hkey
        · rw [hkey]
          exact hr _ b (hsame.trans hk)
        · exact hr k b hk
    · rw [Bool.not_eq_true] at hsup
      have ho' := ho' hsup
      have hq : queues x.w (.transaction th env tr) =
          (r.queued x.w.st th env tr).map fun plain => ((th.1, r.node), r.data, plain) := by
        simp only [queues, hrel, Option.bind_some, hsup, if_neg Bool.false_ne_true]
      split_ifs at hk ho' with hrem
      · -- remembered, so it is queued and without descriptors
        have hlast : (step x (.transaction th env tr)).last =
            Function.update x.last (th.1, r.node) (some (r.data, true)) := by
          simp only [step, hq, ho', Option.map_some]
        rw [hlast]
        rw [Map.lookup_insert_eq] at hk
        split_ifs at hk with hkey
        · cases hk
          rw [hkey, Function.update_self]
          exact ⟨r.data, rfl, rfl, hlong⟩
        · rw [Function.update_of_ne hkey]
          exact hr k b hk
      · -- not remembered: nothing of its sender's is for that session
        have hk' : x.w.st.relayouts.lookup k = some b := hk
        cases hqd : r.queued x.w.st th env tr with
        | none =>
          have hlast : (step x (.transaction th env tr)).last = x.last := by
            simp only [step, hq, hqd, Option.map_none]
          rw [hlast]
          exact hr k b hk'
        | some plain =>
          have hfree := ho'.resolve_left (by rw [hqd]; exact nofun)
          have hkey : k ≠ (th.1, r.node) := by
            rintro rfl
            rw [hfree] at hk'
            cases hk'
          have hlast : (step x (.transaction th env tr)).last =
              Function.update x.last (th.1, r.node) (some (r.data, plain)) := by
            simp only [step, hq, hqd, Option.map_some]
          rw [hlast, Function.update_of_ne hkey]
          exact hr k b hk'

theorem reach_recalled {refcount : Bool} {x : Watched} (h : Reach step orderly (init refcount) x) : Recalled x :=
  h.invariant Recalled (fun _ _ hk => by cases hk) fun _ _ _ ho hr => step_recalled hr ho

end Watched

/-- in a run that keeps to it, a relayout is dropped only as the last one queued, but for its sequence number -/
theorem relayout_dropped {refcount : Bool} {x : Watched} (h : Reach Watched.step Watched.orderly (.init refcount) x)
    {th : Thread} {env : SendEnv} {tr : Tr} {r : Relayout}
    (hr : Watched.relayout x.w (.transaction th env tr) = some r) (hs : r.suppressed x.w.st th env tr = true) :
    ∃ data, x.last (th.1, r.node) = some (data, true) ∧ SameButSeq r.data data := by
  have hof : Relayout.of x.w.st th env tr = some r := by
    simp only [Watched.relayout] at hr
    split_ifs at hr
    exact hr
  have hcmp := hs
  rw [Relayout.suppressed, Relayout.compared_eq hof] at hcmp
  split_ifs at hcmp with hrem
  have hsame : x.w.st.relayouts.lookup (th.1, r.node) = some (relayoutKey r.data) := by simpa using hcmp
  obtain ⟨data, hlast, hkey, hlen⟩ := Watched.reach_recalled h _ _ hsame
  have hlong : 64 ≤ r.data.length := length_of_windowSession (Relayout.of_spec hof).2.2.2.2.2.2.2
  exact ⟨data, hlast, .of_key (by omega) (by omega) hkey.symm⟩

/-! ### Runs -/

/-- a `relayoutAsync` with the sequence number `seq` -/
def relayoutParcel (seq : UInt8) : Bytes :=
  List.replicate 12 0 ++ le32 27 ++ (windowSession.map (leBytes 2)).flatten ++ [0, 0, seq, 0, 0, 0, 0, 0, 0, 0]

/-- it is sent to the context manager, with as many bytes of offsets; they read as the parcel's first -/
def relayoutAct (seq : UInt8) (offsetsSize : ℕ) : Act :=
  .transaction (.guest 2, 5) (.parcel (relayoutParcel seq)) ⟨0, 7, tfOneWay, 80, offsetsSize, 0, 0⟩

/-- two processes, the first of which has the session -/
def sessionRun : List Act := [.openFile, .openFile, .setContextMgr (.guest 1) 0]

theorem relayout_dropped_second :
    let x := run Watched.step (.init false) (sessionRun ++ [relayoutAct 1 0])
    ∃ r data, Watched.relayout x.w (relayoutAct 2 0) = some r ∧ x.last (.guest 2, r.node) = some (data, true) ∧
      SameButSeq r.data data := by
  have h : Reach Watched.step Watched.orderly (.init false)
      (run Watched.step (.init false) (sessionRun ++ [relayoutAct 1 0])) := by
    refine Reach.run .start _ ⟨trivial, trivial, trivial, fun r hr _ => ?_, trivial⟩
    cases hr
    rfl
  have hr : Watched.relayout (run Watched.step (.init false) (sessionRun ++ [relayoutAct 1 0])).w (relayoutAct 2 0) =
      some ⟨1, _, relayoutParcel 2, []⟩ := rfl
  obtain ⟨data, hlast, hsame⟩ := relayout_dropped h hr rfl
  exact ⟨_, data, hr, hlast, hsame⟩

/-- the first has an object that is none, and is refused; the second, the same, is dropped as if the first had gone -/
theorem relayout_refused_then_dropped :
    let x := run Watched.step (.init false) (sessionRun ++ [relayoutAct 1 8])
    ∃ r, Watched.relayout x.w (relayoutAct 2 8) = some r ∧
      r.suppressed x.w.st (.guest 2, 5) (.parcel (relayoutParcel 2)) ⟨0, 7, tfOneWay, 80, 8, 0, 0⟩ = true ∧
      x.last (.guest 2, r.node) = none :=
  ⟨_, rfl, rfl, rfl⟩

end Omnidroid.Binder
