/-
What a step of the machine can do to the standing side of the state: `Track s s'`, a list of bookkeeping moves and of
steps that leave the standing alone. Every action is one of these, but for the few whose business it is: an open, a
release, a handle's count, an acquire's answer, a death notification, a context manager, a host service.

`Basic` holds of every state a run reaches: node ids count up, the host never dies, only guests open the driver.
-/
import Omnidroid.Binder.Balance

namespace Omnidroid.Binder

/-- bookkeeping moves, and steps that leave the standing alone -/
abbrev Track : State → State → Prop := Relation.ReflTransGen fun s s' => Still s s' ∨ Move s s'

namespace Track

theorem still {s s' : State} (h : Still s s') : Track s s' := .single (.inl h)

theorem moves {s s' : State} (h : Moves s s') : Track s s' := by
  induction h with
  | refl => exact .refl
  | tail _ hm ih => exact ih.tail (.inr hm)

theorem andStill {s s' s'' : State} (h : Track s s') (h' : Still s' s'') : Track s s'' := h.tail (.inl h')

theorem foldl {α : Type} {f : State → α → State} (hf : ∀ s a, Track s (f s a)) (l : List α) (s : State) :
    Track s (l.foldl f s) := by
  induction l generalizing s with
  | nil => exact .refl
  | cons a l ih => exact (hf s a).trans (ih (f s a))

theorem fresh {s s' : State} (h : Track s s') (hf : s.Fresh) : s'.Fresh := by
  induction h with
  | refl => exact hf
  | tail _ hm ih =>
    rcases hm with hm | hm
    · exact hm.fresh ih
    · exact (hm.calm ih).fresh ih

theorem dead {s s' : State} (h : Track s s') (hf : s.Fresh) (id : ProcId) : (s'.proc id).dead = (s.proc id).dead := by
  induction h with
  | refl => rfl
  | tail h hm ih =>
    rcases hm with hm | hm
    · rw [hm.dead, ih]
    · rw [(hm.calm (fresh h hf)).dead, ih]

end Track

/-! ## Each operation -/

theorem await_still (s : State) (th : Thread) (k : ℕ) : Still s (s.await th k) := Still.updThread _ _ _

theorem endWait_still (s : State) (th : Thread) (k : ℕ) : Still s (s.endWait th k) := Still.updThread _ _ _

theorem complete_still (s : State) (th : Thread) : Still s (s.complete th) := Still.queue _ _ _ _

theorem bump_still (s : State) : Still s s.bump := Still.of_tables rfl rfl rfl rfl rfl rfl

theorem handOff_still (s : State) (th : Thread) (oneway : Bool) (k : ℕ) : Still s (s.handOff th oneway k) :=
  Still.of_tables rfl rfl rfl rfl rfl rfl

theorem Sent.track {s s' : State} {th : Thread} {k : ℕ} (h : Sent s th k s') : Track s s' := by
  cases h with
  | nothing h _ => exact .moves h
  | intercepted => exact .still (((await_still s th k).trans (complete_still _ th)).trans (Still.queue _ _ _ _))
  | hostedOneway h _ => exact (Track.moves h).andStill ((handOff_still _ th true k).trans (complete_still _ th))
  | hosted h _ =>
    exact (Track.moves h).andStill
      (((handOff_still _ th false k).trans (await_still _ th k)).trans (complete_still _ th))
  | oneway txn h _ _ node n =>
    exact (Track.moves h.moves).andStill ((queueOneway_still _ n.owner node txn).trans (complete_still _ th))
  | call txn h _ _ owner =>
    exact (Track.moves h.moves).andStill (((await_still _ th k).trans (Still.queue _ _ _ _)).trans (complete_still _ th))

theorem Replied.track {s s' : State} {th : Thread} {sv : Option Served} (h : Replied s th sv s') : Track s s' := by
  cases h with
  | nothing h _ _ => exact .moves h
  | sent c k _ txn h => exact (Track.moves h).andStill ((Still.queue _ _ _ _).trans (complete_still _ th))
  | failed c k _ h _ => exact (Track.moves h).andStill (Still.queue _ _ _ _)

theorem HostSent.track {s s' : State} {k : ℕ} (h : HostSent s k s') : Track s s' := by
  cases h with
  | nothing h _ => exact .moves h
  | oneway txn h _ _ node n => exact (Track.moves h.moves).andStill (queueOneway_still _ n.owner node txn)
  | call txn h => exact (Track.moves h.moves).andStill (Still.queue _ _ _ _)

theorem HostAnswered.track {s s' : State} {job : HostJob} (h : HostAnswered s job s') : Track s s' := by
  cases h with
  | nothing => exact .refl
  | failed _ h _ => exact (Track.moves h).andStill (Still.queue _ _ _ _)
  | sent _ txn h => exact (Track.moves h).andStill (Still.queue _ _ _ _)

theorem doneWith_still (s : State) (node : Option NodeId) (owner : ProcId) : Still s (s.doneWith node owner) := by
  cases node with
  | none => exact Still.refl s
  | some n => exact asyncDone_still s n owner

theorem tellSender_still (s : State) (txn : Txn) (answer : Work) : Still s (s.tellSender txn answer) := by
  unfold State.tellSender
  split
  · split
    · exact Still.queue _ _ _ _
    · exact Still.refl s
  · exact Still.refl s

theorem dropWork_track (receiver : ProcId) (s : State) (work : Work) : Track s (State.dropWork receiver s work) := by
  cases work with
  | txn txn =>
    exact (Track.still ((tellSender_still s txn _).trans (doneWith_still _ _ _))).trans (Track.moves (unpin_moves _ _))
  | _ => exact .refl

theorem freeRecord_track (s : State) (id : ProcId) (buf : ℕ) : Track s (s.freeRecord id buf) := by
  unfold State.freeRecord
  split
  · exact .refl
  · rename_i b _
    have h : Still s { s with buffers := s.buffers.erase (id, buf) } := Still.of_tables rfl rfl rfl rfl rfl rfl
    exact (Track.still (h.trans (doneWith_still _ _ _))).trans (Track.moves (unpin_moves _ _))

theorem failUndelivered_track (s : State) (th : Thread) (txn : Txn) : Track s (s.failUndelivered th txn) := by
  have hm := Track.moves (unpin_moves s txn.pinned)
  unfold State.failUndelivered
  dsimp only
  split
  · exact hm.andStill (endWait_still _ _ _)
  · exact hm.andStill ((doneWith_still _ _ _).trans (tellSender_still _ _ _))

theorem unserve_still (s : State) (th : Thread) (from_ : Option Thread) : Still s (s.unserve th from_) := by
  unfold State.unserve
  split
  · exact Still.updThread _ _ _
  · exact Still.refl s

theorem undeliver_track (s : State) (th : Thread) (h : Handed) : Track s (s.undeliver th h) := by
  have ht := freeRecord_track s th.1 h.buf
  unfold State.undeliver
  dsimp only
  split
  · exact ht
  · split
    · exact ht.andStill ((unserve_still _ _ _).trans (Still.queue _ _ _ _))
    · exact ht.andStill (unserve_still _ _ _)

theorem threadExit_track (s : State) (th : Thread) : Track s (s.threadExit th) := by
  unfold State.threadExit
  split
  · exact .refl
  · rename_i p hp
    split
    · exact .refl
    · rename_i gone _
      have hproc : s.proc th.1 = p := by simp [State.proc, hp]
      have h1 : Still s (s.setProc th.1 { p with threads := p.threads.erase th.2 }) := by
        subst hproc; exact Still.setProc s th.1 _ rfl
      dsimp only
      refine Relation.ReflTransGen.trans ?_ (Track.foldl (dropWork_track th.1) gone.todo _)
      split
      · exact (Track.still h1).andStill (Still.queue _ _ _ _)
      · exact Track.still h1

theorem hostLook_still (s : State) (tid : Tid) : Still s (s.hostLook tid) := by
  unfold State.hostLook
  split
  · exact Still.refl s
  · split
    · exact Still.setProc _ _ _ rfl
    · exact Still.updThread _ _ _

theorem intercept_still (s : State) (handle code : UInt32) (f : Bytes → Option Bytes) :
    Still s (s.intercept handle code f) := by
  unfold State.intercept
  split
  · exact Still.refl s
  · exact Still.of_tables rfl rfl rfl rfl rfl rfl

theorem take_table (p : ProcState) (env : SpawnEnv) (tid : Tid) : (p.take env tid).1.table = p.table := by
  unfold ProcState.take
  dsimp only
  split
  · rfl
  · split
    · split <;> rfl
    · rfl

theorem endRead_table (p : ProcState) (tid : Tid) (failed : Bool) : (p.endRead tid failed).table = p.table := by
  unfold ProcState.endRead
  dsimp only
  split <;> rfl

theorem dropBuffer_track (id : ProcId) (s : State) (addr : ℕ) : Track s (State.dropBuffer id s addr) := by
  unfold State.dropBuffer
  split
  · exact .refl
  · rename_i b _
    have h : Still s { s with buffers := s.buffers.erase (id, addr) } := Still.of_tables rfl rfl rfl rfl rfl rfl
    exact (Track.still h).trans (Track.moves (unpin_moves _ _))

theorem settle_track (s : State) (id : ProcId) (buffers : List ℕ) (r : Remains) :
    Track s (s.settle id buffers r) :=
  (((Track.foldl (fun s sv => .still (failServed_still s sv)) r.serving s).trans
    (Track.foldl (dropWork_track id) r.dropped _)).trans (Track.foldl (dropBuffer_track id) buffers _)).trans
    (Track.foldl (fun s n => .single (.inr (.release s n))) r.held _)

/-! ## A release's first half -/

theorem tellWatchers_still (s : State) (watchers : List (ProcId × UInt64)) : Still s (s.tellWatchers watchers) :=
  Still.foldl (f := fun s (w : ProcId × UInt64) => s.queue w.1 none (.deadBinder w.2))
    (fun s w => Still.queue s w.1 none _) watchers s

theorem killNode_fresh (s : State) (node : NodeId) (hf : s.Fresh) : (s.killNode node).1.Fresh := by
  unfold State.killNode
  split
  · exact hf
  · rename_i n hn
    exact (dropContextMgr_calm _ node).fresh ((tellWatchers_calm _ n.watchers).fresh (hf.setNode hn _))

theorem killNode_dead (s : State) (node : NodeId) (id : ProcId) :
    ((s.killNode node).1.proc id).dead = (s.proc id).dead := by
  unfold State.killNode
  split
  · rfl
  · rename_i n hn
    rw [(dropContextMgr_calm _ node).dead, (tellWatchers_calm _ n.watchers).dead]; rfl

theorem killNodes_fresh (s : State) (l : List NodeId) (hf : s.Fresh) : (s.killNodes l).1.Fresh := by
  induction l generalizing s with
  | nil => exact hf
  | cons n l ih => exact ih _ (killNode_fresh s n hf)

theorem killNodes_dead (s : State) (l : List NodeId) (id : ProcId) :
    ((s.killNodes l).1.proc id).dead = (s.proc id).dead := by
  induction l generalizing s with
  | nil => rfl
  | cons n l ih => exact (ih _).trans (killNode_dead s n id)

theorem bury_fresh (s : State) (id : ProcId) (o : ReleaseOrder) (hf : s.Fresh) : (s.bury id o).1.Fresh :=
  killNodes_fresh s o.nodes hf

theorem bury_dead (s : State) (id : ProcId) (o : ReleaseOrder) (id' : ProcId) :
    ((s.bury id o).1.proc id').dead = if id' = id then true else (s.proc id').dead := by
  simp only [State.bury, State.proc_setProc]
  split_ifs
  · rfl
  · exact killNodes_dead s o.nodes id'

theorem release_dead (s : State) (id : ProcId) (o : ReleaseOrder) (hf : s.Fresh) (id' : ProcId) :
    ((s.release id o).proc id').dead = if id' = id then true else (s.proc id').dead :=
  ((settle_track _ id o.buffers _).dead (bury_fresh s id o hf) id').trans (bury_dead s id o id')

/-! ## Each step -/

/-- the actions whose business the standing side is -/
def Act.standing : Act → Bool
  | .openFile | .setContextMgr .. | .release .. | .count .. | .acquireDone .. | .death .. | .createHostService => true
  | _ => false

structure Basic (w : World) : Prop where
  fresh : w.st.Fresh
  host : (w.st.proc .host).dead = false
  guests : ∀ id, (w.areas.lookup id).isSome → id ≠ .host
  reads : ∀ th, (w.reads.lookup th).isSome → (w.areas.lookup th.1).isSome

theorem setContextMgr_calm (s : State) (id : ProcId) (flags : UInt32) (hf : s.Fresh) :
    Calm s (s.setContextMgr id flags) := by
  have h := localNode_calm s id 0 0 flags hf
  unfold State.setContextMgr
  split
  · exact Calm.refl s
  · dsimp only
    split
    · rename_i n hn
      refine (h.trans (Calm.setNode _ _ n { n with held := true } hn rfl rfl rfl)).trans ?_
      exact Calm.of_tables rfl rfl rfl rfl rfl rfl rfl
    · exact h.trans (Calm.of_tables rfl rfl rfl rfl rfl rfl rfl)

theorem createHostService_calm (s : State) (hf : s.Fresh) : Calm s s.createHostService := by
  have h0 : Calm s { s.touch .host with nextHostPtr := s.nextHostPtr + 1 } :=
    (Calm.setProc s .host _ rfl rfl rfl).trans (Calm.of_tables rfl rfl rfl rfl rfl rfl rfl)
  have h := h0.trans (localNode_calm _ .host (s.nextHostPtr + 1) (s.nextHostPtr + 1) 0 (h0.fresh hf))
  unfold State.createHostService
  dsimp only
  split
  · exact h
  · rename_i n hn
    exact h.trans (Calm.setNode _ _ n _ hn rfl rfl rfl)

namespace World

theorem updProc_still (w : World) (id : ProcId) (f : ProcState → ProcState) (h : ∀ p, (f p).table = p.table) :
    Still w.st (w.updProc id f).st := Still.setProc w.st id _ (h _)

theorem look_still (w : World) (th : Thread) (r : Reading) (env : LookEnv) : Still w.st (w.look th r env).st := by
  have h := take_table (w.st.proc th.1) env.spawn th.2
  unfold World.look
  split <;> (rename_i he; rw [he] at h; exact Still.setProc w.st th.1 _ h)

theorem failPlacing_track (w : World) (th : Thread) (r : Reading) (txn : Txn) :
    Track w.st (w.failPlacing th r txn).st := failUndelivered_track w.st th txn

theorem deliver_track (w : World) (th : Thread) (r : Reading) (item : Work) : Track w.st (w.deliver th r item).st := by
  unfold World.deliver
  split
  · split
    · exact failPlacing_track w th r _
    · exact .refl
  · exact .still (hear_still w.st th _)

theorem place_track (w : World) (th : Thread) (r : Reading) (txn : Txn) (buf : ℕ) (env : PlaceEnv) :
    Track w.st (w.place th r txn buf env).st := by
  unfold World.place
  dsimp only
  split
  · exact failPlacing_track _ th r txn
  · exact .still (placed_still w.st th buf txn)

theorem copyOut_track (w : World) (th : Thread) (r : Reading) (handed : Option Handed) (write : Except Errno Unit) :
    Track w.st (w.copyOut th r handed write).st := by
  unfold World.copyOut
  split
  · exact .refl
  · cases handed with
    | none => exact .refl
    | some h => exact undeliver_track w.st th h

theorem step_track (w : World) (hb : Basic w) (a : Act) (ha : a.standing = false) : Track w.st (step w a).st := by
  cases a with
  | setArea id base size => simp only [step]; split <;> exact .refl
  | setMaxThreads id n =>
    simp only [step]; split
    · exact .still (updProc_still w id _ fun _ => rfl)
    · exact .refl
  | readiness id =>
    simp only [step]; split
    · exact .still (updProc_still w id _ fun _ => rfl)
    · exact .refl
  | threadExit th =>
    simp only [step]; split
    · exact threadExit_track w.st th
    · exact .refl
  | writeRead th pid =>
    simp only [step]; split
    · exact .still (updProc_still w th.1 _ fun _ => rfl)
    · exact .refl
  | transaction th env tr =>
    simp only [step]; split
    · exact (Track.still (bump_still w.st)).trans (transaction_sent w.st env th tr hb.fresh hb.host).track
    · exact .refl
  | reply th env tr =>
    simp only [step]; split
    · exact (Track.still (Still.updThread w.st th _)).trans (reply_replied w.st env th tr hb.fresh hb.host).track
    · exact .refl
  | freeBuffer th ptr =>
    simp only [step]; split
    · exact freeRecord_track w.st th.1 ptr.toNat
    · exact .refl
  | looper th register =>
    simp only [step]; split
    · exact .still (updProc_still w th.1 _ fun _ => rfl)
    · exact .refl
  | exitLooper th =>
    simp only [step]; split
    · exact .still (updProc_still w th.1 _ fun _ => rfl)
    · exact .refl
  | startRead th size first nonblocking => simp only [step]; split <;> exact .refl
  | look th env =>
    simp only [step]; split
    · split
      · exact .still (look_still w th _ env)
      · exact .refl
    · exact .refl
  | deliver th =>
    simp only [step]; split
    · split
      · exact deliver_track w th _ _
      · exact .refl
    · exact .refl
  | place th env =>
    simp only [step]; split
    · split
      · exact place_track w th _ _ _ env
      · exact .refl
    · exact .refl
  | copyOut th write =>
    simp only [step]; split
    · split
      · exact copyOut_track w th _ _ write
      · exact .refl
    · exact .refl
  | endRead th =>
    simp only [step]; split
    · split
      · exact .still (updProc_still w th.1 _ fun p => endRead_table p th.2 _)
      · exact .refl
    · exact .refl
  | intercept h code f => exact .still (intercept_still w.st h code f)
  | hostTransact euid h code data offsets serving =>
    exact (Track.still (bump_still w.st)).trans
      (hostTransact_sent w.st euid h code data offsets serving hb.fresh).track
  | hostLook tid => exact .still (hostLook_still w.st tid)
  | hostGiveUp tid => exact .still (Still.setProc w.st .host _ rfl)
  | hostTransactOneway h code data offsets =>
    exact (Track.still (bump_still w.st)).trans (hostTransactOneway_sent w.st h code data offsets hb.fresh).track
  | hostReply i reply =>
    simp only [step, onState, State.hostReply]
    split
    · exact .refl
    · rename_i job _
      have h : Still w.st { w.st with jobs := w.st.jobs.eraseIdx i } := Still.of_tables rfl rfl rfl rfl rfl rfl
      exact (Track.still h).trans (hostAnswer_answered _ job reply (h.fresh hb.fresh)).track
  | _ => cases ha

/-- the standing actions, but for an open and a release, leave the traffic alone -/
theorem step_calm (w : World) (hf : w.st.Fresh) (a : Act) (ha : a.standing = true) (ho : a ≠ .openFile)
    (hr : ∀ id o, a ≠ .release id o) : Calm w.st (step w a).st := by
  cases a with
  | openFile => exact absurd rfl ho
  | release id o => exact absurd rfl (hr id o)
  | setContextMgr id flags =>
    simp only [step]; split
    · exact setContextMgr_calm w.st id flags hf
    · exact Calm.refl _
  | count th cmd h =>
    simp only [step]; split
    · exact countHandle_calm w.st th.1 cmd h
    · exact Calm.refl _
  | acquireDone th ptr i =>
    simp only [step]; split
    · exact acquireDone_calm w.st th.1 ptr i
    · exact Calm.refl _
  | death th request h cookie =>
    simp only [step]; split
    · exact deathNotification_calm w.st th request h cookie
    · exact Calm.refl _
  | createHostService => exact createHostService_calm w.st hf
  | _ => cases ha

/-! ## What holds throughout -/

theorem openFile_of_new (w : World) (h : w.st.procs.lookup (.guest (w.st.nextProc + 1)) = none)
    (ha : w.areas.lookup (.guest (w.st.nextProc + 1)) = none) :
    w.openFile = { w with
      st := State.setProc { w.st with nextProc := w.st.nextProc + 1 } (.guest (w.st.nextProc + 1)) {}
      areas := w.areas.insert (.guest (w.st.nextProc + 1)) {} } := by
  simp [openFile, h, ha]

/-- an open gives the next id to a process that is not there yet -/
theorem openFile_cases (w : World) : w.openFile = w ∨
    w.st.procs.lookup (.guest (w.st.nextProc + 1)) = none ∧ w.areas.lookup (.guest (w.st.nextProc + 1)) = none ∧
      w.openFile = { w with
        st := State.setProc { w.st with nextProc := w.st.nextProc + 1 } (.guest (w.st.nextProc + 1)) {}
        areas := w.areas.insert (.guest (w.st.nextProc + 1)) {} } := by
  cases hp : w.st.procs.lookup (.guest (w.st.nextProc + 1)) with
  | some p => left; simp [openFile, hp]
  | none =>
    cases ha : w.areas.lookup (.guest (w.st.nextProc + 1)) with
    | some a => left; simp [openFile, ha]
    | none => exact .inr ⟨rfl, rfl, openFile_of_new w hp ha⟩

/-- only an open opens -/
theorem step_areas (w : World) (hr : ∀ th, (w.reads.lookup th).isSome → (w.areas.lookup th.1).isSome) (a : Act)
    (ha : a ≠ .openFile) (id : ProcId) : ((step w a).areas.lookup id).isSome = (w.areas.lookup id).isSome := by
  have hread : ∀ {th r}, w.reads.lookup th = some r → (w.areas.lookup th.1).isSome := fun h => hr _ (by rw [h]; rfl)
  cases a with
  | openFile => exact absurd rfl ha
  | setArea id' base size =>
    simp only [step]; split
    · rename_i a ha; exact Map.insert_isSome _ _ _ _ (by rw [ha]; rfl)
    · rfl
  | freeBuffer th ptr =>
    simp only [step]; split
    · rename_i hc
      simp only [commanding, Bool.and_eq_true] at hc
      exact Map.insert_isSome _ _ _ _ hc.1
    · rfl
  | look th env =>
    simp only [step]; split
    · split
      · unfold look; split <;> rfl
      · rfl
    · rfl
  | deliver th =>
    simp only [step]; split
    · rename_i r hth
      split
      · unfold deliver; split
        · split
          · rfl
          · exact Map.insert_isSome _ _ _ _ (hread hth)
        · rfl
      · rfl
    · rfl
  | place th env =>
    simp only [step]; split
    · rename_i r hth
      split
      · unfold place; dsimp only; split
        · exact Map.insert_isSome _ _ _ _ (hread hth)
        · rfl
      · rfl
    · rfl
  | copyOut th write =>
    simp only [step]; split
    · rename_i r hth
      split
      · rename_i handed _
        unfold copyOut; split
        · rfl
        · cases handed with
          | none => rfl
          | some h => exact Map.insert_isSome _ _ _ _ (hread hth)
      · rfl
    · rfl
  | endRead th =>
    simp only [step]; split
    · split <;> rfl
    · rfl
  | _ => simp only [step]; first | rfl | (split <;> rfl)

/-- only a thread that may give a command starts a read -/
theorem step_reads (w : World) (a : Act) (th : Thread) (h : ((step w a).reads.lookup th).isSome) :
    (w.reads.lookup th).isSome ∨ (w.areas.lookup th.1).isSome := by
  have hset : ∀ {th'} {r r' : Reading}, w.reads.lookup th' = some r →
      ((w.reads.insert th' r').lookup th).isSome → (w.reads.lookup th).isSome := fun hr h => by
    rwa [Map.insert_isSome _ _ _ _ (by rw [hr]; rfl)] at h
  cases a with
  | startRead th' size first nonblocking =>
    simp only [step] at h
    split at h
    · rename_i hc
      simp only [commanding, Bool.and_eq_true] at hc
      simp only [setReading, Map.lookup_insert_eq] at h
      split_ifs at h with he
      · exact .inr (he ▸ hc.1)
      · exact .inl h
    · exact .inl h
  | openFile =>
    simp only [step, openFile] at h
    split at h <;> exact .inl h
  | look th' env =>
    simp only [step] at h
    split at h
    · rename_i r hr
      split at h
      · unfold look at h; split at h <;> exact .inl (hset hr h)
      · exact .inl h
    · exact .inl h
  | deliver th' =>
    simp only [step] at h
    split at h
    · rename_i r hr
      split at h
      · unfold deliver at h; split at h
        · split at h <;> exact .inl (hset hr h)
        · exact .inl (hset hr h)
      · exact .inl h
    · exact .inl h
  | place th' env =>
    simp only [step] at h
    split at h
    · rename_i r hr
      split at h
      · unfold place at h; dsimp only at h; split at h <;> exact .inl (hset hr h)
      · exact .inl h
    · exact .inl h
  | copyOut th' write =>
    simp only [step] at h
    split at h
    · rename_i r hr
      split at h
      · rename_i handed _
        unfold copyOut at h; split at h
        · exact .inl (hset hr h)
        · cases handed <;> exact .inl (hset hr h)
      · exact .inl h
    · exact .inl h
  | endRead th' =>
    simp only [step] at h
    split at h
    · split at h
      · simp only [endRead, Map.lookup_erase_eq] at h
        split_ifs at h
        · cases h
        · exact .inl h
      · exact .inl h
    · exact .inl h
  | _ => simp only [step] at h; first | exact .inl h | (split at h <;> exact .inl h)

theorem step_dead (w : World) (hb : Basic w) (a : Act) (ha : a ≠ .openFile) (id : ProcId) :
    ((step w a).st.proc id).dead = (w.st.proc id).dead ∨ ∃ o, a = .release id o := by
  by_cases hr : ∃ id' o, a = .release id' o
  · obtain ⟨id', o, rfl⟩ := hr
    by_cases hid : id = id'
    · exact .inr ⟨o, by rw [hid]⟩
    · left
      simp only [step]; split
      · exact (release_dead w.st id' o hb.fresh id).trans (if_neg hid)
      · rfl
  · left
    cases hst : a.standing with
    | true => exact (step_calm w hb.fresh a hst ha fun id' o he => hr ⟨id', o, he⟩).dead id
    | false => exact (step_track w hb a hst).dead hb.fresh id

theorem step_fresh (w : World) (hb : Basic w) (a : Act) : (step w a).st.Fresh := by
  by_cases ho : a = .openFile
  · subst ho
    simp only [step]
    unfold openFile
    dsimp only
    split <;> exact hb.fresh
  by_cases hr : ∃ id o, a = .release id o
  · obtain ⟨id, o, rfl⟩ := hr
    simp only [step]; split
    · exact (settle_track _ id o.buffers _).fresh (bury_fresh w.st id o hb.fresh)
    · exact hb.fresh
  · cases hst : a.standing with
    | true => exact (step_calm w hb.fresh a hst ho fun id' o he => hr ⟨id', o, he⟩).fresh hb.fresh
    | false => exact (step_track w hb a hst).fresh hb.fresh

theorem step_basic (w : World) (hb : Basic w) (a : Act) : Basic (step w a) := by
  by_cases ho : a = .openFile
  · subst ho
    have hf := step_fresh w hb .openFile
    rcases openFile_cases w with h | ⟨hp, ha, h⟩
    · simp only [step, h]; exact hb
    · simp only [step, h] at hf ⊢
      refine ⟨hf, ?_, ?_, ?_⟩
      · rw [State.proc_setProc, if_neg (by simp)]; exact hb.host
      · intro id hid
        rw [Map.lookup_insert_eq] at hid
        split_ifs at hid with he
        · rw [he]; simp
        · exact hb.guests id hid
      · intro th hth
        rw [Map.lookup_insert_eq]
        split_ifs
        · rfl
        · exact hb.reads th hth
  · refine ⟨step_fresh w hb a, ?_, ?_, ?_⟩
    · rcases step_dead w hb a ho .host with h | ⟨o, rfl⟩
      · rw [h]; exact hb.host
      · simp only [step]; split
        · rename_i hc; exact absurd rfl (hb.guests _ hc.1)
        · exact hb.host
    · intro id hid
      rw [step_areas w hb.reads a ho] at hid
      exact hb.guests id hid
    · intro th hth
      rw [step_areas w hb.reads a ho]
      rcases step_reads w a th hth with h | h
      · exact hb.reads th h
      · exact h

end World

theorem basic_init (refcount : Bool) : Basic (World.init refcount) :=
  ⟨fun _ _ => rfl, rfl, fun _ h => (Bool.noConfusion h), fun _ h => (Bool.noConfusion h)⟩

theorem reach_basic {ok : World → Act → Prop} {refcount : Bool} {w : World}
    (h : Reach World.step ok (World.init refcount) w) : Basic w :=
  h.invariant Basic (basic_init refcount) fun w a _ _ hb => World.step_basic w hb a

end Omnidroid.Binder
