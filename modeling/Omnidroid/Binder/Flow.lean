/-
What the ends of a transaction do to a ledger: an answer told, work dropped, a thread gone, a process released, a
delivery taken back; and what each step of a read does.

The actions that move no transaction are calm, and leave every ledger as it was (`World.step_idle`,
`World.total_idle`). Each result about transactions has only the rest to go through.
-/
import Omnidroid.Binder.Track

namespace Omnidroid.Binder

namespace Weights

variable (W : Weights)

/-! ## Answers and dropped work -/

/-- what `answer` to `txn` weighs where its sender reads it -/
def told (txn : Txn) (answer : Work) : ℕ :=
  if txn.isCall then sum (fun c : Thread => W.todo c.1 (some c.2) answer) txn.from_.toList else 0

theorem state_tellSender (s : State) (txn : Txn) (answer : Work) :
    W.state (s.tellSender txn answer) = W.state s + W.told txn answer := by
  unfold State.tellSender told
  cases txn.from_ with
  | none => simp
  | some c =>
    dsimp only
    split
    · simp [state_queue]
    · rfl

theorem state_unpin (s : State) (l : List NodeId) : W.state (s.unpin l) = W.state s := (unpin_calm s l).weight W

theorem state_eraseThread (s : State) (id : ProcId) (tid : Tid) :
    W.state (s.setProc id { s.proc id with threads := (s.proc id).threads.erase tid }) +
      W.thread id tid (s.thread (id, tid)) = W.state s := by
  have h := W.state_setProc s id { s.proc id with threads := (s.proc id).threads.erase tid }
  have he := Map.weigh_erase (W.thread id) (s.proc id).threads tid
  rw [Map.weighAt_getD (W.thread id) (s.proc id).threads tid {} (W.thread_default id tid)] at he
  simp only [proc, State.thread, ProcState.thread] at h he ⊢
  omega

theorem state_dropBuffer (id : ProcId) (s : State) (addr : ℕ) :
    W.state (State.dropBuffer id s addr) + sum (W.buffer (id, addr)) (s.buffers.lookup (id, addr)).toList =
      W.state s := by
  unfold State.dropBuffer
  cases h : s.buffers.lookup (id, addr) with
  | none => rfl
  | some b =>
    have hs := W.state_eraseBuffer s (id, addr) b h
    simp only [Option.toList_some, sum_cons, sum_nil, state_unpin]
    omega

theorem state_eraseJob (s : State) {i : ℕ} {j : HostJob} (h : s.jobs[i]? = some j) :
    W.state { s with jobs := s.jobs.eraseIdx i } + W.job j = W.state s := by
  have hs := sum_eraseIdx W.job h
  simp only [state]
  omega

theorem state_handOff (s : State) (th : Thread) (oneway : Bool) (k : ℕ) :
    W.state (s.handOff th oneway k) = W.state s + W.job ⟨th, oneway, k⟩ := by
  simp only [state, State.handOff, sum_append, sum_cons, sum_nil]
  omega

/-- an answer that weighs nothing may be told -/
theorem told_eq_zero {answer : Work} (h : ∀ id t, W.todo id (some t) answer = 0) (txn : Txn) :
    W.told txn answer = 0 := by
  unfold told
  rw [sum_eq_zero fun _ => h _ _]
  split <;> rfl

section Level

variable {W} (hl : W.Level)
include hl

theorem Level.state_doneWith (s : State) (node : Option NodeId) (owner : ProcId) :
    W.state (s.doneWith node owner) = W.state s := by
  cases node with
  | none => rfl
  | some n => exact hl.state_asyncDone s n owner

theorem Level.state_freeRecord (s : State) (id : ProcId) (buf : ℕ) :
    W.state (s.freeRecord id buf) + sum (W.buffer (id, buf)) (s.buffers.lookup (id, buf)).toList = W.state s := by
  unfold State.freeRecord
  cases h : s.buffers.lookup (id, buf) with
  | none => rfl
  | some b =>
    have hs := W.state_eraseBuffer s (id, buf) b h
    simp only [Option.toList_some, sum_cons, sum_nil, state_unpin, hl.state_doneWith]
    omega

end Level

/-! ## A release -/

theorem tellWatchers_threads (s : State) (l : List (ProcId × UInt64)) (id : ProcId) :
    ((s.tellWatchers l).proc id).threads = (s.proc id).threads := by
  induction l generalizing s with
  | nil => rfl
  | cons w l ih =>
    refine (ih _).trans ?_
    simp only [State.queue, State.proc_setProc]
    split_ifs with h
    · rw [h]
    · rfl

theorem killNode_threads (s : State) (node : NodeId) (id : ProcId) :
    ((s.killNode node).1.proc id).threads = (s.proc id).threads := by
  unfold State.killNode
  split
  · rfl
  · have hd : ∀ s : State, ((s.dropContextMgr node).proc id) = s.proc id := fun s => by
      unfold State.dropContextMgr; split <;> rfl
    rw [hd, tellWatchers_threads]; rfl

theorem killNodes_threads (s : State) (l : List NodeId) (id : ProcId) :
    ((s.killNodes l).1.proc id).threads = (s.proc id).threads := by
  induction l generalizing s with
  | nil => rfl
  | cons n l ih => exact (ih _).trans (killNode_threads s n id)

theorem sum_flatten {α : Type} (f : α → ℕ) (l : List (List α)) : sum f l.flatten = (l.map (sum f)).sum := by
  induction l with
  | nil => rfl
  | cons a l ih => rw [List.flatten_cons, sum_append, ih, List.map_cons, List.sum_cons]

/-- a released process's queues and threads, and its nodes' waiting oneways, become its remains -/
theorem state_bury {f : Work → ℕ} {g : Served → ℕ} (s : State) (id : ProcId) (o : ReleaseOrder) (ho : o.Valid s id)
    (ht : ∀ tid w, W.todo id tid w = f w) (ha : ∀ n w, W.async n w = f w)
    (hg : ∀ tid sv, W.serving (id, tid) sv = g sv) :
    W.state (s.bury id o).1 + (sum g (s.bury id o).2.serving + sum f (s.bury id o).2.dropped) = W.state s := by
  set s₁ := (s.killNodes o.nodes).1.forgetRelayouts id with hs₁
  have h1 := W.state_killNodes ha s o.nodes
  have h2 := W.state_setProc s₁ id (s₁.proc id).released
  have hth : (s₁.proc id).threads = (s.proc id).threads := killNodes_threads s o.nodes id
  have h3 : Map.weigh (W.thread id) (s₁.proc id).threads =
      sum f ((o.threads.map (s₁.proc id).thread).map (·.todo)).flatten +
        sum g ((o.threads.map (s₁.proc id).thread).map (·.serving)).flatten := by
    rw [Map.weigh_eq_sum_keys (W.thread id) (s₁.proc id).threads {} (hth ▸ ho.2.1), sum_flatten, sum_flatten]
    generalize o.threads = l
    induction l with
    | nil => rfl
    | cons t l ih =>
      have hw : W.thread id t ((s₁.proc id).thread t) =
          sum f ((s₁.proc id).thread t).todo + sum g ((s₁.proc id).thread t).serving := by
        rw [thread, show W.todo id (some t) = f from funext (ht _), show W.serving (id, t) = g from funext (hg t)]
      simp only [List.map_cons, List.sum_cons]
      rw [ih, show ((s₁.proc id).threads.lookup t).getD {} = (s₁.proc id).thread t from rfl, hw]
      omega
  have h4 : W.proc id (s₁.proc id).released = 0 := rfl
  have h5 : W.proc id (s₁.proc id) = sum f (s₁.proc id).todo + Map.weigh (W.thread id) (s₁.proc id).threads := by
    rw [proc, show W.todo id none = f from funext (ht none)]
  have h6 : W.state s₁ = W.state (s.killNodes o.nodes).1 := W.state_congr rfl rfl rfl rfl
  have hb : (s.bury id o).1 = s₁.setProc id (s₁.proc id).released := rfl
  have hr : sum f (s.bury id o).2.dropped = sum f (s.killNodes o.nodes).2 + sum f (s₁.proc id).todo +
      sum f ((o.threads.map (s₁.proc id).thread).map (·.todo)).flatten := by
    rw [← sum_append, ← sum_append]; rfl
  have hv : (s.bury id o).2.serving = ((o.threads.map (s₁.proc id).thread).map (·.serving)).flatten := rfl
  rw [hb, hr, hv]
  omega

theorem state_releases (l : List NodeId) (s : State) :
    W.state (l.foldl State.releaseIfUnreferenced s) = W.state s :=
  (Calm.foldl releaseIfUnreferenced_calm l s).weight W

/-! ## A read -/

theorem proc_idle (id : ProcId) (p : ProcState) (tid : Tid) (b : Bool) :
    W.proc id (p.setThread tid { p.thread tid with idle := b }) = W.proc id p := by
  have h := W.proc_setThread id p tid { p.thread tid with idle := b }
  have ht : W.thread id tid { p.thread tid with idle := b } = W.thread id tid (p.thread tid) := rfl
  omega

end Weights

open Weights in
theorem take_weighs (id : ProcId) (p : ProcState) (env : SpawnEnv) (tid : Tid) :
    ∃ src, (src = none ∨ src = some tid) ∧ ∀ W : Weights,
      W.proc id (p.take env tid).1 + sum (W.todo id src) (p.take env tid).2.1.toList = W.proc id p := by
  unfold ProcState.take
  dsimp only
  split
  · rename_i w rest htodo
    refine ⟨some tid, .inr rfl, fun W => ?_⟩
    have h := W.proc_setThread id p tid { p.thread tid with todo := rest, idle := false }
    simp only [thread, htodo, sum_cons] at h
    simp only [Option.toList_some, sum_cons, sum_nil]
    omega
  · split
    · split
      · rename_i w rest htodo
        refine ⟨none, .inl rfl, fun W => ?_⟩
        have h1 := W.proc_setThread id { p with todo := rest } tid (p.thread tid)
        rw [show ProcState.thread { p with todo := rest } tid = p.thread tid from rfl] at h1
        have h2 := W.proc_idle id (ProcState.setThread { p with todo := rest } tid (p.thread tid)) tid false
        rw [ProcState.thread_setThread, if_pos rfl] at h2
        have h3 : W.proc id p = W.todo id none w + W.proc id { p with todo := rest } := by
          simp only [proc, htodo, sum_cons]; omega
        simp only [Option.toList_some, sum_cons, sum_nil]
        rw [h3, ← Nat.add_right_cancel h1, ← h2]
        exact Nat.add_comm _ _
      · exact ⟨none, .inl rfl, fun W => by simp [proc_idle]⟩
    · exact ⟨none, .inl rfl, fun W => by simp [proc_idle]⟩

open Weights in
/-- what a look takes leaves the thread's queue, or its process's -/
theorem State.take_weighs (s : State) (id : ProcId) (env : SpawnEnv) (tid : Tid) :
    ∃ src, (src = none ∨ src = some tid) ∧ ∀ W : Weights, W.state (s.setProc id ((s.proc id).take env tid).1) +
      sum (W.todo id src) ((s.proc id).take env tid).2.1.toList = W.state s := by
  obtain ⟨src, hsrc, h⟩ := Binder.take_weighs id (s.proc id) env tid
  refine ⟨src, hsrc, fun W => ?_⟩
  have hs := W.state_setProc s id ((s.proc id).take env tid).1
  have hW := h W
  omega

theorem idle_item (r : Reading) (env : LookEnv) (released : Bool) :
    Reading.item { r with phase := r.idle env released } = none := by
  unfold Reading.idle
  repeat' split
  all_goals rfl

/-- what a look takes is in the thread's hands -/
theorem World.look_eq (w : World) (th : Thread) (r : Reading) (env : LookEnv) :
    ∃ r', w.look th r env =
        World.setReading { w with st := w.st.setProc th.1 ((w.st.proc th.1).take env.spawn th.2).1 } th r' ∧
      r'.item = ((w.st.proc th.1).take env.spawn th.2).2.1 := by
  unfold World.look
  split
  · rename_i he; rw [he]; exact ⟨_, rfl, rfl⟩
  · rename_i he; rw [he]; exact ⟨_, rfl, idle_item r env _⟩

theorem World.place_error {w : World} {th : Thread} {r : Reading} {t : Txn} {buf : ℕ} {env : PlaceEnv} {e : Errno}
    (he : (fill env t buf).result = .error e) :
    w.place th r t buf env = World.failPlacing { w with
      areas := w.areas.insert th.1 (((w.areas.lookup th.1).getD {}).free buf) } th r t := by
  simp only [World.place, he]

/-- a transaction in its buffer is out of its thread's hands -/
theorem World.place_ok (w : World) (th : Thread) (r : Reading) {t : Txn} {buf : ℕ} {env : PlaceEnv} {b : Bytes}
    (he : (fill env t buf).result = .ok b) :
    ∃ fds, w.place th r t buf env = World.setReading (w.onState fun s => s.placed th buf t) th
      { r with
        out := r.out ++ le32 t.cmd ++ t.trBytes buf
        phase := .written (.txn t) (some ⟨buf, fds, t.reply, t.oneway, t.from_, t.serial⟩) } := by
  simp only [World.place, he]
  exact ⟨_, rfl⟩

namespace Weights

variable (W : Weights)

/-- of what is true beside what is in hand, a read changes its thread's part -/
theorem hands_read {P Q : ℕ → Prop} {w w' : World} {th : Thread} {r r' : Reading} (hr : w.reads.lookup th = some r)
    (h : w'.reads = w.reads.insert th r') (hs : ∀ c, P (c + W.reading th r) → Q (c + W.reading th r'))
    (hb : P (Map.weigh W.reading w.reads)) : Q (Map.weigh W.reading w'.reads) := by
  have hi := Map.weigh_insert W.reading w.reads th r'
  rw [Map.weighAt_some hr] at hi
  have hle : W.reading th r ≤ Map.weigh W.reading w.reads := Map.le_weigh (w := W.reading) hr
  obtain ⟨c, hc⟩ := Nat.exists_eq_add_of_le' hle
  rw [hc] at hb hi
  rw [h, show Map.weigh W.reading (w.reads.insert th r') = c + W.reading th r' by omega]
  exact hs c hb

theorem total_of_reads {w w' : World} (h : w'.reads = w.reads) :
    W.total w' + W.state w.st = W.total w + W.state w'.st := by
  simp only [total, h]
  omega

end Weights

/-! ## Who serves and who waits -/

/-- the threads serve what they served and wait for what they waited for -/
structure Steady (s s' : State) : Prop where
  serving : ∀ th, (s'.thread th).serving = (s.thread th).serving
  waits : ∀ th, (s'.thread th).waits = (s.thread th).waits
  nextSerial : s'.nextSerial = s.nextSerial

namespace Steady

theorem refl (s : State) : Steady s s := ⟨fun _ => rfl, fun _ => rfl, rfl⟩

theorem trans {s t u : State} (h1 : Steady s t) (h2 : Steady t u) : Steady s u :=
  ⟨fun th => (h2.serving th).trans (h1.serving th), fun th => (h2.waits th).trans (h1.waits th),
    h2.nextSerial.trans h1.nextSerial⟩

theorem of_procs {s s' : State} (h : s'.procs = s.procs) (hn : s'.nextSerial = s.nextSerial) : Steady s s' :=
  ⟨fun th => by simp only [State.thread, State.proc, h], fun th => by simp only [State.thread, State.proc, h], hn⟩

theorem queue (s : State) (id : ProcId) (tid : Option Tid) (work : Work) : Steady s (s.queue id tid work) := by
  cases tid with
  | none =>
    refine ⟨fun th => ?_, fun th => ?_, rfl⟩ <;>
    · simp only [State.queue, State.thread_setProc]
      split_ifs with h
      · rw [← h]; rfl
      · rfl
  | some t =>
    refine ⟨fun th => ?_, fun th => ?_, rfl⟩ <;>
    · simp only [State.queue, State.thread_updThread]
      split_ifs with h
      · rw [h]
      · rfl

theorem andQueue {s t : State} {id : ProcId} {tid : Option Tid} {work : Work} (h : Steady s t) :
    Steady s (t.queue id tid work) :=
  h.trans (queue t id tid work)

theorem foldl {α : Type} {f : State → α → State} (hf : ∀ s a, Steady s (f s a)) (l : List α) (s : State) :
    Steady s (l.foldl f s) := by
  induction l generalizing s with
  | nil => exact refl s
  | cons a l ih => exact (hf s a).trans (ih (f s a))

theorem asyncDone (s : State) (node : NodeId) (owner : ProcId) : Steady s (s.asyncDone node owner) := by
  unfold State.asyncDone
  split
  · exact refl s
  · split
    · exact of_procs rfl rfl
    · exact andQueue (of_procs rfl rfl)

theorem doneWith (s : State) (node : Option NodeId) (owner : ProcId) : Steady s (s.doneWith node owner) := by
  cases node with
  | none => exact refl s
  | some n => exact asyncDone s n owner

theorem queueOneway (s : State) (target : ProcId) (node : NodeId) (txn : Txn) :
    Steady s (s.queueOneway target node txn) := by
  unfold State.queueOneway
  dsimp only
  split
  · exact queue _ _ _ _
  · split
    · exact of_procs rfl rfl
    · exact andQueue (of_procs rfl rfl)

theorem tellSender (s : State) (txn : Txn) (answer : Work) : Steady s (s.tellSender txn answer) := by
  unfold State.tellSender
  split
  · split
    · exact queue _ _ _ _
    · exact refl s
  · exact refl s

end Steady

theorem Calm.steady {s s' : State} (h : Calm s s') : Steady s s' := ⟨h.serving, h.waits, h.nextSerial⟩

theorem dropWork_steady (id : ProcId) (s : State) (w : Work) : Steady s (State.dropWork id s w) := by
  cases w with
  | txn t => exact ((Steady.tellSender s t _).trans (Steady.doneWith _ _ _)).trans (unpin_calm _ _).steady
  | _ => exact Steady.refl s

theorem failServed_steady (s : State) (sv : Served) : Steady s (s.failServed sv) := by
  unfold State.failServed
  split
  · exact Steady.queue _ _ _ _
  · exact Steady.refl s

theorem dropBuffer_steady (id : ProcId) (s : State) (addr : ℕ) : Steady s (State.dropBuffer id s addr) := by
  unfold State.dropBuffer
  split
  · exact Steady.refl s
  · refine Steady.trans ?_ (unpin_calm _ _).steady
    exact Steady.of_procs rfl rfl

theorem freeRecord_steady (s : State) (id : ProcId) (buf : ℕ) : Steady s (s.freeRecord id buf) := by
  unfold State.freeRecord
  split
  · exact Steady.refl s
  · refine Steady.trans (Steady.trans ?_ (Steady.doneWith _ _ _)) (unpin_calm _ _).steady
    exact Steady.of_procs rfl rfl

theorem recordBuffer_steady (s : State) (th : Thread) (buf : ℕ) (txn : Txn) : Steady s (s.recordBuffer th buf txn) := by
  unfold State.recordBuffer
  split <;> exact Steady.of_procs rfl rfl

theorem logDelivered_steady (s : State) (node : Option NodeId) (k : ℕ) : Steady s (s.logDelivered node k) := by
  unfold State.logDelivered
  repeat' split
  all_goals exact Steady.of_procs rfl rfl

theorem settle_steady (s : State) (id : ProcId) (buffers : List ℕ) (r : Remains) : Steady s (s.settle id buffers r) :=
  (((Steady.foldl failServed_steady r.serving s).trans (Steady.foldl (dropWork_steady id) r.dropped _)).trans
    (Steady.foldl (dropBuffer_steady id) buffers _)).trans
    (Calm.foldl releaseIfUnreferenced_calm r.held _).steady

theorem killNodes_steady (s : State) (l : List NodeId) : Steady s (s.killNodes l).1 := by
  induction l generalizing s with
  | nil => exact Steady.refl s
  | cons n l ih =>
    refine Steady.trans ?_ (ih (s.killNode n).1)
    unfold State.killNode
    split
    · exact Steady.refl s
    · refine Steady.trans ?_ (dropContextMgr_calm _ n).steady
      refine Steady.trans ?_ (tellWatchers_calm _ _).steady
      exact Steady.of_procs rfl rfl

/-- a release takes the threads of its process, and only those -/
theorem bury_thread (s : State) (id : ProcId) (o : ReleaseOrder) (th : Thread) :
    ((s.bury id o).1.thread th).serving = (if th.1 = id then [] else (s.thread th).serving) ∧
      ((s.bury id o).1.thread th).waits = (if th.1 = id then [] else (s.thread th).waits) ∧
      (s.bury id o).1.nextSerial = s.nextSerial := by
  have hk : Steady s ((s.killNodes o.nodes).1.forgetRelayouts id) :=
    (killNodes_steady s o.nodes).trans (Steady.of_procs rfl rfl)
  have hb : (s.bury id o).1.thread th =
      if th.1 = id then {} else ((s.killNodes o.nodes).1.forgetRelayouts id).thread th := by
    simp only [State.bury, State.thread_setProc]
    split_ifs <;> rfl
  refine ⟨?_, ?_, hk.nextSerial⟩
  · rw [hb]; split_ifs
    · rfl
    · exact hk.serving th
  · rw [hb]; split_ifs
    · rfl
    · exact hk.waits th

/-! ## The actions that move no transaction -/

/-- the actions that move transactions -/
def Act.traffic : Act → Bool
  | .release .. | .threadExit .. | .transaction .. | .reply .. | .freeBuffer .. | .look .. | .deliver .. | .place ..
  | .copyOut .. | .hostTransact .. | .hostLook .. | .hostGiveUp .. | .hostTransactOneway .. | .hostReply .. => true
  | _ => false

theorem State.setProc_setProc (s : State) (id : ProcId) (p q : ProcState) :
    (s.setProc id p).setProc id q = s.setProc id q := by
  simp [State.setProc, AList.insert_insert]

/-- a process's counters and one thread's marks may change -/
theorem Calm.mark (s : State) (th : Thread) (p : ProcState) (t : ThreadState) (hd : p.dead = (s.proc th.1).dead)
    (hp : p.todo = (s.proc th.1).todo) (hth : p.threads = (s.proc th.1).threads) (ht : t.todo = (s.thread th).todo)
    (hs : t.serving = (s.thread th).serving) (hw : t.waits = (s.thread th).waits) :
    Calm s (s.setProc th.1 (p.setThread th.2 t)) := by
  have h0 : Calm s (s.setProc th.1 p) := Calm.setProc s th.1 p hd hp hth
  have hthr : (s.setProc th.1 p).thread th = s.thread th := by
    rw [State.thread_setProc, if_pos rfl]; simp only [ProcState.thread, hth]; rfl
  have h1 : Calm (s.setProc th.1 p) ((s.setProc th.1 p).updThread th fun _ => t) :=
    Calm.updThread _ th _ (by rw [hthr, hs]) (by rw [hthr, hw]) fun W => by rw [hthr]; simp [Weights.thread, ht, hs]
  have he : (s.setProc th.1 p).updThread th (fun _ => t) = s.setProc th.1 (p.setThread th.2 t) := by
    rw [State.updThread, State.setProc_setProc, State.proc_setProc, if_pos rfl]
  exact he ▸ h0.trans h1

theorem endRead_calm (s : State) (th : Thread) (failed : Bool) :
    Calm s (s.setProc th.1 ((s.proc th.1).endRead th.2 failed)) := by
  unfold ProcState.endRead
  dsimp only
  cases h : (s.proc th.1).threads.lookup th.2 with
  | none => exact Calm.setProc s th.1 _ rfl rfl rfl
  | some t =>
    have ht : s.thread th = t := by simp [State.thread, ProcState.thread, h]
    exact Calm.mark s th
      { s.proc th.1 with spawnRequested := if failed then (s.proc th.1).spawnRequested - 1 else (s.proc th.1).spawnRequested }
      { t with idle := false } rfl rfl rfl (by rw [ht]) (by rw [ht]) (by rw [ht])

theorem intercept_calm (s : State) (handle code : UInt32) (f : Bytes → Option Bytes) :
    Calm s (s.intercept handle code f) := by
  unfold State.intercept
  split
  · exact Calm.refl s
  · exact Calm.of_tables rfl rfl rfl rfl rfl rfl rfl

namespace World

theorem openFile_calm (w : World) : Calm w.st w.openFile.st := by
  rcases openFile_cases w with h | ⟨hp, -, h⟩
  · rw [h]; exact Calm.refl _
  · rw [h]
    have h0 : Calm w.st { w.st with nextProc := w.st.nextProc + 1 } := Calm.of_tables rfl rfl rfl rfl rfl rfl rfl
    have hd : State.proc { w.st with nextProc := w.st.nextProc + 1 } (.guest (w.st.nextProc + 1)) = {} := by
      simp [State.proc, hp]
    exact h0.trans (Calm.setProc _ _ _ (by rw [hd]) (by rw [hd]) (by rw [hd]))

theorem step_idle (w : World) (hb : Basic w) (a : Act) (ha : a.traffic = false) : Calm w.st (step w a).st := by
  cases hst : a.standing with
  | true =>
    by_cases ho : a = .openFile
    · subst ho; exact openFile_calm w
    · exact step_calm w hb.fresh a hst ho fun id o he => by rw [he] at ha; cases ha
  | false =>
    cases a with
    | setArea id base size => simp only [step]; split <;> exact Calm.refl _
    | setMaxThreads id n =>
      simp only [step]; split
      · exact Calm.setProc w.st id _ rfl rfl rfl
      · exact Calm.refl _
    | readiness id =>
      simp only [step]; split
      · exact Calm.setProc w.st id _ rfl rfl rfl
      · exact Calm.refl _
    | writeRead th pid =>
      simp only [step]; split
      · exact Calm.mark w.st th { w.st.proc th.1 with pid := pid } _ rfl rfl rfl rfl rfl rfl
      · exact Calm.refl _
    | looper th register =>
      simp only [step]; split
      · exact Calm.mark w.st th { w.st.proc th.1 with
          spawnRequested := if register then (w.st.proc th.1).spawnRequested - 1 else (w.st.proc th.1).spawnRequested }
          _ rfl rfl rfl rfl rfl rfl
      · exact Calm.refl _
    | exitLooper th =>
      simp only [step]; split
      · exact Calm.mark w.st th (w.st.proc th.1) _ rfl rfl rfl rfl rfl rfl
      · exact Calm.refl _
    | startRead th size first nonblocking => simp only [step]; split <;> exact Calm.refl _
    | endRead th =>
      simp only [step]; split
      · split
        · exact endRead_calm w.st th _
        · exact Calm.refl _
      · exact Calm.refl _
    | intercept h code f => exact intercept_calm w.st h code f
    | _ => first | exact Bool.noConfusion ha | exact Bool.noConfusion hst

/-- the reads after a step that moves no transaction: one may have begun, or one that holds nothing ended -/
theorem reads_idle (w : World) (a : Act) (ha : a.traffic = false) :
    (step w a).reads = w.reads ∨
      (∃ th r, w.reads.lookup th = none ∧ r.item = none ∧ (step w a).reads = w.reads.insert th r) ∨
      ∃ th r, w.reads.lookup th = some r ∧ r.item = none ∧ (step w a).reads = w.reads.erase th := by
  cases a with
  | startRead th size first nonblocking =>
    simp only [step]; split
    · rename_i hc
      simp only [commanding, Bool.and_eq_true, Option.isNone_iff_eq_none] at hc
      exact .inr (.inl ⟨th, _, hc.2, rfl, rfl⟩)
    · exact .inl rfl
  | endRead th =>
    simp only [step]; split
    · rename_i r hr
      split
      · rename_i result hph
        exact .inr (.inr ⟨th, r, hr, by simp [Reading.item, hph], rfl⟩)
      · exact .inl rfl
    · exact .inl rfl
  | openFile =>
    simp only [step]
    rcases openFile_cases w with h | ⟨-, -, h⟩ <;> rw [h] <;> exact .inl rfl
  | _ =>
    first
      | exact Bool.noConfusion ha
      | exact .inl rfl
      | (simp only [step]; split <;> exact .inl rfl)

theorem total_idle (W : Weights) (w : World) (hb : Basic w) (a : Act) (ha : a.traffic = false) :
    W.total (step w a) = W.total w := by
  have hs := (step_idle w hb a ha).weight W
  have hz : ∀ th r, r.item = none → W.reading th r = 0 := fun th r h => by simp [Weights.reading, h]
  unfold Weights.total
  rw [hs]
  rcases reads_idle w a ha with h | ⟨th, r, hn, hi, h⟩ | ⟨th, r, hsome, hi, h⟩
  · rw [h]
  · have hw := Map.weigh_insert W.reading w.reads th r
    rw [Map.weighAt_none hn, hz th r hi] at hw
    rw [h]; omega
  · have hw := Map.weigh_erase W.reading w.reads th
    rw [Map.weighAt_some hsome, hz th r hi] at hw
    rw [h]; omega

end World

/-! ## What a thread serves -/

/-- the actions that may change what `th` serves -/
def Act.touches (th : Thread) : Act → Bool
  | .reply th' .. | .threadExit th' | .place th' _ | .copyOut th' _ => th' = th
  | .release id _ => id = th.1
  | .hostLook _ | .hostGiveUp _ => th.1 = .host
  | _ => false

section Serving

variable {s s' : State} {th th' : Thread}

theorem serving_updThread (s : State) (th th' : Thread) (f : ThreadState → ThreadState)
    (h : th = th' → (f (s.thread th')).serving = (s.thread th').serving) :
    ((s.updThread th' f).thread th).serving = (s.thread th).serving := by
  rw [State.thread_updThread]
  split_ifs with he
  · rw [h he, he]
  · rfl

theorem Moves.serving (h : Moves s s') (hf : s.Fresh) (th : Thread) : (s'.thread th).serving = (s.thread th).serving :=
  (h.calm hf).serving th

theorem serving_queue (s : State) (id : ProcId) (tid : Option Tid) (w : Work) (th : Thread) :
    ((s.queue id tid w).thread th).serving = (s.thread th).serving := (Steady.queue s id tid w).serving th

theorem Sent.serving {k : ℕ} (h : Sent s th' k s') (hf : s.Fresh) (th : Thread) :
    (s'.thread th).serving = (s.thread th).serving := by
  have hc : ∀ s : State, ((s.complete th').thread th).serving = (s.thread th).serving := fun s => serving_queue _ _ _ _ _
  have ha : ∀ s : State, ((s.await th' k).thread th).serving = (s.thread th).serving := fun s =>
    serving_updThread s th th' _ fun _ => rfl
  cases h with
  | nothing hm _ => exact hm.serving hf th
  | intercepted r _ _ _ _ => rw [serving_queue, hc, ha]
  | hostedOneway hm _ => rw [hc]; exact hm.serving hf th
  | hosted hm _ => rw [hc, ha]; exact hm.serving hf th
  | oneway txn hw _ _ node n => rw [hc, (Steady.queueOneway _ _ _ _).serving]; exact hw.moves.serving hf th
  | call txn hw _ _ owner _ _ => rw [hc, serving_queue, ha]; exact hw.moves.serving hf th

theorem Replied.serving {sv : Option Served} (h : Replied s th' sv s') (hf : s.Fresh) (th : Thread) :
    (s'.thread th).serving = (s.thread th).serving := by
  cases h with
  | nothing hm _ _ => exact hm.serving hf th
  | sent c k _ txn hm => rw [State.complete, serving_queue, serving_queue]; exact hm.serving hf th
  | failed c k _ hm _ => rw [serving_queue]; exact hm.serving hf th

theorem HostSent.serving {k : ℕ} (h : HostSent s k s') (hf : s.Fresh) (th : Thread) :
    (s'.thread th).serving = (s.thread th).serving := by
  cases h with
  | nothing hm _ => exact hm.serving hf th
  | oneway txn hw _ _ node n => rw [(Steady.queueOneway _ _ _ _).serving]; exact hw.moves.serving hf th
  | call txn hw => rw [serving_queue]; exact hw.moves.serving hf th

theorem HostAnswered.serving {job : HostJob} (h : HostAnswered s job s') (hf : s.Fresh) (th : Thread) :
    (s'.thread th).serving = (s.thread th).serving := by
  cases h with
  | nothing _ => rfl
  | failed _ hm _ => rw [serving_queue]; exact hm.serving hf th
  | sent _ txn hm => rw [serving_queue]; exact hm.serving hf th

theorem thread_eraseThread (s : State) (th th' : Thread) :
    (s.setProc th'.1 { s.proc th'.1 with threads := (s.proc th'.1).threads.erase th'.2 }).thread th =
      if th = th' then {} else s.thread th := by
  rw [State.thread_setProc]
  by_cases h1 : th.1 = th'.1
  · rw [if_pos h1]
    simp only [ProcState.thread, Map.lookup_erase_eq]
    by_cases h2 : th.2 = th'.2
    · rw [if_pos h2, if_pos (Prod.ext h1 h2)]; rfl
    · rw [if_neg h2, if_neg fun h => h2 (by rw [h]), State.thread, h1]; rfl
  · rw [if_neg h1, if_neg fun h => h1 (by rw [h])]

theorem threadExit_serving (s : State) (hne : th ≠ th') :
    ((s.threadExit th').thread th).serving = (s.thread th).serving := by
  unfold State.threadExit
  cases hp : s.procs.lookup th'.1 with
  | none => rfl
  | some p =>
    have hproc : s.proc th'.1 = p := by simp [State.proc, hp]
    cases ht : p.threads.lookup th'.2 with
    | none => simp only [ht]
    | some gone =>
      have he : ((s.setProc th'.1 { p with threads := p.threads.erase th'.2 }).thread th).serving =
          (s.thread th).serving := by
        subst hproc; rw [thread_eraseThread, if_neg hne]
      simp only [ht]
      rw [(Steady.foldl (dropWork_steady th'.1) gone.todo _).serving]
      split
      · rw [serving_queue, he]
      · exact he

theorem failUndelivered_serving (s : State) (th th' : Thread) (t : Txn) :
    ((s.failUndelivered th' t).thread th).serving = (s.thread th).serving := by
  have hu := (unpin_calm s t.pinned).serving th
  unfold State.failUndelivered
  dsimp only
  split
  · rw [State.endWait, serving_updThread _ _ _ _ fun _ => rfl, hu]
  · rw [(Steady.tellSender _ _ _).serving, (Steady.doneWith _ _ _).serving, hu]

theorem hear_serving (s : State) (th th' : Thread) (w : Work) :
    ((s.hear th' w).thread th).serving = (s.thread th).serving := by
  unfold State.hear
  split
  · exact serving_updThread _ _ _ _ fun _ => rfl
  · exact serving_updThread _ _ _ _ fun _ => rfl
  · rfl

/-- a call placed is the innermost its thread serves; nothing else placed is served -/
theorem placed_serving (s : State) (th th' : Thread) (buf : ℕ) (t : Txn) :
    ((s.placed th' buf t).thread th).serving =
      (s.thread th).serving ++ if th = th' ∧ t.isCall then [⟨t.from_, t.serial⟩] else [] := by
  have hb := ((recordBuffer_steady s th' buf t).trans (logDelivered_steady _ t.asyncNode t.serial)).serving th
  unfold State.placed
  dsimp only
  split
  · rename_i hr
    rw [State.endWait, serving_updThread _ _ _ _ fun _ => rfl, hb]
    simp [Txn.isCall, hr]
  · rename_i hr
    split
    · rename_i ho
      rw [hb]
      simp [Txn.isCall, ho]
    · rename_i ho
      simp only [Bool.not_eq_true] at hr ho
      rw [State.thread_updThread]
      split_ifs with h1 h2 h2
      · subst h1; exact congrArg (· ++ _) hb
      · exact absurd ⟨h1, by simp [Txn.isCall, hr, ho]⟩ h2
      · exact absurd h2.1 h1
      · rw [hb, List.append_nil]

theorem undeliver_serving (s : State) (hne : th ≠ th') (h : Handed) :
    ((s.undeliver th' h).thread th).serving = (s.thread th).serving := by
  have hf := (freeRecord_steady s th'.1 h.buf).serving th
  have hu : (((s.freeRecord th'.1 h.buf).unserve th' h.from_).thread th).serving = (s.thread th).serving := by
    unfold State.unserve
    split
    · rw [serving_updThread _ _ _ _ fun he => absurd he hne, hf]
    · exact hf
  unfold State.undeliver
  dsimp only
  split
  · exact hf
  · split
    · rw [serving_queue, hu]
    · exact hu

/-- a look takes an item and marks its thread: the rest of every thread is as it was -/
theorem take_thread {β : Type} (f : ThreadState → β) (hf : ∀ t todo idle, f { t with todo := todo, idle := idle } = f t)
    (p : ProcState) (env : SpawnEnv) (tid t : Tid) : f ((p.take env tid).1.thread t) = f (p.thread t) := by
  have h : ∀ (q : ProcState) (th : ThreadState), (∀ t, f (q.thread t) = f (p.thread t)) →
      f th = f (p.thread tid) → f ((q.setThread tid th).thread t) = f (p.thread t) := fun q th hq hth => by
    rw [ProcState.thread_setThread]
    split_ifs with he
    · rw [hth, he]
    · exact hq t
  unfold ProcState.take
  dsimp only
  split
  · exact h p _ (fun _ => rfl) (hf _ _ _)
  · split
    · split
      · refine h _ _ (fun t => ?_) (hf (p.thread tid) (p.thread tid).todo false)
        rw [ProcState.thread_setThread]
        split_ifs with he
        · rw [he]
        · rfl
      · exact h p _ (fun _ => rfl) (hf (p.thread tid) (p.thread tid).todo true)
    · exact h p _ (fun _ => rfl) (hf (p.thread tid) (p.thread tid).todo false)

theorem State.take_thread {β : Type} (f : ThreadState → β)
    (hf : ∀ t todo idle, f { t with todo := todo, idle := idle } = f t) (s : State) (env : SpawnEnv) (th th' : Thread) :
    f ((s.setProc th'.1 ((s.proc th'.1).take env th'.2).1).thread th) = f (s.thread th) := by
  rw [State.thread_setProc]
  split_ifs with h
  · rw [Binder.take_thread f hf, State.thread, h]
  · rfl

theorem hostLook_serving (s : State) (tid : Tid) (hne : th.1 ≠ .host) :
    ((s.hostLook tid).thread th).serving = (s.thread th).serving := by
  have hn : th ≠ (.host, tid) := fun h => hne (by rw [h])
  unfold State.hostLook
  split
  · rfl
  · split
    · have := thread_eraseThread s th (.host, tid)
      rw [if_neg hn] at this
      exact congrArg ThreadState.serving this
    · exact serving_updThread _ _ _ _ fun he => absurd he hn

end Serving

/-- a thread serves what it served, but for its own replies, exits and reads, and its process's release -/
theorem World.step_serving (w : World) (hb : Basic w) (a : Act) (th : Thread) (hth : a.touches th = false) :
    ((World.step w a).st.thread th).serving = (w.st.thread th).serving := by
  by_cases ha : a.traffic = false
  · exact (World.step_idle w hb a ha).serving th
  have hne : ∀ {th' : Thread}, decide (th' = th) = false → th ≠ th' := fun h he => by simp [he] at h
  cases a with
  | release id o =>
    simp only [World.step]; split
    · obtain ⟨h, -, -⟩ := bury_thread w.st id o th
      refine ((settle_steady (w.st.bury id o).1 id o.buffers _).serving th).trans (h.trans (if_neg fun he => ?_))
      simp [Act.touches, he] at hth
    · rfl
  | threadExit th' =>
    simp only [World.step]; split
    · exact threadExit_serving w.st (hne hth)
    · rfl
  | transaction th' env tr =>
    simp only [World.step]; split
    · exact (transaction_sent w.st env th' tr hb.fresh hb.host).serving hb.fresh th
    · rfl
  | reply th' env tr =>
    simp only [World.step]; split
    · refine ((reply_replied w.st env th' tr hb.fresh hb.host).serving
        ((Still.updThread w.st th' _).fresh hb.fresh) th).trans ?_
      exact serving_updThread _ _ _ _ fun he => absurd he (hne hth)
    · rfl
  | freeBuffer th' ptr =>
    simp only [World.step]; split
    · exact (freeRecord_steady w.st th'.1 ptr.toNat).serving th
    · rfl
  | look th' env =>
    simp only [World.step]; split
    · rename_i r _
      split
      · obtain ⟨r', he, -⟩ := World.look_eq w th' r env
        rw [he]
        exact State.take_thread (·.serving) (fun _ _ _ => rfl) w.st env.spawn th th'
      · rfl
    · rfl
  | deliver th' =>
    simp only [World.step]; split
    · split
      · unfold World.deliver
        split
        · split
          · exact failUndelivered_serving w.st th th' _
          · rfl
        · exact hear_serving w.st th th' _
      · rfl
    · rfl
  | place th' env =>
    simp only [World.step]; split
    · rename_i r _
      split
      · rename_i t buf _
        cases he : (fill env t buf).result with
        | error e => rw [World.place_error he]; exact failUndelivered_serving w.st th th' t
        | ok b =>
          obtain ⟨fds, hp⟩ := World.place_ok w th' r he
          rw [hp]
          refine (placed_serving w.st th th' buf t).trans ?_
          rw [if_neg fun h => hne hth h.1, List.append_nil]
      · rfl
    · rfl
  | copyOut th' write =>
    simp only [World.step]; split
    · split
      · rename_i handed _
        unfold World.copyOut
        split
        · rfl
        · cases handed with
          | none => rfl
          | some h => exact undeliver_serving w.st (hne hth) h
      · rfl
    · rfl
  | hostTransact euid hd code data offsets serving =>
    exact (hostTransact_sent w.st euid hd code data offsets serving hb.fresh).serving hb.fresh th
  | hostLook tid => exact hostLook_serving w.st tid (by simpa [Act.touches] using hth)
  | hostGiveUp tid =>
    have h := thread_eraseThread w.st th (.host, tid)
    rw [if_neg fun he => by simp [Act.touches, he] at hth] at h
    exact congrArg ThreadState.serving h
  | hostTransactOneway hd code data offsets =>
    exact (hostTransactOneway_sent w.st hd code data offsets hb.fresh).serving hb.fresh th
  | hostReply i reply =>
    simp only [World.step, World.onState, State.hostReply]
    split
    · rfl
    · rename_i job _
      exact (hostAnswer_answered { w.st with jobs := w.st.jobs.eraseIdx i } job reply hb.fresh).serving hb.fresh th
  | _ => exact absurd rfl ha

end Omnidroid.Binder
