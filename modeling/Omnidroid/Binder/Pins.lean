/-
Pin conservation. A transaction in flight holds the nodes its parcel names (`State::pin`); its buffer's record holds them
after it is delivered. Each hold is let go exactly once, wherever the transaction ends: freed, dropped, failed, or taken
back.

- `State.Beside n s c`: all holds on `n` but `c` of them are in `s`. Every operation keeps it, with `c` for what it has
  in hand; `c` is none when nothing is (`World.step_pinned`).
- `reach_conserved`: in every run, the pins are what is queued, in hand and recorded, and what records lost by being
  replaced.
- `pins_conserved`: none is lost, and no record of a released process remains, in runs that record a delivery only where
  no record is and only for a process that is not released. The driver checks neither: `pins_leak` is a run that breaks
  the second by a release between a pop and its delivery.
-/
import Omnidroid.Binder.Buffers
import Omnidroid.Binder.Empty

namespace Omnidroid.Binder

/-! ## What holds a node -/

/-- the nodes a transaction holds -/
def Work.pinned : Work → List NodeId
  | .txn t => t.pinned
  | _ => []

def Spot.pinned : Spot → List NodeId
  | .queued _ _ w | .waiting _ w | .inHand _ w => w.pinned
  | .recorded _ b => b.pinned
  | .served .. | .hosted _ => []

/-- the occurrences of `n` in the pinned lists of all transactions queued, in hand or recorded -/
def World.holds (w : World) (n : NodeId) : ℕ := (w.spots.flatMap Spot.pinned).count n

/-- the ledger of the holds on `n` -/
def holding (n : NodeId) : Weights where
  todo _ _ w := w.pinned.count n
  async _ w := w.pinned.count n
  buffer _ b := b.pinned.count n
  hand _ w := w.pinned.count n
  quiet _ _ w h := by cases w <;> first | rfl | cases h

/-- the ledger of what the queues of host threads hold, and of host services' calls from the host: nothing. A host
thread may be gone before its queue is read -/
def hostHolding : Weights where
  todo id tid w := if id = .host ∧ tid ≠ none then w.pinned.length else 0
  job j := if j.caller.1 = .host then 1 else 0
  quiet _ _ w h := by
    have : w.pinned = [] := by cases w <;> first | rfl | cases h
    simp [this]

theorem holding_level (n : NodeId) : (holding n).Level := fun _ _ _ => rfl

theorem hostHolding_void : hostHolding.Void fun _ => True where
  falls _ _ _ := by simp [hostHolding]
  deadReply _ _ _ := by simp [hostHolding, Work.pinned]
  failedReply _ _ _ := by simp [hostHolding, Work.pinned]
  reply id t txn _ h := by
    simp only [hostHolding, Work.pinned]
    split_ifs with hh
    · rw [h hh.1]; rfl
    · rfl
  call id tid txn _ _ _ h := if_neg fun hh => hh.2 (h hh.1)
  oneway _ _ _ _ := rfl
  job _ _ _ h := if_neg h
  answer j txn h _ := if_neg fun hh => absurd h (by simp [hostHolding, hh.1])
  pop _ _ _ _ := Nat.zero_le _
  serve _ _ _ _ _ := Nat.zero_le _
  record _ _ _ := Nat.zero_le _

theorem holds_eq (w : World) (n : NodeId) : w.holds n = (holding n).total w := by
  have hs : ∀ l : List Spot, (l.flatMap Spot.pinned).count n = Weights.sum (holding n).spot l := fun l => by
    induction l with
    | nil => rfl
    | cons sp l ih =>
      rw [List.flatMap_cons, List.count_append, ih, Weights.sum_cons]
      congr 1
      cases sp <;> rfl
  rw [Weights.total_eq, World.holds, hs]

/-- all holds on `n` but `c` are in `s`, or were in a record that was replaced -/
def State.Beside (n : NodeId) (s : State) (c : ℕ) : Prop := s.pinCount n = (holding n).state s + s.lost.count n + c

/-- what the threads in their reads hold of `n` -/
def World.inHands (w : World) (n : NodeId) : ℕ := Map.weigh (holding n).reading w.reads

def State.PinsPositive (s : State) : Prop := ∀ n c, s.pins.lookup n = some c → 0 < c

structure Pinned (w : World) : Prop where
  balance : ∀ n, w.st.Beside n (w.inHands n)
  host : hostHolding.total w = 0
  positive : w.st.PinsPositive

namespace State.Beside

variable {n : NodeId} {s s' : State} {c : ℕ}

theorem of_eq (h : s.Beside n c) (hp : s'.pinCount n = s.pinCount n)
    (hw : (holding n).state s' = (holding n).state s) (hl : s'.lost = s.lost) : s'.Beside n c := by
  unfold Beside at *; rw [hl]; omega

theorem queueTxn (id : ProcId) (tid : Option Tid) (w : Work) (h : s.Beside n (c + w.pinned.count n)) :
    (s.queue id tid w).Beside n c := by
  have hp : (s.queue id tid w).pinCount n = s.pinCount n := by rw [State.pinCount, queue_pins]; rfl
  have hl : (s.queue id tid w).lost = s.lost := by cases tid <;> rfl
  have hq : (holding n).todo id tid w = w.pinned.count n := rfl
  unfold Beside at *
  rw [hp, hl, Weights.state_queue, hq]
  omega

theorem queue (h : s.Beside n c) (id : ProcId) (tid : Option Tid) (w : Work) (hw : w.pinned = []) :
    (s.queue id tid w).Beside n c := by
  refine queueTxn id tid w ?_
  rw [hw]; exact h

theorem queueOneway (target : ProcId) (node : NodeId) (t : Txn) (h : s.Beside n (c + t.pinned.count n)) :
    (s.queueOneway target node t).Beside n c := by
  have hp : (s.queueOneway target node t).pinCount n = s.pinCount n := by
    rw [State.pinCount, (queueOneway_still s target node t).pins]; rfl
  have hl : (s.queueOneway target node t).lost = s.lost := by
    unfold State.queueOneway
    dsimp only
    repeat' split
    all_goals rfl
  have hq : (holding n).async node (.txn { t with asyncNode := some node }) = t.pinned.count n := rfl
  unfold Beside at *
  rw [hp, hl, (holding_level n).state_queueOneway, hq]
  omega

theorem unpin (l : List NodeId) (h : s.Beside n (c + l.count n)) : (s.unpin l).Beside n c := by
  unfold Beside at *
  rw [pinCount_unpin, Weights.state_unpin, (unpin_calm s l).lost]
  omega

theorem doneWith (h : s.Beside n c) (node : Option NodeId) (owner : ProcId) : (s.doneWith node owner).Beside n c := by
  refine h.of_eq ?_ ((holding_level n).state_doneWith s node owner) ?_
  · rw [State.pinCount, (doneWith_still s node owner).pins]; rfl
  · unfold State.doneWith State.asyncDone
    repeat' split
    all_goals rfl

theorem updThread (h : s.Beside n c) (th : Thread) (f : ThreadState → ThreadState)
    (hf : (f (s.thread th)).todo = (s.thread th).todo) : (s.updThread th f).Beside n c := by
  refine h.of_eq rfl ?_ rfl
  have hs := (holding n).state_updThread s th f
  have h0 := Weights.sum_eq_zero (f := (holding n).serving (th.1, th.2)) fun _ => rfl
  simp only [Weights.thread, hf, h0] at hs
  omega

theorem tellSender (h : s.Beside n c) (t : Txn) (w : Work) (hw : w.pinned = []) : (s.tellSender t w).Beside n c := by
  unfold State.tellSender
  split
  · split
    · exact h.queue _ _ _ hw
    · exact h
  · exact h

theorem complete (h : s.Beside n c) (th : Thread) : (s.complete th).Beside n c := h.queue _ _ _ rfl

theorem dropWork (id : ProcId) (w : Work) (h : s.Beside n (c + w.pinned.count n)) :
    (State.dropWork id s w).Beside n c := by
  cases w with
  | txn t => exact unpin t.pinned ((h.tellSender t _ rfl).doneWith _ _)
  | _ => exact h

theorem dropWorks (id : ProcId) (l : List Work) (h : s.Beside n (c + Weights.sum (·.pinned.count n) l)) :
    (l.foldl (State.dropWork id) s).Beside n c := by
  induction l generalizing s with
  | nil => exact h
  | cons w l ih =>
    rw [Weights.sum_cons, add_comm (w.pinned.count n), ← add_assoc] at h
    exact ih (h.dropWork id w)

theorem failServed (h : s.Beside n c) (sv : Served) : (s.failServed sv).Beside n c := by
  unfold State.failServed
  split
  · exact h.queue _ _ _ rfl
  · exact h

theorem dropBuffer (h : s.Beside n c) (id : ProcId) (addr : ℕ) : (State.dropBuffer id s addr).Beside n c := by
  unfold State.dropBuffer
  split
  · exact h
  · rename_i b hb
    have hs := (holding n).state_eraseBuffer s (id, addr) b hb
    refine unpin b.pinned ?_
    have hq : (holding n).buffer (id, addr) b = b.pinned.count n := rfl
    unfold Beside at *
    rw [show State.pinCount { s with buffers := s.buffers.erase (id, addr) } n = s.pinCount n from rfl]
    dsimp only
    omega

theorem freeRecord (h : s.Beside n c) (id : ProcId) (addr : ℕ) : (s.freeRecord id addr).Beside n c := by
  unfold State.freeRecord
  split
  · exact h
  · rename_i b hb
    have hs := (holding n).state_eraseBuffer s (id, addr) b hb
    refine unpin b.pinned (doneWith ?_ b.asyncNode id)
    have hq : (holding n).buffer (id, addr) b = b.pinned.count n := rfl
    unfold Beside at *
    rw [show State.pinCount { s with buffers := s.buffers.erase (id, addr) } n = s.pinCount n from rfl]
    dsimp only
    omega

theorem foldl {α : Type} {f : State → α → State} (hf : ∀ s a, s.Beside n c → (f s a).Beside n c) (l : List α)
    (h : s.Beside n c) : (l.foldl f s).Beside n c := by
  induction l generalizing s with
  | nil => exact h
  | cons a l ih => exact ih (hf s a h)

end State.Beside

/-! ## A command -/

section Command

variable {n : NodeId} {s s' : State} {c : ℕ} {th : Thread} {k : ℕ}

theorem beside_moves {m : ℕ} (hf : s.Fresh) (h : Moves s s') (hp : s'.pinCount n = s.pinCount n + m) (hs : s.Beside n c) :
    s'.Beside n (c + m) := by
  unfold State.Beside at *
  rw [hp, (h.calm hf).weight, (h.calm hf).lost]
  omega

theorem Sent.beside (h : Sent s th k s') (hf : s.Fresh) (hs : s.Beside n c) : s'.Beside n c := by
  have handOff : ∀ {s₁ : State} (o : Bool), s₁.Beside n c → (s₁.handOff th o k).Beside n c := fun o hs =>
    hs.of_eq rfl (Weights.state_handOff _ _ _ _ _) rfl
  cases h with
  | nothing h hp => exact beside_moves (m := 0) hf h (hp n) hs
  | intercepted r _ _ _ hp =>
    exact ((hs.updThread th _ rfl).complete th).queue _ _ _ hp
  | hostedOneway h hp => exact (handOff true (beside_moves (m := 0) hf h (hp n) hs)).complete th
  | hosted h hp => exact ((handOff false (beside_moves (m := 0) hf h (hp n) hs)).updThread th _ rfl).complete th
  | oneway txn h _ _ node nd =>
    exact (State.Beside.queueOneway _ node txn (beside_moves hf h.moves (h.holds n) hs)).complete th
  | call txn h _ _ owner =>
    exact (State.Beside.queueTxn owner _ (.txn txn) ((beside_moves hf h.moves (h.holds n) hs).updThread th _ rfl)).complete th

theorem Replied.beside {sv : Option Served} (h : Replied s th sv s') (hf : s.Fresh) (hs : s.Beside n c) :
    s'.Beside n c := by
  cases h with
  | nothing h hp _ => exact beside_moves (m := 0) hf h (hp n) hs
  | sent d k _ txn h _ _ _ hp _ => exact (State.Beside.queueTxn _ _ (.txn txn) (beside_moves hf h (hp n) hs)).complete th
  | failed d k _ h hp => exact (beside_moves (m := 0) hf h (hp n) hs).queue _ _ _ rfl

theorem HostSent.beside (h : HostSent s k s') (hf : s.Fresh) (hs : s.Beside n c) : s'.Beside n c := by
  cases h with
  | nothing h hp => exact beside_moves (m := 0) hf h (hp n) hs
  | oneway txn h _ _ node nd => exact State.Beside.queueOneway _ node txn (beside_moves hf h.moves (h.holds n) hs)
  | call txn h _ _ _ owner nested => exact State.Beside.queueTxn owner nested (.txn txn) (beside_moves hf h.moves (h.holds n) hs)

theorem HostAnswered.beside {job : HostJob} (h : HostAnswered s job s') (hf : s.Fresh) (hs : s.Beside n c) :
    s'.Beside n c := by
  cases h with
  | nothing => exact hs
  | failed _ h hp => exact (beside_moves (m := 0) hf h (hp n) hs).queue _ _ _ rfl
  | sent _ txn h _ _ _ hp => exact State.Beside.queueTxn _ _ (.txn txn) (beside_moves hf h (hp n) hs)

end Command

/-! ## A read -/

theorem beside_failUndelivered {n : NodeId} {s : State} {c : ℕ} (th : Thread) (txn : Txn)
    (h : s.Beside n (c + txn.pinned.count n)) : (s.failUndelivered th txn).Beside n c := by
  have hu := State.Beside.unpin txn.pinned h
  unfold State.failUndelivered
  dsimp only
  split
  · exact hu.updThread th _ rfl
  · exact (hu.doneWith _ _).tellSender txn _ rfl

theorem beside_undeliver {n : NodeId} {s : State} {c : ℕ} (th : Thread) (hd : Handed) (h : s.Beside n c) :
    (s.undeliver th hd).Beside n c := by
  have hf := h.freeRecord th.1 hd.buf
  have hu : ((s.freeRecord th.1 hd.buf).unserve th hd.from_).Beside n c := by
    unfold State.unserve
    split
    · exact hf.updThread th _ rfl
    · exact hf
  unfold State.undeliver
  dsimp only
  split
  · exact hf
  · split
    · exact hu.queue _ _ _ rfl
    · exact hu

/-- a record holds what its transaction did; what one in its place held is lost -/
theorem beside_recordBuffer {n : NodeId} {s : State} {c : ℕ} (th : Thread) (buf : ℕ) (txn : Txn)
    (h : s.Beside n (c + txn.pinned.count n)) : (s.recordBuffer th buf txn).Beside n c := by
  have hp : (s.recordBuffer th buf txn).pinCount n = s.pinCount n := by
    rw [State.pinCount, (recordBuffer_still s th buf txn).pins]; rfl
  have hw := (holding n).state_recordBuffer s th buf txn
  have hl : (s.recordBuffer th buf txn).lost.count n = s.lost.count n +
      if Weights.recorded th txn = [] then 0 else Map.weighAt (holding n).buffer s.buffers (th.1, buf) := by
    unfold State.recordBuffer Weights.recorded
    split
    · rw [List.count_append, if_neg (List.cons_ne_nil _ _)]
      cases hb : s.buffers.lookup (th.1, buf) with
      | none => simp [Map.weighAt_none hb]
      | some b => rw [Map.weighAt_some hb]; rfl
    · rfl
  have hr : Weights.sum ((holding n).buffer (th.1, buf)) (Weights.recorded th txn) = txn.pinned.count n := by
    unfold Weights.recorded
    split
    · simp [holding]
    · rename_i hn
      have : txn.pinned = [] := by simp only [Bool.or_eq_true, not_or, decide_eq_true_eq, not_not] at hn; exact hn.2
      rw [this]; rfl
  unfold State.Beside at *
  omega

theorem beside_placed {n : NodeId} {s : State} {c : ℕ} (th : Thread) (buf : ℕ) (txn : Txn)
    (h : s.Beside n (c + txn.pinned.count n)) : (s.placed th buf txn).Beside n c := by
  have hb := beside_recordBuffer th buf txn h
  set s₁ := s.recordBuffer th buf txn with hs₁
  have hb₁ : (s₁.logDelivered txn.asyncNode txn.serial).Beside n c := by
    refine hb.of_eq ?_ (Weights.state_logDelivered _ _ _ _) ?_
    · rw [State.pinCount, (logDelivered_still s₁ _ _).pins]; rfl
    · unfold State.logDelivered
      repeat' split
      all_goals rfl
  unfold State.placed
  dsimp only
  split
  · exact hb₁.updThread th _ rfl
  · split
    · exact hb₁
    · exact hb₁.updThread th _ rfl

/-! ## Ends -/

theorem beside_threadExit {n : NodeId} {s : State} {c : ℕ} (th : Thread) (h : s.Beside n c) :
    (s.threadExit th).Beside n c := by
  unfold State.threadExit
  cases hp : s.procs.lookup th.1 with
  | none => exact h
  | some p =>
    have hproc : s.proc th.1 = p := by simp [State.proc, hp]
    cases ht : p.threads.lookup th.2 with
    | none => simp only [ht]; exact h
    | some gone =>
      have hth : s.thread th = gone := by simp [State.thread, hproc, ProcState.thread, ht]
      have he : (holding n).state (s.setProc th.1 { p with threads := p.threads.erase th.2 }) +
          (holding n).thread th.1 th.2 gone = (holding n).state s := by
        subst hproc; exact hth ▸ (holding n).state_eraseThread s th.1 th.2
      have hg : (holding n).thread th.1 th.2 gone = Weights.sum (·.pinned.count n) gone.todo := by
        have h0 := Weights.sum_eq_zero (f := (holding n).serving (th.1, th.2)) fun _ => rfl
        rw [Weights.thread, h0]; rfl
      have hb : (s.setProc th.1 { p with threads := p.threads.erase th.2 }).Beside n
          (c + Weights.sum (·.pinned.count n) gone.todo) := by
        unfold State.Beside at *
        rw [show (s.setProc th.1 { p with threads := p.threads.erase th.2 }).pinCount n = s.pinCount n from rfl,
          show (s.setProc th.1 { p with threads := p.threads.erase th.2 }).lost = s.lost from rfl]
        omega
      simp only [ht]
      refine State.Beside.dropWorks th.1 gone.todo ?_
      split
      · exact hb.queue _ _ _ rfl
      · exact hb

theorem killNode_pins (s : State) (node : NodeId) : (s.killNode node).1.pins = s.pins := by
  unfold State.killNode
  split
  · rfl
  · have hd : ∀ s : State, (s.dropContextMgr node).pins = s.pins := fun s => by
      unfold State.dropContextMgr; split <;> rfl
    rw [hd, (tellWatchers_still _ _).pins]; rfl

theorem killNodes_pins (s : State) (l : List NodeId) : (s.killNodes l).1.pins = s.pins := by
  induction l generalizing s with
  | nil => rfl
  | cons n l ih => exact (ih _).trans (killNode_pins s n)

theorem bury_pins (s : State) (id : ProcId) (o : ReleaseOrder) : (s.bury id o).1.pins = s.pins :=
  killNodes_pins s o.nodes

theorem killNode_lost (s : State) (node : NodeId) : (s.killNode node).1.lost = s.lost := by
  unfold State.killNode
  split
  · rfl
  · rw [(dropContextMgr_calm _ node).lost, (tellWatchers_calm _ _).lost]; rfl

theorem killNodes_lost (s : State) (l : List NodeId) : (s.killNodes l).1.lost = s.lost := by
  induction l generalizing s with
  | nil => rfl
  | cons n l ih => exact (ih _).trans (killNode_lost s n)

theorem beside_release {n : NodeId} {s : State} {c : ℕ} (id : ProcId) (o : ReleaseOrder) (ho : o.Valid s id)
    (h : s.Beside n c) : (s.release id o).Beside n c := by
  have hw := (holding n).state_bury (f := (·.pinned.count n)) (g := fun _ => 0) s id o ho (fun _ _ => rfl)
    (fun _ _ => rfl) (fun _ _ => rfl)
  have hl : (s.bury id o).1.lost = s.lost := killNodes_lost s o.nodes
  have hb : (s.bury id o).1.Beside n (c + Weights.sum (·.pinned.count n) (s.bury id o).2.dropped) := by
    unfold State.Beside at *
    rw [State.pinCount, bury_pins, ← State.pinCount, hl]
    rw [Weights.sum_eq_zero fun _ => rfl] at hw
    omega
  have h1 := hb.foldl (fun _ a hs => hs.failServed a) (s.bury id o).2.serving
  have h2 := (h1.dropWorks id (s.bury id o).2.dropped).foldl (fun _ a hs => hs.dropBuffer id a) o.buffers
  refine h2.foldl (fun s a hs => hs.of_eq ?_ ((releaseIfUnreferenced_calm s a).weight _)
    (releaseIfUnreferenced_calm s a).lost) (s.bury id o).2.held
  rw [State.pinCount, releaseIfUnreferenced_pins]; rfl

/-- host threads' queues hold nothing, so one may go -/
theorem hostHolding_thread {s : State} (h : hostHolding.state s = 0) (n : NodeId) (tid : Tid) :
    Weights.sum (·.pinned.count n) (s.thread (.host, tid)).todo = 0 := by
  have he := hostHolding.state_eraseThread s .host tid
  have hz : hostHolding.thread .host tid (s.thread (.host, tid)) = 0 := by omega
  have hle : Weights.sum (·.pinned.count n) (s.thread (.host, tid)).todo ≤
      Weights.sum (hostHolding.todo .host (some tid)) (s.thread (.host, tid)).todo :=
    Weights.sum_le fun w => by simpa [hostHolding] using List.count_le_length
  simp only [Weights.thread] at hz
  omega

theorem beside_hostGiveUp {n : NodeId} {s : State} {c : ℕ} (hh : hostHolding.state s = 0) (tid : Tid)
    (h : s.Beside n c) : (s.hostGiveUp tid).Beside n c := by
  have he := (holding n).state_eraseThread s .host tid
  have ht := hostHolding_thread hh n tid
  have hz : (holding n).thread .host tid (s.thread (.host, tid)) = 0 := by
    rw [Weights.thread, Weights.sum_eq_zero (f := (holding n).serving _) fun _ => rfl]; exact ht
  refine h.of_eq rfl ?_ rfl
  unfold State.hostGiveUp
  omega

theorem beside_hostLook {n : NodeId} {s : State} {c : ℕ} (hh : hostHolding.state s = 0) (tid : Tid)
    (h : s.Beside n c) : (s.hostLook tid).Beside n c := by
  have ht := hostHolding_thread hh n tid
  unfold State.hostLook
  split
  · exact h
  · rename_i w rest htodo
    split
    · exact beside_hostGiveUp hh tid h
    · refine h.of_eq rfl ?_ rfl
      have hs := (holding n).state_updThread s (.host, tid) fun t => { t with todo := rest }
      rw [htodo, Weights.sum_cons] at ht
      simp only [Weights.thread, htodo, Weights.sum_cons] at hs
      have e1 : (holding n).todo .host (some tid) w = w.pinned.count n := rfl
      omega

/-! ## Each step -/

theorem countHandle_pins (s : State) (id : ProcId) (cmd : RefCmd) (h : UInt32) :
    (s.countHandle id cmd h).pins = s.pins := by
  unfold State.countHandle
  dsimp only
  repeat' split
  all_goals first | rfl | (rw [dropHandleIfUnheld_pins]; rfl)

theorem acquireDone_pins (s : State) (owner : ProcId) (ptr : UInt64) (i : ℕ) :
    (s.acquireDone owner ptr i).pins = s.pins := by
  unfold State.acquireDone
  dsimp only
  repeat' split
  all_goals rfl

theorem deathNotification_pins (s : State) (th : Thread) (request : Bool) (handle : UInt32) (cookie : UInt64) :
    (s.deathNotification th request handle cookie).pins = s.pins := by
  unfold State.deathNotification
  dsimp only
  repeat' split
  all_goals rfl

theorem setContextMgr_pins (s : State) (id : ProcId) (flags : UInt32) : (s.setContextMgr id flags).pins = s.pins := by
  unfold State.setContextMgr
  dsimp only
  repeat' split
  all_goals first | rfl | exact localNode_pins s id 0 0 flags

theorem createHostService_pins (s : State) : s.createHostService.pins = s.pins := by
  unfold State.createHostService
  dsimp only
  split <;> exact localNode_pins _ _ _ _ _

namespace World

/-- what moves no transaction holds none -/
theorem pins_idle (w : World) (a : Act) (ha : a.traffic = false) : (step w a).st.pins = w.st.pins := by
  cases a with
  | openFile =>
    simp only [step]
    rcases openFile_cases w with h | ⟨-, -, h⟩
    · rw [h]
    · rw [h]; rfl
  | setContextMgr id flags =>
    simp only [step]; split
    · exact setContextMgr_pins w.st id flags
    · rfl
  | count th cmd h =>
    simp only [step]; split
    · exact countHandle_pins w.st th.1 cmd h
    · rfl
  | acquireDone th ptr i =>
    simp only [step]; split
    · exact acquireDone_pins w.st th.1 ptr i
    · rfl
  | death th request h cookie =>
    simp only [step]; split
    · exact deathNotification_pins w.st th request h cookie
    · rfl
  | createHostService => exact createHostService_pins w.st
  | intercept h code f => exact (intercept_still w.st h code f).pins
  | endRead th =>
    simp only [step]; split
    · split <;> rfl
    · rfl
  | _ => first | exact Bool.noConfusion ha | rfl | (simp only [step]; split <;> rfl)

theorem beside_failPlacing {w w' : World} {th : Thread} {r : Reading} {txn : Txn} {n : NodeId}
    (hr : w.reads.lookup th = some r) (hi : r.item = some (.txn txn)) (hst : w'.st = w.st) (hre : w'.reads = w.reads)
    (hb : w.st.Beside n (w.inHands n)) :
    (w'.failPlacing th r txn).st.Beside n ((w'.failPlacing th r txn).inHands n) := by
  unfold failPlacing
  refine (holding n).hands_read hr (by rw [← hre]; rfl) (fun c hs => ?_) hb
  rw [Weights.reading_some _ hi] at hs
  have hf := beside_failUndelivered th txn hs
  simp only [onState, hst]
  split <;> exact hf

theorem step_balance (w : World) (hb : Basic w) (hp : Pinned w) (a : Act) (n : NodeId) :
    (step w a).st.Beside n ((step w a).inHands n) := by
  have h := hp.balance n
  by_cases ha : a.traffic = false
  · have hc := step_idle w hb a ha
    have ht := total_idle (holding n) w hb a ha
    have hr : (step w a).inHands n = w.inHands n := by
      rw [Weights.total, Weights.total, hc.weight] at ht; exact Nat.add_left_cancel ht
    rw [hr]
    exact h.of_eq (by rw [State.pinCount, pins_idle w a ha]; rfl) (hc.weight _) hc.lost
  cases a with
  | release id o =>
    simp only [step]; split
    · rename_i hv; exact beside_release id o hv.2.2 h
    · exact h
  | threadExit th =>
    simp only [step]; split
    · exact beside_threadExit th h
    · exact h
  | transaction th env tr =>
    simp only [step]; split
    · exact (transaction_sent w.st env th tr hb.fresh hb.host).beside hb.fresh h
    · exact h
  | reply th env tr =>
    simp only [step]; split
    · refine (reply_replied w.st env th tr hb.fresh hb.host).beside ?_ (h.updThread th _ rfl)
      exact (Still.updThread w.st th _).fresh hb.fresh
    · exact h
  | freeBuffer th ptr =>
    simp only [step]; split
    · exact State.Beside.freeRecord h th.1 ptr.toNat
    · exact h
  | look th env =>
    simp only [step]; split
    · rename_i r hr
      split
      · rename_i hph
        obtain ⟨src, -, hw⟩ := w.st.take_weighs th.1 env.spawn th.2
        replace hw := hw (holding n)
        obtain ⟨r', he, hi'⟩ := look_eq w th r env
        have hi : r.item = none := by simp [Reading.item, hph]
        rw [he]
        refine (holding n).hands_read hr rfl (fun c hs => ?_) h
        rw [Weights.reading_none _ hi] at hs
        rw [Weights.reading, hi']
        have e1 : (holding n).todo th.1 src = (holding n).hand th := rfl
        rw [e1] at hw
        set p := ((w.st.proc th.1).take env.spawn th.2).1
        have e2 : (w.st.setProc th.1 p).pinCount n = w.st.pinCount n := rfl
        have e3 : (w.st.setProc th.1 p).lost = w.st.lost := rfl
        show State.Beside n (w.st.setProc th.1 p) _
        unfold State.Beside at *
        rw [e2, e3]
        omega
      · exact h
    · exact h
  | deliver th =>
    simp only [step]; split
    · rename_i r hr
      split
      · rename_i item hph
        have hi : r.item = some item := by simp [Reading.item, hph]
        unfold deliver
        split
        · rename_i txn
          split
          · exact beside_failPlacing hr hi rfl rfl h
          · refine (holding n).hands_read hr rfl (fun c hs => ?_) h
            rw [Weights.reading_some _ hi] at hs; exact hs
        · rename_i hno
          refine (holding n).hands_read hr rfl (fun c hs => ?_) h
          have h0 : item.pinned = [] := by cases item <;> first | rfl | exact absurd rfl (hno _)
          rw [Weights.reading_some _ hi, show (holding n).hand th item = 0 by simp [holding, h0]] at hs
          show State.Beside n (w.st.hear th item) _
          unfold State.hear
          split <;> first | exact hs.updThread th _ rfl | exact hs
      · exact h
    · exact h
  | place th env =>
    simp only [step]; split
    · rename_i r hr
      split
      · rename_i txn buf hph
        have hi : r.item = some (.txn txn) := by simp [Reading.item, hph]
        unfold place
        dsimp only
        split
        · exact beside_failPlacing hr hi rfl rfl h
        · refine (holding n).hands_read hr rfl (fun c hs => ?_) h
          rw [Weights.reading_some _ hi] at hs
          exact beside_placed th buf txn hs
      · exact h
    · exact h
  | copyOut th write =>
    simp only [step]; split
    · rename_i r hr
      split
      · rename_i wk handed hph
        have hi : r.item = none := by simp [Reading.item, hph]
        unfold copyOut
        split
        · refine (holding n).hands_read hr rfl (fun c hs => ?_) h
          rw [Weights.reading_none _ hi] at hs; exact hs
        · cases handed with
          | none =>
            refine (holding n).hands_read hr rfl (fun c hs => ?_) h
            rw [Weights.reading_none _ hi] at hs; exact hs
          | some hd =>
            refine (holding n).hands_read hr rfl (fun c hs => ?_) h
            rw [Weights.reading_none _ hi] at hs; exact beside_undeliver th hd hs
      · exact h
    · exact h
  | hostTransact euid hd code data offsets serving =>
    exact (hostTransact_sent w.st euid hd code data offsets serving hb.fresh).beside hb.fresh h
  | hostLook tid => exact beside_hostLook (Weights.total_eq_zero.1 hp.host).1 tid h
  | hostGiveUp tid => exact beside_hostGiveUp (Weights.total_eq_zero.1 hp.host).1 tid h
  | hostTransactOneway hd code data offsets =>
    exact (hostTransactOneway_sent w.st hd code data offsets hb.fresh).beside hb.fresh h
  | hostReply i reply =>
    simp only [step, onState, State.hostReply]
    split
    · exact h
    · rename_i job hj
      have hw := (holding n).state_eraseJob w.st hj
      have h1 : State.Beside n { w.st with jobs := w.st.jobs.eraseIdx i } (w.inHands n) := h.of_eq rfl hw rfl
      exact (hostAnswer_answered { w.st with jobs := w.st.jobs.eraseIdx i } job reply hb.fresh).beside hb.fresh h1
  | _ => exact absurd rfl ha

end World

/-! ## Every count is positive -/

theorem State.PinsPositive.of_eq {s s' : State} (h : s.PinsPositive) (hp : s'.pins = s.pins) : s'.PinsPositive :=
  fun n c hc => h n c (hp ▸ hc)

theorem State.PinsPositive.pin {s : State} (h : s.PinsPositive) (m : NodeId) : (s.pin m).PinsPositive := by
  intro n c hc
  simp only [State.pin, Map.lookup_insert_eq] at hc
  split_ifs at hc
  · cases hc; omega
  · exact h n c hc

theorem State.PinsPositive.unpinOne {s : State} (h : s.PinsPositive) (m : NodeId) : (s.unpinOne m).PinsPositive := by
  unfold State.unpinOne
  split
  · exact h
  · split
    · refine State.PinsPositive.of_eq ?_ (unpinned_pins _ m)
      intro n c hc
      simp only [Map.lookup_erase_eq] at hc
      split_ifs at hc
      exact h n c hc
    · rename_i hne
      intro n c hc
      simp only [Map.lookup_insert_eq] at hc
      split_ifs at hc
      · cases hc; omega
      · exact h n c hc

theorem Move.positive {s s' : State} (hm : Move s s') (h : s.PinsPositive) : s'.PinsPositive := by
  cases hm with
  | idle hs _ => exact h.of_eq hs.pins
  | exportLocal sender target kind flags ptr cookie pins =>
    have h1 := (h.of_eq (localNode_pins s sender.1 ptr cookie flags)).pin (s.localNode sender.1 ptr cookie flags).2
    unfold State.exportLocal
    dsimp only
    split
    · exact h1
    · exact h1.of_eq (handleFor_pins _ _ _ _)
  | forwardHandle sender target kind handle pins =>
    unfold State.forwardHandle
    dsimp only
    repeat' split
    all_goals first | exact h | exact h.pin _ | exact (h.pin _).of_eq (handleFor_pins _ _ _ _)
  | pin n => exact h.pin n
  | unpin n => exact h.unpinOne n
  | release n => exact h.of_eq (releaseIfUnreferenced_pins s n)

theorem Track.positive {s s' : State} (ht : Track s s') (h : s.PinsPositive) : s'.PinsPositive := by
  induction ht with
  | refl => exact h
  | tail _ hm ih =>
    rcases hm with hm | hm
    · exact ih.of_eq hm.pins
    · exact hm.positive ih

theorem World.step_positive (w : World) (hb : Basic w) (h : w.st.PinsPositive) (a : Act) :
    (World.step w a).st.PinsPositive := by
  by_cases ha : a.traffic = false
  · exact h.of_eq (World.pins_idle w a ha)
  cases hst : a.standing with
  | false => exact (World.step_track w hb a hst).positive h
  | true =>
    cases a with
    | release id o =>
      simp only [World.step]; split
      · exact (settle_track _ id o.buffers _).positive (h.of_eq (bury_pins w.st id o))
      · exact h
    | _ => first | exact absurd rfl ha | cases hst

/-! ## Every run -/

theorem pinned_init (refcount : Bool) : Pinned (World.init refcount) :=
  ⟨fun _ => rfl, rfl, fun _ _ h => by cases h⟩

theorem World.step_pinned (w : World) (hb : Basic w) (hp : Pinned w) (a : Act) : Pinned (World.step w a) :=
  ⟨World.step_balance w hb hp a, World.step_void hostHolding_void w hb (fun _ _ => trivial) hp.host a, World.step_positive w hb hp.positive a⟩

theorem reach_pinned {ok : World → Act → Prop} {refcount : Bool} {w : World}
    (h : Reach World.step ok (World.init refcount) w) : Pinned w :=
  h.invariant Pinned (pinned_init refcount) fun w a hr _ hp => World.step_pinned w (reach_basic hr) hp a

/-- **The pins, in every run.** What transactions on their way and records hold, and what replaced records held. -/
theorem reach_conserved {ok : World → Act → Prop} {refcount : Bool} {w : World}
    (h : Reach World.step ok (World.init refcount) w) (n : NodeId) : w.st.pinCount n = w.holds n + w.st.lost.count n := by
  have hb := (reach_pinned h).balance n
  rw [holds_eq, Weights.total]
  unfold State.Beside World.inHands at hb
  omega

/-! ## Runs that record cleanly -/

/-- a delivery is recorded for a process that is not released, and not in the place of a record that holds nodes -/
def Cleanly (w : World) (a : Act) : Prop :=
  ∀ x ∈ w.recording a, (w.st.proc x.1.1).dead = false ∧
    (w.st.buffers.lookup (x.1.1, x.2.2)).elim [] (·.pinned) = []

instance (w : World) (a : Act) : Decidable (Cleanly w a) := by unfold Cleanly; infer_instance

/-- no released process has a record -/
def Unrecorded (w : World) : Prop := ∀ id addr, (w.st.proc id).dead = true → w.st.buffers.lookup (id, addr) = none

theorem reach_lost {refcount : Bool} {w : World} (h : Reach World.step Cleanly (World.init refcount) w) :
    w.st.lost = [] := by
  refine h.invariant (fun w => w.st.lost = []) rfl fun w a hr ho hl => ?_
  rw [World.step_lost w (reach_basic hr) a, hl]
  cases hx : w.recording a with
  | none => rfl
  | some x => exact (ho x hx).2

theorem World.step_unrecorded (w : World) (hb : Basic w) (hu : Unrecorded w) (a : Act) (ho : Cleanly w a) :
    Unrecorded (World.step w a) := by
  intro id addr hd
  by_contra hn
  rcases World.step_record w hb a (id, addr) (Option.isSome_iff_ne_none.2 hn) with ⟨hold, hrel⟩ | ⟨x, hx, hk⟩
  · have halive : (w.st.proc id).dead = false := by
      by_contra hdead
      rw [hu id addr (by simpa using hdead)] at hold
      cases hold
    by_cases hop : a = .openFile
    · subst hop
      rw [show (World.step w .openFile).st = w.openFile.st from rfl, (World.openFile_calm w).dead, halive] at hd
      cases hd
    · rcases World.step_dead w hb a hop id with he | ⟨o, rfl⟩
      · rw [he, halive] at hd; cases hd
      · rw [hrel o rfl, halive] at hd; cases hd
  · have hlive := (ho x hx).1
    have hid : id = x.1.1 := congrArg Prod.fst hk
    by_cases hop : ∃ o, a = .release id o
    · obtain ⟨o, rfl⟩ := hop; cases hx
    · have hne : a ≠ .openFile := fun he => by rw [he] at hx; cases hx
      rcases World.step_dead w hb a hne id with he | ho'
      · rw [he, hid, hlive] at hd; cases hd
      · exact hop ho'

theorem reach_unrecorded {refcount : Bool} {w : World} (h : Reach World.step Cleanly (World.init refcount) w) :
    Unrecorded w :=
  h.invariant Unrecorded (fun _ _ _ => rfl) fun w a hr ho hu => World.step_unrecorded w (reach_basic hr) hu a ho

/-- every transaction has been freed, dropped or failed, and every receiver has freed its buffers or been released -/
def World.Quiet (w : World) : Prop :=
  (∀ sp ∈ w.spots, sp.txn = none) ∧ ∀ id addr, (w.st.buffers.lookup (id, addr)).isSome → (w.st.proc id).dead = true

structure PinsConserved (w : World) : Prop where
  balance : ∀ n, w.st.pinCount n = w.holds n
  drained : w.Quiet → ∀ n, w.st.pins.lookup n = none
  unrecorded : Unrecorded w

theorem holds_quiet {w : World} (hq : w.Quiet) (hu : Unrecorded w) (n : NodeId) : w.holds n = 0 := by
  have hs : ∀ sp ∈ w.spots, sp.pinned = [] := by
    intro sp hsp
    have ht := hq.1 sp hsp
    cases sp with
    | queued _ _ wk => cases wk <;> first | rfl | cases ht
    | waiting _ wk => cases wk <;> first | rfl | cases ht
    | inHand _ wk => cases wk <;> first | rfl | cases ht
    | recorded k b =>
      have hb := mem_spots_recorded.1 hsp
      rw [hu k.1 k.2 (hq.2 k.1 k.2 (by rw [hb]; rfl))] at hb
      cases hb
    | served => rfl
    | hosted => rfl
  rw [World.holds, List.flatMap_eq_nil_iff.2 hs]
  rfl

/-- **Pins are conserved.** In every run that records cleanly. -/
theorem pins_conserved (refcount : Bool) (w : World) (h : Reach World.step Cleanly (World.init refcount) w) :
    PinsConserved w := by
  have hb : ∀ n, w.st.pinCount n = w.holds n := fun n => by rw [reach_conserved h n, reach_lost h]; rfl
  refine ⟨hb, fun hq n => ?_, reach_unrecorded h⟩
  have h0 : w.st.pinCount n = 0 := (hb n).trans (holds_quiet hq (reach_unrecorded h) n)
  cases hl : w.st.pins.lookup n with
  | none => rfl
  | some c =>
    have hpos := (reach_pinned h).positive n c hl
    simp only [State.pinCount, hl, Option.getD_some] at h0
    omega

/-! ## A run that does not -/

/-- a process takes a call to its object, is released, and is handed the call's buffer after that -/
def leakRun : List Act :=
  [.openFile, .openFile, .setArea (.guest 2) 4096 4096, .setContextMgr (.guest 2) 0, .writeRead (.guest 1, 1) 7,
    .transaction (.guest 1, 1) .zeros ⟨0, 5, 0, 0, 0, 0, 0⟩, .writeRead (.guest 2, 1) 8, .looper (.guest 2, 1) false,
    .startRead (.guest 2, 1) 256 true false, .look (.guest 2, 1) .plain, .release (.guest 2) ⟨[1], [1], []⟩,
    .deliver (.guest 2, 1), .place (.guest 2, 1) .plain, .copyOut (.guest 2, 1) (.ok ())]

theorem pins_conserved_served : PinsConserved (run World.step (World.init true) (leakRun.eraseIdx 10)) :=
  pins_conserved true _ (Reach.run .start _ (by decide))

/-- the record stays, and its node is pinned for good -/
theorem pins_leak : ¬ ∀ w, Reach World.step anyStep (World.init true) w → PinsConserved w := by
  intro h
  have hu := (h _ (reach_run World.step (World.init true) leakRun)).unrecorded (.guest 2) 4096 (by decide)
  exact absurd hu (by decide)

end Omnidroid.Binder
