/-
Ledgers that stay empty: what never is anywhere. A ledger that no step puts anything on is empty in every run
(`World.step_void`); what makes it so is said of its weights alone (`Weights.Void`), once for each way a transaction goes
from one place to the next.
-/
import Omnidroid.Binder.Flow

namespace Omnidroid.Binder

namespace Weights

/-- nothing goes on the ledger: not a failure told, a transaction sent, taken, served or recorded. `ok` are the processes
that are sent calls -/
structure Void (W : Weights) (ok : ProcId → Prop) : Prop where
  falls : ∀ owner node w, W.todo owner none w ≤ W.async node w
  deadReply : ∀ id t k, W.todo id (some t) (.deadReply k) = 0
  failedReply : ∀ id t k, W.todo id (some t) (.failedReply k) = 0
  reply : ∀ id t (txn : Txn), txn.reply = true → (id = .host → txn.pinned = []) → W.todo id (some t) (.txn txn) = 0
  call : ∀ id tid (txn : Txn), ok id → txn.reply = false → txn.oneway = false → (id = .host → tid = none) →
    W.todo id tid (.txn txn) = 0
  oneway : ∀ node (txn : Txn), txn.reply = false → txn.oneway = true → W.async node (.txn txn) = 0
  job : ∀ th o k, th.1 ≠ .host → W.job ⟨th, o, k⟩ = 0
  answer : ∀ j (txn : Txn), W.job j = 0 → txn.reply = true → W.todo j.caller.1 (some j.caller.2) (.txn txn) = 0
  pop : ∀ (th : Thread) w src, src = none ∨ src = some th.2 → W.hand th w ≤ W.todo th.1 src w
  serve : ∀ (th : Thread) (t : Txn), th.1 ≠ .host → t.reply = false → t.oneway = false →
    W.serving th ⟨t.from_, t.serial⟩ ≤ W.hand th (.txn t)
  record : ∀ (th : Thread) buf (t : Txn), W.buffer (th.1, buf) ⟨t.asyncNode, t.pinned, th.2, t.code⟩ ≤ W.hand th (.txn t)

section Void

variable {W : Weights} {ok : ProcId → Prop} {s s' : State}

theorem empty_queue (h : W.state s = 0) {id : ProcId} {tid : Option Tid} {w : Work} (hw : W.todo id tid w = 0) :
    W.state (s.queue id tid w) = 0 := by
  rw [state_queue, h, hw]

theorem empty_complete (h : W.state s = 0) (th : Thread) : W.state (s.complete th) = 0 := by rw [state_complete, h]

theorem empty_foldl {α : Type} {f : State → α → State} (hf : ∀ s a, W.state s = 0 → W.state (f s a) = 0) (l : List α)
    (h : W.state s = 0) : W.state (l.foldl f s) = 0 := by
  induction l generalizing s with
  | nil => exact h
  | cons a l ih => exact ih (hf s a h)

theorem empty_dropBuffer (h : W.state s = 0) (id : ProcId) (addr : ℕ) : W.state (State.dropBuffer id s addr) = 0 := by
  have := W.state_dropBuffer id s addr
  omega

theorem empty_unserve (h : W.state s = 0) (th : Thread) (from_ : Option Thread) : W.state (s.unserve th from_) = 0 := by
  unfold State.unserve
  split
  · have := W.state_popServing s th
    omega
  · exact h

theorem empty_hostLook (h : W.state s = 0) (tid : Tid) : W.state (s.hostLook tid) = 0 := by
  unfold State.hostLook
  split
  · exact h
  · rename_i w rest htodo
    split
    · exact Nat.eq_zero_of_add_eq_zero_right ((W.state_eraseThread s .host tid).trans h)
    · have := W.state_updThread s (.host, tid) fun t => { t with todo := rest }
      simp only [thread, htodo, sum_cons] at this
      omega

theorem empty_moves (h : W.state s = 0) (hf : s.Fresh) (hm : Moves s s') : W.state s' = 0 := by
  rw [(hm.calm hf).weight, h]

theorem empty_tellSender (h : W.state s = 0) (txn : Txn) {answer : Work} (ha : ∀ id t, W.todo id (some t) answer = 0) :
    W.state (s.tellSender txn answer) = 0 := by
  rw [state_tellSender, h, told_eq_zero W ha]

variable (hv : W.Void ok)
include hv

theorem Void.asyncDone (h : W.state s = 0) (node : NodeId) (owner : ProcId) : W.state (s.asyncDone node owner) = 0 := by
  have hs := W.state_asyncDone s node owner
  have hle : sum (W.todo owner none) (next s node) ≤ sum (W.async node) (next s node) :=
    sum_le fun w => hv.falls owner node w
  omega

theorem Void.doneWith (h : W.state s = 0) (node : Option NodeId) (owner : ProcId) :
    W.state (s.doneWith node owner) = 0 := by
  cases node with
  | none => exact h
  | some n => exact hv.asyncDone h n owner

theorem Void.queueOneway (h : W.state s = 0) (target : ProcId) (node : NodeId) {txn : Txn} (hr : txn.reply = false)
    (ho : txn.oneway = true) : W.state (s.queueOneway target node txn) = 0 := by
  have h1 := hv.oneway node { txn with asyncNode := some node } hr ho
  have h2 := hv.falls target node (.txn { txn with asyncNode := some node })
  rw [state_queueOneway, h]
  split <;> omega

theorem Void.dropWork (h : W.state s = 0) (id : ProcId) (w : Work) : W.state (State.dropWork id s w) = 0 := by
  cases w with
  | txn t =>
    have h1 := empty_tellSender h t fun id tid => hv.deadReply id tid t.serial
    simp only [State.dropWork, state_unpin]
    exact hv.doneWith h1 _ _
  | _ => exact h

theorem Void.failServed (h : W.state s = 0) (sv : Served) : W.state (s.failServed sv) = 0 := by
  rw [state_failServed, h, sum_eq_zero fun _ => hv.deadReply _ _ _]

theorem Void.settle (h : W.state s = 0) (id : ProcId) (buffers : List ℕ) (r : Remains) :
    W.state (s.settle id buffers r) = 0 := by
  rw [State.settle, state_releases]
  refine empty_foldl (fun s a h => empty_dropBuffer h id a) _ (empty_foldl (fun s a h => hv.dropWork h id a) _ ?_)
  exact empty_foldl (fun s a h => hv.failServed h a) _ h

theorem Void.freeRecord (h : W.state s = 0) (id : ProcId) (buf : ℕ) : W.state (s.freeRecord id buf) = 0 := by
  unfold State.freeRecord
  split
  · exact h
  · rename_i b hb
    have hs := W.state_eraseBuffer s (id, buf) b hb
    rw [state_unpin]
    exact hv.doneWith (by omega) _ _

theorem Void.undeliver (h : W.state s = 0) (th : Thread) (hd : Handed) : W.state (s.undeliver th hd) = 0 := by
  have h1 := hv.freeRecord h th.1 hd.buf
  have h2 := empty_unserve h1 th hd.from_
  unfold State.undeliver
  dsimp only
  split
  · exact h1
  · split
    · exact empty_queue h2 (hv.failedReply _ _ _)
    · exact h2

theorem Void.failUndelivered (h : W.state s = 0) (th : Thread) (txn : Txn) :
    W.state (s.failUndelivered th txn) = 0 := by
  have h1 : W.state (s.unpin txn.pinned) = 0 := by rw [state_unpin, h]
  unfold State.failUndelivered
  dsimp only
  split
  · rw [state_endWait, h1]
  · exact empty_tellSender (hv.doneWith h1 _ _) _ fun id t => hv.failedReply id t _

theorem Void.threadExit (h : W.state s = 0) (th : Thread) : W.state (s.threadExit th) = 0 := by
  unfold State.threadExit
  cases hp : s.procs.lookup th.1 with
  | none => exact h
  | some p =>
    have hproc : s.proc th.1 = p := by simp [State.proc, hp]
    cases ht : p.threads.lookup th.2 with
    | none => simp only [ht]; exact h
    | some gone =>
      have he : W.state (s.setProc th.1 { p with threads := p.threads.erase th.2 }) = 0 := by
        subst hproc
        exact Nat.eq_zero_of_add_eq_zero_right ((W.state_eraseThread s th.1 th.2).trans h)
      simp only [ht]
      refine empty_foldl (fun s a h => hv.dropWork h th.1 a) _ ?_
      split
      · exact empty_queue he (hv.deadReply _ _ _)
      · exact he

/-! ## A command -/

theorem Void.sent {th : Thread} {k : ℕ} (hs : Sent s th k s') (hf : s.Fresh) (hth : th.1 ≠ .host)
    (hok : ∀ id, (s.proc id).dead = false → ok id) (h : W.state s = 0) : W.state s' = 0 := by
  have handOff : ∀ {s₁ : State} (o : Bool), W.state s₁ = 0 → W.state (s₁.handOff th o k) = 0 := fun o h => by
    rw [state_handOff, h, hv.job th o k hth]
  cases hs with
  | nothing hm _ => exact empty_moves h hf hm
  | intercepted r hr _ _ hp =>
    refine empty_queue (empty_complete ?_ th) (hv.reply _ _ r hr fun _ => hp)
    rw [state_await, h]
  | hostedOneway hm _ => exact empty_complete (handOff true (empty_moves h hf hm)) th
  | hosted hm _ =>
    refine empty_complete ?_ th
    rw [state_await, handOff false (empty_moves h hf hm)]
  | oneway txn hw ho _ node n => exact empty_complete (hv.queueOneway (empty_moves h hf hw.moves) _ _ hw.noReply ho) th
  | call txn hw ho _ owner hh hd =>
    refine empty_complete (empty_queue ?_ (hv.call owner _ txn (hok owner ?_) hw.noReply ho fun he => absurd he hh)) th
    · rw [state_await, empty_moves h hf hw.moves]
    · rw [← (hw.moves.calm hf).dead]; exact hd

theorem Void.replied {th : Thread} {sv : Option Served} (hs : Replied s th sv s') (hf : s.Fresh) (h : W.state s = 0) :
    W.state s' = 0 := by
  cases hs with
  | nothing hm _ _ => exact empty_moves h hf hm
  | sent c k _ txn hm hr _ _ _ hh => exact empty_complete (empty_queue (empty_moves h hf hm) (hv.reply _ _ txn hr hh)) th
  | failed c k _ hm _ => exact empty_queue (empty_moves h hf hm) (hv.failedReply _ _ _)

theorem Void.hostSent {k : ℕ} (hs : HostSent s k s') (hf : s.Fresh) (hok : ∀ id, (s.proc id).dead = false → ok id)
    (h : W.state s = 0) : W.state s' = 0 := by
  cases hs with
  | nothing hm _ => exact empty_moves h hf hm
  | oneway txn hw ho _ node n => exact hv.queueOneway (empty_moves h hf hw.moves) _ _ hw.noReply ho
  | call txn hw ho _ _ owner nested hn hd =>
    refine empty_queue (empty_moves h hf hw.moves) (hv.call owner nested txn (hok owner ?_) hw.noReply ho hn)
    rw [← (hw.moves.calm hf).dead]; exact hd

theorem Void.hostAnswered {job : HostJob} (hs : HostAnswered s job s') (hf : s.Fresh) (hj : W.job job = 0)
    (h : W.state s = 0) : W.state s' = 0 := by
  cases hs with
  | nothing _ => exact h
  | failed _ hm _ => exact empty_queue (empty_moves h hf hm) (hv.failedReply _ _ _)
  | sent _ txn hm hr _ _ _ => exact empty_queue (empty_moves h hf hm) (hv.answer job txn hj hr)

/-! ## A read -/

theorem Void.placed (h : W.state s = 0) {th : Thread} (hth : th.1 ≠ .host) (buf : ℕ) {txn : Txn}
    (hw : W.hand th (.txn txn) = 0) : W.state (s.placed th buf txn) = 0 := by
  have hr := W.state_recordBuffer s th buf txn
  have h0 : sum (W.buffer (th.1, buf)) (recorded th txn) = 0 := by
    have := hv.record th buf txn
    unfold recorded
    split
    · rw [sum_cons, sum_nil]; omega
    · rfl
  have h1 : W.state ((s.recordBuffer th buf txn).logDelivered txn.asyncNode txn.serial) = 0 := by
    rw [state_logDelivered]; omega
  unfold State.placed
  dsimp only
  split
  · rw [state_endWait, h1]
  · rename_i hrep
    split
    · exact h1
    · rename_i hone
      have := hv.serve th txn hth (by simpa using hrep) (by simpa using hone)
      rw [state_pushServing, h1]; omega

end Void

/-- a release takes nothing on -/
theorem state_bury_le (W : Weights) (s : State) (id : ProcId) (o : ReleaseOrder) : W.state (s.bury id o).1 ≤ W.state s := by
  have h1 : ∀ (l : List NodeId) (s : State), W.state (s.killNodes l).1 ≤ W.state s := fun l => by
    induction l with
    | nil => exact fun s => le_rfl
    | cons n l ih =>
      intro s
      have h := W.state_killNode s n
      have := ih (s.killNode n).1
      simp only [State.killNodes]
      omega
  have h2 := W.state_setProc ((s.killNodes o.nodes).1.forgetRelayouts id) id
    (((s.killNodes o.nodes).1.forgetRelayouts id).proc id).released
  have h3 : W.proc id (((s.killNodes o.nodes).1.forgetRelayouts id).proc id).released = 0 := rfl
  have h4 : W.state ((s.killNodes o.nodes).1.forgetRelayouts id) = W.state (s.killNodes o.nodes).1 :=
    W.state_congr rfl rfl rfl rfl
  have h5 := h1 o.nodes s
  have hb : (s.bury id o).1 = ((s.killNodes o.nodes).1.forgetRelayouts id).setProc id
    (((s.killNodes o.nodes).1.forgetRelayouts id).proc id).released := rfl
  rw [hb]
  omega

theorem total_eq_zero {W : Weights} {w : World} :
    W.total w = 0 ↔ W.state w.st = 0 ∧ ∀ th r, w.reads.lookup th = some r → W.reading th r = 0 := by
  constructor
  · intro h
    have h1 : W.state w.st = 0 ∧ Map.weigh W.reading w.reads = 0 := by unfold total at h; omega
    exact ⟨h1.1, fun th r hr => Nat.le_zero.1 (h1.2 ▸ Map.le_weigh (w := W.reading) hr)⟩
  · rintro ⟨h1, h2⟩
    rw [total, h1, Map.weigh_eq_zero h2, add_zero]

end Weights

namespace World

open Weights

/-- a read that takes nothing on keeps the ledger empty -/
theorem void_read {W : Weights} {w w' : World} (th : Thread) {r' : Reading} (h : W.total w = 0)
    (hs : W.state w'.st = 0) (hr : w'.reads = w.reads.insert th r') (hi : W.reading th r' = 0) : W.total w' = 0 := by
  have h0 := (total_eq_zero.1 h).2
  refine total_eq_zero.2 ⟨hs, fun th' r h' => ?_⟩
  rw [hr, Map.lookup_insert_eq] at h'
  split_ifs at h' with he
  · cases h'; rw [he]; exact hi
  · exact h0 th' r h'

/-- an empty ledger stays empty -/
theorem step_void {W : Weights} {ok : ProcId → Prop} (hv : W.Void ok) (w : World) (hb : Basic w)
    (hok : ∀ id, (w.st.proc id).dead = false → ok id) (h : W.total w = 0) (a : Act) : W.total (step w a) = 0 := by
  by_cases ha : a.traffic = false
  · rw [total_idle W w hb a ha, h]
  obtain ⟨hs, hreads⟩ := total_eq_zero.1 h
  have still : ∀ {w' : World}, w'.reads = w.reads → W.state w'.st = 0 → W.total w' = 0 := fun hr hs' => by
    have := total_of_reads W hr
    omega
  have hguest : ∀ {th r}, w.reads.lookup th = some r → th.1 ≠ .host := fun hr =>
    hb.guests _ (hb.reads _ (by rw [hr]; rfl))
  have hcmd : ∀ {th}, w.commanding th = true → th.1 ≠ .host := fun hc => by
    simp only [commanding, Bool.and_eq_true] at hc
    exact hb.guests _ hc.1
  have hfail : ∀ {w' : World} {th r} {txn : Txn}, w'.st = w.st → w'.reads = w.reads → w.reads.lookup th = some r →
      W.total (w'.failPlacing th r txn) = 0 := fun {w' th r txn} hst hre hr => by
    refine void_read th h ?_ (by rw [← hre]; rfl) ?_
    · simp only [failPlacing, onState, setReading, hst]
      exact hv.failUndelivered hs th txn
    · split <;> rfl
  cases a with
  | release id o =>
    simp only [step]; split
    · refine still rfl ?_
      exact hv.settle (Nat.le_zero.1 (hs ▸ W.state_bury_le w.st id o)) id o.buffers _
    · exact h
  | threadExit th =>
    simp only [step]; split
    · exact still rfl (hv.threadExit hs th)
    · exact h
  | transaction th env tr =>
    simp only [step]; split
    · rename_i hc
      exact still rfl (hv.sent (transaction_sent w.st env th tr hb.fresh hb.host) hb.fresh (hcmd hc) hok hs)
    · exact h
  | reply th env tr =>
    simp only [step]; split
    · refine still rfl (hv.replied (reply_replied w.st env th tr hb.fresh hb.host)
        ((Still.updThread w.st th _).fresh hb.fresh) ?_)
      have := W.state_popServing w.st th
      omega
    · exact h
  | freeBuffer th ptr =>
    simp only [step]; split
    · exact still rfl (hv.freeRecord hs th.1 ptr.toNat)
    · exact h
  | look th env =>
    simp only [step]; split
    · rename_i r hr
      split
      · obtain ⟨src, hsrc, hw⟩ := w.st.take_weighs th.1 env.spawn th.2
        replace hw := hw W
        obtain ⟨r', he, hi⟩ := look_eq w th r env
        rw [he]
        have hle : W.reading th r' ≤ sum (W.todo th.1 src) ((w.st.proc th.1).take env.spawn th.2).2.1.toList := by
          rw [reading, hi]
          exact sum_le fun w => hv.pop th w src hsrc
        exact void_read th h (show W.state (w.st.setProc th.1 _) = 0 by omega) rfl (by omega)
      · exact h
    · exact h
  | deliver th =>
    simp only [step]; split
    · rename_i r hr
      split
      · rename_i item hph
        have hi : W.reading th r = W.hand th item := by simp [reading, Reading.item, hph]
        have h0 := hreads th r hr
        unfold deliver
        split
        · split
          · exact hfail rfl rfl hr
          · refine void_read th h hs rfl ?_
            exact (hi.symm.trans h0 : _)
        · refine void_read th h ?_ rfl rfl
          exact (W.state_hear w.st th _).trans hs
      · exact h
    · exact h
  | place th env =>
    simp only [step]; split
    · rename_i r hr
      split
      · rename_i txn buf hph
        have hi : W.reading th r = W.hand th (.txn txn) := by simp [reading, Reading.item, hph]
        have h0 := hreads th r hr
        cases he : (fill env txn buf).result with
        | error e =>
          rw [place_error he]
          exact hfail rfl rfl hr
        | ok b =>
          obtain ⟨fds, hp⟩ := place_ok w th r he
          rw [hp]
          exact void_read th h (hv.placed hs (hguest hr) buf (hi.symm.trans h0)) rfl rfl
      · exact h
    · exact h
  | copyOut th write =>
    simp only [step]; split
    · rename_i r hr
      split
      · rename_i wk handed hph
        unfold copyOut
        split
        · exact void_read th h hs rfl rfl
        · cases handed with
          | none => exact void_read th h hs rfl rfl
          | some hd => exact void_read th h (hv.undeliver hs th hd) rfl rfl
      · exact h
    · exact h
  | hostTransact euid hd code data offsets serving =>
    exact still rfl (hv.hostSent (hostTransact_sent w.st euid hd code data offsets serving hb.fresh) hb.fresh hok hs)
  | hostLook tid => exact still rfl (empty_hostLook hs tid)
  | hostGiveUp tid =>
    exact still rfl (Nat.eq_zero_of_add_eq_zero_right ((W.state_eraseThread w.st .host tid).trans hs))
  | hostTransactOneway hd code data offsets =>
    exact still rfl (hv.hostSent (hostTransactOneway_sent w.st hd code data offsets hb.fresh) hb.fresh hok hs)
  | hostReply i reply =>
    simp only [step, onState, State.hostReply]
    split
    · exact h
    · rename_i job hj
      have hw := W.state_eraseJob w.st hj
      exact still rfl (hv.hostAnswered (hostAnswer_answered { w.st with jobs := w.st.jobs.eraseIdx i } job reply hb.fresh)
        hb.fresh (Nat.eq_zero_of_add_eq_zero_left (hw.trans hs)) (Nat.eq_zero_of_add_eq_zero_right (hw.trans hs)))
  | _ => exact absurd rfl ha

end World

end Omnidroid.Binder
