/-
Every caller hears, and hears once. A sync call its sender waits on is in exactly one place: a queue, a thread's hands, a
serving stack, a host thread; or its answer is, where its sender reads it.

- `calls th k`: the ledger of the call `k` of `th` and of its answer. `Tally`: it has at most one entry, and one if `th`
  waits for `k`; each operation moves the entry (`Tally.of_state`), and only an answer read ends the wait.
- `strays`: the ledger of calls where no one will answer them (a released process, a node's waiting oneways). It stays
  empty, but for the three steps that `Attended` excludes.
- `no_call_forgotten`: in runs of `Attended` steps, a call waited on is in one place, and a sound one. `call_forgotten`:
  not in every run.

What `Attended` excludes is what the driver does not do: answer all calls a thread was serving when it exits, not only
the innermost; answer a call taken but not yet delivered when its process is released; answer only once a call delivered
when its process is released and its read then fails.
-/
import Omnidroid.Binder.Empty

namespace Omnidroid.Binder

/-! ## A call and its answer -/

def Work.isCall : Work → Bool
  | .txn t => t.isCall
  | _ => false

/-- a reply, or a failure -/
def Work.answers : Work → Bool
  | .txn t => t.reply
  | .deadReply _ | .failedReply _ => true
  | _ => false

/-- the call `k` of `th`, or the answer to it where `reader` is `th` -/
def Work.concerns (th : Thread) (k : ℕ) (reader : Option Thread) : Work → Bool
  | .txn t => t.serial = k && (t.isCall && t.from_ = some th || t.reply && reader = some th)
  | .deadReply k' | .failedReply k' => k' = k && reader = some th
  | _ => false

def Spot.concerns (th : Thread) (k : ℕ) : Spot → Bool
  | .queued id tid w => w.concerns th k (tid.map fun t => (id, t))
  | .inHand th' w => w.concerns th k (some th')
  | .waiting _ w => w.concerns th k none
  | .served _ sv => sv = ⟨some th, k⟩
  | .hosted j => j = ⟨th, false, k⟩
  | .recorded _ _ => false

/-- a place where a call will be answered, or its answer read -/
def Spot.Sound (w : World) : Spot → Prop
  | .queued id _ _ => (w.st.proc id).dead = false
  | .inHand th _ => (w.st.proc th.1).dead = false
  | .served th _ => (w.st.proc th.1).dead = false
  | .hosted _ => True
  | .waiting .. | .recorded .. => False

instance (w : World) (sp : Spot) : Decidable (sp.Sound w) := by
  cases sp <;> unfold Spot.Sound <;> infer_instance

/-- the ledger of the call `k` of `th` and of its answer -/
def calls (th : Thread) (k : ℕ) : Weights where
  todo id tid w := (w.concerns th k (tid.map fun t => (id, t))).toNat
  serving _ sv := (decide (sv = ⟨some th, k⟩)).toNat
  async _ w := (w.concerns th k none).toNat
  job j := (decide (j = ⟨th, false, k⟩)).toNat
  hand th' w := (w.concerns th k (some th')).toNat
  quiet _ _ w h := by cases w <;> first | rfl | cases h

/-- the ledger of calls that no one will answer: in the released process `gone`, in a host thread's queue, behind a
oneway; and of answers no thread reads -/
def strays (gone : Option ProcId) : Weights where
  todo id tid w :=
    if w.isCall ∧ (gone = some id ∨ id = .host ∧ tid ≠ none) ∨ w.answers ∧ tid = none then 1 else 0
  serving th _ := if gone = some th.1 ∨ th.1 = .host then 1 else 0
  async _ w := if w.isCall ∨ w.answers then 1 else 0
  hand th w := if w.isCall ∧ gone = some th.1 then 1 else 0
  quiet _ _ w h := by
    have : w.isCall = false ∧ w.answers = false := by cases w <;> first | exact ⟨rfl, rfl⟩ | cases h
    simp [this]

theorem calls_level (th : Thread) (k : ℕ) : (calls th k).Level := fun _ _ _ => rfl

theorem strays_void (gone : Option ProcId) : (strays gone).Void fun id => gone ≠ some id where
  falls _ _ w := by
    simp only [strays]
    split_ifs <;> first | omega | simp_all
  deadReply _ _ _ := by simp [strays, Work.isCall]
  failedReply _ _ _ := by simp [strays, Work.isCall]
  reply _ _ txn hr _ := by simp [strays, Work.isCall, Txn.isCall, hr]
  call id tid txn hok hr _ hn := by
    refine if_neg ?_
    rintro (⟨-, h | h⟩ | ⟨h, -⟩)
    · exact hok h
    · exact h.2 (hn h.1)
    · simp [Work.answers, hr] at h
  oneway _ txn hr ho := by simp [strays, Work.isCall, Txn.isCall, Work.answers, hr, ho]
  job _ _ _ _ := rfl
  answer _ txn _ hr := by simp [strays, Work.isCall, Txn.isCall, hr]
  pop th w src _ := by
    simp only [strays]
    split_ifs <;> first | omega | simp_all
  serve th t hth hr ho := by simp [strays, hth, Work.isCall, Txn.isCall, hr, ho]
  record _ _ _ := Nat.zero_le _

/-! ## The tally of a call -/

/-- `c` in hand beside `s`, the call `k` of `th` has at most one entry, one if `th` waits for it, none before it is made -/
structure Tally (th : Thread) (k : ℕ) (s : State) (c : ℕ) : Prop where
  waited : (s.thread th).waits.count k ≤ (calls th k).state s + c
  once : (calls th k).state s + c ≤ 1
  unborn : s.nextSerial ≤ k → (calls th k).state s + c = 0

namespace Tally

variable {th : Thread} {k : ℕ} {s s' : State} {c : ℕ}

/-- what comes to `s` is not in hand any more -/
theorem of_state {x : ℕ} (h : Tally th k s (c + x)) (hw : (s'.thread th).waits = (s.thread th).waits)
    (hn : s'.nextSerial = s.nextSerial) (hs : (calls th k).state s' = (calls th k).state s + x) : Tally th k s' c := by
  obtain ⟨h1, h2, h3⟩ := h
  refine ⟨?_, by omega, fun hk => ?_⟩
  · rw [hw]; omega
  · have := h3 (hn ▸ hk); omega

/-- what leaves `s` is in hand -/
theorem taken {x : ℕ} (h : Tally th k s c) (hw : (s'.thread th).waits = (s.thread th).waits)
    (hn : s'.nextSerial = s.nextSerial) (hs : (calls th k).state s' + x = (calls th k).state s) : Tally th k s' (c + x) := by
  obtain ⟨h1, h2, h3⟩ := h
  refine ⟨?_, by omega, fun hk => ?_⟩
  · rw [hw]; omega
  · have := h3 (hn ▸ hk); omega

theorem steady {x : ℕ} (h : Tally th k s (c + x)) (hst : Steady s s')
    (hs : (calls th k).state s' = (calls th k).state s + x) : Tally th k s' c :=
  h.of_state (hst.waits th) hst.nextSerial hs

theorem calm (h : Tally th k s c) (hc : Calm s s') : Tally th k s' c :=
  h.steady (x := 0) hc.steady (by rw [hc.weight]; rfl)

theorem queue (id : ProcId) (tid : Option Tid) (w : Work)
    (h : Tally th k s (c + (w.concerns th k (tid.map fun t => (id, t))).toNat)) : Tally th k (s.queue id tid w) c :=
  h.steady (Steady.queue _ _ _ _) (Weights.state_queue _ _ _ _ _)

theorem complete (h : Tally th k s c) (th' : Thread) : Tally th k (s.complete th') c := h.calm (complete_calm s th')

/-- a new call, or what stands for it, comes into being -/
theorem new {x k₀ : ℕ} (h : Tally th k s c) (hk : k₀ < s.nextSerial) (h0 : k = k₀ → (calls th k).state s + c = 0)
    (hx : x ≤ 1) (hx0 : k ≠ k₀ → x = 0) : Tally th k s (c + x) := by
  obtain ⟨h1, h2, h3⟩ := h
  by_cases hkk : k = k₀
  · have := h0 hkk
    exact ⟨by omega, by omega, fun hle => by omega⟩
  · have := hx0 hkk
    exact ⟨by omega, by omega, fun hle => by have := h3 hle; omega⟩

/-- its sender waits for it from then on -/
theorem await {k₀ : ℕ} (h : Tally th k s c) (hk : k₀ < s.nextSerial) (h0 : k = k₀ → (calls th k).state s + c = 0)
    (th' : Thread) : Tally th k (s.await th' k₀) (c + (decide (th' = th) && decide (k₀ = k)).toNat) := by
  have hw := (calls th k).state_await s th' k₀
  have hn := h.new (x := (decide (th' = th) && decide (k₀ = k)).toNat) hk h0 (Bool.toNat_le _)
    fun hne => by simp [Ne.symm hne]
  refine ⟨?_, by rw [hw]; exact hn.once, fun hle => by rw [hw]; exact hn.unborn hle⟩
  have h1 := h.waited
  rw [hw, State.await, State.thread_updThread]
  by_cases he : th = th'
  · subst he
    simp only [if_pos, List.count_append, List.count_singleton, decide_true, Bool.true_and]
    by_cases hkk : k₀ = k
    · simp only [hkk, beq_self_eq_true, if_true, decide_true, Bool.toNat_true]; omega
    · simp only [beq_iff_eq, hkk, if_false, decide_false, Bool.toNat_false]; omega
  · rw [if_neg he]; simp only [Ne.symm he, decide_false, Bool.false_and, Bool.toNat_false]; omega

/-- an answer read leaves the hands of its reader, whose wait is over -/
theorem endWait (th' : Thread) (k' : ℕ) (h : Tally th k s (c + (decide (th' = th) && decide (k' = k)).toNat)) :
    Tally th k (s.endWait th' k') c := by
  have hw := (calls th k).state_endWait s th' k'
  obtain ⟨h1, h2, h3⟩ := h
  refine ⟨?_, by omega, fun hle => by have := h3 hle; omega⟩
  rw [hw, State.endWait, State.thread_updThread]
  by_cases he : th = th'
  · subst he
    simp only [if_pos, List.count_erase]
    by_cases hkk : k' = k
    · simp only [hkk, beq_self_eq_true, if_true, decide_true, Bool.and_self, Bool.toNat_true] at h1 ⊢; omega
    · simp only [beq_iff_eq, hkk, if_false, decide_false, Bool.and_false, Bool.toNat_false] at h1 ⊢; omega
  · simp only [Ne.symm he, decide_false, Bool.false_and, Bool.toNat_false] at h1
    rw [if_neg he]; omega

theorem unpin (h : Tally th k s c) (l : List NodeId) : Tally th k (s.unpin l) c := h.calm (unpin_calm s l)

theorem doneWith (h : Tally th k s c) (node : Option NodeId) (owner : ProcId) : Tally th k (s.doneWith node owner) c :=
  h.steady (x := 0) (Steady.doneWith s node owner) ((calls_level th k).state_doneWith s node owner)

/-- who waits for a call that failed is told -/
theorem tellSender (t : Txn) {answer : Work} (ha : answer = .deadReply t.serial ∨ answer = .failedReply t.serial)
    (h : Tally th k s (c + ((Work.txn t).concerns th k none).toNat)) : Tally th k (s.tellSender t answer) c := by
  refine h.steady (Steady.tellSender s t answer) ?_
  rw [Weights.state_tellSender]
  congr 1
  have hw : ∀ d : Thread, (calls th k).todo d.1 (some d.2) answer = (decide (t.serial = k) && decide (d = th)).toNat := by
    rintro d
    rcases ha with rfl | rfl <;> simp [calls, Work.concerns]
  simp only [Weights.told, hw, Work.concerns]
  cases hc : t.isCall <;> cases hf : t.from_ <;> simp

theorem dropWork (id : ProcId) (w : Work) (h : Tally th k s (c + (w.concerns th k none).toNat)) :
    Tally th k (State.dropWork id s w) c := by
  cases w with
  | txn t => exact ((tellSender t (.inl rfl) h).doneWith _ _).unpin _
  | deadReply k' =>
    have h0 : (Work.deadReply k').concerns th k none = false := by simp [Work.concerns]
    rw [h0] at h; exact h
  | failedReply k' =>
    have h0 : (Work.failedReply k').concerns th k none = false := by simp [Work.concerns]
    rw [h0] at h; exact h
  | _ => exact h

theorem dropWorks (id : ProcId) (l : List Work)
    (h : Tally th k s (c + Weights.sum (fun w => (w.concerns th k none).toNat) l)) :
    Tally th k (l.foldl (State.dropWork id) s) c := by
  induction l generalizing s with
  | nil => exact h
  | cons w l ih =>
    rw [Weights.sum_cons, add_comm (Work.concerns th k none w).toNat, ← add_assoc] at h
    exact ih (h.dropWork id w)

theorem failServed (sv : Served) (h : Tally th k s (c + (decide (sv = ⟨some th, k⟩)).toNat)) :
    Tally th k (s.failServed sv) c := by
  unfold State.failServed
  obtain ⟨_ | ⟨d, t⟩, k'⟩ := sv
  · simpa using h
  · refine queue d (some t) (.deadReply k') ?_
    simp only [Work.concerns, Served.mk.injEq, Option.some.injEq, Option.map_some, Bool.decide_and] at h ⊢
    rwa [Bool.and_comm]

theorem failServeds (l : List Served)
    (h : Tally th k s (c + Weights.sum (fun sv => (decide (sv = (⟨some th, k⟩ : Served))).toNat) l)) :
    Tally th k (l.foldl State.failServed s) c := by
  induction l generalizing s with
  | nil => exact h
  | cons sv l ih =>
    rw [Weights.sum_cons, add_comm (decide (sv = (⟨some th, k⟩ : Served))).toNat, ← add_assoc] at h
    exact ih (h.failServed sv)

theorem dropBuffers (id : ProcId) (l : List ℕ) (h : Tally th k s c) :
    Tally th k (l.foldl (State.dropBuffer id) s) c := by
  induction l generalizing s with
  | nil => exact h
  | cons a l ih =>
    refine ih (h.steady (x := 0) (dropBuffer_steady id s a) ?_)
    have := (calls th k).state_dropBuffer id s a
    rwa [Weights.sum_eq_zero (f := (calls th k).buffer _) fun _ => rfl] at this

theorem freeRecord (h : Tally th k s c) (id : ProcId) (buf : ℕ) : Tally th k (s.freeRecord id buf) c := by
  refine h.steady (x := 0) (freeRecord_steady s id buf) ?_
  have := (calls_level th k).state_freeRecord s id buf
  rwa [Weights.sum_eq_zero (f := (calls th k).buffer _) fun _ => rfl] at this

/-- no thread waits for a call, so it need not be anywhere -/
theorem forget {x : ℕ} (h : Tally th k s (c + x)) (hw : (s.thread th).waits = []) : Tally th k s c := by
  obtain ⟨h1, h2, h3⟩ := h
  refine ⟨by rw [hw]; exact Nat.zero_le _, by omega, fun hk => ?_⟩
  have := h3 hk; omega

end Tally

/-! ## A command -/

section Command

variable {th th' : Thread} {k k₀ : ℕ} {s s' : State} {c : ℕ}

theorem Tally.moves (h : Tally th k s c) (hm : Moves s s') (hf : s.Fresh) : Tally th k s' c := h.calm (hm.calm hf)

/-- what a call weighs, wherever it is -/
theorem concerns_call {t : Txn} (hr : t.reply = false) (reader : Option Thread) :
    (Work.txn t).concerns th k reader = (t.serial = k && (t.isCall && t.from_ = some th)) := by
  simp [Work.concerns, hr]

theorem concerns_oneway {t : Txn} (hr : t.reply = false) (ho : t.oneway = true) (reader : Option Thread) :
    (Work.txn t).concerns th k reader = false := by
  simp [Work.concerns, hr, Txn.isCall, ho]

theorem Tally.oneway {t : Txn} (h : Tally th k s c) (hr : t.reply = false) (ho : t.oneway = true) (target : ProcId)
    (node : NodeId) : Tally th k (s.queueOneway target node t) c := by
  refine h.steady (x := 0) (Steady.queueOneway s target node t) ?_
  rw [(calls_level th k).state_queueOneway]
  simp [calls, concerns_oneway (t := { t with asyncNode := some node }) hr ho]

theorem Sent.tally (hs : Sent s th' k₀ s') (hf : s.Fresh) (h : Tally th k s c) (hk : k₀ < s.nextSerial)
    (h0 : k = k₀ → (calls th k).state s + c = 0) : Tally th k s' c := by
  -- where the bookkeeping has left the state, the call is as new as it was
  have old : ∀ {s₁}, Moves s s₁ → Tally th k s₁ c ∧ k₀ < s₁.nextSerial ∧ (k = k₀ → (calls th k).state s₁ + c = 0) :=
    fun hm => ⟨h.moves hm hf, by rw [(hm.calm hf).nextSerial]; exact hk, by rw [(hm.calm hf).weight]; exact h0⟩
  cases hs with
  | nothing hm _ => exact h.moves hm hf
  | intercepted r hr hkr _ _ =>
    refine Tally.queue _ _ _ (Tally.complete ?_ th')
    have hc : (Work.txn r).concerns th k (some th') = (decide (th' = th) && decide (k₀ = k)) := by
      simp [Work.concerns, hr, hkr, Txn.isCall, Bool.and_comm]
    rw [show ((some th'.2).map fun t => (th'.1, t)) = some th' from rfl, hc]
    exact h.await hk h0 th'
  | @hostedOneway s₁ hm _ =>
    refine Tally.complete (s := s₁.handOff th' true k₀) (Tally.of_state (x := 0) (old hm).1 rfl rfl ?_) th'
    rw [Weights.state_handOff]; simp [calls]
  | @hosted s₁ hm _ =>
    obtain ⟨h1, h2, h3⟩ := old hm
    have ha := h1.await h2 h3 th'
    refine Tally.complete (s := (s₁.await th' k₀).handOff th' false k₀) (ha.of_state rfl rfl ?_) th'
    rw [Weights.state_handOff]
    simp [calls]
  | oneway txn hw ho _ node n => exact ((h.moves hw.moves hf).oneway hw.noReply ho _ _).complete th'
  | call txn hw ho hfr owner _ _ =>
    obtain ⟨h1, h2, h3⟩ := old hw.moves
    refine Tally.complete (Tally.queue _ _ _ ?_) th'
    have hc : ∀ reader, (Work.txn txn).concerns th k reader = (decide (th' = th) && decide (k₀ = k)) := fun reader => by
      simp [concerns_call hw.noReply, Txn.isCall, hw.noReply, ho, hfr, hw.serial, Bool.and_comm]
    rw [hc]
    exact h1.await h2 h3 th'

theorem HostSent.tally (hs : HostSent s k₀ s') (hf : s.Fresh) (h : Tally th k s c) (hk : k₀ < s.nextSerial)
    (h0 : k = k₀ → (calls th k).state s + c = 0) : Tally th k s' c := by
  cases hs with
  | nothing hm _ => exact h.moves hm hf
  | oneway txn hw ho _ node n => exact (h.moves hw.moves hf).oneway hw.noReply ho _ _
  | call txn hw ho tid hfr owner nested _ _ =>
    have hc := hw.moves.calm hf
    refine Tally.queue _ _ _ ((h.moves hw.moves hf).new (by rw [hc.nextSerial]; exact hk)
      (by rw [hc.weight]; exact h0) (Bool.toNat_le _) fun hne => ?_)
    simp [concerns_call hw.noReply, hw.serial, Ne.symm hne]

/-- one who may wait is alive -/
theorem waits_of_isDead (ha : (s.proc th.1).dead = false) (hd : s.isDead th.1 = true) : (s.thread th).waits = [] := by
  cases hp : s.procs.lookup th.1 with
  | none => simp [State.thread, State.proc, hp, ProcState.thread]
  | some p => simp [State.isDead, State.proc, hp] at ha hd; simp [ha] at hd

theorem Replied.tally {sv : Option Served} (hs : Replied s th' sv s') (hf : s.Fresh)
    (ha : (s.proc th.1).dead = false)
    (h : Tally th k s (c + Weights.sum (fun v => (decide (v = (⟨some th, k⟩ : Served))).toNat) sv.toList)) :
    Tally th k s' c := by
  have hw : ∀ d k', Served.waiting sv = some (d, k') →
      Weights.sum (fun v => (decide (v = (⟨some th, k⟩ : Served))).toNat) sv.toList =
        (decide (k' = k) && decide (d = th)).toNat := fun d k' hd => by
    obtain _ | ⟨_ | d', k''⟩ := sv
    · cases hd
    · cases hd
    · cases hd; simp [Bool.and_comm]
  cases hs with
  | nothing hm _ hn =>
    refine Tally.moves ?_ hm hf
    by_cases hx : sv = some ⟨some th, k⟩
    · subst hx
      exact h.forget (waits_of_isDead ha (hn th k rfl))
    · have : Weights.sum (fun v => (decide (v = (⟨some th, k⟩ : Served))).toNat) sv.toList = 0 := by
        obtain _ | v := sv
        · rfl
        · simpa using hx
      rwa [this] at h
  | sent d k' hd txn hm hr hkr _ _ _ =>
    refine Tally.complete (Tally.queue _ _ _ ?_) th'
    have hc : (Work.txn txn).concerns th k (some d) = (decide (k' = k) && decide (d = th)) := by
      simp [Work.concerns, hr, hkr, Txn.isCall]
    rw [show ((some d.2).map fun t => (d.1, t)) = some d from rfl, hc, ← hw d k' hd]
    exact h.moves hm hf
  | failed d k' hd hm _ =>
    refine Tally.queue _ _ _ ?_
    have hc : (Work.failedReply k').concerns th k (some d) = (decide (k' = k) && decide (d = th)) := by
      simp [Work.concerns]
    rw [show ((some d.2).map fun t => (d.1, t)) = some d from rfl, hc, ← hw d k' hd]
    exact h.moves hm hf

theorem HostAnswered.tally {job : HostJob} (hs : HostAnswered s job s') (hf : s.Fresh)
    (ha : (s.proc th.1).dead = false) (h : Tally th k s (c + (decide (job = ⟨th, false, k⟩)).toNat)) :
    Tally th k s' c := by
  obtain ⟨d, o, k'⟩ := job
  cases hs with
  | nothing hn =>
    by_cases hx : (⟨d, o, k'⟩ : HostJob) = ⟨th, false, k⟩
    · cases hx
      rcases hn with hn | hn
      · cases hn
      · exact h.forget (waits_of_isDead ha hn)
    · simpa [hx] using h
  | failed ho hm _ =>
    refine Tally.queue _ _ _ ?_
    have hc : (Work.failedReply k').concerns th k (some d) = decide ((⟨d, o, k'⟩ : HostJob) = ⟨th, false, k⟩) := by
      cases ho; simp [Work.concerns, Bool.and_comm]
    rw [show ((some d.2).map fun t => (d.1, t)) = some d from rfl, hc]
    exact h.moves hm hf
  | sent ho txn hm hr hkr _ _ =>
    refine Tally.queue _ _ _ ?_
    have hc : (Work.txn txn).concerns th k (some d) = decide ((⟨d, o, k'⟩ : HostJob) = ⟨th, false, k⟩) := by
      cases ho; simp [Work.concerns, hr, hkr, Txn.isCall, Bool.and_comm]
    rw [show ((some d.2).map fun t => (d.1, t)) = some d from rfl, hc]
    exact h.moves hm hf

end Command

/-! ## A read -/

section Read

variable {th th' : Thread} {k : ℕ} {s s' : State} {c : ℕ}

theorem Tally.failUndelivered (t : Txn) (h : Tally th k s (c + ((Work.txn t).concerns th k (some th')).toNat)) :
    Tally th k (s.failUndelivered th' t) c := by
  have hu := h.unpin t.pinned
  unfold State.failUndelivered
  dsimp only
  split
  · rename_i hr
    refine Tally.endWait th' t.serial ?_
    have hc : (Work.txn t).concerns th k (some th') = (decide (th' = th) && decide (t.serial = k)) := by
      simp [Work.concerns, hr, Txn.isCall, Bool.and_comm]
    rwa [hc] at hu
  · rename_i hr
    refine Tally.tellSender t (.inr rfl) (Tally.doneWith ?_ _ _)
    rwa [concerns_call (by simpa using hr), ← concerns_call (by simpa using hr) none] at hu

theorem Tally.hear (w : Work) (hno : ∀ t, w ≠ .txn t) (h : Tally th k s (c + (w.concerns th k (some th')).toNat)) :
    Tally th k (s.hear th' w) c := by
  have hc : ∀ k', (decide (k' = k) && decide (some th' = some th)) = (decide (th' = th) && decide (k' = k)) := fun k' => by
    simp [Bool.and_comm]
  cases w with
  | txn t => exact absurd rfl (hno t)
  | deadReply k' => rw [Work.concerns, hc] at h; exact h.endWait th' k'
  | failedReply k' => rw [Work.concerns, hc] at h; exact h.endWait th' k'
  | _ => exact h

theorem Tally.serve (sv : Served) (h : Tally th k s (c + (decide (sv = (⟨some th, k⟩ : Served))).toNat)) :
    Tally th k (s.updThread th' fun t => { t with serving := t.serving ++ [sv] }) c := by
  refine h.of_state ?_ rfl (Weights.state_pushServing _ _ _ _)
  rw [State.thread_updThread]
  split_ifs with he
  · rw [he]
  · rfl

theorem Tally.unserve (h : Tally th k s c) (th' : Thread) :
    Tally th k (s.updThread th' fun t => { t with serving := t.serving.dropLast })
      (c + Weights.sum (fun v => (decide (v = (⟨some th, k⟩ : Served))).toNat) (s.thread th').serving.getLast?.toList) := by
  have hs := (calls th k).state_popServing s th'
  have he : Weights.sum ((calls th k).serving th') (s.thread th').serving.getLast?.toList =
      Weights.sum (fun v => (decide (v = (⟨some th, k⟩ : Served))).toNat) (s.thread th').serving.getLast?.toList := rfl
  have hw : ((s.updThread th' fun t => { t with serving := t.serving.dropLast }).thread th).waits =
      (s.thread th).waits := by
    rw [State.thread_updThread]
    split_ifs with he
    · rw [he]
    · rfl
  exact h.taken hw rfl hs

theorem Tally.placed (buf : ℕ) (t : Txn) (h : Tally th k s (c + ((Work.txn t).concerns th k (some th')).toNat)) :
    Tally th k (s.placed th' buf t) c := by
  have hb : Tally th k ((s.recordBuffer th' buf t).logDelivered t.asyncNode t.serial)
      (c + ((Work.txn t).concerns th k (some th')).toNat) := by
    refine h.steady (x := 0) ((recordBuffer_steady s th' buf t).trans (logDelivered_steady _ _ _)) ?_
    have hr := (calls th k).state_recordBuffer s th' buf t
    have hz : Map.weighAt (calls th k).buffer s.buffers (th'.1, buf) = 0 := by
      unfold Map.weighAt
      cases s.buffers.lookup (th'.1, buf) <;> rfl
    rw [Weights.sum_eq_zero (f := (calls th k).buffer _) fun _ => rfl, hz, ite_self] at hr
    rw [Weights.state_logDelivered]
    exact hr
  unfold State.placed
  dsimp only
  split
  · rename_i hr
    refine Tally.endWait th' t.serial ?_
    have hc : (Work.txn t).concerns th k (some th') = (decide (th' = th) && decide (t.serial = k)) := by
      simp [Work.concerns, hr, Txn.isCall, Bool.and_comm]
    rwa [hc] at hb
  · rename_i hr
    split
    · rename_i ho
      rwa [concerns_oneway (by simpa using hr) ho] at hb
    · rename_i ho
      refine Tally.serve _ ?_
      have hc : (Work.txn t).concerns th k (some th') = decide ((⟨t.from_, t.serial⟩ : Served) = ⟨some th, k⟩) := by
        rw [concerns_call (by simpa using hr)]
        simp only [Bool.not_eq_true] at hr ho
        simp [Txn.isCall, hr, ho, Bool.and_comm]
      rwa [hc] at hb

theorem Tally.undeliver (h : Tally th k s c) (hd : Handed)
    (hs : hd.reply = false → hd.oneway = false → (s.thread th').serving.getLast? = some ⟨hd.from_, hd.serial⟩) :
    Tally th k (s.undeliver th' hd) c := by
  have hf := h.freeRecord th'.1 hd.buf
  unfold State.undeliver
  dsimp only
  split
  · exact hf
  · rename_i hkind
    simp only [Bool.or_eq_true, not_or, Bool.not_eq_true] at hkind
    have hl := hs hkind.1 hkind.2
    rw [← (freeRecord_steady s th'.1 hd.buf).serving th'] at hl
    have hu := hf.unserve th'
    have he : (s.freeRecord th'.1 hd.buf).unserve th' hd.from_ =
        (s.freeRecord th'.1 hd.buf).updThread th' fun t => { t with serving := t.serving.dropLast } := by
      rw [State.unserve, if_pos (by rw [hl]; rfl)]
    rw [hl, ← he] at hu
    split
    · rename_i d t hfr
      refine Tally.queue _ _ _ ?_
      have hc : (Work.failedReply hd.serial).concerns th k (some (d, t)) =
          decide ((⟨hd.from_, hd.serial⟩ : Served) = ⟨some th, k⟩) := by
        simp [Work.concerns, hfr, Bool.and_comm]
      rw [show ((some t).map fun t => (d, t)) = some (d, t) from rfl, hc]
      simpa using hu
    · rename_i hfr
      simpa [hfr] using hu

end Read

/-! ## Ends -/

section Ends

variable {th th' : Thread} {k : ℕ} {s s' : State} {c c' : ℕ}

/-- a thread gone waits for nothing -/
theorem Tally.drop (h : Tally th k s c) (hw : (s'.thread th).waits = []) (hn : s'.nextSerial = s.nextSerial)
    (hle : (calls th k).state s' + c' ≤ (calls th k).state s + c) : Tally th k s' c' := by
  obtain ⟨-, h2, h3⟩ := h
  refine ⟨by rw [hw]; exact Nat.zero_le _, by omega, fun hk => ?_⟩
  have := h3 (hn ▸ hk); omega

/-- where `th` does not read, only a call of its own is its concern -/
theorem concerns_elsewhere (hne : th' ≠ th) (w : Work) : w.concerns th k (some th') = w.concerns th k none := by
  cases w <;> simp [Work.concerns, hne]

theorem concerns_none_le (w : Work) (reader : Option Thread) :
    (w.concerns th k none).toNat ≤ (w.concerns th k reader).toNat := by
  cases w with
  | txn t =>
    refine Bool.toNat_le_toNat ?_
    simp only [Work.concerns, reduceCtorEq, decide_false, Bool.and_false, Bool.or_false]
    cases decide (t.serial = k) <;> cases (t.isCall && decide (t.from_ = some th)) <;> simp
  | _ => simp [Work.concerns]

/-- what is told when a thread goes, of its queue and of what it served -/
theorem calls_thread (th th' : Thread) (k : ℕ) (t : ThreadState) :
    (th ≠ th' → (calls th k).thread th'.1 th'.2 t =
      Weights.sum (fun w => (w.concerns th k none).toNat) t.todo +
        Weights.sum (fun v => (decide (v = (⟨some th, k⟩ : Served))).toNat) t.serving) ∧
    Weights.sum (fun w => (w.concerns th k none).toNat) t.todo +
        Weights.sum (fun v => (decide (v = (⟨some th, k⟩ : Served))).toNat) t.serving ≤
      (calls th k).thread th'.1 th'.2 t := by
  refine ⟨fun hne => ?_, ?_⟩
  · have : (calls th k).todo th'.1 (some th'.2) = fun w => (w.concerns th k none).toNat := funext fun w => by
      simp [calls, concerns_elsewhere (Ne.symm hne)]
    rw [Weights.thread, this]; rfl
  · have hle : Weights.sum (fun w => (w.concerns th k none).toNat) t.todo ≤
        Weights.sum ((calls th k).todo th'.1 (some th'.2)) t.todo := Weights.sum_le fun w => concerns_none_le w _
    have he : (calls th k).thread th'.1 th'.2 t = Weights.sum ((calls th k).todo th'.1 (some th'.2)) t.todo +
        Weights.sum (fun v => (decide (v = (⟨some th, k⟩ : Served))).toNat) t.serving := rfl
    omega

/-- a thread goes: what it had to answer is in hand -/
theorem Tally.eraseThread (h : Tally th k s c) (th' : Thread) :
    Tally th k (s.setProc th'.1 { s.proc th'.1 with threads := (s.proc th'.1).threads.erase th'.2 })
      (c + (Weights.sum (fun w => (w.concerns th k none).toNat) (s.thread th').todo +
        Weights.sum (fun v => (decide (v = (⟨some th, k⟩ : Served))).toNat) (s.thread th').serving)) := by
  have he := (calls th k).state_eraseThread s th'.1 th'.2
  obtain ⟨h1, h2⟩ := calls_thread th th' k (s.thread th')
  rw [Prod.mk.eta] at he
  by_cases hne : th = th'
  · refine h.drop ?_ rfl (by omega)
    rw [thread_eraseThread, if_pos hne]
  · have hw : ((s.setProc th'.1 { s.proc th'.1 with threads := (s.proc th'.1).threads.erase th'.2 }).thread th).waits =
        (s.thread th).waits := by rw [thread_eraseThread, if_neg hne]
    have h1 := h1 hne
    obtain ⟨t1, t2, t3⟩ := h
    refine ⟨by rw [hw]; omega, by omega, fun hk => ?_⟩
    have := t3 hk; omega

theorem sum_of_length_le_one {α : Type} (f : α → ℕ) {l : List α} (h : l.length ≤ 1) :
    Weights.sum f l = Weights.sum f l.getLast?.toList := by
  match l, h with
  | [], _ => rfl
  | [_], _ => rfl

theorem Tally.threadExit (h : Tally th k s c) (hserv : (s.thread th').serving.length ≤ 1) :
    Tally th k (s.threadExit th') c := by
  unfold State.threadExit
  cases hp : s.procs.lookup th'.1 with
  | none => exact h
  | some p =>
    have hproc : s.proc th'.1 = p := by simp [State.proc, hp]
    cases ht : p.threads.lookup th'.2 with
    | none => simp only [ht]; exact h
    | some gone =>
      have hth : s.thread th' = gone := by simp [State.thread, hproc, ProcState.thread, ht]
      have he := h.eraseThread th'
      have hlast := sum_of_length_le_one (fun v => (decide (v = (⟨some th, k⟩ : Served))).toNat) (hth ▸ hserv)
      rw [hproc, hth, hlast, ← add_assoc] at he
      simp only [ht]
      refine Tally.dropWorks th'.1 gone.todo ?_
      split
      · rename_i d t k' hg
        rw [hg] at he
        refine Tally.queue _ _ _ ?_
        have hc : (Work.deadReply k').concerns th k (some (d, t)) =
            decide ((⟨some (d, t), k'⟩ : Served) = ⟨some th, k⟩) := by simp [Work.concerns, Bool.and_comm]
        rw [show ((some t).map fun t => (d, t)) = some (d, t) from rfl, hc]
        simpa using he
      · rename_i hno
        have h0 : Weights.sum (fun v => (decide (v = (⟨some th, k⟩ : Served))).toNat) gone.serving.getLast?.toList = 0 := by
          rcases hg : gone.serving.getLast? with _ | ⟨_ | d, k'⟩
          · rfl
          · simp
          · exact absurd hg (hno d.1 d.2 k')
        rwa [h0] at he

theorem Tally.release (h : Tally th k s c) (id : ProcId) (o : ReleaseOrder) (ho : o.Valid s id) (hne : th.1 ≠ id) :
    Tally th k (s.release id o) c := by
  have hw := (calls th k).state_bury (f := fun w => (w.concerns th k none).toNat)
    (g := fun v => (decide (v = (⟨some th, k⟩ : Served))).toNat) s id o ho
    (fun tid w => by
      cases tid with
      | none => rfl
      | some t => simp [calls, concerns_elsewhere (show (id, t) ≠ th from fun he => hne (by rw [← he]))])
    (fun _ _ => rfl) (fun _ _ => rfl)
  obtain ⟨-, hwaits, hserial⟩ := bury_thread s id o th
  rw [if_neg hne] at hwaits
  have hb : Tally th k (s.bury id o).1 (c + Weights.sum (fun w => (w.concerns th k none).toNat) (s.bury id o).2.dropped +
      Weights.sum (fun v => (decide (v = (⟨some th, k⟩ : Served))).toNat) (s.bury id o).2.serving) := by
    obtain ⟨t1, t2, t3⟩ := h
    refine ⟨by rw [hwaits]; omega, by omega, fun hk => ?_⟩
    have := t3 (hserial ▸ hk); omega
  have hd := ((hb.failServeds _).dropWorks id _).dropBuffers id o.buffers
  exact hd.calm (Calm.foldl releaseIfUnreferenced_calm _ _)

end Ends

/-! ## What a thread is being handed -/

def Reading.handed (r : Reading) : Option Handed :=
  match r.phase with
  | .written _ h => h
  | _ => none

def Handed.isCall (h : Handed) : Bool := !h.reply && !h.oneway

/-- a call being handed to a thread is the innermost it serves -/
def Handing (w : World) : Prop :=
  ∀ th r h, w.reads.lookup th = some r → r.handed = some h → h.isCall = true → (w.st.proc th.1).dead = false →
    (w.st.thread th).serving.getLast? = some ⟨h.from_, h.serial⟩

namespace World

theorem idle_handed (r : Reading) (env : LookEnv) (released : Bool) :
    Reading.handed { r with phase := r.idle env released } = none := by
  unfold Reading.idle
  repeat' split
  all_goals rfl

/-- something new is handed only where a transaction is placed -/
theorem step_handed (w : World) (a : Act) (th : Thread) (r : Reading) (h : Handed)
    (hr : (step w a).reads.lookup th = some r) (hh : r.handed = some h) :
    ((∃ r₀, w.reads.lookup th = some r₀ ∧ r₀.handed = some h) ∧ ∀ e, a ≠ .copyOut th e) ∨
      ∃ t buf, (step w a).st = w.st.placed th buf t ∧ h.from_ = t.from_ ∧ h.serial = t.serial ∧
        h.isCall = t.isCall := by
  -- a reading of `th'` that hands nothing replaces only that
  have other : ∀ {th' : Thread} {r' : Reading}, (w.reads.insert th' r').lookup th = some r → r'.handed = none →
      th ≠ th' ∧ w.reads.lookup th = some r := fun {th' r'} hi hn => by
    rw [Map.lookup_insert_eq] at hi
    split_ifs at hi with he
    · cases hi; rw [hn] at hh; cases hh
    · exact ⟨he, hi⟩
  cases a with
  | startRead th' size first nonblocking =>
    simp only [step] at hr
    split at hr
    · exact .inl ⟨⟨r, (other hr rfl).2, hh⟩, fun e he => by cases he⟩
    · exact .inl ⟨⟨r, hr, hh⟩, fun e he => by cases he⟩
  | look th' env =>
    left
    refine ⟨?_, fun e he => by cases he⟩
    simp only [step] at hr
    split at hr
    · split at hr
      · unfold look at hr
        split at hr
        · exact ⟨r, (other hr rfl).2, hh⟩
        · exact ⟨r, (other hr (idle_handed _ env _)).2, hh⟩
      · exact ⟨r, hr, hh⟩
    · exact ⟨r, hr, hh⟩
  | deliver th' =>
    left
    refine ⟨?_, fun e he => by cases he⟩
    simp only [step] at hr
    split at hr
    · split at hr
      · unfold deliver at hr
        split at hr
        · split at hr
          · exact ⟨r, (other hr (by split <;> rfl)).2, hh⟩
          · exact ⟨r, (other hr rfl).2, hh⟩
        · exact ⟨r, (other hr rfl).2, hh⟩
      · exact ⟨r, hr, hh⟩
    · exact ⟨r, hr, hh⟩
  | place th' env =>
    have keep : (step w (.place th' env)).reads = w.reads →
        (∃ r₀, w.reads.lookup th = some r₀ ∧ r₀.handed = some h) ∧ ∀ e, Act.place th' env ≠ .copyOut th e := fun he =>
      ⟨⟨r, he ▸ hr, hh⟩, fun e h => by cases h⟩
    cases hr' : w.reads.lookup th' with
    | none => exact .inl (keep (by simp [step, hr']))
    | some r' =>
      cases hph : r'.phase with
      | placing t buf =>
        have hs : step w (.place th' env) = w.place th' r' t buf env := by simp only [step, hr', hph]
        rw [hs] at hr ⊢
        cases he : (fill env t buf).result with
        | error e =>
          rw [place_error he] at hr
          exact .inl ⟨⟨r, (other hr (by split <;> rfl)).2, hh⟩, fun e he => by cases he⟩
        | ok b =>
          obtain ⟨fds, hp⟩ := place_ok w th' r' he
          rw [hp] at hr ⊢
          simp only [setReading, Map.lookup_insert_eq] at hr
          split_ifs at hr with hth
          · cases hr
            simp only [Reading.handed, Option.some.injEq] at hh
            subst hh hth
            exact .inr ⟨t, buf, rfl, rfl, rfl, rfl⟩
          · exact .inl ⟨⟨r, hr, hh⟩, fun e he => by cases he⟩
      | _ => exact .inl (keep (by simp [step, hr', hph]))
  | copyOut th' write =>
    left
    have here : ∀ {r' : Reading}, w.reads.lookup th' = some r' → w.reads.lookup th = some r →
        (∀ wk hd, r'.phase ≠ .written wk hd) → ∀ e, Act.copyOut th' write ≠ .copyOut th e := fun {r'} h' h0 hn e he => by
      cases he
      rw [h'] at h0; cases h0
      unfold Reading.handed at hh
      split at hh
      · rename_i hph; exact hn _ _ hph
      · cases hh
    simp only [step] at hr
    split at hr
    · rename_i r' hr'
      split at hr
      · rename_i wk handed hph
        have hre : ∃ r'', (copyOut w th' r' handed write).reads = w.reads.insert th' r'' ∧ r''.handed = none := by
          unfold copyOut
          split
          · exact ⟨_, rfl, rfl⟩
          · cases handed <;> exact ⟨_, rfl, rfl⟩
        obtain ⟨r'', he, hn⟩ := hre
        rw [he] at hr
        obtain ⟨hne, h0⟩ := other hr hn
        exact ⟨⟨r, h0, hh⟩, fun e he => by cases he; exact hne rfl⟩
      · rename_i hno
        exact ⟨⟨r, hr, hh⟩, here hr' hr hno⟩
    · rename_i hn
      exact ⟨⟨r, hr, hh⟩, fun e he => by cases he; rw [hr] at hn; cases hn⟩
  | endRead th' =>
    left
    refine ⟨?_, fun e he => by cases he⟩
    simp only [step] at hr
    split at hr
    · split at hr
      · simp only [endRead, Map.lookup_erase_eq] at hr
        split_ifs at hr
        exact ⟨r, hr, hh⟩
      · exact ⟨r, hr, hh⟩
    · exact ⟨r, hr, hh⟩
  | openFile =>
    left
    refine ⟨⟨r, ?_, hh⟩, fun e he => by cases he⟩
    simp only [step] at hr
    rcases openFile_cases w with he | ⟨-, -, he⟩
    · rw [he] at hr; exact hr
    · rw [he] at hr; exact hr
  | _ =>
    left
    refine ⟨⟨r, ?_, hh⟩, fun e he => by cases he⟩
    simp only [step] at hr
    first | exact hr | (split at hr <;> exact hr)

theorem alive_before (w : World) (hb : Basic w) (a : Act) {id : ProcId} (h : ((step w a).st.proc id).dead = false) :
    (w.st.proc id).dead = false := by
  by_cases ho : a = .openFile
  · subst ho
    rw [← (openFile_calm w).dead]; exact h
  · rcases step_dead w hb a ho id with he | ⟨o, rfl⟩
    · rw [← he]; exact h
    · simp only [step] at h
      split at h
      · have := release_dead w.st id o hb.fresh id
        rw [if_pos rfl] at this
        rw [onState, this] at h; cases h
      · exact h

theorem step_handing (w : World) (hb : Basic w) (hH : Handing w) (a : Act) : Handing (step w a) := by
  intro th r h hr hh hc ha
  rcases step_handed w a th r h hr hh with ⟨⟨r₀, hr₀, hh₀⟩, hno⟩ | ⟨t, buf, hst, hf, hk, hcall⟩
  · have h0 := hH th r₀ h hr₀ hh₀ hc (alive_before w hb a ha)
    by_cases hns : step w a = w
    · rw [hns]; exact h0
    have htouch : a.touches th = false := by
      have hcmd : w.commanding th = false := by simp [commanding, hr₀]
      cases a with
      | reply th' env tr =>
        refine decide_eq_false fun he => hns ?_
        subst he; simp [step, hcmd]
      | threadExit th' =>
        refine decide_eq_false fun he => hns ?_
        subst he; simp [step, hcmd]
      | place th' env =>
        refine decide_eq_false fun he => hns ?_
        subst he
        cases hph : r₀.phase with
        | placing t buf => simp [Reading.handed, hph] at hh₀
        | _ => simp [step, hr₀, hph]
      | copyOut th' e => exact decide_eq_false fun he => hno e (by rw [he])
      | release id o =>
        refine decide_eq_false fun he => ?_
        subst he
        simp only [step] at ha hns
        split at ha
        · have := release_dead w.st th.1 o hb.fresh th.1
          rw [if_pos rfl] at this
          rw [onState, this] at ha; cases ha
        · rename_i hv; exact hns (if_neg hv)
      | hostLook tid => exact decide_eq_false (hb.guests _ (hb.reads th (by rw [hr₀]; rfl)))
      | hostGiveUp tid => exact decide_eq_false (hb.guests _ (hb.reads th (by rw [hr₀]; rfl)))
      | _ => rfl
    rw [step_serving w hb a th htouch]
    exact h0
  · rw [hst, placed_serving, if_pos ⟨rfl, by rw [← hcall]; exact hc⟩, hf, hk]
    simp

end World

/-! ## Runs in which every end is attended to -/

/-- a thread exits while it serves one call at most; a process is released while none of its threads has a call in hand;
a call is taken back, its read failed, by a process that is not released -/
def Attended (w : World) : Act → Prop
  | .threadExit th => (w.st.thread th).serving.length ≤ 1
  | .release id _ => ∀ e ∈ w.reads.entries, e.1.1 = id → e.2.item.any Work.isCall = false
  | .copyOut th (.error _) =>
    ((w.reads.lookup th).bind Reading.handed).any Handed.isCall = true → (w.st.proc th.1).dead = false
  | _ => True

instance (w : World) (a : Act) : Decidable (Attended w a) := by
  cases a with
  | copyOut th write => cases write <;> first | exact .isTrue trivial | (unfold Attended; infer_instance)
  | _ => first | exact .isTrue trivial | (unfold Attended; infer_instance)

/-- no call is where no one will answer it -/
def NoStrays (w : World) : Prop := ∀ gone, (∀ id, gone = some id → (w.st.proc id).dead = true) → (strays gone).total w = 0

theorem strays_le (id : ProcId) {s : State} (hp : s.proc id = {} ∨ ∃ p : ProcState, s.proc id = p.released) :
    (strays (some id)).state s ≤ (strays none).state s := by
  have hproc : ∀ id' p, s.procs.lookup id' = some p → (strays (some id)).proc id' p ≤ (strays none).proc id' p := by
    intro id' p hl
    have hp' : s.proc id' = p := by simp [State.proc, hl]
    by_cases he : id = id'
    · subst he
      have h0 : (strays (some id)).proc id p = 0 := by
        rcases hp with h | ⟨q, h⟩ <;> (rw [hp'] at h; rw [h]; rfl)
      omega
    · have ht : (strays (some id)).todo id' = (strays none).todo id' := by
        funext tid w; simp [strays, he]
      have hth : (strays (some id)).thread id' = (strays none).thread id' := by
        funext tid t
        have hsv : (strays (some id)).serving (id', tid) = (strays none).serving (id', tid) := by
          funext sv; simp [strays, he]
        rw [Weights.thread, Weights.thread, ht, hsv]
      rw [Weights.proc, Weights.proc, ht, hth]
  have h1 := Map.weigh_mono hproc
  have h2 : Map.weigh (strays (some id)).node s.nodes = Map.weigh (strays none).node s.nodes := rfl
  have h3 : Map.weigh (strays (some id)).buffer s.buffers = Map.weigh (strays none).buffer s.buffers := rfl
  have h4 : Weights.sum (strays (some id)).job s.jobs = Weights.sum (strays none).job s.jobs := rfl
  simp only [Weights.state]
  omega

namespace World

theorem step_noStrays (w : World) (hb : Basic w) (h : NoStrays w) (a : Act) (ho : Attended w a) :
    NoStrays (step w a) := by
  intro gone hg
  by_cases hbefore : ∀ id, gone = some id → (w.st.proc id).dead = true
  · refine step_void (strays_void gone) w hb (fun id ha he => ?_) (h gone hbefore) a
    rw [hbefore id he] at ha; cases ha
  · -- the process was released by this step, and had no call in hand
    push Not at hbefore
    obtain ⟨id, rfl, hid⟩ := hbefore
    have halive : (w.st.proc id).dead = false := by simpa using hid
    have hd := hg id rfl
    have hop : a ≠ .openFile := fun he => by
      subst he
      rw [show (step w .openFile).st = w.openFile.st from rfl, (openFile_calm w).dead, halive] at hd; cases hd
    rcases step_dead w hb a hop id with he | ⟨o, rfl⟩
    · rw [he, halive] at hd; cases hd
    · simp only [step] at hd ⊢
      split
      · obtain ⟨hs, hr⟩ := Weights.total_eq_zero.1 (h none fun _ he => by cases he)
        refine Weights.total_eq_zero.2 ⟨(strays_void (some id)).settle ?_ id o.buffers _, fun th r hth => ?_⟩
        · show (strays (some id)).state (w.st.bury id o).1 = 0
          have h1 := (strays none).state_bury_le w.st id o
          have h2 := strays_le (s := (w.st.bury id o).1) id
            (.inr ⟨((w.st.killNodes o.nodes).1.forgetRelayouts id).proc id, by
              simp only [State.bury, State.proc_setProc, if_pos]⟩)
          omega
        · have h0 := hr th r hth
          have hcall := ho ⟨th, r⟩ ((Map.mem_entries _ _ _).2 hth)
          cases hi : r.item with
          | none => exact Weights.reading_none _ hi
          | some wk =>
            rw [Weights.reading_some _ hi]
            refine if_neg fun hc => ?_
            have := hcall (Option.some.inj hc.2).symm
            rw [hi] at this
            simp only [Option.any_some] at this
            rw [this] at hc; cases hc.1
      · rename_i hv
        rw [if_neg hv, halive] at hd; cases hd

/-- the call `k` of `th` tallies -/
def Tallied (th : Thread) (k : ℕ) (w : World) : Prop := Tally th k w.st (Map.weigh (calls th k).reading w.reads)

theorem tally_failPlacing {w w' : World} {th th' : Thread} {k : ℕ} {r : Reading} {t : Txn}
    (hr : w.reads.lookup th' = some r) (hi : r.item = some (.txn t)) (hst : w'.st = w.st) (hre : w'.reads = w.reads)
    (h : w.Tallied th k) : (w'.failPlacing th' r t).Tallied th k := by
  refine (calls th k).hands_read (P := Tally th k w.st) hr (by rw [← hre]; rfl) (fun c hs => ?_) h
  rw [Weights.reading_some _ hi] at hs
  have hf := Tally.failUndelivered t hs
  rw [show (w'.failPlacing th' r t).st = w.st.failUndelivered th' t by rw [← hst]; rfl]
  split <;> exact hf

theorem tally_hostThread {s : State} {th : Thread} {k : ℕ} {tid : Tid} (hs : (strays none).state s = 0)
    (hne : th ≠ (.host, tid)) : (calls th k).thread .host tid (s.thread (.host, tid)) = 0 := by
  have he := (strays none).state_eraseThread s .host tid
  have hz : (strays none).thread .host tid (s.thread (.host, tid)) = 0 := by omega
  have h1 : (calls th k).thread .host tid (s.thread (.host, tid)) ≤
      (strays none).thread .host tid (s.thread (.host, tid)) := by
    refine Nat.add_le_add (Weights.sum_le fun w => ?_) (Weights.sum_le fun sv => ?_)
    · cases w with
      | txn t => simp only [calls, strays, Work.concerns, Work.isCall]; split_ifs <;>
          simp_all [Bool.toNat_le, Ne.symm hne]
      | _ => simp [calls, Work.concerns, Ne.symm hne]
    · simp [calls, strays, Bool.toNat_le]
  omega

/-- what is no answer is the same call wherever it is read -/
theorem concerns_noAnswer {th : Thread} {k : ℕ} {w : Work} (h : w.answers = false) (reader : Option Thread) :
    w.concerns th k reader = w.concerns th k none := by
  cases w <;> simp_all [Work.answers, Work.concerns]

/-- a serial is taken -/
theorem tally_bump {s : State} {th : Thread} {k c : ℕ} (h : Tally th k s c) :
    Tally th k s.bump c ∧ (k = s.nextSerial → (calls th k).state s.bump + c = 0) := by
  have hs : (calls th k).state s.bump = (calls th k).state s := rfl
  exact ⟨⟨h.waited, h.once, fun hk => h.unborn (Nat.le_of_succ_le hk)⟩, fun hk => hs ▸ h.unborn hk.ge⟩

/-- a look takes its item into its thread's hands -/
theorem tally_look {s : State} {th : Thread} {k c : ℕ} (hs : (strays none).state s = 0) (th' : Thread) (env : SpawnEnv)
    (h : Tally th k s c) : Tally th k (s.setProc th'.1 ((s.proc th'.1).take env th'.2).1)
      (c + Weights.sum ((calls th k).hand th') ((s.proc th'.1).take env th'.2).2.1.toList) := by
  obtain ⟨src, hsrc, hw⟩ := s.take_weighs th'.1 env th'.2
  have hx : Weights.sum ((calls th k).hand th') ((s.proc th'.1).take env th'.2).2.1.toList =
      Weights.sum ((calls th k).todo th'.1 src) ((s.proc th'.1).take env th'.2).2.1.toList := by
    rcases hsrc with rfl | rfl
    · -- nothing that answers a call is in a process's queue
      have h0 := hw (strays none)
      cases hi : ((s.proc th'.1).take env th'.2).2.1 with
      | none => rfl
      | some wk =>
        rw [hi] at h0
        simp only [Option.toList_some, Weights.sum_cons, Weights.sum_nil] at h0 ⊢
        have hans : wk.answers = false := by
          by_contra hc
          have : (strays none).todo th'.1 none wk = 1 := if_pos (.inr ⟨by simpa using hc, rfl⟩)
          omega
        exact congrArg (·.toNat + 0) (concerns_noAnswer hans (some th'))
    · rfl
  rw [hx]
  exact h.taken (State.take_thread (·.waits) (fun _ _ _ => rfl) s env th th') rfl (hw (calls th k))

/-- a host thread passes over what does not end its wait -/
theorem tally_hostLook {s : State} {th : Thread} {k c : ℕ} {tid : Tid} (hs : (strays none).state s = 0)
    (h : Tally th k s c) : Tally th k (s.hostLook tid) c ∧ Tally th k (s.hostGiveUp tid) c := by
  have hup : Tally th k (s.hostGiveUp tid) c := by
    have he := (calls th k).state_eraseThread s .host tid
    have hw := thread_eraseThread s th (.host, tid)
    by_cases hne : th = (.host, tid)
    · rw [if_pos hne] at hw
      have he' : (calls th k).state (s.hostGiveUp tid) ≤ (calls th k).state s := Nat.le_of_add_right_le he.le
      exact h.drop (congrArg ThreadState.waits hw) rfl (by omega)
    · rw [if_neg hne] at hw
      rw [tally_hostThread hs hne] at he
      exact h.of_state (x := 0) (congrArg ThreadState.waits hw) rfl he
  refine ⟨?_, hup⟩
  unfold State.hostLook
  split
  · exact h
  · rename_i w rest htodo
    split
    · exact hup
    · rename_i hend
      have hst := (strays none).state_eraseThread s .host tid
      have hz : (strays none).thread .host tid (s.thread (.host, tid)) = 0 := by omega
      simp only [Weights.thread, htodo, Weights.sum_cons] at hz
      have hcall : w.isCall = false := by
        by_contra hc
        have : (strays none).todo .host (some tid) w = 1 := if_pos (.inl ⟨by simpa using hc, .inr ⟨rfl, by simp⟩⟩)
        omega
      have h0 : (calls th k).todo .host (some tid) w = 0 := by
        cases w <;> simp_all [calls, Work.concerns, Work.isCall, Work.endsHostWait]
      have hu := (calls th k).state_updThread s (.host, tid) fun t => { t with todo := rest }
      simp only [Weights.thread, htodo, Weights.sum_cons, h0] at hu
      refine h.of_state (x := 0) ?_ rfl (by omega)
      rw [State.thread_updThread]
      split_ifs with he
      · rw [he]
      · rfl

theorem step_tally (w : World) (hb : Basic w) (hn : NoStrays w) (hH : Handing w) {a : Act} (ho : Attended w a)
    {th : Thread} {k : ℕ} (ha : ((step w a).st.proc th.1).dead = false) (h : w.Tallied th k) :
    (step w a).Tallied th k := by
  have hstrays : (strays none).state w.st = 0 := (Weights.total_eq_zero.1 (hn none fun _ he => by cases he)).1
  have halive := alive_before w hb a ha
  by_cases hidle : a.traffic = false
  · have hc := step_idle w hb a hidle
    have ht := total_idle (calls th k) w hb a hidle
    have hr : Map.weigh (calls th k).reading (step w a).reads = Map.weigh (calls th k).reading w.reads := by
      rw [Weights.total, Weights.total, hc.weight] at ht; exact Nat.add_left_cancel ht
    rw [Tallied, hr]
    exact h.calm hc
  cases a with
  | release id o =>
    simp only [step] at ha ⊢
    split
    · rename_i hv
      rw [if_pos hv, onState, release_dead w.st id o hb.fresh] at ha
      exact Tally.release h id o hv.2.2 fun he => by rw [if_pos he] at ha; cases ha
    · exact h
  | threadExit th' =>
    simp only [step]; split
    · exact Tally.threadExit h ho
    · exact h
  | transaction th' env tr =>
    simp only [step]; split
    · obtain ⟨h1, h0⟩ := tally_bump h
      exact (transaction_sent w.st env th' tr hb.fresh hb.host).tally hb.fresh h1 (Nat.lt_succ_self _) h0
    · exact h
  | reply th' env tr =>
    simp only [step]; split
    · have hst := Still.updThread w.st th' fun t => { t with serving := t.serving.dropLast }
      exact (reply_replied w.st env th' tr hb.fresh hb.host).tally (hst.fresh hb.fresh) (by rw [hst.dead]; exact halive)
        (Tally.unserve h th')
    · exact h
  | freeBuffer th' ptr =>
    simp only [step]; split
    · exact Tally.freeRecord h th'.1 ptr.toNat
    · exact h
  | look th' env =>
    simp only [step]; split
    · rename_i r hr
      split
      · rename_i hph
        obtain ⟨r', he, hi'⟩ := look_eq w th' r env
        have hi : r.item = none := by simp [Reading.item, hph]
        rw [he]
        refine (calls th k).hands_read (P := Tally th k w.st) hr rfl (fun c hs => ?_) h
        rw [Weights.reading_none _ hi] at hs
        rw [Weights.reading, hi']
        exact tally_look hstrays th' env.spawn hs
      · exact h
    · exact h
  | deliver th' =>
    simp only [step]; split
    · rename_i r hr
      split
      · rename_i item hph
        have hi : r.item = some item := by simp [Reading.item, hph]
        unfold deliver
        split
        · rename_i txn
          split
          · exact tally_failPlacing hr hi rfl rfl h
          · refine (calls th k).hands_read (P := Tally th k w.st) hr rfl (fun c hs => ?_) h
            rw [Weights.reading_some _ hi] at hs; exact hs
        · rename_i hno
          refine (calls th k).hands_read (P := Tally th k w.st) hr rfl (fun c hs => ?_) h
          rw [Weights.reading_some _ hi] at hs
          exact Tally.hear item hno hs
      · exact h
    · exact h
  | place th' env =>
    simp only [step]; split
    · rename_i r hr
      split
      · rename_i txn buf hph
        have hi : r.item = some (.txn txn) := by simp [Reading.item, hph]
        cases he : (fill env txn buf).result with
        | error e => rw [place_error he]; exact tally_failPlacing hr hi rfl rfl h
        | ok b =>
          obtain ⟨fds, hp⟩ := place_ok w th' r he
          rw [hp]
          refine (calls th k).hands_read (P := Tally th k w.st) hr rfl (fun c hs => ?_) h
          rw [Weights.reading_some _ hi] at hs
          exact Tally.placed buf txn hs
      · exact h
    · exact h
  | copyOut th' write =>
    simp only [step]; split
    · rename_i r hr
      split
      · rename_i wk handed hph
        have hi : r.item = none := by simp [Reading.item, hph]
        unfold copyOut
        split
        · refine (calls th k).hands_read (P := Tally th k w.st) hr rfl (fun c hs => ?_) h
          rw [Weights.reading_none _ hi] at hs; exact hs
        · rename_i e
          cases handed with
          | none =>
            refine (calls th k).hands_read (P := Tally th k w.st) hr rfl (fun c hs => ?_) h
            rw [Weights.reading_none _ hi] at hs; exact hs
          | some hd =>
            have hhd : r.handed = some hd := by simp [Reading.handed, hph]
            refine (calls th k).hands_read (P := Tally th k w.st) hr rfl (fun c hs => ?_) h
            rw [Weights.reading_none _ hi] at hs
            refine Tally.undeliver hs hd fun h1 h2 => ?_
            have hcall : hd.isCall = true := by simp [Handed.isCall, h1, h2]
            exact hH th' r hd hr hhd hcall (ho (by simp [hr, hhd, hcall]))
      · exact h
    · exact h
  | hostTransact euid hd code data offsets serving =>
    obtain ⟨h1, h0⟩ := tally_bump h
    exact (hostTransact_sent w.st euid hd code data offsets serving hb.fresh).tally hb.fresh h1 (Nat.lt_succ_self _) h0
  | hostLook tid => exact (tally_hostLook hstrays h).1
  | hostGiveUp tid => exact (tally_hostLook hstrays h).2
  | hostTransactOneway hd code data offsets =>
    obtain ⟨h1, h0⟩ := tally_bump h
    exact (hostTransactOneway_sent w.st hd code data offsets hb.fresh).tally hb.fresh h1 (Nat.lt_succ_self _) h0
  | hostReply i reply =>
    simp only [step, onState, State.hostReply]
    split
    · exact h
    · rename_i job hj
      have hj1 : Tally th k { w.st with jobs := w.st.jobs.eraseIdx i }
          (Map.weigh (calls th k).reading w.reads + (decide (job = ⟨th, false, k⟩)).toNat) :=
        Tally.taken h rfl rfl ((calls th k).state_eraseJob w.st hj)
      exact (hostAnswer_answered { w.st with jobs := w.st.jobs.eraseIdx i } job reply hb.fresh).tally hb.fresh halive hj1
  | _ => exact absurd rfl hidle

end World

/-! ## Every run whose ends are attended to -/

/-- no call is stray, what is handed is served, and every live thread's calls tally -/
structure Heard (w : World) : Prop where
  noStrays : NoStrays w
  handing : Handing w
  tallied : ∀ th k, (w.st.proc th.1).dead = false → w.Tallied th k

theorem heard_init (refcount : Bool) : Heard (World.init refcount) :=
  ⟨fun _ _ => rfl, fun _ _ _ h => (by cases h),
    fun _ _ _ => ⟨Nat.zero_le _, Nat.zero_le _, fun _ => rfl⟩⟩

theorem reach_heard {refcount : Bool} {w : World} (h : Reach World.step Attended (World.init refcount) w) : Heard w :=
  h.invariant Heard (heard_init refcount) fun w a hr ho hi =>
    have hb := reach_basic hr
    ⟨World.step_noStrays w hb hi.noStrays a ho, World.step_handing w hb hi.handing a, fun th k ha =>
      World.step_tally w hb hi.noStrays hi.handing ho ha (hi.tallied th k (World.alive_before w hb a ha))⟩

theorem calls_spot (th : Thread) (k : ℕ) (sp : Spot) : (calls th k).spot sp = (sp.concerns th k).toNat := by
  cases sp <;> rfl

theorem sum_toNat {α : Type} (p : α → Bool) (l : List α) : Weights.sum (fun a => (p a).toNat) l = (l.filter p).length := by
  induction l with
  | nil => rfl
  | cons a l ih =>
    rw [Weights.sum_cons, ih, List.filter_cons]
    cases p a <;> simp [Nat.add_comm]

/-- a call is where it will be answered, and its answer where it is read -/
theorem sound_of_noStrays {w : World} (hs : NoStrays w) {th : Thread} {k : ℕ} (ha : (w.st.proc th.1).dead = false)
    {sp : Spot} (hm : sp ∈ w.spots) (hc : sp.concerns th k = true) : sp.Sound w := by
  have hzero : ∀ gone, (∀ id, gone = some id → (w.st.proc id).dead = true) → (strays gone).spot sp = 0 := by
    intro gone hg
    have h0 := hs gone hg
    rw [Weights.total_eq] at h0
    exact List.sum_eq_zero_iff.1 h0 _ (List.mem_map_of_mem hm)
  have hdead : ∀ id, (w.st.proc id).dead = true → (strays (some id)).spot sp = 0 := fun id hd =>
    hzero (some id) fun _ he => by cases he; exact hd
  have hnone := hzero none fun _ he => by cases he
  -- what concerns `th` is its call, or an answer it reads
  have split : ∀ {wk : Work} {reader : Option Thread}, wk.concerns th k reader = true →
      wk.isCall = true ∨ wk.answers = true ∧ reader = some th := fun {wk reader} h => by
    cases wk <;> simp_all [Work.concerns, Work.isCall, Work.answers]
    tauto
  cases sp with
  | queued id tid wk =>
    by_contra hd
    have hd' := hdead id (by simpa [Spot.Sound] using hd)
    rcases split hc with h | ⟨-, h⟩
    · simp [Weights.spot, strays, h] at hd'
    · cases tid with
      | none => cases h
      | some t => cases h; exact hd ha
  | inHand th' wk =>
    by_contra hd
    have hd' := hdead th'.1 (by simpa [Spot.Sound] using hd)
    rcases split hc with h | ⟨-, h⟩
    · simp [Weights.spot, strays, h] at hd'
    · cases h; exact hd ha
  | served th' sv =>
    by_contra hd
    have hd' := hdead th'.1 (by simpa [Spot.Sound] using hd)
    simp [Weights.spot, strays] at hd'
  | hosted j => trivial
  | waiting n wk =>
    rcases split hc with h | ⟨-, h⟩
    · simp [Weights.spot, strays, h] at hnone
    · cases h
  | recorded => cases hc

/-- **No call is forgotten.** In every run of attended steps, a call that a thread waits on, or its answer, is in one
place, and one where it will be heard of. -/
theorem no_call_forgotten (refcount : Bool) (w : World) (h : Reach World.step Attended (World.init refcount) w)
    (th : Thread) (k : ℕ) (ha : (w.st.proc th.1).dead = false) (hk : k ∈ (w.st.thread th).waits) :
    ∃ sp, w.spots.filter (·.concerns th k) = [sp] ∧ sp.Sound w := by
  obtain ⟨hs, -, ht⟩ := reach_heard h
  obtain ⟨h1, h2, -⟩ := ht th k ha
  have htotal : (calls th k).total w = (w.spots.filter (·.concerns th k)).length := by
    rw [Weights.total_eq, ← sum_toNat]
    exact congrArg (Weights.sum · w.spots) (funext (calls_spot th k))
  have hlen : (w.spots.filter (·.concerns th k)).length = 1 := by
    have hpos := List.count_pos_iff.2 hk
    rw [Weights.total] at htotal
    omega
  obtain ⟨sp, hsp⟩ := List.length_eq_one_iff.1 hlen
  have hmem : sp ∈ w.spots.filter (·.concerns th k) := by rw [hsp]; exact List.mem_singleton_self sp
  obtain ⟨hm, hc⟩ := List.mem_filter.1 hmem
  exact ⟨sp, hsp, sound_of_noStrays hs ha hm hc⟩

/-- a process takes a call to its object and is released before it has its buffer -/
def forgetRun : List Act :=
  [.openFile, .openFile, .setArea (.guest 2) 4096 4096, .setContextMgr (.guest 2) 0, .writeRead (.guest 1, 1) 7,
    .transaction (.guest 1, 1) .zeros ⟨0, 5, 0, 0, 0, 0, 0⟩, .writeRead (.guest 2, 1) 8, .looper (.guest 2, 1) false,
    .startRead (.guest 2, 1) 256 true false, .look (.guest 2, 1) .plain, .release (.guest 2) ⟨[1], [1], []⟩]

theorem no_call_forgotten_taken :
    ∃ sp, (run World.step (World.init true) forgetRun.dropLast).spots.filter (·.concerns (.guest 1, 1) 0) = [sp] ∧
      sp.Sound (run World.step (World.init true) forgetRun.dropLast) :=
  no_call_forgotten true _ (Reach.run .start _ (by decide)) (.guest 1, 1) 0 (by decide) (by decide)

/-- the caller waits on, and no one will answer -/
theorem call_forgotten : ¬ ∀ w, Reach World.step anyStep (World.init true) w → ∀ th k, (w.st.proc th.1).dead = false →
    k ∈ (w.st.thread th).waits → ∃ sp, w.spots.filter (·.concerns th k) = [sp] ∧ sp.Sound w := by
  intro h
  obtain ⟨sp, hf, hs⟩ := h _ (reach_run World.step (World.init true) forgetRun) (.guest 1, 1) 0 (by decide) (by decide)
  have hm : sp ∈ (run World.step (World.init true) forgetRun).spots.filter (·.concerns (.guest 1, 1) 0) := by
    rw [hf]; exact List.mem_singleton_self sp
  have hnone : ∀ sp ∈ (run World.step (World.init true) forgetRun).spots.filter (·.concerns (.guest 1, 1) 0),
      ¬ sp.Sound (run World.step (World.init true) forgetRun) := by decide
  exact hnone sp hm hs

end Omnidroid.Binder
