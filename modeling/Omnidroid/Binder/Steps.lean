/-
What each command can do to the traffic, said once: bookkeeping (`Moves`) and then at most one transaction or answer put
in its place. `Sent` for a call, `Replied` for a reply, `HostSent` and `HostAnswered` for the host's. Each result about
transactions is a case analysis over these.
-/
import Omnidroid.Binder.Moves

namespace Omnidroid.Binder

/-! ## A guest's call -/

/-- where a call to `owner` is recorded as on its way: its holds are those `s` gained -/
structure OnWay (s s₁ : State) (k : ℕ) (txn : Txn) : Prop where
  moves : Moves s s₁
  serial : txn.serial = k
  noReply : txn.reply = false
  noNode : txn.asyncNode = none
  holds : ∀ n, s₁.pinCount n = s.pinCount n + txn.pinned.count n

/-- how the call of `th` that takes the serial `k` ends, from the state that has its serial taken -/
inductive Sent (s : State) (th : Thread) (k : ℕ) : State → Prop
  /-- nothing went, or nothing that is heard of again -/
  | nothing {s' : State} (h : Moves s s') (hp : ∀ n, s'.pinCount n = s.pinCount n) : Sent s th k s'
  /-- the host answered in the node's place -/
  | intercepted (r : Txn) (hr : r.reply = true) (hk : r.serial = k) (ha : r.asyncNode = none) (hp : r.pinned = []) :
      Sent s th k (((s.await th k).complete th).queue th.1 (some th.2) (.txn r))
  /-- a host thread answers it -/
  | hostedOneway {s₁ : State} (h : Moves s s₁) (hp : ∀ n, s₁.pinCount n = s.pinCount n) :
      Sent s th k ((s₁.handOff th true k).complete th)
  | hosted {s₁ : State} (h : Moves s s₁) (hp : ∀ n, s₁.pinCount n = s.pinCount n) :
      Sent s th k (((s₁.handOff th false k).await th k).complete th)
  | oneway {s₁ : State} (txn : Txn) (h : OnWay s s₁ k txn) (ho : txn.oneway = true) (hf : txn.from_ = none)
      (node : NodeId) (n : Node) (hn : s₁.nodes.lookup node = some n) (hd : (s₁.proc n.owner).dead = false) :
      Sent s th k ((s₁.queueOneway n.owner node txn).complete th)
  | call {s₁ : State} (txn : Txn) (h : OnWay s s₁ k txn) (ho : txn.oneway = false) (hf : txn.from_ = some th)
      (owner : ProcId) (hh : owner ≠ .host) (hd : (s₁.proc owner).dead = false) :
      Sent s th k (((s₁.await th k).queue owner (s.nested th owner) (.txn txn)).complete th)

theorem alive_of_not_isDead {s : State} {id : ProcId} (h : s.isDead id = false) : (s.proc id).dead = false := by
  unfold State.isDead at h
  cases hp : s.procs.lookup id with
  | none => simp [hp] at h
  | some p => simpa [State.proc, hp] using h

/-- the error of a call that could not be made is the thread's to read -/
def ended (th : Thread) : State × Except Errno Unit → State
  | (s, .error _) => s.returnError th brFailedReply
  | (s, .ok ()) => s

theorem Sent.failed {s s' : State} {th : Thread} {k : ℕ} (h : Moves s s') (hp : ∀ n, s'.pinCount n = s.pinCount n)
    (cmd : UInt32) : Sent s th k (s'.returnError th cmd) :=
  .nothing (h.trans (returnError_moves s' th cmd)) fun n => by
    rw [State.pinCount, State.returnError, queue_pins, ← State.pinCount, hp]

theorem ended_dispatch (s s₁ : State) (env : SendEnv) (th : Thread) (tr : Tr) (data : Bytes) (offsets : List UInt64)
    (objs : Objects) (pins : List NodeId) (node : NodeId) (n n' : Node) (nested : Option Tid) (k : ℕ)
    (hm : Moves s s₁) (hp : ∀ m, s₁.pinCount m = s.pinCount m + pins.count m)
    (hhost : n.owner = .host → pins = []) (hn : s₁.nodes.lookup node = some n') (ho : n'.owner = n.owner)
    (hd : (s₁.proc n.owner).dead = false) (hnest : tr.oneway = false → nested = s.nested th n.owner) :
    Sent s th k (ended th (s₁.dispatch th node n.owner nested
      (guestTxn env th tr n data offsets objs pins k) env.spawned)) := by
  have hway : OnWay s s₁ k (guestTxn env th tr n data offsets objs pins k) := ⟨hm, rfl, rfl, rfl, hp⟩
  unfold State.dispatch
  split
  · rename_i hh
    have hp' : ∀ m, s₁.pinCount m = s.pinCount m := fun m => by simp [hp, hhost hh]
    split
    · exact .failed hm hp' _
    · split
      · exact .hostedOneway hm hp'
      · exact .hosted hm hp'
  · rename_i hh
    split
    · rename_i how
      have hs := @Sent.oneway s th k _ _ hway how (by simp only [guestTxn] at how ⊢; simp [how]) node n' hn
        (by rw [ho]; exact hd)
      rw [ho] at hs
      exact hs
    · rename_i how
      have how' : tr.oneway = false := by simpa [guestTxn] using how
      rw [hnest how']
      exact .call _ hway how' (by simp [guestTxn, how']) n.owner hh hd

theorem ended_send (s s₀ : State) (env : SendEnv) (th : Thread) (tr : Tr) (data : Bytes) (offsets : List UInt64)
    (node : NodeId) (n : Node) (nested : Option Tid) (k : ℕ) (hs : Still s₀ s) (hc : Calm s₀ s) (hf : s.Fresh)
    (hn : s.nodes.lookup node = some n) (hd : (s.proc n.owner).dead = false)
    (hnest : tr.oneway = false → nested = s₀.nested th n.owner) :
    Sent s₀ th k (ended th (s.send env th tr data offsets node n nested k)) := by
  have hm := carry_moves s env th n.owner (some node) data offsets hf hd (fun m hm => by cases hm; exact ⟨n, hn⟩)
  have hm₀ : Moves s₀ (s.carry env th n.owner (some node) data offsets).1 := .head (.idle hs hc) hm
  have hp : ∀ m, (s.carry env th n.owner (some node) data offsets).1.pinCount m = s₀.pinCount m + _ := fun m => by
    rw [carry_pins s env th n.owner (some node) data offsets m, State.pinCount, hs.pins, ← State.pinCount]
  have hhost : n.owner = .host → holdsOf (·.2.2) (s.carry env th n.owner (some node) data offsets).2 = [] := by
    intro hh; rw [hh]; exact carry_host s env th (some node) data offsets
  obtain ⟨n', hn', ho'⟩ := (hm.calm hf).owner node n hn
  have hdead := (hm.calm hf).dead n.owner
  unfold State.send
  rcases hcarry : s.carry env th n.owner (some node) data offsets with ⟨s₁, e | ⟨data', objs, pins⟩⟩
  · simp only [hcarry, holdsOf, List.count_nil, Nat.add_zero] at hm₀ hp
    exact .failed hm₀ hp _
  · simp only [hcarry, holdsOf] at hm₀ hp hhost hn' hdead
    exact ended_dispatch s₀ s₁ env th tr data' offsets objs pins node n n' nested k hm₀ hp hhost hn' ho'
      (by rw [hdead, hd]) hnest

theorem transaction_sent (s : State) (env : SendEnv) (th : Thread) (tr : Tr) (hf : s.Fresh)
    (hhost : (s.proc .host).dead = false) : Sent s.bump th s.nextSerial (s.transaction env th tr) := by
  have hf' : s.bump.Fresh := hf
  unfold State.transaction
  split
  · exact .failed .refl (fun _ => rfl) _
  · rename_i data offsets _
    show Sent s.bump th s.nextSerial (ended th (s.bump.sendCall env th tr data offsets s.nextSerial))
    unfold State.sendCall
    split
    · exact .failed .refl (fun _ => rfl) _
    · rename_i node _
      split
      · exact .failed .refl (fun _ => rfl) _
      · rename_i n hn
        split
        · exact .failed .refl (fun _ => rfl) _
        · split
          · exact .failed .refl (fun _ => rfl) _
          · rename_i hdead
            have hd : (s.bump.proc n.owner).dead = false := by
              by_cases hh : n.owner = .host
              · rw [hh]; exact hhost
              · exact alive_of_not_isDead (by simpa [hh] using hdead)
            dsimp only
            split
            · exact .intercepted _ rfl rfl rfl rfl
            · split
              · rename_i how
                have hs := repeatedRelayout_still s.bump th.1 node tr.code data (hasFds data offsets) env.dedupe
                have hc := repeatedRelayout_calm s.bump th.1 node tr.code data (hasFds data offsets) env.dedupe
                have hnodes := repeatedRelayout_nodes s.bump th.1 node tr.code data (hasFds data offsets) env.dedupe
                split
                · rename_i s' hr
                  rw [hr] at hs hc
                  have hpins : ∀ m, (s'.complete th).pinCount m = s.bump.pinCount m := fun m => by
                    rw [State.pinCount, State.complete, queue_pins, hs.pins]
                    rfl
                  exact .nothing ((Moves.idle hs hc).trans (complete_moves s' th)) hpins
                · rename_i hr
                  rw [hr] at hs hc hnodes
                  exact ended_send _ s.bump env th tr data offsets node n _ _ hs hc (hc.fresh hf')
                    (by rw [hnodes]; exact hn) (by rw [hc.dead]; exact hd) fun h => absurd (how.symm.trans h) (by decide)
              · exact ended_send s.bump s.bump env th tr data offsets node n _ _ (Still.refl _) (Calm.refl _) hf' hn
                  hd fun _ => rfl

/-! ## A reply -/

/-- the one a reply goes to, of the transaction `sv` it answers -/
def Served.waiting (sv : Option Served) : Option (Thread × ℕ) := sv.bind fun v => v.caller.map fun c => (c, v.serial)

/-- how a reply ends, from the state that has the transaction it answers off its thread -/
inductive Replied (s : State) (th : Thread) (sv : Option Served) : State → Prop
  /-- no one waits for it, or no one any more -/
  | nothing {s' : State} (h : Moves s s') (hp : ∀ n, s'.pinCount n = s.pinCount n)
      (hw : ∀ c k, Served.waiting sv = some (c, k) → s.isDead c.1 = true) : Replied s th sv s'
  | sent {s₁ : State} (c : Thread) (k : ℕ) (hw : Served.waiting sv = some (c, k)) (txn : Txn) (h : Moves s s₁)
      (hr : txn.reply = true) (hk : txn.serial = k) (ha : txn.asyncNode = none)
      (hp : ∀ n, s₁.pinCount n = s.pinCount n + txn.pinned.count n) (hh : c.1 = .host → txn.pinned = []) :
      Replied s th sv ((s₁.queue c.1 (some c.2) (.txn txn)).complete th)
  | failed {s₁ : State} (c : Thread) (k : ℕ) (hw : Served.waiting sv = some (c, k)) (h : Moves s s₁)
      (hp : ∀ n, s₁.pinCount n = s.pinCount n) : Replied s th sv (s₁.queue c.1 (some c.2) (.failedReply k))

theorem complete_pinCount (s : State) (th : Thread) (n : NodeId) : (s.complete th).pinCount n = s.pinCount n := by
  rw [State.pinCount, State.complete, queue_pins, ← State.pinCount]

theorem failReply_replied {s s' : State} (th : Thread) (sv : Option Served) (h : Moves s s')
    (hp : ∀ n, s'.pinCount n = s.pinCount n) : Replied s th sv (s'.failReply th sv) := by
  have hm := h.trans (complete_moves s' th)
  have hp' : ∀ n, (s'.complete th).pinCount n = s.pinCount n := fun n => by rw [complete_pinCount, hp]
  unfold State.failReply
  split
  · rename_i c t k
    exact .failed (c, t) k rfl hm hp'
  · rename_i hsv
    refine .nothing hm hp' fun c k hw => ?_
    obtain _ | ⟨_ | ⟨c', t'⟩, k'⟩ := sv
    · cases hw
    · cases hw
    · exact absurd rfl (hsv c' t' k')

theorem reply_replied (s : State) (env : SendEnv) (th : Thread) (tr : Tr) (hf : s.Fresh)
    (hhost : (s.proc .host).dead = false) :
    Replied (s.updThread th fun t => { t with serving := t.serving.dropLast }) th ((s.thread th).serving.getLast?)
      (s.reply env th tr) := by
  unfold State.reply
  dsimp only
  generalize hsv : (s.thread th).serving.getLast? = sv
  set s₀ := s.updThread th fun t => { t with serving := t.serving.dropLast } with hs₀
  have hstill : Still s s₀ := Still.updThread s th _
  have hf₀ : s₀.Fresh := hstill.fresh hf
  split
  · exact failReply_replied th sv .refl fun _ => rfl
  · rename_i data offsets _
    unfold State.sendReply
    obtain _ | ⟨_ | ⟨c, t⟩, k⟩ := sv
    · exact .nothing (complete_moves s₀ th) (complete_pinCount s₀ th) fun c k hw => by cases hw
    · exact .nothing (complete_moves s₀ th) (complete_pinCount s₀ th) fun c k hw => by cases hw
    · dsimp only
      by_cases hdead : c ≠ .host ∧ s₀.isDead c = true
      · rw [if_pos hdead]
        exact .nothing (complete_moves s₀ th) (complete_pinCount s₀ th) fun c' k' hw => by
          cases hw; exact hdead.2
      · rw [if_neg hdead]
        have hd : (s₀.proc c).dead = false := by
          by_cases hh : c = .host
          · rw [hh, hstill.dead]; exact hhost
          · exact alive_of_not_isDead (by simpa [hh] using hdead)
        have hm := carry_moves s₀ env th c none data offsets hf₀ hd (fun n hn => by cases hn)
        have hp := fun n => carry_pins s₀ env th c none data offsets n
        rcases hcarry : s₀.carry env th c none data offsets with ⟨s₁, e | ⟨data', objs, pins⟩⟩
        · simp only [hcarry, holdsOf, List.count_nil, Nat.add_zero] at hm hp
          exact failReply_replied th _ hm hp
        · simp only [hcarry, holdsOf] at hm hp
          refine .sent (c, t) k rfl _ hm rfl rfl rfl hp fun hh => ?_
          have hh' : c = .host := hh
          subst hh'
          have h := carry_host s₀ env th none data offsets
          rw [hcarry] at h
          exact h

/-! ## The host -/

/-- how a transaction of the host's ends, from the state that has its serial taken -/
inductive HostSent (s : State) (k : ℕ) : State → Prop
  | nothing {s' : State} (h : Moves s s') (hp : ∀ n, s'.pinCount n = s.pinCount n) : HostSent s k s'
  | oneway {s₁ : State} (txn : Txn) (h : OnWay s s₁ k txn) (ho : txn.oneway = true) (hf : txn.from_ = none)
      (node : NodeId) (n : Node) (hn : s₁.nodes.lookup node = some n) (hd : (s₁.proc n.owner).dead = false) :
      HostSent s k (s₁.queueOneway n.owner node txn)
  | call {s₁ : State} (txn : Txn) (h : OnWay s s₁ k txn) (ho : txn.oneway = false) (tid : Tid)
      (hf : txn.from_ = some (ProcId.host, tid)) (owner : ProcId) (nested : Option Tid)
      (hnest : owner = .host → nested = none) (hd : (s₁.proc owner).dead = false) :
      HostSent s k (s₁.queue owner nested (.txn txn))

/-- what `hostCarry` leaves: a parcel held as it says, or nothing held -/
theorem hostCarry_spec (s : State) (th : Thread) (handle : UInt32) (data : Bytes) (offsets : List UInt64)
    (hf : s.Fresh) :
    let r := s.hostCarry th handle data offsets
    Moves s r.1 ∧ (∀ n, r.1.pinCount n = s.pinCount n + (r.2.elim [] (·.2.2.2)).count n) ∧
      ∀ c, r.2 = some c → (r.1.proc c.2.1.owner).dead = false ∧
        ∃ n', r.1.nodes.lookup c.1 = some n' ∧ n'.owner = c.2.1.owner := by
  have none_ok : ∀ s', Moves s s' → (∀ n, s'.pinCount n = s.pinCount n) →
      Moves s s' ∧ (∀ n, s'.pinCount n = s.pinCount n + ([] : List NodeId).count n) ∧
        ∀ c : NodeId × Node × Bytes × List NodeId, none = some c → (s'.proc c.2.1.owner).dead = false ∧
          ∃ n', s'.nodes.lookup c.1 = some n' ∧ n'.owner = c.2.1.owner :=
    fun s' h hp => ⟨h, hp, fun c hc => by cases hc⟩
  unfold State.hostCarry
  split
  · exact none_ok s .refl fun _ => rfl
  · rename_i node _
    split
    · exact none_ok s .refl fun _ => rfl
    · rename_i n hn
      by_cases hdead : (n.dead || s.isDead n.owner) = true
      · rw [if_pos hdead]
        exact none_ok s .refl fun _ => rfl
      · rw [if_neg hdead]
        have hd : (s.proc n.owner).dead = false :=
          alive_of_not_isDead (by simp only [Bool.or_eq_true, not_or, Bool.not_eq_true] at hdead; exact hdead.2)
        have hm := translateRefs_moves s th n.owner data (offsets.map (·.toNat)) [] hf hd
        have hp := fun m => translateRefs_pins s th n.owner data (offsets.map (·.toNat)) [] m (Nat.zero_le _)
        rcases hr : s.translateRefs th n.owner data (offsets.map (·.toNat)) [] with ⟨s₁, e | ⟨data', pins⟩⟩
        · simp only [hr, holdsOf, List.count_nil, Nat.add_zero] at hm hp ⊢
          exact none_ok s₁ hm hp
        · simp only [hr, holdsOf, List.count_nil, Nat.add_zero] at hm hp ⊢
          have hc := hm.calm hf
          obtain ⟨n', hn', ho'⟩ := hc.owner node n hn
          refine ⟨hm.tail (.pin _ node n' hn'), fun m => ?_, fun c hc' => ?_⟩
          · simp only [pinCount_pin, hp, Option.elim, List.count_append]; omega
          · cases hc'
            exact ⟨by rw [(pin_calm s₁ node).dead, hc.dead]; exact hd, n', hn', ho'⟩

theorem hostTransact_sent (s : State) (euid handle code : UInt32) (data : Bytes) (offsets : List UInt64)
    (serving : Option (ℕ × Tid)) (hf : s.Fresh) :
    HostSent s.bump s.nextSerial (s.hostTransact euid handle code data offsets serving) := by
  set s₀ : State := { s.bump.touch .host with nextHostTid := s.nextHostTid + 1 } with hs₀
  have hstill : Still s.bump s₀ :=
    (Still.setProc s.bump .host _ rfl).trans (Still.of_tables rfl rfl rfl rfl rfl rfl)
  have hcalm : Calm s.bump s₀ :=
    (Calm.setProc s.bump .host _ rfl rfl rfl).trans (Calm.of_tables rfl rfl rfl rfl rfl rfl rfl)
  obtain ⟨hm, hp, hok⟩ := hostCarry_spec s₀ (.host, s.nextHostTid + 1) handle data offsets (hcalm.fresh hf)
  have hpins : ∀ n, s₀.pinCount n = s.bump.pinCount n := fun n => by rw [State.pinCount, hstill.pins]; rfl
  unfold State.hostTransact
  dsimp only
  rcases hr : s₀.hostCarry (.host, s.nextHostTid + 1) handle data offsets with ⟨s₁, _ | ⟨node, n, data', pins⟩⟩
  · simp only [hr, Option.elim, List.count_nil, Nat.add_zero] at hm hp
    exact .nothing (.head (.idle hstill hcalm) hm) fun m => by rw [hp, hpins]
  · simp only [hr, Option.elim] at hm hp hok
    exact .call
      (hostTxn n (some (.host, s.nextHostTid + 1)) false code euid data' offsets pins s.nextSerial)
      ⟨.head (.idle hstill hcalm) hm, rfl, rfl, rfl, fun m => by rw [hp, hpins]; rfl⟩ rfl _ rfl _ _
      (fun ho => by simp [ho]) (hok _ rfl).1

theorem hostTransactOneway_sent (s : State) (handle code : UInt32) (data : Bytes) (offsets : List UInt64)
    (hf : s.Fresh) : HostSent s.bump s.nextSerial (s.hostTransactOneway handle code data offsets) := by
  set s₀ : State := s.bump.touch .host with hs₀
  have hstill : Still s.bump s₀ := Still.setProc s.bump .host _ rfl
  have hcalm : Calm s.bump s₀ := Calm.setProc s.bump .host _ rfl rfl rfl
  obtain ⟨hm, hp, hok⟩ := hostCarry_spec s₀ (.host, 0) handle data offsets (hcalm.fresh hf)
  have hpins : ∀ n, s₀.pinCount n = s.bump.pinCount n := fun n => by rw [State.pinCount, hstill.pins]; rfl
  unfold State.hostTransactOneway
  rcases hr : s₀.hostCarry (.host, 0) handle data offsets with ⟨s₁, _ | ⟨node, n, data', pins⟩⟩
  · simp only [hr, Option.elim, List.count_nil, Nat.add_zero] at hm hp
    exact .nothing (.head (.idle hstill hcalm) hm) fun m => by rw [hp, hpins]
  · simp only [hr, Option.elim] at hm hp hok
    obtain ⟨hd, n', hn', ho'⟩ := hok _ rfl
    have hs := HostSent.oneway (s := s.bump) (k := s.nextSerial)
      (hostTxn n none true code hostEuid data' offsets pins s.nextSerial)
      ⟨.head (.idle hstill hcalm) hm, rfl, rfl, rfl, fun m => by rw [hp, hpins]; rfl⟩ rfl rfl node n' hn'
      (by rw [ho']; exact hd)
    rw [ho'] at hs
    exact hs

/-- how a host thread's answer to `job` ends -/
inductive HostAnswered (s : State) (job : HostJob) : State → Prop
  | nothing (h : job.oneway = true ∨ s.isDead job.caller.1 = true) : HostAnswered s job s
  | failed {s₁ : State} (ho : job.oneway = false) (h : Moves s s₁) (hp : ∀ n, s₁.pinCount n = s.pinCount n) :
      HostAnswered s job (s₁.queue job.caller.1 (some job.caller.2) (.failedReply job.serial))
  | sent {s₁ : State} (ho : job.oneway = false) (txn : Txn) (h : Moves s s₁) (hr : txn.reply = true)
      (hk : txn.serial = job.serial) (ha : txn.asyncNode = none)
      (hp : ∀ n, s₁.pinCount n = s.pinCount n + txn.pinned.count n) :
      HostAnswered s job (s₁.queue job.caller.1 (some job.caller.2) (.txn txn))

theorem hostAnswer_answered (s : State) (job : HostJob) (reply : HostReply) (hf : s.Fresh) :
    HostAnswered s job (s.hostAnswer job reply) := by
  unfold State.hostAnswer
  split
  · rename_i h
    exact .nothing (by simpa using h)
  · rename_i h
    simp only [Bool.or_eq_true, not_or, Bool.not_eq_true] at h
    have hd := alive_of_not_isDead h.2
    have hm := translateRefs_moves s (.host, 0) job.caller.1 reply.data reply.binders [] hf hd
    have hp := fun m => translateRefs_pins s (.host, 0) job.caller.1 reply.data reply.binders [] m (Nat.zero_le _)
    unfold State.replyFromHost
    split
    · rename_i he
      split at he
      · cases he
        exact .failed h.1 .refl fun _ => rfl
      · rcases hr : s.translateRefs (.host, 0) job.caller.1 reply.data reply.binders [] with ⟨s₁, e | ⟨data, pins⟩⟩
        · rw [hr] at he
          cases he
          simp only [hr, holdsOf, List.count_nil, Nat.add_zero] at hm hp
          exact .failed h.1 hm hp
        · rw [hr] at he
          cases he
    · rename_i he
      split at he
      · cases he
      · rcases hr : s.translateRefs (.host, 0) job.caller.1 reply.data reply.binders [] with ⟨s₁, e | ⟨data, pins⟩⟩
        · rw [hr] at he
          cases he
        · rw [hr] at he
          cases he
          simp only [hr, holdsOf, List.count_nil, Nat.add_zero] at hm hp
          exact .sent h.1 _ hm rfl rfl rfl hp

end Omnidroid.Binder
