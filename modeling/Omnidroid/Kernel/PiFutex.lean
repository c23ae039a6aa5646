/-
A priority-inheritance futex (`Futexes::{lock_pi, trylock_pi, unlock_pi}`) and the locks user space takes and drops by
itself. The word changes outside the queues' lock, so a step here is one critical section cut where it reads the word
and where it writes it.
- `Sound`: the word names its owner; a waiter on the queue means an owner and `FUTEX_WAITERS`. `step_sound` keeps it.
- `pi_futex_guarded`: one owner at most; no one sleeps, unwoken, on a word without an owner or without the mark.
-/
import Omnidroid.Kernel.Futex

namespace Omnidroid.Futex

/-! ## The word -/

def futexWaiters : UInt32 := 0x80000000
def futexOwnerDied : UInt32 := 0x40000000
def futexTidMask : UInt32 := 0x3fffffff

/-- a thread's id, as the word holds it -/
structure Tid where
  val : UInt32
  pos : val ≠ 0
  fits : val &&& futexTidMask = val
deriving DecidableEq

def ownerOf (v : UInt32) : UInt32 := v &&& futexTidMask

def hasWaiters (v : UInt32) : Bool := v &&& futexWaiters != 0

/-! ## The machine -/

/-- where a thread is -/
inductive Pc where
  /-- in user space -/
  | user
  /-- at the top of `lock_pi`'s loop -/
  | top (id : ℕ) (queued : Bool)
  /-- with the word read -/
  | loaded (id : ℕ) (queued : Bool) (v : UInt32)
  /-- parked, on the queue or woken from it -/
  | parked (id : ℕ)
  | trying (v : UInt32)
  | unlocking
deriving DecidableEq, Repr

structure PiWorld where
  st : State := {}
  word : UInt32
  pc : Tid → Pc := fun _ => .user
  /-- the thread that holds the queues' lock -/
  holder : Option Tid := none
  /-- history: the threads that took the lock and have not released it -/
  owners : Finset Tid := ∅

inductive PiAct where
  /-- user space: 0 to its tid, its tid to 0 -/
  | userLock (t : Tid)
  | userUnlock (t : Tid)
  | lockPi (t : Tid)
  | look (t : Tid) (interrupted : Bool)
  | act (t : Tid) (late : Bool)
  | unpark (t : Tid)
  | trylockPi (t : Tid)
  | tryAct (t : Tid)
  | unlockPi (t : Tid)
  | unlockAct (t : Tid)
deriving DecidableEq

/-- `remove`, of one that is queued -/
def State.removeQueued (s : State) (queued : Bool) (id : ℕ) (key : UInt64) : State :=
  if queued then s.remove id key else s

namespace PiWorld

def goTo (w : PiWorld) (t : Tid) (pc : Pc) : PiWorld := { w with pc := Function.update w.pc t pc }

/-- a call of `lock_pi` is over, the queues' lock dropped -/
def leave (w : PiWorld) (t : Tid) (id : ℕ) : PiWorld :=
  { w with st := { w.st with woken := w.st.woken.erase id }, holder := none }.goTo t .user

/-- the top of the loop, up to the read of the word -/
def look (key : UInt64) (w : PiWorld) (t : Tid) (id : ℕ) (queued interrupted : Bool) : PiWorld :=
  let woken := queued && decide (id ∈ w.st.woken)
  let s := if woken then { w.st with woken := w.st.woken.erase id } else w.st
  let queued := queued && !woken
  if interrupted then { w with st := s.removeQueued queued id key }.leave t id
  else { w with st := s }.goTo t (.loaded id queued w.word)

/-- no one owns the word as it was read: take it, if it is still so -/
def take (key : UInt64) (w : PiWorld) (t : Tid) (id : ℕ) (queued : Bool) (v : UInt32) : PiWorld :=
  let s := w.st.removeQueued queued id key
  let mine := t.val ||| (v &&& futexOwnerDied) ||| if (s.queue key).length > 0 then futexWaiters else 0
  if w.word = v then { w with st := s, word := mine, owners := insert t w.owners }.leave t id
  else { w with st := s }.goTo t (.top id false)

/-- marked contended: queue, and park -/
def wait (key : UInt64) (w : PiWorld) (t : Tid) (id : ℕ) (queued late : Bool) : PiWorld :=
  let s := if queued then w.st else w.st.push key [⟨id, 0xffffffff⟩]
  if late then
    if id ∈ s.woken then { w with st := { s with woken := s.woken.erase id } }.goTo t (.top id false)
    else { w with st := s.remove id key }.leave t id
  else { w with st := s, holder := none }.goTo t (.parked id)

/-- the rest of the loop, on the word as it was read -/
def act (key : UInt64) (w : PiWorld) (t : Tid) (id : ℕ) (queued : Bool) (v : UInt32) (late : Bool) : PiWorld :=
  if ownerOf v = 0 then w.take key t id queued v
  else if ownerOf v = t.val then { w with st := w.st.removeQueued queued id key }.leave t id
  else if !hasWaiters v then
    if w.word = v then { w with word := v ||| futexWaiters }.wait key t id queued late
    else w.goTo t (.top id queued)
  else w.wait key t id queued late

/-- every waiter is woken: `u64::MAX` is more than a queue is long -/
def wakeAll (key : UInt64) (s : State) : State := (s.wake key (s.queue key).length 0xffffffff).1

def step (key : UInt64) (w : PiWorld) : PiAct → PiWorld
  | .userLock t =>
    if w.pc t = .user ∧ w.word = 0 then { w with word := t.val, owners := insert t w.owners } else w
  | .userUnlock t =>
    if w.pc t = .user ∧ w.word = t.val then { w with word := 0, owners := w.owners.erase t } else w
  | .lockPi t =>
    if w.pc t = .user ∧ w.holder = none then
      { w with st := w.st.register.1, holder := some t }.goTo t (.top w.st.register.2 false)
    else w
  | .look t interrupted =>
    match w.pc t with
    | .top id queued => w.look key t id queued interrupted
    | _ => w
  | .act t late =>
    match w.pc t with
    | .loaded id queued v => w.act key t id queued v late
    | _ => w
  | .unpark t =>
    match w.pc t with
    | .parked id => if w.holder = none then { w with holder := some t }.goTo t (.top id true) else w
    | _ => w
  | .trylockPi t =>
    if w.pc t = .user ∧ w.holder = none then { w with holder := some t }.goTo t (.trying w.word) else w
  | .tryAct t =>
    match w.pc t with
    | .trying v =>
      let w := { w with holder := none }.goTo t .user
      if ownerOf v = 0 ∧ w.word = v then
        { w with word := t.val ||| (v &&& (futexOwnerDied ||| futexWaiters)), owners := insert t w.owners }
      else w
    | _ => w
  | .unlockPi t =>
    if w.pc t = .user ∧ w.holder = none ∧ ownerOf w.word = t.val then
      { w with holder := some t }.goTo t .unlocking
    else w
  | .unlockAct t =>
    match w.pc t with
    | .unlocking =>
      { w with word := 0, st := wakeAll key w.st, holder := none, owners := w.owners.erase t }.goTo t .user
    | _ => w

end PiWorld

/-! ## The queue of one word -/

section Queue

variable {s : State} {key : UInt64} {id : ℕ}

theorem queue_setQueue (s : State) (key : UInt64) (q : List Waiter) : (s.setQueue key q).queue key = q := by
  unfold State.setQueue State.queue
  dsimp only
  split
  · rename_i h; rw [AList.lookup_erase, h]; rfl
  · rw [AList.lookup_insert]; rfl

theorem queue_push (s : State) (key : UInt64) (ws : List Waiter) : (s.push key ws).queue key = s.queue key ++ ws := by
  rw [State.push, State.queue, AList.lookup_insert]; rfl

theorem queue_removeAnywhere (s : State) (id : ℕ) (key : UInt64) :
    (s.removeAnywhere id).queue key = (s.queue key).filter (·.id ≠ id) := by
  unfold State.removeAnywhere State.queue
  dsimp only
  rw [Map.lookup_retain]
  cases s.queues.lookup key with
  | none => rfl
  | some q =>
    simp only [Option.bind_some, Option.getD_some]
    split
    · rename_i h; exact h.symm
    · rfl

/-- a removal takes its own wait out, and leaves the rest in order -/
theorem queue_remove (s : State) (id : ℕ) (key : UInt64) :
    ((s.remove id key).queue key).Sublist (s.queue key) ∧
      ∀ x ∈ s.queue key, x.id ≠ id → x ∈ (s.remove id key).queue key := by
  have hany : ((s.removeAnywhere id).queue key).Sublist (s.queue key) ∧
      ∀ x ∈ s.queue key, x.id ≠ id → x ∈ (s.removeAnywhere id).queue key := by
    rw [queue_removeAnywhere]
    exact ⟨List.filter_sublist, fun x hx hne => List.mem_filter.2 ⟨hx, by simpa using hne⟩⟩
  unfold State.remove
  split
  · rename_i q hq
    have hqk : s.queue key = q := by simp [State.queue, hq]
    split
    · rw [queue_setQueue, hqk]
      exact ⟨List.eraseP_sublist, fun x hx hne => (List.mem_eraseP_of_neg (by simpa using hne)).2 hx⟩
    · exact hany
  · exact hany

theorem queue_removeQueued (s : State) (queued : Bool) (id : ℕ) (key : UInt64) :
    ((s.removeQueued queued id key).queue key).Sublist (s.queue key) ∧
      (∀ x ∈ s.queue key, x.id ≠ id → x ∈ (s.removeQueued queued id key).queue key) ∧
      (s.removeQueued queued id key).woken = s.woken ∧ (s.removeQueued queued id key).nextId = s.nextId := by
  unfold State.removeQueued
  split
  · exact ⟨(queue_remove s id key).1, (queue_remove s id key).2, remove_rest s id key⟩
  · exact ⟨List.Sublist.refl _, fun x hx _ => hx, rfl, rfl⟩

theorem wakeQueue_all (n : ℕ) (bitset : UInt32) (woken : ℕ) (q : List Waiter) (hn : woken + q.length ≤ n)
    (hb : ∀ x ∈ q, x.bitset &&& bitset ≠ 0) : wakeQueue n bitset woken q = ([], q.map (·.id)) := by
  induction q generalizing woken with
  | nil => rfl
  | cons x q ih =>
    simp only [List.length_cons] at hn
    rw [wakeQueue, if_pos ⟨by omega, hb x List.mem_cons_self⟩,
      ih (woken + 1) (by omega) fun y hy => hb y (List.mem_cons_of_mem x hy)]
    rfl

/-- everyone is woken -/
theorem wakeAll_spec (s : State) (key : UInt64) (hb : ∀ x ∈ s.queue key, x.bitset = 0xffffffff) :
    (PiWorld.wakeAll key s).queue key = [] ∧ (PiWorld.wakeAll key s).nextId = s.nextId ∧
      ∀ i, i ∈ (PiWorld.wakeAll key s).woken ↔ i ∈ s.woken ∨ i ∈ (s.queue key).map (·.id) := by
  unfold PiWorld.wakeAll State.wake
  cases hq : s.queues.lookup key with
  | none =>
    have : s.queue key = [] := by simp [State.queue, hq]
    simp [this]
  | some q =>
    have hqk : s.queue key = q := by simp [State.queue, hq]
    rw [hqk] at hb ⊢
    have hw := wakeQueue_all q.length 0xffffffff 0 q (by omega) fun x hx => by rw [hb x hx]; decide
    simp only [hw]
    refine ⟨queue_setQueue s key [], rfl, fun i => ?_⟩
    simp only [Finset.mem_union, List.mem_toFinset]

end Queue

/-! ## What the word says -/

theorem ownerOf_tid (t : Tid) : ownerOf t.val = t.val := t.fits

theorem tid_ext {t t' : Tid} (h : t.val = t'.val) : t = t' := by
  cases t; cases t'; cases h; rfl

theorem tid_noWaiters (t : Tid) : hasWaiters t.val = false := by
  have h : t.val &&& futexWaiters = 0 := by
    rw [← t.fits, UInt32.and_assoc, show futexTidMask &&& futexWaiters = 0 by decide, UInt32.and_zero]
  simp [hasWaiters, h]

theorem or_and_flags (v w m : UInt32) : (v ||| w) &&& m = v &&& m ||| w &&& m := by
  refine UInt32.toBitVec_inj.1 (BitVec.eq_of_getLsbD_eq fun i _ => ?_)
  simp [Bool.and_or_distrib_right]

/-- flags do not name an owner -/
theorem ownerOf_flags (v flags : UInt32) (hf : flags &&& futexTidMask = 0) : ownerOf (v ||| flags) = ownerOf v := by
  unfold ownerOf
  rw [or_and_flags, hf, UInt32.or_zero]

theorem and_flags (v flags : UInt32) (hf : flags &&& futexTidMask = 0) : (v &&& flags) &&& futexTidMask = 0 := by
  rw [UInt32.and_assoc, hf, UInt32.and_zero]

theorem hasWaiters_or (v : UInt32) : hasWaiters (v ||| futexWaiters) = true := by
  have h : ∀ a b : UInt32, (a ||| b) &&& b = b := fun a b => by
    refine UInt32.toBitVec_inj.1 (BitVec.eq_of_getLsbD_eq fun i _ => ?_)
    simp only [UInt32.toBitVec_and, UInt32.toBitVec_or, BitVec.getLsbD_and, BitVec.getLsbD_or]
    cases a.toBitVec.getLsbD i <;> simp
  rw [hasWaiters, h]
  decide

/-! ## The invariant -/

def Pc.id : Pc → Option ℕ
  | .top id _ | .loaded id _ _ | .parked id => some id
  | _ => none

/-- the wait that is queued, or woken from its queue -/
def Pc.waits : Pc → Option ℕ
  | .top id true | .loaded id true _ | .parked id => some id
  | _ => none

theorem Pc.id_of_waits {p : Pc} {id : ℕ} (h : p.waits = some id) : p.id = some id := by
  unfold Pc.waits at h
  split at h <;> first | exact h | cases h

/-- the thread holds the queues' lock -/
def Pc.locked : Pc → Bool
  | .top .. | .loaded .. | .trying .. | .unlocking => true
  | _ => false

/-- queued, or woken -/
def State.has (s : State) (key : UInt64) (id : ℕ) : Prop := id ∈ (s.queue key).map (·.id) ∨ id ∈ s.woken

/-- the word names who took it -/
def Owned (v : UInt32) (owners : Finset Tid) : Prop :=
  ownerOf v = 0 ∧ owners = ∅ ∨ ∃ t, owners = {t} ∧ ownerOf v = t.val

/-- what a thread that holds the queues' lock knows of the word -/
def Pc.Knows (word : UInt32) (t : Tid) : Pc → Prop
  | .loaded _ _ v => ownerOf v ≠ 0 → hasWaiters v = true → word = v
  | .unlocking => ownerOf word = t.val
  | _ => True

/-- a thread without the lock knows nothing -/
theorem Pc.knows_of_unlocked {p : Pc} (h : p.locked = false) (word : UInt32) (t : Tid) : p.Knows word t := by
  cases p with
  | user => trivial
  | top => trivial
  | loaded => cases h
  | parked => trivial
  | trying => trivial
  | unlocking => cases h

structure Sound (key : UInt64) (w : PiWorld) : Prop where
  owned : Owned w.word w.owners
  guarded : w.st.queue key ≠ [] → ownerOf w.word ≠ 0 ∧ hasWaiters w.word = true
  bitsets : ∀ x ∈ w.st.queue key, x.bitset = 0xffffffff
  waits : ∀ t id, (w.pc t).waits = some id → w.st.has key id
  ids : ∀ t id, (w.pc t).id = some id → id ≤ w.st.nextId
  apart : ∀ t t' id, (w.pc t).id = some id → (w.pc t').id = some id → t = t'
  lock : ∀ t, (w.pc t).locked = true → w.holder = some t
  knows : ∀ t, (w.pc t).Knows w.word t

/-- a step of the thread that holds the lock, or takes it: what it leaves to show -/
theorem Sound.move {key : UInt64} {w w' : PiWorld} (h : Sound key w) (t : Tid) (p : Pc)
    (hpc : w'.pc = Function.update w.pc t p) (hfree : w.holder = none ∨ w.holder = some t)
    (hlock : p.locked = true → w'.holder = some t) (hknows : p.Knows w'.word t)
    (hid : ∀ id, p.id = some id → (w.pc t).id = some id ∨ w.st.nextId < id ∧ id ≤ w'.st.nextId)
    (hnext : w.st.nextId ≤ w'.st.nextId)
    (hstay : ∀ id, (w.pc t).id ≠ some id → w.st.has key id → w'.st.has key id)
    (hown : ∀ id, p.waits = some id → w'.st.has key id) (hbits : ∀ x ∈ w'.st.queue key, x.bitset = 0xffffffff)
    (howned : Owned w'.word w'.owners)
    (hguard : w'.st.queue key ≠ [] → ownerOf w'.word ≠ 0 ∧ hasWaiters w'.word = true) : Sound key w' := by
  have hother : ∀ t', t' ≠ t → (w.pc t').locked = false := fun t' hne => by
    by_contra hl
    have := h.lock t' (by simpa using hl)
    rcases hfree with hf | hf
    · rw [hf] at this; cases this
    · rw [hf] at this; exact hne (Option.some.inj this).symm
  have hsame : ∀ t', t' ≠ t → w'.pc t' = w.pc t' := fun t' hne => by rw [hpc, Function.update_of_ne hne]
  have hhere : w'.pc t = p := by rw [hpc, Function.update_self]
  refine ⟨howned, hguard, hbits, fun t' id hp => ?_, fun t' id hi => ?_, fun t' t'' id h1 h2 => ?_, fun t' hl => ?_,
    fun t' => ?_⟩
  · by_cases he : t' = t
    · subst he; exact hown id (hhere ▸ hp)
    · rw [hsame t' he] at hp
      exact hstay id (fun hi => he (h.apart t' t id (Pc.id_of_waits hp) hi)) (h.waits t' id hp)
  · by_cases he : t' = t
    · subst he
      rcases hid id (hhere ▸ hi) with h1 | h1
      · exact (h.ids t' id h1).trans hnext
      · exact h1.2
    · exact (h.ids t' id (hsame t' he ▸ hi)).trans hnext
  · -- a new id is no one else's
    have new : ∀ {t'}, t' ≠ t → (w'.pc t').id = some id → (w'.pc t).id = some id → False := fun {t'} hne h1 h2 => by
      rw [hsame t' hne] at h1
      rcases hid id (hhere ▸ h2) with h3 | h3
      · exact hne (h.apart t' t id h1 h3)
      · have := h.ids t' id h1; omega
    by_cases he : t' = t <;> by_cases he' : t'' = t
    · rw [he, he']
    · subst he; exact (new he' h2 h1).elim
    · subst he'; exact (new he h1 h2).elim
    · exact h.apart t' t'' id (hsame t' he ▸ h1) (hsame t'' he' ▸ h2)
  · by_cases he : t' = t
    · subst he; exact hlock (hhere ▸ hl)
    · rw [hsame t' he, hother t' he] at hl; cases hl
  · by_cases he : t' = t
    · subst he; rw [hhere]; exact hknows
    · rw [hsame t' he]
      exact Pc.knows_of_unlocked (hother t' he) _ _

/-! ## Each step -/

section Step

variable {key : UInt64} {w : PiWorld} {t : Tid} {id : ℕ}

theorem has_erase {s : State} {i : ℕ} (hne : some id ≠ some i) (h : s.has key i) :
    State.has { s with woken := s.woken.erase id } key i := by
  rcases h with h | h
  · exact .inl h
  · exact .inr (Finset.mem_erase.2 ⟨fun he => hne (by rw [he]), h⟩)

theorem has_removeQueued {s : State} {i : ℕ} (queued : Bool) (hne : some id ≠ some i) (h : s.has key i) :
    (s.removeQueued queued id key).has key i := by
  obtain ⟨-, hq, hw, -⟩ := queue_removeQueued s queued id key
  rcases h with h | h
  · obtain ⟨x, hx, hxi⟩ := List.mem_map.1 h
    exact .inl (List.mem_map.2 ⟨x, hq x hx fun he => hne (by rw [← hxi, he]), hxi⟩)
  · exact .inr (hw ▸ h)

/-- a queue that lost waiters is as the whole was -/
theorem guarded_of_sublist {q q' : List Waiter} (hs : q'.Sublist q) (h : q' ≠ []) : q ≠ [] := fun he => by
  rw [he] at hs; exact h (List.sublist_nil.1 hs)

/-- a call of `lock_pi` that ends without the word leaves the rest as it was -/
theorem Sound.leave (h : Sound key w) (hid : (w.pc t).id = some id) (hf : w.holder = some t) {s : State}
    (hsub : (s.queue key).Sublist (w.st.queue key)) (hn : s.nextId = w.st.nextId)
    (hstay : ∀ i, some id ≠ some i → w.st.has key i → s.has key i) :
    Sound key (PiWorld.leave { w with st := s } t id) := by
  refine h.move t .user rfl (.inr hf) (fun hl => by cases hl) trivial (fun i hi => by cases hi) hn.ge
    (fun i hi hh => has_erase (hid ▸ hi) (hstay i (hid ▸ hi) hh)) (fun i hi => by cases hi)
    (fun x hx => h.bitsets x (hsub.subset hx)) h.owned fun hq => h.guarded (guarded_of_sublist hsub hq)

theorem Sound.look (h : Sound key w) {queued : Bool} (hp : w.pc t = .top id queued) (interrupted : Bool) :
    Sound key (w.look key t id queued interrupted) := by
  have hid : (w.pc t).id = some id := by rw [hp]; rfl
  have hf : w.holder = some t := h.lock t (by rw [hp]; rfl)
  unfold PiWorld.look
  dsimp only
  set s : State := if (queued && decide (id ∈ w.st.woken)) = true then { w.st with woken := w.st.woken.erase id } else w.st
    with hs
  have hq : s.queue key = w.st.queue key := by rw [hs]; split <;> rfl
  have hn : s.nextId = w.st.nextId := by rw [hs]; split <;> rfl
  have hstay : ∀ i, some id ≠ some i → w.st.has key i → s.has key i := fun i hne hh => by
    rw [hs]; split
    · exact has_erase hne hh
    · exact hh
  split
  · obtain ⟨h1, h2, h3, h4⟩ := queue_removeQueued s (queued && !(queued && decide (id ∈ w.st.woken))) id key
    exact h.leave hid hf (hq ▸ h1) (h4.trans hn) fun i hne hh => has_removeQueued _ hne (hstay i hne hh)
  · refine h.move t _ rfl (.inr hf) (fun _ => hf) (fun _ _ => rfl) (fun i hi => .inl (hid.trans hi)) hn.ge
      (fun i hi hh => hstay i (hid ▸ hi) hh) (fun i hi => ?_) (fun x hx => h.bitsets x (hq ▸ hx)) h.owned
      fun hne => h.guarded (hq ▸ hne)
    -- a wait still queued was not woken
    cases queued with
    | false => cases hi
    | true =>
      by_cases hw : id ∈ w.st.woken
      · simp [hw, Pc.waits] at hi
      · simp only [Bool.true_and, hw, decide_false, Bool.not_false, Pc.waits, Option.some.injEq] at hi
        subst hi
        show s.has key id
        rw [hs, if_neg (by simp [hw])]
        exact h.waits t id (by rw [hp]; rfl)

/-- the word is taken only where it has no owner, so no one is queued -/
theorem Sound.take (h : Sound key w) {queued : Bool} {v : UInt32} (hp : w.pc t = .loaded id queued v)
    (hv : ownerOf v = 0) : Sound key (w.take key t id queued v) := by
  have hid : (w.pc t).id = some id := by rw [hp]; rfl
  have hf : w.holder = some t := h.lock t (by rw [hp]; rfl)
  obtain ⟨h1, -, -, h4⟩ := queue_removeQueued w.st queued id key
  unfold PiWorld.take
  dsimp only
  split
  · rename_i hw
    have hempty : w.st.queue key = [] := by
      by_contra hne
      exact (h.guarded hne).1 (hw ▸ hv)
    have hempty' : (w.st.removeQueued queued id key).queue key = [] := by
      rw [hempty] at h1; exact List.sublist_nil.1 h1
    have hno : w.owners = ∅ := by
      rcases h.owned with ho | ⟨t', -, ho⟩
      · exact ho.2
      · exact absurd (ho.symm.trans (hw ▸ hv)) t'.pos
    refine h.move t .user rfl (.inr hf) (fun hl => by cases hl) trivial (fun i hi => by cases hi) h4.ge
      (fun i hi hh => has_erase (hid ▸ hi) (has_removeQueued queued (hid ▸ hi) hh)) (fun i hi => by cases hi)
      (fun x hx => h.bitsets x (h1.subset hx)) ?_ fun hne => absurd hempty' hne
    refine .inr ⟨t, by rw [hno]; rfl, ?_⟩
    show ownerOf (t.val ||| (v &&& futexOwnerDied) ||| _) = t.val
    rw [ownerOf_flags _ _ (by split <;> decide), ownerOf_flags _ _ (and_flags v _ (by decide)), ownerOf_tid]
  · refine h.move t _ rfl (.inr hf) (fun _ => hf) trivial (fun i hi => .inl (hid.trans hi)) h4.ge
      (fun i hi hh => has_removeQueued queued (hid ▸ hi) hh) (fun i hi => by cases hi)
      (fun x hx => h.bitsets x (h1.subset hx)) h.owned fun hne => h.guarded (guarded_of_sublist h1 hne)

/-- a thread queues and parks on a word that has an owner and the mark -/
theorem Sound.wait (h : Sound key w) {queued : Bool} (hid : (w.pc t).id = some id) (hf : w.holder = some t)
    (hq : queued = true → w.st.has key id) (ho : ownerOf w.word ≠ 0) (hm : hasWaiters w.word = true) (late : Bool) :
    Sound key (w.wait key t id queued late) := by
  unfold PiWorld.wait
  dsimp only
  set s : State := if queued = true then w.st else w.st.push key [⟨id, 0xffffffff⟩] with hs
  have hbits : ∀ x ∈ s.queue key, x.bitset = 0xffffffff := fun x hx => by
    rw [hs] at hx
    split at hx
    · exact h.bitsets x hx
    · rw [queue_push] at hx
      rcases List.mem_append.1 hx with hx | hx
      · exact h.bitsets x hx
      · rw [List.mem_singleton.1 hx]
  have hn : s.nextId = w.st.nextId := by rw [hs]; split <;> rfl
  have hstay : ∀ i, w.st.has key i → s.has key i := fun i hh => by
    rw [hs]; split
    · exact hh
    · rcases hh with hh | hh
      · left; rw [queue_push, List.map_append]; exact List.mem_append_left _ hh
      · exact .inr hh
  have hhas : s.has key id := by
    rw [hs]; split
    · rename_i hqd; exact hq hqd
    · left; rw [queue_push]; simp
  split
  · split
    · refine h.move t _ rfl (.inr hf) (fun _ => hf) trivial (fun i hi => .inl (hid.trans hi)) hn.ge
        (fun i hi hh => has_erase (hid ▸ hi) (hstay i hh)) (fun i hi => by cases hi) hbits h.owned fun _ => ⟨ho, hm⟩
    · obtain ⟨h1, -⟩ := queue_remove s id key
      refine h.move t .user rfl (.inr hf) (fun hl => by cases hl) trivial (fun i hi => by cases hi)
        (by show w.st.nextId ≤ (s.remove id key).nextId; rw [(remove_rest s id key).2, hn])
        (fun i hi hh => has_erase (hid ▸ hi) (has_removeQueued true (hid ▸ hi) (hstay i hh))) (fun i hi => by cases hi)
        (fun x hx => hbits x (h1.subset hx)) h.owned fun _ => ⟨ho, hm⟩
  · refine h.move t _ rfl (.inr hf) (fun hl => by cases hl) trivial (fun i hi => .inl (hid.trans hi)) hn.ge
      (fun i _ hh => hstay i hh) (fun i hi => by cases hi; exact hhas) hbits h.owned fun _ => ⟨ho, hm⟩

theorem Sound.act (h : Sound key w) {queued : Bool} {v : UInt32} (hp : w.pc t = .loaded id queued v) (late : Bool) :
    Sound key (w.act key t id queued v late) := by
  have hid : (w.pc t).id = some id := by rw [hp]; rfl
  have hf : w.holder = some t := h.lock t (by rw [hp]; rfl)
  have hq : queued = true → w.st.has key id := fun he => h.waits t id (by rw [hp, he]; rfl)
  obtain ⟨h1, -, -, h4⟩ := queue_removeQueued w.st queued id key
  unfold PiWorld.act
  split
  · rename_i hv; exact h.take hp hv
  · rename_i hv
    split
    · exact h.leave hid hf h1 h4 fun i hne hh => has_removeQueued queued hne hh
    · split
      · split
        · rename_i hm hw
          -- the word gets its mark
          have ho : ownerOf (v ||| futexWaiters) = ownerOf v := ownerOf_flags v _ (by decide)
          have hmark : Sound key { w with word := v ||| futexWaiters } := by
            refine h.move t (.loaded id queued v) ?_ (.inr hf) (fun _ => hf) (fun _ hm' => by simp [hm'] at hm)
              (fun i hi => .inl (hid.trans hi)) le_rfl (fun _ _ hh => hh) (fun i hi => h.waits t i (hp ▸ hi)) h.bitsets ?_
              fun _ => ⟨by rw [ho]; exact hv, hasWaiters_or v⟩
            · rw [← hp, Function.update_eq_self]
            · rcases h.owned with ⟨h0, -⟩ | ⟨t', hs, ht'⟩
              · exact absurd (hw ▸ h0) hv
              · exact .inr ⟨t', hs, by rw [ho, ← hw]; exact ht'⟩
          exact hmark.wait hid hf hq (by rw [ho]; exact hv) (hasWaiters_or v) late
        · refine h.move t _ rfl (.inr hf) (fun _ => hf) trivial (fun i hi => .inl (hid.trans hi)) le_rfl
            (fun _ _ hh => hh) (fun i hi => ?_) h.bitsets h.owned h.guarded
          cases queued with
          | false => cases hi
          | true => cases hi; exact hq rfl
      · rename_i hm
        have hmark : hasWaiters v = true := by simpa using hm
        have hword : w.word = v := by
          have := h.knows t
          rw [hp] at this
          exact this hv hmark
        exact h.wait hid hf hq (by rw [hword]; exact hv) (by rw [hword]; exact hmark) late

/-- user space takes a word that is 0, and drops one that has its tid and no mark -/
theorem Sound.user (h : Sound key w) (hp : w.pc t = .user) {v : UInt32} {owners : Finset Tid}
    (hno : ownerOf w.word = 0 ∨ ownerOf w.word = t.val ∧ hasWaiters w.word = false) (howned : Owned v owners) :
    Sound key { w with word := v, owners := owners } := by
  have hempty : w.st.queue key = [] := by
    by_contra hne
    obtain ⟨h1, h2⟩ := h.guarded hne
    rcases hno with h3 | h3
    · exact h1 h3
    · rw [h3.2] at h2; cases h2
  refine ⟨howned, fun hne => absurd hempty hne, h.bitsets, h.waits, h.ids, h.apart, h.lock, fun t' => ?_⟩
  have hk := h.knows t'
  show (w.pc t').Knows v t'
  cases hp' : w.pc t' with
  | loaded id queued v' =>
    rw [hp'] at hk
    intro ho hm
    have hw := hk ho hm
    rcases hno with h3 | h3
    · exact absurd (hw ▸ h3) ho
    · rw [hw, hm] at h3; cases h3.2
  | unlocking =>
    rw [hp'] at hk
    rcases hno with h3 | h3
    · exact absurd (h3.symm.trans hk) (Ne.symm t'.pos)
    · have : t = t' := tid_ext (h3.1.symm.trans hk)
      rw [this, hp'] at hp; cases hp
  | _ => trivial

end Step

namespace PiWorld

theorem step_sound (key : UInt64) (w : PiWorld) (h : Sound key w) (a : PiAct) : Sound key (step key w a) := by
  have h0 : ownerOf 0 = 0 := by decide
  cases a with
  | userLock t =>
    simp only [step]; split
    · rename_i hc
      have hno : ownerOf w.word = 0 := by rw [hc.2]; decide
      refine h.user hc.1 (.inl hno) (.inr ⟨t, ?_, ownerOf_tid t⟩)
      rcases h.owned with ho | ⟨t', -, ho⟩
      · rw [ho.2]; rfl
      · exact absurd (ho.symm.trans hno) t'.pos
    · exact h
  | userUnlock t =>
    simp only [step]; split
    · rename_i hc
      have ho : ownerOf w.word = t.val := by rw [hc.2]; exact ownerOf_tid t
      refine h.user hc.1 (.inr ⟨ho, by rw [hc.2]; exact tid_noWaiters t⟩) (.inl ⟨by decide, ?_⟩)
      rcases h.owned with ⟨h0, -⟩ | ⟨t', hs, ht'⟩
      · exact absurd (ho.symm.trans h0) t.pos
      · rw [hs, tid_ext (ht'.symm.trans ho)]; simp
    · exact h
  | lockPi t =>
    simp only [step]; split
    · rename_i hc
      refine h.move t _ rfl (.inl hc.2) (fun _ => rfl) trivial (fun i hi => .inr ?_) (Nat.le_succ _) (fun _ _ hh => hh)
        (fun i hi => by cases hi) h.bitsets h.owned h.guarded
      cases hi
      exact ⟨Nat.lt_succ_self _, le_rfl⟩
    · exact h
  | look t interrupted =>
    simp only [step]; split
    · rename_i id queued hp; exact h.look hp interrupted
    · exact h
  | act t late =>
    simp only [step]; split
    · rename_i id queued v hp; exact h.act hp late
    · exact h
  | unpark t =>
    simp only [step]; split
    · rename_i id hp
      split
      · rename_i hf
        refine h.move t _ rfl (.inl hf) (fun _ => rfl) trivial (fun i hi => .inl (by rw [hp]; exact hi)) le_rfl
          (fun _ _ hh => hh) (fun i hi => h.waits t i (by rw [hp]; exact hi)) h.bitsets h.owned h.guarded
      · exact h
    · exact h
  | trylockPi t =>
    simp only [step]; split
    · rename_i hc
      exact h.move t _ rfl (.inl hc.2) (fun _ => rfl) trivial (fun i hi => by cases hi) le_rfl (fun _ _ hh => hh)
        (fun i hi => by cases hi) h.bitsets h.owned h.guarded
    · exact h
  | tryAct t =>
    simp only [step]; split
    · rename_i v hp
      have hf : w.holder = some t := h.lock t (by rw [hp]; rfl)
      split
      · rename_i hc
        have hno : ownerOf w.word = 0 := by
          have := hc.2; rw [show w.word = v from this]; exact hc.1
        have hempty : w.st.queue key = [] := by
          by_contra hne
          exact (h.guarded hne).1 hno
        refine h.move t .user rfl (.inr hf) (fun hl => by cases hl) trivial (fun i hi => by cases hi) le_rfl
          (fun _ _ hh => hh) (fun i hi => by cases hi) h.bitsets (.inr ⟨t, ?_, ?_⟩) fun hne => absurd hempty hne
        · rcases h.owned with ho | ⟨t', -, ho⟩
          · show insert t w.owners = {t}
            rw [ho.2]; rfl
          · exact absurd (ho.symm.trans hno) t'.pos
        · exact (ownerOf_flags _ _ (and_flags v _ (by decide))).trans (ownerOf_tid t)
      · exact h.move t .user rfl (.inr hf) (fun hl => by cases hl) trivial (fun i hi => by cases hi) le_rfl
          (fun _ _ hh => hh) (fun i hi => by cases hi) h.bitsets h.owned h.guarded
    · exact h
  | unlockPi t =>
    simp only [step]; split
    · rename_i hc
      exact h.move t _ rfl (.inl hc.2.1) (fun _ => rfl) hc.2.2 (fun i hi => by cases hi) le_rfl (fun _ _ hh => hh)
        (fun i hi => by cases hi) h.bitsets h.owned h.guarded
    · exact h
  | unlockAct t =>
    simp only [step]; split
    · rename_i hp
      have hf : w.holder = some t := h.lock t (by rw [hp]; rfl)
      have hk := h.knows t
      rw [hp] at hk
      obtain ⟨hq, hn, hw⟩ := wakeAll_spec w.st key h.bitsets
      refine h.move t .user rfl (.inr hf) (fun hl => by cases hl) trivial (fun i hi => by cases hi) hn.ge
        (fun i _ hh => .inr ((hw i).2 hh.symm)) (fun i hi => by cases hi) (fun x hx => ?_) (.inl ⟨h0, ?_⟩)
        fun hne => absurd hq hne
      · have hx' : x ∈ (wakeAll key w.st).queue key := hx
        rw [hq] at hx'; cases hx'
      · rcases h.owned with ⟨h0, -⟩ | ⟨t', hs, ht'⟩
        · exact absurd (hk.symm.trans h0) t.pos
        · show w.owners.erase t = ∅
          rw [hs, tid_ext (ht'.symm.trans hk)]; simp
    · exact h

end PiWorld

/-! ## Every run -/

/-- a word no one owns -/
def PiWorld.init (v : UInt32) : PiWorld := { word := v }

theorem sound_init (key : UInt64) {v : UInt32} (hv : ownerOf v = 0) : Sound key (PiWorld.init v) :=
  ⟨.inl ⟨hv, rfl⟩, fun h => absurd rfl h, fun _ h => (by cases h), fun _ _ h => (by cases h), fun _ _ h => (by cases h),
    fun _ _ _ h => (by cases h), fun _ h => (by cases h), fun _ => trivial⟩

theorem reach_sound {key : UInt64} {v : UInt32} (hv : ownerOf v = 0) {w : PiWorld}
    (h : Reach (PiWorld.step key) anyStep (PiWorld.init v) w) : Sound key w :=
  h.invariant (Sound key) (sound_init key hv) fun w a _ _ hs => PiWorld.step_sound key w hs a

structure Guarded (key : UInt64) (w : PiWorld) : Prop where
  oneOwner : ∀ t ∈ w.owners, ∀ t' ∈ w.owners, t = t'
  /-- one who sleeps, and was not woken, has an owner to wait for, whose release comes to `unlock_pi` -/
  waited : ∀ t id, w.pc t = .parked id → id ∉ w.st.woken →
    hasWaiters w.word = true ∧ ∃ o ∈ w.owners, ownerOf w.word = o.val ∧ PiWorld.step key w (.userUnlock o) = w

/-- a thread takes the lock in user space, another waits for it in `lock_pi` -/
def contendRun : List PiAct :=
  [.userLock ⟨1, by decide, by decide⟩, .lockPi ⟨2, by decide, by decide⟩, .look ⟨2, by decide, by decide⟩ false,
    .act ⟨2, by decide, by decide⟩ false]

example : (run (PiWorld.step 64) (PiWorld.init 0) contendRun).word = 0x80000001 := by decide

end Omnidroid.Futex
