/-
A `pthread_cond` (`omni-bionic/src/cond.rs`): a registry of who waits on it, each waiter with an entry of its own that a
signal marks.

Any number of threads are each in a wait (`wait_begin` and then `wait_end`) or in a wake (`signal`, `broadcast`,
`destroy`). One step is one critical section of the registry, one marking of an entry (under the registry's lock and the
entry's), one look of a waiter at its entry and the clock, one notify, one unlock or lock of the mutex. Mutexes change
hands otherwise as they may.
- `Wait`, `Stage`: a wait by its entry. A waiter decides that it is out of time under its entry's lock, and leaves the
  registry later.
- `World.steady`: no mark falls between the two; and the mutex can be reached.
- `Inv`: what holds of the registry, the entries and the wakes. `step_inv` keeps it.
- `signals_delivered`: every entry a wake takes is of a wait that returns 0. `signals_lost`: without the condition, not so.
-/
import Omnidroid.Lib.Run
import Mathlib.Tactic

namespace Omnidroid.Bionic.Cond

/-! ## Waits -/

inductive Result where
  | ok | timedOut | interrupted | fault
deriving DecidableEq, Repr

inductive Stage where
  | unborn
  /-- registered: about to unlock the mutex, then to take its entry out of the thread's own map -/
  | unlocking
  | ending
  /-- about to look at its entry, or asleep on it -/
  | checking
  | asleep
  /-- about to leave the registry, and then to lock the mutex: signalled, or out of time -/
  | leaving (signalled : Bool)
  | relocking (signalled : Bool)
  /-- over, and whether the thread then held the mutex -/
  | ended (r : Result) (held : Bool)
deriving DecidableEq, Repr

structure Wait where
  thread : ℕ := 0
  cond : ℕ := 0
  mutex : ℕ := 0
  timed : Bool := false
  stage : Stage := .unborn
deriving DecidableEq, Repr

inductive Call where
  | signal | broadcast | destroy
deriving DecidableEq, Repr

def u32Max : ℕ := 2 ^ 32 - 1

/-- how many a call wakes at most -/
def Call.count : Call → ℕ
  | .signal => 1
  | .broadcast | .destroy => u32Max

inductive Pc where
  /-- in the guest, with what the last wait returned -/
  | idle (r : Option Result)
  | begins (cond mutex : ℕ) (timed : Bool)
  | waits (entry : ℕ)
  /-- a wake: about to take the registry's lock, then to mark, then to notify -/
  | calls (cond : ℕ) (call : Call)
  | marks (todo done : List ℕ)
  | notifies (entries : List ℕ)
deriving DecidableEq, Repr

/-- history: a wake, what was registered when it took the registry's lock, and which entries it took -/
structure Wake where
  call : Call
  registered : List ℕ
  taken : List ℕ
deriving DecidableEq, Repr

/-! ## The machine -/

structure World where
  queues : ℕ → List ℕ := fun _ => []
  marked : ℕ → Bool := fun _ => false
  nextEntry : ℕ := 0
  waits : ℕ → Wait := fun _ => {}
  /-- the thread that holds the registry's lock -/
  registry : Option ℕ := none
  threads : ℕ → Pc := fun _ => .idle none
  /-- each thread's own map of the entries it registered, by cond -/
  registered : ℕ → ℕ → Option ℕ := fun _ _ => none
  /-- who holds each mutex -/
  holders : ℕ → Option ℕ := fun _ => none
  wakes : List Wake := []

/-- how what is not the cond's own turns out: the clock, the stop switch, and the mutex's unlock and lock -/
structure Choice where
  late : Bool := false
  stopped : Bool := false
  fault : Bool := false
  interrupted : Bool := false
deriving DecidableEq, Repr

inductive Act where
  | wait (t cond mutex : ℕ) (timed : Bool)
  | wake (t cond : ℕ) (call : Call)
  | move (t : ℕ) (c : Choice)
  /-- mutexes change hands -/
  | hands (holders : ℕ → Option ℕ)

namespace World

def goTo (w : World) (t : ℕ) (pc : Pc) : World := { w with threads := Function.update w.threads t pc }

def setStage (w : World) (e : ℕ) (stage : Stage) : World :=
  { w with waits := Function.update w.waits e { w.waits e with stage } }

/-- a wait over: what it returns -/
def endWait (w : World) (t e : ℕ) (r : Result) : World :=
  (w.setStage e (.ended r (w.holders (w.waits e).mutex = some t))).goTo t (.idle (some r))

def register (w : World) (t cond mutex : ℕ) (timed : Bool) : World :=
  { w with
    queues := Function.update w.queues cond (w.queues cond ++ [w.nextEntry])
    nextEntry := w.nextEntry + 1
    waits := Function.update w.waits w.nextEntry ⟨t, cond, mutex, timed, .unlocking⟩
    registered := Function.update w.registered t (Function.update (w.registered t) cond (some w.nextEntry)) }.goTo t
      (.waits w.nextEntry)

def deregister (w : World) (e : ℕ) : World :=
  { w with queues := Function.update w.queues (w.waits e).cond ((w.queues (w.waits e).cond).erase e) }

/-- the next step of a wait, by the thread `t` -/
def moveWait (w : World) (t e : ℕ) (c : Choice) : World :=
  match (w.waits e).stage with
  | .unlocking => if c.fault then w.endWait t e .fault else w.setStage e .ending
  | .ending =>
    match w.registered t (w.waits e).cond with
    | none => w.endWait t e .fault
    | some e' =>
      ({ w with
        registered := Function.update w.registered t (Function.update (w.registered t) (w.waits e).cond none) }.setStage e'
          .checking).goTo t (.waits e')
  | .checking =>
    if w.marked e ∨ c.stopped then w.setStage e (.leaving true)
    else if (w.waits e).timed ∧ c.late then w.setStage e (.leaving false)
    else w.setStage e .asleep
  -- a slice over, or for no reason
  | .asleep => w.setStage e .checking
  | .leaving signalled => if w.registry = none then (w.deregister e).setStage e (.relocking signalled) else w
  | .relocking signalled =>
    if c.fault then w.endWait t e .fault
    else if c.interrupted then w.endWait t e .interrupted
    else
      { w with holders := Function.update w.holders (w.waits e).mutex (some t) }.endWait t e
        (if signalled then .ok else .timedOut)
  | .unborn | .ended .. => w

/-- the registry's lock taken, and entries taken out -/
def take (w : World) (t cond : ℕ) (call : Call) : World :=
  { w with
    registry := some t
    queues := Function.update w.queues cond ((w.queues cond).drop call.count)
    wakes := ⟨call, w.queues cond, (w.queues cond).take call.count⟩ :: w.wakes }.goTo t
      (.marks ((w.queues cond).take call.count) [])

/-- a sleeper's entry notified -/
def notify (w : World) (e : ℕ) : World := if (w.waits e).stage = .asleep then w.setStage e .checking else w

def move (w : World) (t : ℕ) (c : Choice) : World :=
  match w.threads t with
  | .idle _ => w
  | .begins cond mutex timed => if w.registry = none then w.register t cond mutex timed else w
  | .waits e => w.moveWait t e c
  | .calls cond call => if w.registry = none then w.take t cond call else w
  | .marks (e :: todo) done => { w with marked := Function.update w.marked e true }.goTo t (.marks todo (done ++ [e]))
  | .marks [] done => { w with registry := none }.goTo t (.notifies done)
  | .notifies (e :: entries) => (w.notify e).goTo t (.notifies entries)
  | .notifies [] => w.goTo t (.idle none)

def step (w : World) : Act → World
  | .wait t cond mutex timed =>
    match w.threads t with
    | .idle _ => w.goTo t (.begins cond mutex timed)
    | _ => w
  | .wake t cond call =>
    match w.threads t with
    | .idle _ => w.goTo t (.calls cond call)
    | _ => w
  | .move t c => w.move t c
  | .hands holders => { w with holders }

/-- no mark falls on an entry whose waiter has decided that it is out of time; no wait that is registered, or whose entry is
marked, fails to reach its mutex; and a broadcast finds no more than it can count -/
def steady (w : World) : Act → Prop
  | .move t c =>
    match w.threads t with
    | .waits e =>
      match (w.waits e).stage with
      | .unlocking => c.fault = false
      | .relocking _ => w.marked e = true → c.fault = false ∧ c.interrupted = false
      | _ => True
    | .marks (e :: _) _ => (w.waits e).stage ≠ .leaving false
    | .calls cond call => call = .signal ∨ (w.queues cond).length ≤ u32Max
    | _ => True
  | _ => True

end World

/-! ## What holds -/

/-- registered: not yet out of the registry by its own leaving -/
def Stage.live : Stage → Bool
  | .unlocking | .ending | .checking | .asleep | .leaving _ => true
  | _ => false

/-- on its way to returning 0, or returned it -/
def Stage.answered : Stage → Bool
  | .unlocking | .ending | .checking | .asleep | .leaving true | .relocking true | .ended .ok _ => true
  | _ => false

/-- its thread is in the wait -/
def Stage.busy : Stage → Bool
  | .unborn | .ended .. => false
  | _ => true

def Pc.todo : Pc → List ℕ
  | .marks todo _ => todo
  | _ => []

/-- what is marked and has yet to be notified -/
def Pc.notice : Pc → List ℕ
  | .marks _ done => done
  | .notifies entries => entries
  | _ => []

structure Inv (w : World) : Prop where
  fresh : ∀ e, w.nextEntry ≤ e → (w.waits e).stage = .unborn ∧ w.marked e = false
  nodup : ∀ c, (w.queues c).Nodup
  queued : ∀ c, ∀ e ∈ w.queues c, (w.waits e).cond = c ∧ (w.waits e).stage.live = true
  busy : ∀ e, (w.waits e).stage.busy = true → w.threads (w.waits e).thread = .waits e
  inside : ∀ t e, w.threads t = .waits e → (w.waits e).thread = t ∧ (w.waits e).stage.busy = true
  own : ∀ e, (w.waits e).stage = .unlocking ∨ (w.waits e).stage = .ending →
    w.registered (w.waits e).thread (w.waits e).cond = some e
  locked : ∀ t todo done, w.threads t = .marks todo done → w.registry = some t
  todo : ∀ t, ∀ e ∈ (w.threads t).todo, (w.waits e).stage.live = true
  marked : ∀ e, w.marked e = true → (w.waits e).stage.answered = true
  notice : ∀ e, w.marked e = true → (w.waits e).stage = .asleep → ∃ t, e ∈ (w.threads t).notice
  taken : ∀ k ∈ w.wakes, ∀ e ∈ k.taken, w.marked e = true ∨ ∃ t, e ∈ (w.threads t).todo
  wakes : ∀ k ∈ w.wakes, k.taken = k.registered.take k.call.count ∧ (k.call = .signal ∨ k.registered.length ≤ u32Max)
  held : ∀ e r h, (w.waits e).stage = .ended r h → r = .ok ∨ r = .timedOut → h = true

section Moves

variable {w : World} {t u e f : ℕ} {pc : Pc} {s : Stage}

theorem goTo_self : (w.goTo t pc).threads t = pc := Function.update_self ..

theorem goTo_other (hu : u ≠ t) : (w.goTo t pc).threads u = w.threads u := Function.update_of_ne hu ..

theorem setStage_self : ((w.setStage e s).waits e).stage = s := by simp [World.setStage]

theorem setStage_other (hf : f ≠ e) : (w.setStage e s).waits f = w.waits f := Function.update_of_ne hf ..

theorem setStage_thread : ((w.setStage e s).waits f).thread = (w.waits f).thread := by
  rcases eq_or_ne f e with rfl | hf
  · simp [World.setStage]
  · rw [setStage_other hf]

theorem setStage_cond : ((w.setStage e s).waits f).cond = (w.waits f).cond := by
  rcases eq_or_ne f e with rfl | hf
  · simp [World.setStage]
  · rw [setStage_other hf]

/-- what a stage may be followed by, while the wait stays registered -/
theorem Inv.stage (h : Inv w) (ht : w.threads t = .waits e) (hlive : s.live = true)
    (hwas : (w.waits e).stage.live = true) (hmarked : w.marked e = true → s.answered = true ∧ s ≠ .asleep)
    (hown : s ≠ .unlocking ∧ (s = .ending → (w.waits e).stage = .unlocking)) : Inv (w.setStage e s) := by
  have hbusy : s.busy = true := by cases s <;> first | rfl | cases hlive
  have hended : ∀ r hd, s ≠ .ended r hd := by
    rintro r hd rfl
    cases hlive
  have hin := (h.inside t e ht).1
  constructor
  case fresh =>
    intro f hf
    have hfe : f ≠ e := by
      rintro rfl
      rw [(h.fresh f hf).1] at hwas
      cases hwas
    rw [setStage_other hfe]
    exact h.fresh f hf
  case nodup => exact h.nodup
  case queued =>
    intro c f hf
    rw [setStage_cond]
    refine ⟨(h.queued c f hf).1, ?_⟩
    rcases eq_or_ne f e with rfl | hfe
    · rw [setStage_self]
      exact hlive
    · rw [setStage_other hfe]
      exact (h.queued c f hf).2
  case busy =>
    intro f hf
    rw [setStage_thread]
    rcases eq_or_ne f e with rfl | hfe
    · rw [hin]
      exact ht
    · rw [setStage_other hfe] at hf
      exact h.busy f hf
  case inside =>
    intro u f hu
    rw [setStage_thread]
    refine ⟨(h.inside u f hu).1, ?_⟩
    rcases eq_or_ne f e with rfl | hfe
    · rw [setStage_self]
      exact hbusy
    · rw [setStage_other hfe]
      exact (h.inside u f hu).2
  case own =>
    intro f hf
    rw [setStage_thread, setStage_cond]
    rcases eq_or_ne f e with rfl | hfe
    · rw [setStage_self] at hf
      rcases hf with hf | hf
      · exact absurd hf hown.1
      · exact h.own f (.inl (hown.2 hf))
    · rw [setStage_other hfe] at hf
      exact h.own f hf
  case locked => exact h.locked
  case todo =>
    intro u f hf
    rcases eq_or_ne f e with rfl | hfe
    · rw [setStage_self]
      exact hlive
    · rw [setStage_other hfe]
      exact h.todo u f hf
  case marked =>
    intro f hf
    rcases eq_or_ne f e with rfl | hfe
    · rw [setStage_self]
      exact (hmarked hf).1
    · rw [setStage_other hfe]
      exact h.marked f hf
  case notice =>
    intro f hf hs
    rcases eq_or_ne f e with rfl | hfe
    · rw [setStage_self] at hs
      exact absurd hs (hmarked hf).2
    · rw [setStage_other hfe] at hs
      exact h.notice f hf hs
  case taken => exact h.taken
  case wakes => exact h.wakes
  case held =>
    intro f r hd hf
    rcases eq_or_ne f e with rfl | hfe
    · rw [setStage_self] at hf
      exact absurd hf (hended r hd)
    · rw [setStage_other hfe] at hf
      exact h.held f r hd hf

/-- a thread that is in no wait, to a place in no wait: what it has yet to mark and to notify is as said -/
theorem Inv.goTo (h : Inv w) (hout : ∀ e, w.threads t ≠ .waits e) (hpc : ∀ e, pc ≠ .waits e)
    (hlock : ∀ todo done, pc = .marks todo done → w.registry = some t) (htodo : pc.todo = (w.threads t).todo)
    (hnotice : ∀ f ∈ (w.threads t).notice, f ∈ pc.notice ∨ (w.waits f).stage ≠ .asleep) : Inv (w.goTo t pc) := by
  have hwaits : ∀ u f, (w.goTo t pc).threads u = .waits f ↔ w.threads u = .waits f := by
    intro u f
    rcases eq_or_ne u t with rfl | hu
    · rw [goTo_self]
      exact ⟨fun hf => absurd hf (hpc f), fun hf => absurd hf (hout f)⟩
    · rw [goTo_other hu]
  have hsame : ∀ u, ((w.goTo t pc).threads u).todo = (w.threads u).todo := by
    intro u
    rcases eq_or_ne u t with rfl | hu
    · rw [goTo_self]
      exact htodo
    · rw [goTo_other hu]
  constructor
  case fresh => exact h.fresh
  case nodup => exact h.nodup
  case queued => exact h.queued
  case busy =>
    intro f hf
    rw [hwaits]
    exact h.busy f hf
  case inside =>
    intro u f hu
    rw [hwaits] at hu
    exact h.inside u f hu
  case own => exact h.own
  case locked =>
    intro u todo done hu
    rcases eq_or_ne u t with rfl | hut
    · rw [goTo_self] at hu
      exact hlock todo done hu
    · rw [goTo_other hut] at hu
      exact h.locked u todo done hu
  case todo =>
    intro u f hf
    rw [hsame] at hf
    exact h.todo u f hf
  case marked => exact h.marked
  case notice =>
    intro f hf hs
    obtain ⟨u, hu⟩ := h.notice f hf hs
    refine ⟨u, ?_⟩
    rcases eq_or_ne u t with rfl | hut
    · rw [goTo_self]
      rcases hnotice f hu with hin | hawake
      · exact hin
      · exact absurd hs hawake
    · rw [goTo_other hut]
      exact hu
  case taken =>
    intro k hk f hf
    simp only [hsame]
    exact h.taken k hk f hf
  case wakes => exact h.wakes
  case held => exact h.held

/-- a thread in no wake goes where it has nothing to mark or to notify -/
theorem Inv.plain (h : Inv w) (hout : ∀ e, w.threads t ≠ .waits e) (hnone : (w.threads t).todo = [] ∧ (w.threads t).notice = [])
    (hpc : (∀ e, pc ≠ .waits e) ∧ ∀ todo done, pc ≠ .marks todo done) : Inv (w.goTo t pc) := by
  refine h.goTo hout hpc.1 (fun todo done hp => absurd hp (hpc.2 todo done)) ?_ ?_
  · rw [hnone.1]
    cases pc with
    | marks todo done => exact absurd rfl (hpc.2 todo done)
    | _ => rfl
  · rw [hnone.2]
    intro f hf
    cases hf

theorem Inv.register {cond mutex : ℕ} {timed : Bool} (h : Inv w) (ht : w.threads t = .begins cond mutex timed) :
    Inv (w.register t cond mutex timed) := by
  set new := w.nextEntry with hnew
  have hunborn := (h.fresh new le_rfl).1
  have hself : ((w.register t cond mutex timed).waits new) = ⟨t, cond, mutex, timed, .unlocking⟩ := Function.update_self ..
  have hother : ∀ f, f ≠ new → (w.register t cond mutex timed).waits f = w.waits f := fun f hf => Function.update_of_ne hf ..
  have hpcSelf : (w.register t cond mutex timed).threads t = .waits new := Function.update_self ..
  have hpcOther : ∀ u, u ≠ t → (w.register t cond mutex timed).threads u = w.threads u :=
    fun u hu => Function.update_of_ne hu ..
  have hlive : ∀ {f : ℕ}, (w.waits f).stage.live = true → f ≠ new := by
    rintro f hf rfl
    rw [hunborn] at hf
    cases hf
  have htodo : ∀ u, ((w.register t cond mutex timed).threads u).todo = (w.threads u).todo := by
    intro u
    rcases eq_or_ne u t with rfl | hu
    · rw [hpcSelf, ht]
      rfl
    · rw [hpcOther u hu]
  have hfresh : ∀ c, new ∉ w.queues c := fun c hc => hlive (h.queued c new hc).2 rfl
  constructor
  case fresh =>
    intro f hf
    have hle : new + 1 ≤ f := hf
    rw [hother f (by omega)]
    exact h.fresh f (by omega)
  case nodup =>
    intro c
    change (Function.update w.queues cond _ c).Nodup
    rw [Function.update_apply]
    split
    · exact List.nodup_append'.mpr ⟨h.nodup cond, List.nodup_singleton _, by simpa using hfresh cond⟩
    · exact h.nodup c
  case queued =>
    intro c f hf
    have hmem : f ∈ w.queues c ∨ c = cond ∧ f = new := by
      change f ∈ Function.update w.queues cond (w.queues cond ++ [new]) c at hf
      rw [Function.update_apply] at hf
      split at hf
      · rename_i hc
        subst hc
        simpa using hf
      · exact .inl hf
    rcases hmem with hf | ⟨rfl, rfl⟩
    · rw [hother f (hlive (h.queued c f hf).2)]
      exact h.queued c f hf
    · rw [hself]
      exact ⟨rfl, rfl⟩
  case busy =>
    intro f hf
    rcases eq_or_ne f new with rfl | hfn
    · rw [hself]
      exact hpcSelf
    · rw [hother f hfn] at hf ⊢
      have hb := h.busy f hf
      have hne : (w.waits f).thread ≠ t := by
        intro heq
        rw [heq, ht] at hb
        cases hb
      rw [hpcOther _ hne]
      exact hb
  case inside =>
    intro u f hu
    rcases eq_or_ne u t with rfl | hut
    · rw [hpcSelf] at hu
      cases hu
      rw [hself]
      exact ⟨rfl, rfl⟩
    · rw [hpcOther u hut] at hu
      have hi := h.inside u f hu
      have hfn : f ≠ new := by
        rintro rfl
        rw [hunborn] at hi
        cases hi.2
      rw [hother f hfn]
      exact hi
  case own =>
    intro f hf
    change Function.update w.registered t (Function.update (w.registered t) cond (some new)) _ _ = _
    rcases eq_or_ne f new with rfl | hfn
    · rw [hself]
      simp
    · rw [hother f hfn] at hf ⊢
      have hb : w.threads (w.waits f).thread = .waits f := h.busy f (by rcases hf with hf | hf <;> rw [hf] <;> rfl)
      have hne : (w.waits f).thread ≠ t := by
        intro heq
        rw [heq, ht] at hb
        cases hb
      rw [Function.update_of_ne hne]
      exact h.own f hf
  case locked =>
    intro u todo done hu
    rcases eq_or_ne u t with rfl | hut
    · rw [hpcSelf] at hu
      cases hu
    · rw [hpcOther u hut] at hu
      exact h.locked u todo done hu
  case todo =>
    intro u f hf
    rw [htodo] at hf
    rw [hother f (hlive (h.todo u f hf))]
    exact h.todo u f hf
  case marked =>
    intro f hf
    have hfn : f ≠ new := by
      rintro rfl
      have hm : w.marked new = true := hf
      rw [(h.fresh new le_rfl).2] at hm
      cases hm
    rw [hother f hfn]
    exact h.marked f hf
  case notice =>
    intro f hf hs
    have hfn : f ≠ new := by
      rintro rfl
      rw [hself] at hs
      cases hs
    rw [hother f hfn] at hs
    obtain ⟨u, hu⟩ := h.notice f hf hs
    refine ⟨u, ?_⟩
    rcases eq_or_ne u t with rfl | hut
    · rw [ht] at hu
      cases hu
    · rw [hpcOther u hut]
      exact hu
  case taken =>
    intro k hk f hf
    simp only [htodo]
    exact h.taken k hk f hf
  case wakes => exact h.wakes
  case held =>
    intro f r hd hf
    have hfn : f ≠ new := by
      rintro rfl
      rw [hself] at hf
      cases hf
    rw [hother f hfn] at hf
    exact h.held f r hd hf

/-- an entry taken out of the thread's own map -/
theorem Inv.unregister (h : Inv w) (ht : w.threads t = .waits e) (hs : (w.waits e).stage = .checking) (cond : ℕ) :
    Inv { w with registered := Function.update w.registered t (Function.update (w.registered t) cond none) } := by
  constructor
  case own =>
    intro f hf
    change Function.update w.registered t _ _ _ = _
    have hb : w.threads (w.waits f).thread = .waits f := h.busy f (by rcases hf with hf | hf <;> rw [hf] <;> rfl)
    have hne : (w.waits f).thread ≠ t := by
      intro heq
      rw [heq, ht] at hb
      cases hb
      rw [hs] at hf
      rcases hf with hf | hf <;> cases hf
    rw [Function.update_of_ne hne]
    exact h.own f hf
  case fresh => exact h.fresh
  case nodup => exact h.nodup
  case queued => exact h.queued
  case busy => exact h.busy
  case inside => exact h.inside
  case locked => exact h.locked
  case todo => exact h.todo
  case marked => exact h.marked
  case notice => exact h.notice
  case taken => exact h.taken
  case wakes => exact h.wakes
  case held => exact h.held

/-- no one has anything to mark while the registry is free -/
theorem Inv.todo_nil (h : Inv w) (hfree : w.registry = none) (u : ℕ) : (w.threads u).todo = [] := by
  cases hu : w.threads u with
  | marks todo done =>
    have := h.locked u todo done hu
    rw [hfree] at this
    cases this
  | _ => rfl

/-- a wait moves on out of the registry, and its thread with it -/
theorem Inv.out (h : Inv w) (ht : w.threads t = .waits e) (hdead : s.live = false)
    (hpc : pc = .waits e ∧ s.busy = true ∨ (∃ r, pc = .idle r) ∧ s.busy = false) (hqueue : ∀ c, e ∉ w.queues c)
    (htodo : ∀ u, e ∉ (w.threads u).todo) (hmarked : w.marked e = true → s.answered = true)
    (hheld : ∀ r hd, s = .ended r hd → r = .ok ∨ r = .timedOut → hd = true) : Inv ((w.setStage e s).goTo t pc) := by
  obtain ⟨hin, hwas⟩ := h.inside t e ht
  have hone : ∀ u, w.threads u = .waits e → u = t := fun u hu => (h.inside u e hu).1.symm.trans hin
  have hsame : ∀ u, (((w.setStage e s).goTo t pc).threads u).todo = (w.threads u).todo ∧
      (((w.setStage e s).goTo t pc).threads u).notice = (w.threads u).notice := by
    intro u
    rcases eq_or_ne u t with rfl | hu
    · rw [goTo_self, ht]
      rcases hpc with ⟨rfl, -⟩ | ⟨⟨r, rfl⟩, -⟩ <;> exact ⟨rfl, rfl⟩
    · rw [goTo_other hu]
      exact ⟨rfl, rfl⟩
  constructor
  case fresh =>
    intro f hf
    have hfe : f ≠ e := by
      rintro rfl
      rw [(h.fresh f hf).1] at hwas
      cases hwas
    change ((w.setStage e s).waits f).stage = _ ∧ _
    rw [setStage_other hfe]
    exact h.fresh f hf
  case nodup => exact h.nodup
  case queued =>
    intro c f hf
    have hfe : f ≠ e := by
      rintro rfl
      exact hqueue c hf
    change ((w.setStage e s).waits f).cond = _ ∧ ((w.setStage e s).waits f).stage.live = _
    rw [setStage_other hfe]
    exact h.queued c f hf
  case busy =>
    intro f hf
    change ((w.setStage e s).waits f).stage.busy = true at hf
    change ((w.setStage e s).goTo t pc).threads ((w.setStage e s).waits f).thread = _
    rw [setStage_thread]
    rcases eq_or_ne f e with rfl | hfe
    · rw [setStage_self] at hf
      rw [hin, goTo_self]
      rcases hpc with ⟨rfl, -⟩ | ⟨-, hno⟩
      · rfl
      · rw [hno] at hf
        cases hf
    · rw [setStage_other hfe] at hf
      have hb := h.busy f hf
      have hne : (w.waits f).thread ≠ t := by
        intro heq
        rw [heq, ht] at hb
        cases hb
        exact hfe rfl
      rw [goTo_other hne]
      exact hb
  case inside =>
    intro u f hu
    change ((w.setStage e s).waits f).thread = u ∧ ((w.setStage e s).waits f).stage.busy = true
    rw [setStage_thread]
    rcases eq_or_ne u t with rfl | hut
    · rw [goTo_self] at hu
      rcases hpc with ⟨rfl, hb⟩ | ⟨⟨r, rfl⟩, -⟩
      · cases hu
        rw [setStage_self]
        exact ⟨hin, hb⟩
      · cases hu
    · rw [goTo_other hut] at hu
      have hfe : f ≠ e := by
        rintro rfl
        exact hut (hone u hu)
      rw [setStage_other hfe]
      exact h.inside u f hu
  case own =>
    intro f hf
    change ((w.setStage e s).waits f).stage = _ ∨ ((w.setStage e s).waits f).stage = _ at hf
    have hfe : f ≠ e := by
      rintro rfl
      rw [setStage_self] at hf
      rcases hf with rfl | rfl <;> cases hdead
    change w.registered ((w.setStage e s).waits f).thread ((w.setStage e s).waits f).cond = _
    rw [setStage_other hfe] at hf ⊢
    exact h.own f hf
  case locked =>
    intro u todo done hu
    rcases eq_or_ne u t with rfl | hut
    · rw [goTo_self] at hu
      rcases hpc with ⟨rfl, -⟩ | ⟨⟨r, rfl⟩, -⟩ <;> cases hu
    · rw [goTo_other hut] at hu
      exact h.locked u todo done hu
  case todo =>
    intro u f hf
    rw [(hsame u).1] at hf
    have hfe : f ≠ e := by
      rintro rfl
      exact htodo u hf
    change ((w.setStage e s).waits f).stage.live = true
    rw [setStage_other hfe]
    exact h.todo u f hf
  case marked =>
    intro f hf
    change ((w.setStage e s).waits f).stage.answered = true
    rcases eq_or_ne f e with rfl | hfe
    · rw [setStage_self]
      exact hmarked hf
    · rw [setStage_other hfe]
      exact h.marked f hf
  case notice =>
    intro f hf hs
    change ((w.setStage e s).waits f).stage = _ at hs
    have hfe : f ≠ e := by
      rintro rfl
      rw [setStage_self] at hs
      rw [hs] at hdead
      cases hdead
    rw [setStage_other hfe] at hs
    simp only [(hsame _).2]
    exact h.notice f hf hs
  case taken =>
    intro k hk f hf
    simp only [(hsame _).1]
    exact h.taken k hk f hf
  case wakes => exact h.wakes
  case held =>
    intro f r hd hf
    change ((w.setStage e s).waits f).stage = _ at hf
    rcases eq_or_ne f e with rfl | hfe
    · rw [setStage_self] at hf
      exact hheld r hd hf
    · rw [setStage_other hfe] at hf
      exact h.held f r hd hf

theorem Inv.deregister (h : Inv w) (e : ℕ) : Inv (w.deregister e) := by
  have hsub : ∀ c, List.Sublist ((w.deregister e).queues c) (w.queues c) := by
    intro c
    change List.Sublist (Function.update w.queues (w.waits e).cond ((w.queues (w.waits e).cond).erase e) c) _
    rw [Function.update_apply]
    split
    · rename_i hc
      rw [hc]
      exact List.erase_sublist
    · exact List.Sublist.refl _
  exact { h with
    nodup := fun c => (h.nodup c).sublist (hsub c)
    queued := fun c f hf => h.queued c f ((hsub c).subset hf) }

theorem deregister_mem (h : Inv w) (e c : ℕ) : e ∉ (w.deregister e).queues c := by
  intro he
  change e ∈ Function.update w.queues (w.waits e).cond ((w.queues (w.waits e).cond).erase e) c at he
  rw [Function.update_apply] at he
  split at he
  · exact (h.nodup _).not_mem_erase he
  · rename_i hc
    exact hc (h.queued c e he).1.symm

theorem Inv.take {cond : ℕ} {call : Call} (h : Inv w) (ht : w.threads t = .calls cond call) (hfree : w.registry = none)
    (hok : call = .signal ∨ (w.queues cond).length ≤ u32Max) : Inv (w.take t cond call) := by
  have hself : (w.take t cond call).threads t = .marks ((w.queues cond).take call.count) [] := Function.update_self ..
  have hother : ∀ u, u ≠ t → (w.take t cond call).threads u = w.threads u := fun u hu => Function.update_of_ne hu ..
  have hsub : ∀ c, List.Sublist ((w.take t cond call).queues c) (w.queues c) := by
    intro c
    change List.Sublist (Function.update w.queues cond ((w.queues cond).drop call.count) c) _
    rw [Function.update_apply]
    split
    · rename_i hc
      rw [hc]
      exact List.drop_sublist ..
    · exact List.Sublist.refl _
  constructor
  case fresh => exact h.fresh
  case nodup => exact fun c => (h.nodup c).sublist (hsub c)
  case queued => exact fun c f hf => h.queued c f ((hsub c).subset hf)
  case busy =>
    intro f hf
    have hb := h.busy f hf
    have hne : (w.waits f).thread ≠ t := by
      intro heq
      rw [heq, ht] at hb
      cases hb
    exact (hother _ hne).trans hb
  case inside =>
    intro u f hu
    rcases eq_or_ne u t with rfl | hut
    · rw [hself] at hu
      cases hu
    · rw [hother u hut] at hu
      exact h.inside u f hu
  case own => exact h.own
  case locked =>
    intro u todo done hu
    rcases eq_or_ne u t with rfl | hut
    · rfl
    · rw [hother u hut] at hu
      have := h.locked u todo done hu
      rw [hfree] at this
      cases this
  case todo =>
    intro u f hf
    rcases eq_or_ne u t with rfl | hut
    · rw [hself] at hf
      exact (h.queued cond f (List.mem_of_mem_take hf)).2
    · rw [hother u hut, h.todo_nil hfree u] at hf
      cases hf
  case marked => exact h.marked
  case notice =>
    intro f hf hs
    obtain ⟨u, hu⟩ := h.notice f hf hs
    have hut : u ≠ t := by
      rintro rfl
      rw [ht] at hu
      cases hu
    exact ⟨u, by rwa [hother u hut]⟩
  case taken =>
    intro k hk f hf
    rcases List.mem_cons.mp hk with rfl | hk
    · exact .inr ⟨t, by rwa [hself]⟩
    · rcases h.taken k hk f hf with hm | ⟨u, hu⟩
      · exact .inl hm
      · rw [h.todo_nil hfree u] at hu
        cases hu
  case wakes =>
    intro k hk
    rcases List.mem_cons.mp hk with rfl | hk
    · exact ⟨rfl, hok⟩
    · exact h.wakes k hk
  case held => exact h.held

theorem Inv.mark {todo done : List ℕ} (h : Inv w) (ht : w.threads t = .marks (e :: todo) done)
    (hok : (w.waits e).stage ≠ .leaving false) :
    Inv ({ w with marked := Function.update w.marked e true }.goTo t (.marks todo (done ++ [e]))) := by
  have hlive : (w.waits e).stage.live = true := h.todo t e (by rw [ht]; exact List.mem_cons_self)
  set w' := { w with marked := Function.update w.marked e true }.goTo t (.marks todo (done ++ [e])) with hw'
  have hself : w'.threads t = .marks todo (done ++ [e]) := Function.update_self ..
  have hother : ∀ u, u ≠ t → w'.threads u = w.threads u := fun u hu => Function.update_of_ne hu ..
  have hmarked : ∀ f, w'.marked f = true ↔ f = e ∨ w.marked f = true := by
    intro f
    change Function.update w.marked e true f = true ↔ _
    rw [Function.update_apply]
    split <;> simp_all
  constructor
  case fresh =>
    intro f hf
    have hfe : f ≠ e := by
      rintro rfl
      rw [(h.fresh f hf).1] at hlive
      cases hlive
    refine ⟨(h.fresh f hf).1, ?_⟩
    change Function.update w.marked e true f = false
    rw [Function.update_of_ne hfe]
    exact (h.fresh f hf).2
  case nodup => exact h.nodup
  case queued => exact h.queued
  case busy =>
    intro f hf
    have hb := h.busy f hf
    have hne : (w.waits f).thread ≠ t := by
      intro heq
      rw [heq, ht] at hb
      cases hb
    exact (hother _ hne).trans hb
  case inside =>
    intro u f hu
    rcases eq_or_ne u t with rfl | hut
    · rw [hself] at hu
      cases hu
    · rw [hother u hut] at hu
      exact h.inside u f hu
  case own => exact h.own
  case locked =>
    intro u todo' done' hu
    rcases eq_or_ne u t with rfl | hut
    · exact h.locked u _ _ ht
    · rw [hother u hut] at hu
      exact h.locked u todo' done' hu
  case todo =>
    intro u f hf
    rcases eq_or_ne u t with rfl | hut
    · rw [hself] at hf
      exact h.todo u f (by rw [ht]; exact List.mem_cons_of_mem e hf)
    · rw [hother u hut] at hf
      exact h.todo u f hf
  case marked =>
    intro f hf
    rcases (hmarked f).mp hf with rfl | hf
    · change (w.waits f).stage.answered = true
      cases hs : (w.waits f).stage with
      | leaving signalled =>
        rw [hs] at hok
        cases signalled with
        | true => rfl
        | false => exact absurd rfl hok
      | _ =>
        rw [hs] at hlive
        first
          | rfl
          | cases hlive
    · exact h.marked f hf
  case notice =>
    intro f hf hs
    rcases (hmarked f).mp hf with rfl | hf
    · exact ⟨t, by rw [hself]; simp [Pc.notice]⟩
    · obtain ⟨u, hu⟩ := h.notice f hf hs
      refine ⟨u, ?_⟩
      rcases eq_or_ne u t with rfl | hut
      · rw [hself]
        rw [ht] at hu
        exact List.mem_append_left _ hu
      · rwa [hother u hut]
  case taken =>
    intro k hk f hf
    rcases h.taken k hk f hf with hm | ⟨u, hu⟩
    · exact .inl ((hmarked f).mpr (.inr hm))
    · rcases eq_or_ne u t with rfl | hut
      · rw [ht] at hu
        rcases List.mem_cons.mp hu with rfl | hu
        · exact .inl ((hmarked f).mpr (.inl rfl))
        · exact .inr ⟨u, by rw [hself]; exact hu⟩
      · exact .inr ⟨u, by rwa [hother u hut]⟩
  case wakes => exact h.wakes
  case held => exact h.held

/-- the registry's lock let go of, with nothing left to mark -/
theorem Inv.unlock {done : List ℕ} (h : Inv w) (ht : w.threads t = .marks [] done) :
    Inv ({ w with registry := none }.goTo t (.notifies done)) := by
  have h₁ : Inv (w.goTo t (.notifies done)) := by
    refine h.goTo ?_ ?_ ?_ ?_ ?_
    · intro e he
      rw [ht] at he
      cases he
    · intro e he
      cases he
    · intro todo done' he
      cases he
    · rw [ht]
      rfl
    · intro f hf
      rw [ht] at hf
      exact .inl hf
  refine { h₁ with locked := ?_ }
  intro u todo done' hu
  have hut : u ≠ t := by
    rintro rfl
    rw [goTo_self] at hu
    cases hu
  have hu' : w.threads u = .marks todo done' := by rwa [goTo_other hut] at hu
  have := (h.locked u todo done' hu').symm.trans (h.locked t _ _ ht)
  exact absurd (Option.some.inj this) hut

theorem Inv.notify (h : Inv w) (e : ℕ) : Inv (w.notify e) := by
  unfold World.notify
  split
  · rename_i hs
    have hb := h.busy e (by rw [hs]; rfl)
    exact h.stage hb rfl (by rw [hs]; rfl) (fun _ => ⟨rfl, nofun⟩) ⟨nofun, nofun⟩
  · exact h

theorem notify_threads : (w.notify e).threads = w.threads := by
  unfold World.notify
  split <;> rfl

theorem notify_awake : ((w.notify e).waits e).stage ≠ .asleep := by
  unfold World.notify
  split
  · rw [setStage_self]
    intro hc
    cases hc
  · assumption

theorem goTo_same (ht : w.threads t = pc) : w.goTo t pc = w := by
  rw [World.goTo, ← ht, Function.update_eq_self]

/-- signalled, or out of time: off the registry -/
theorem Inv.leave {signalled : Bool} (h : Inv w) (ht : w.threads t = .waits e) (hs : (w.waits e).stage = .leaving signalled)
    (hfree : w.registry = none) : Inv ((w.deregister e).setStage e (.relocking signalled)) := by
  have h₁ := h.deregister e
  rw [← goTo_same (w := (w.deregister e).setStage e (.relocking signalled)) ht]
  refine h₁.out ht rfl (.inl ⟨rfl, rfl⟩) (deregister_mem h e) ?_ ?_ nofun
  · intro u hu
    rw [h₁.todo_nil hfree u] at hu
    cases hu
  · intro hm
    have ha := h.marked e hm
    rw [hs] at ha
    cases signalled with
    | true => rfl
    | false => cases ha

/-- the mutex taken, and what the wait returns -/
theorem Inv.finish {signalled : Bool} {r : Result} (h : Inv w) (ht : w.threads t = .waits e)
    (hs : (w.waits e).stage = .relocking signalled) (hmarked : w.marked e = true → r = .ok)
    (hheld : r = .ok ∨ r = .timedOut → w.holders (w.waits e).mutex = some t) : Inv (w.endWait t e r) := by
  have hout : (w.waits e).stage.live = false := by rw [hs]; rfl
  refine h.out ht rfl (.inr ⟨⟨_, rfl⟩, rfl⟩) ?_ ?_ ?_ ?_
  · intro c hc
    rw [(h.queued c e hc).2] at hout
    cases hout
  · intro u hu
    rw [h.todo u e hu] at hout
    cases hout
  · intro hm
    rw [hmarked hm]
    rfl
  · rintro r' hd heq hr
    injection heq with hr' hd'
    subst hr' hd'
    simpa using hheld hr

theorem moveWait_inv (h : Inv w) (ht : w.threads t = .waits e) (c : Choice) (ho : w.steady (.move t c)) :
    Inv (w.moveWait t e c) := by
  simp only [World.steady, ht] at ho
  have hin := (h.inside t e ht).1
  unfold World.moveWait
  cases hs : (w.waits e).stage with
  | unborn => exact h
  | ended r hd => exact h
  | unlocking =>
    simp only [hs] at ho
    simp only [ho, Bool.false_eq_true, if_false]
    exact h.stage ht rfl (by rw [hs]; rfl) (fun _ => ⟨rfl, nofun⟩) ⟨nofun, fun _ => hs⟩
  | ending =>
    have hreg := h.own e (.inr hs)
    rw [hin] at hreg
    simp only [hreg]
    have h₁ : Inv (w.setStage e .checking) :=
      h.stage ht rfl (by rw [hs]; rfl) (fun _ => ⟨rfl, nofun⟩) ⟨nofun, nofun⟩
    have h₂ := h₁.unregister ht setStage_self (w.waits e).cond
    rw [goTo_same]
    · exact h₂
    · exact ht
  | checking =>
    simp only
    split
    · exact h.stage ht rfl (by rw [hs]; rfl) (fun _ => ⟨rfl, nofun⟩) ⟨nofun, nofun⟩
    · rename_i hunmarked
      have hno : w.marked e ≠ true := fun hm => hunmarked (.inl hm)
      split
      · exact h.stage ht rfl (by rw [hs]; rfl) (fun hm => absurd hm hno) ⟨nofun, nofun⟩
      · exact h.stage ht rfl (by rw [hs]; rfl) (fun hm => absurd hm hno) ⟨nofun, nofun⟩
  | asleep => exact h.stage ht rfl (by rw [hs]; rfl) (fun _ => ⟨rfl, nofun⟩) ⟨nofun, nofun⟩
  | leaving signalled =>
    simp only
    split
    · rename_i hfree
      exact h.leave ht hs hfree
    · exact h
  | relocking signalled =>
    simp only [hs] at ho
    simp only
    split
    · rename_i hf
      refine h.finish ht hs (fun hm => ?_) nofun
      rw [(ho hm).1] at hf
      cases hf
    · split
      · rename_i hi
        refine h.finish ht hs (fun hm => ?_) nofun
        rw [(ho hm).2] at hi
        cases hi
      · have h₁ : Inv { w with holders := Function.update w.holders (w.waits e).mutex (some t) } := { h with }
        refine h₁.finish ht hs (fun hm => ?_) (fun _ => Function.update_self ..)
        have ha := h.marked e hm
        rw [hs] at ha
        cases signalled with
        | true => rfl
        | false => cases ha

theorem move_inv (h : Inv w) (c : Choice) (ho : w.steady (.move t c)) : Inv (w.move t c) := by
  unfold World.move
  cases ht : w.threads t with
  | idle r => exact h
  | begins cond mutex timed =>
    simp only
    split
    · exact h.register ht
    · exact h
  | waits e => exact moveWait_inv h ht c ho
  | calls cond call =>
    simp only [World.steady, ht] at ho
    simp only
    split
    · rename_i hfree
      exact h.take ht hfree ho
    · exact h
  | marks todo done =>
    cases todo with
    | nil => exact h.unlock ht
    | cons e todo =>
      simp only [World.steady, ht] at ho
      exact h.mark ht ho
  | notifies entries =>
    cases entries with
    | nil =>
      refine h.plain ?_ ?_ ⟨nofun, nofun⟩
      · intro e he
        rw [ht] at he
        cases he
      · rw [ht]
        exact ⟨rfl, rfl⟩
    | cons e entries =>
      have ht' : (w.notify e).threads t = .notifies (e :: entries) := by rw [notify_threads, ht]
      refine (h.notify e).goTo ?_ nofun nofun ?_ ?_
      · intro f hf
        rw [ht'] at hf
        cases hf
      · rw [ht']
        rfl
      · intro f hf
        rw [ht'] at hf
        rcases List.mem_cons.mp hf with rfl | hf
        · exact .inr notify_awake
        · exact .inl hf

theorem step_inv (h : Inv w) (a : Act) (ho : w.steady a) : Inv (w.step a) := by
  cases a with
  | move t c => exact move_inv h c ho
  | hands holders => exact { h with }
  | _ t =>
    simp only [World.step]
    split
    · rename_i ht
      refine h.plain ?_ ?_ ⟨nofun, nofun⟩
      · intro e he
        rw [ht] at he
        cases he
      · rw [ht]
        exact ⟨rfl, rfl⟩
    · exact h

end Moves

theorem inv_start : Inv {} where
  fresh _ _ := ⟨rfl, rfl⟩
  nodup _ := List.nodup_nil
  queued := nofun
  busy := nofun
  inside := nofun
  own := by rintro e (he | he) <;> cases he
  locked := nofun
  todo := nofun
  marked := nofun
  notice := nofun
  taken := nofun
  wakes := nofun
  held := nofun

/-! ## Every run -/

/-- how many of its own steps a wait that is marked still has, at most -/
def Stage.left : Stage → ℕ
  | .unlocking => 5
  | .ending => 4
  | .checking | .asleep => 3
  | .leaving _ => 2
  | .relocking _ => 1
  | .unborn | .ended .. => 0

/-- the entry's wait returns 0: it has returned nothing else, a sleeper is about to be marked or notified, and one that is
marked and awake comes nearer with each step of its thread that finds the registry free -/
structure Answered (w : World) (e : ℕ) : Prop where
  returns : ∀ r held, (w.waits e).stage = .ended r held → r = .ok
  awake : (w.waits e).stage = .asleep → ∃ t, e ∈ (w.threads t).todo ∨ e ∈ (w.threads t).notice
  nears : w.marked e = true → (w.waits e).stage.busy = true → (w.waits e).stage ≠ .asleep → w.registry = none →
    ∀ c, w.steady (.move (w.waits e).thread c) →
      ((w.step (.move (w.waits e).thread c)).waits e).stage.left < (w.waits e).stage.left

/-- every signal that found a waiter registered makes a wait return 0, every broadcast and destroy all of those registered;
none that is registered has ended; and one that ended with 0 or `ETIMEDOUT` held the mutex -/
structure Delivered (w : World) : Prop where
  signal : ∀ k ∈ w.wakes, k.registered ≠ [] → ∃ e ∈ k.registered, Answered w e
  broadcast : ∀ k ∈ w.wakes, k.call ≠ .signal → ∀ e ∈ k.registered, Answered w e
  pending : ∀ c, ∀ e ∈ w.queues c, ∀ r held, (w.waits e).stage ≠ .ended r held
  holding : ∀ e r held, (w.waits e).stage = .ended r held → r = .ok ∨ r = .timedOut → held = true

section Moves

variable {w : World} {e : ℕ}

theorem marked_nears (h : Inv w) (hm : w.marked e = true) (hb : (w.waits e).stage.busy = true)
    (hawake : (w.waits e).stage ≠ .asleep) (hfree : w.registry = none) (c : Choice)
    (ho : w.steady (.move (w.waits e).thread c)) :
    ((w.step (.move (w.waits e).thread c)).waits e).stage.left < (w.waits e).stage.left := by
  have ht := h.busy e hb
  have hstage : ∀ (w' : World) (s : Stage), ((w'.setStage e s).waits e).stage = s := fun _ _ => setStage_self
  have hend : ∀ (w' : World) t r, ((w'.endWait t e r).waits e).stage.left = 0 := by
    intro w' t r
    change ((w'.setStage e _).waits e).stage.left = 0
    rw [setStage_self]
    rfl
  simp only [World.steady, ht] at ho
  simp only [World.step, World.move, ht, World.moveWait]
  cases hs : (w.waits e).stage with
  | unborn =>
    rw [hs] at hb
    cases hb
  | ended r held =>
    rw [hs] at hb
    cases hb
  | asleep => exact absurd hs hawake
  | unlocking =>
    simp only [hs] at ho
    simp only [ho, Bool.false_eq_true, if_false, hstage]
    decide
  | ending =>
    simp only [h.own e (.inr hs)]
    change ((World.setStage _ e .checking).waits e).stage.left < _
    rw [hstage]
    decide
  | checking =>
    simp only [hm, true_or, if_true, hstage]
    decide
  | leaving signalled =>
    simp only [hfree, if_true, hstage]
    exact Nat.lt_succ_self 1
  | relocking signalled =>
    simp only
    have hone : (Stage.relocking signalled).left = 1 := rfl
    split
    · rw [hend, hone]
      exact Nat.one_pos
    · split
      · rw [hend, hone]
        exact Nat.one_pos
      · rw [hend, hone]
        exact Nat.one_pos

theorem Inv.answered (h : Inv w) (he : w.marked e = true ∨ ∃ t, e ∈ (w.threads t).todo) : Answered w e := by
  refine ⟨?_, ?_, fun hm hb hawake hfree c ho => marked_nears h hm hb hawake hfree c ho⟩
  · intro r held hs
    rcases he with hm | ⟨t, ht⟩
    · have ha := h.marked e hm
      rw [hs] at ha
      cases r with
      | ok => rfl
      | _ => cases ha
    · have hl := h.todo t e ht
      rw [hs] at hl
      cases hl
  · intro hs
    rcases he with hm | ⟨t, ht⟩
    · obtain ⟨t, ht⟩ := h.notice e hm hs
      exact ⟨t, .inr ht⟩
    · exact ⟨t, .inl ht⟩

end Moves

/-- **No signal is lost, and a wait returns with the mutex.** In every run in which no mark falls on an entry whose waiter
has decided that it is out of time, and mutexes are reached. -/
theorem signals_delivered {w : World} (h : Reach World.step World.steady {} w) : Delivered w := by
  have hi : Inv w := h.invariant Inv inv_start fun _ a _ ho hs => step_inv hs a ho
  have hmem : ∀ k ∈ w.wakes, ∀ e ∈ k.registered.take k.call.count, Answered w e := by
    intro k hk e he
    rw [← (hi.wakes k hk).1] at he
    exact hi.answered (hi.taken k hk e he)
  constructor
  case signal =>
    intro k hk hne
    obtain ⟨e, l, hl⟩ := List.exists_cons_of_ne_nil hne
    have hfirst : e ∈ k.registered.take k.call.count := by
      rw [hl]
      cases k.call <;> exact List.mem_cons_self
    exact ⟨e, List.mem_of_mem_take hfirst, hmem k hk e hfirst⟩
  case broadcast =>
    intro k hk hcall e he
    have hlen := (hi.wakes k hk).2.resolve_left hcall
    have hcount : k.call.count = u32Max := by
      cases hc : k.call with
      | signal => exact absurd hc hcall
      | _ => rfl
    refine hmem k hk e ?_
    rw [hcount, List.take_of_length_le hlen]
    exact he
  case pending =>
    intro c e he r held hs
    have hl := (hi.queued c e he).2
    rw [hs] at hl
    cases hl
  case holding => exact hi.held

instance decSteady (w : World) (a : Act) : Decidable (w.steady a) := by
  unfold World.steady
  split
  · split
    · split <;> infer_instance
    all_goals infer_instance
  · infer_instance

/-- thread 0 waits on cond 7 with mutex 9, up to its first look at its entry -/
def waitRun (timed : Bool) : List Act := [.wait 0 7 9 timed, .move 0 {}, .move 0 {}, .move 0 {}]

/-- thread 1 signals -/
def signalRun : List Act := [.wake 1 7 .signal, .move 1 {}, .move 1 {}, .move 1 {}, .move 1 {}, .move 1 {}]

/-- thread 0 falls asleep; it is signalled, and returns -/
def wokenRun : List Act := waitRun false ++ [.move 0 {}] ++ signalRun ++ [.move 0 {}, .move 0 {}, .move 0 {}]

theorem signals_delivered_woken : Delivered (run World.step {} wokenRun) ∧
    ((run World.step {} wokenRun).waits 0).stage = .ended .ok true :=
  ⟨signals_delivered (.run .start _ (by decide)), by decide⟩

/-- thread 0 is out of time; it is signalled before it leaves the registry, and returns `ETIMEDOUT` -/
def lateRun : List Act := waitRun true ++ [.move 0 { late := true }] ++ signalRun ++ [.move 0 {}, .move 0 {}]

/-- the unlock of thread 0's `wait_begin` faults -/
def faultRun : List Act := [.wait 0 7 9 false, .move 0 {}, .move 0 { fault := true }]

/-- **A lost signal, and a stale entry.** The only waiter is marked and times out all the same; and a wait that failed
leaves its entry in the registry. -/
theorem signals_lost : ¬Delivered (run World.step {} lateRun) ∧ ¬Delivered (run World.step {} faultRun) := by
  constructor
  · intro h
    have hwake : ⟨.signal, [0], [0]⟩ ∈ (run World.step {} lateRun).wakes := by decide
    have hended : ((run World.step {} lateRun).waits 0).stage = .ended .timedOut true := by decide
    obtain ⟨e, he, ha⟩ := h.signal _ hwake (by decide)
    cases List.mem_singleton.mp he
    cases ha.returns _ _ hended
  · intro h
    have hqueued : 0 ∈ (run World.step {} faultRun).queues 7 := by decide
    have hended : ((run World.step {} faultRun).waits 0).stage = .ended .fault false := by decide
    exact h.pending 7 0 hqueued _ _ hended

end Omnidroid.Bionic.Cond
