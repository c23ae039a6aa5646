/-
POSIX timers (`omni-linux/src/timer.rs`, and the queued signal information of `omni-linux/src/process.rs`): a table of timers,
a thread that makes them expire, and the signals that they send to tasks.

One step is one hold of a lock: an expiry decided under the timers' lock, its information pushed, its signal's bit set;
a task's bit cleared, its information taken off the queue, the timer told (`dequeued`).
- `World.fire`: an expiry; `passOver` counts the periods it is late by.
- `carriers`: how many pieces of a timer's signal information are on their way. `Sound` has one for a timer that is marked as
  queued and none for another, and every expiry accounted for; every run keeps it.
- `World.steady`, `Traced`: what is queued is pending for a live task, and an armed timer is on the schedule.
- `timers_account`: both, over every run. `timers_fall_silent`: without the condition, not so.
-/
import Omnidroid.Errno
import Omnidroid.Lib.FinMap
import Omnidroid.Lib.Run

namespace Omnidroid.Timers

/-! ## Timers and signals -/

def SIGALRM : ℕ := 14
def SIGSYS : ℕ := 31
def i32Max : ℕ := 2 ^ 31 - 1

def saturatingAdd (a b : ℕ) : ℕ := min (a + b) i32Max

/-- how a timer notifies: its signal to the process, nothing, or its signal to one thread -/
inductive Notify where
  | signal | none | threadId
deriving DecidableEq, Repr

def Notify.ofCode : ℕ → Option Notify
  | 0 => some .signal
  | 1 => some .none
  | 4 => some .threadId
  -- `SIGEV_THREAD` is the C library's
  | _ => Option.none

/-- what a timer is made with; its value is its id unless one is given -/
structure Spec where
  clock : ℕ
  notify : Notify
  signo : ℕ
  value : Option ℕ
  tid : ℕ
deriving DecidableEq, Repr

structure Timer extends Spec where
  interval : ℕ := 0
  next : Option ℕ := none
  /-- its signal is queued and not yet taken -/
  queued : Bool := false
  /-- expiries while its signal waited -/
  overrun : ℕ := 0
  lastOverrun : ℕ := 0
  armed : ℕ := 0
  /-- history: its expiries, and how many of them an `i32` had no room for -/
  expired : ℕ := 0
  clamped : ℕ := 0
deriving DecidableEq, Repr

/-- a timer's `SI_TIMER` information, the only kind that is ever queued -/
structure SigInfo where
  signo : ℕ
  timer : ℕ
  overrun : ℕ := 0
  value : ℕ
deriving DecidableEq, Repr

/-- an expiry to come -/
structure Due where
  at_ : ℕ
  id : ℕ
  armed : ℕ
deriving DecidableEq, Repr

/-- a `sigevent` as the guest gives it -/
structure Sigevent where
  value : ℕ
  signo : ℕ
  notify : ℕ
  tid : ℕ
deriving DecidableEq, Repr

inductive Pc where
  | guest
  /-- `timer_create`: about to put the timer in the table, and then to write its id -/
  | creates (spec : Spec)
  | writesId (id : ℕ)
  /-- `timer_settime`: about to set the timer, and then to write the old setting and put it on the schedule -/
  | sets (id interval : ℕ) (next : Option ℕ)
  | arms (id armed : ℕ) (next : Option ℕ)
  /-- a signal's bit is cleared: about to take its information off the queue, and then to tell the timer -/
  | takes (sig : ℕ)
  | dequeues (info : SigInfo)
deriving DecidableEq, Repr

structure Task where
  pending : ℕ → Bool := fun _ => false
  /-- the signal that it carries information for itself (a seccomp filter's) -/
  queuedInfo : Option ℕ := none
  pc : Pc := .guest

/-- where the timers' thread is -/
inductive Firing where
  | rests
  /-- has read the clock: about to decide the expiry -/
  | fires (due : Due) (now : ℕ)
  | pushes (tid : ℕ) (info : SigInfo)
  | posts (tid sig : ℕ)
deriving DecidableEq, Repr

/-- the loop over the periods that have passed: how many expiries, and when the next is. `fuel` is the time left to `now` -/
def passOver (interval now : ℕ) : (fuel n expiries : ℕ) → ℕ × ℕ
  | 0, n, expiries => (expiries, n)
  | fuel + 1, n, expiries =>
    if n ≤ now then passOver interval now fuel (n + interval) (saturatingAdd expiries 1) else (expiries, n)

/-- the expiries that `now` finds, and the next expiry -/
def Timer.elapsed (t : Timer) (next now : ℕ) : ℕ × Option ℕ :=
  if t.interval = 0 then (1, none)
  else
    let (expiries, n) := passOver t.interval now (now + 1) (next + t.interval) 1
    (expiries, some n)

/-- history: at how many moments up to `now` it expires -/
def Timer.passed (t : Timer) (next now : ℕ) : ℕ := if t.interval = 0 then 1 else (now - next) / t.interval + 1

/-- a timer whose signal waits counts the expiries as overruns, another one is marked as queued -/
def Timer.expire (t : Timer) (next now : ℕ) : Timer :=
  let expiries := (t.elapsed next now).1
  let passed := t.passed next now
  let t := { t with next := (t.elapsed next now).2, expired := t.expired + passed }
  if t.notify = .none then t
  else if t.queued then
    { t with overrun := saturatingAdd t.overrun expiries, clamped := t.clamped + (t.overrun + passed - i32Max) }
  else { t with queued := true, overrun := expiries - 1, clamped := t.clamped + (passed - i32Max) }

/-- queued for a signal of a task -/
def isFor (tid sig : ℕ) (p : ℕ × SigInfo) : Bool := p.1 = tid && p.2.signo = sig

/-! ## The machine -/

structure World where
  pid : ℕ
  clock : ℕ := 0
  timers : Map ℕ Timer := ∅
  nextId : ℕ := 0
  tasks : Map ℕ Task
  nextTid : ℕ
  /-- the schedule, and what of it the timers' thread has taken -/
  dues : List Due := []
  ready : List Due := []
  firing : Firing := .rests
  infos : List (ℕ × SigInfo) := []
  /-- history: the information of timers' signals taken, the last one first -/
  delivered : List SigInfo := []

/-- a process with its main task -/
def World.start (pid : ℕ) : World := { pid, tasks := (∅ : Map ℕ Task).insert pid {}, nextTid := pid + 1 }

inductive Act where
  | tick (n : ℕ)
  /-- a step of the timers' thread; `i` is which of the ready expiries it takes next -/
  | fires (i : ℕ)
  | create (tid clock : ℕ) (sevp : Option Sigevent)
  /-- `clockNow` is what the timer's own clock reads -/
  | settime (tid id : ℕ) (abstime : Bool) (interval value clockNow : ℕ)
  | delete (id : ℕ)
  /-- the task delivers a signal that is pending, or takes it with `rt_sigtimedwait` -/
  | deliver (tid sig : ℕ)
  | sigwait (tid sig : ℕ)
  /-- another signal, and one that a seccomp filter raises -/
  | kill (tid sig : ℕ)
  | trap (tid : ℕ)
  | spawn
  | exit (tid : ℕ)
  | exec
  /-- the next step of a task's call; whether its write to the guest's memory faults -/
  | move (tid : ℕ) (fault : Bool)
deriving DecidableEq, Repr

namespace World

def putTimer (w : World) (id : ℕ) (t : Timer) : World := { w with timers := w.timers.insert id t }

def putTask (w : World) (tid : ℕ) (task : Task) : World := { w with tasks := w.tasks.insert tid task }

def goTo (w : World) (tid : ℕ) (task : Task) (pc : Pc) : World := w.putTask tid { task with pc }

def setBit (w : World) (tid sig : ℕ) : World :=
  match w.tasks.lookup tid with
  | none => w
  | some task => w.putTask tid { task with pending := Function.update task.pending sig true }

def tids (w : World) : List ℕ := if w.tasks.keys = [] then [w.pid] else w.tasks.keys

/-- the timer that `timer_create` is asked for, if it may be had -/
def created (w : World) (clock : ℕ) (sevp : Option Sigevent) : Option Spec :=
  if clock ≤ 3 ∨ 7 ≤ clock ∧ clock ≤ 9 then
    match sevp with
    | none => some { clock, notify := .signal, signo := SIGALRM, value := none, tid := 0 }
    | some sev =>
      match Notify.ofCode sev.notify with
      | none => none
      | some notify =>
        if notify ≠ .none ∧ ¬(1 ≤ sev.signo ∧ sev.signo ≤ 64) then none
        else if notify = .threadId ∧ sev.tid ∉ w.tids then none
        else some { clock, notify, signo := sev.signo, value := some sev.value, tid := sev.tid }
  else none

/-- whom a timer's signal is for -/
def target (w : World) (t : Timer) : ℕ := if t.notify = .threadId then t.tid else w.pid

/-- the information of a timer's signal; its value is its id unless one was given -/
def infoOf (id : ℕ) (t : Timer) : SigInfo := { signo := t.signo, timer := id, value := t.value.getD id }

/-- a timer expires, if it is still the arming that was scheduled -/
def fire (w : World) (due : Due) (now : ℕ) : World :=
  match w.timers.lookup due.id with
  | none => { w with firing := .rests }
  | some t =>
    if t.armed ≠ due.armed then { w with firing := .rests }
    else
      match t.next with
      | none => { w with firing := .rests }
      | some next =>
        if now < next then { w with firing := .rests, dues := ⟨next, due.id, due.armed⟩ :: w.dues }
        else
          { w.putTimer due.id (t.expire next now) with
            dues := ((t.elapsed next now).2.map fun at_ => ⟨at_, due.id, due.armed⟩).toList ++ w.dues
            firing :=
              if t.notify = .none ∨ t.queued = true then .rests else .pushes (w.target t) (infoOf due.id t) }

/-- the next step of the timers' thread -/
def stepFiring (w : World) (i : ℕ) : World :=
  match w.firing with
  | .rests =>
    match w.ready with
    | [] => { w with dues := w.dues.filter fun d => w.clock < d.at_, ready := w.dues.filter fun d => d.at_ ≤ w.clock }
    | due :: _ =>
      let due := (w.ready[i]?).getD due
      { w with ready := w.ready.erase due, firing := .fires due w.clock }
  | .fires due now => w.fire due now
  | .pushes tid info => { w with infos := w.infos ++ [(tid, info)], firing := .posts tid info.signo }
  | .posts tid sig => { w.setBit tid sig with firing := .rests }

/-- the information queued for a signal of a task, if there is one, comes off the queue -/
def takeInfo (w : World) (tid : ℕ) (task : Task) (sig : ℕ) : World :=
  match w.infos.find? (isFor tid sig) with
  | none => w.goTo tid task .guest
  | some p => { w with infos := w.infos.eraseP (isFor tid sig) }.goTo tid task (.dequeues p.2)

/-- a timer's signal was taken: its information with the overrun counted meanwhile, the timer free to queue the next -/
def dequeued (w : World) (info : SigInfo) : World :=
  match w.timers.lookup info.timer with
  | none => { w with delivered := info :: w.delivered }
  | some t =>
    { w.putTimer info.timer { t with lastOverrun := t.overrun, overrun := 0, queued := false } with
      delivered := { info with overrun := t.overrun } :: w.delivered }

def move (w : World) (tid : ℕ) (fault : Bool) : World :=
  match w.tasks.lookup tid with
  | none => w
  | some task =>
    match task.pc with
    | .guest => w
    | .creates spec =>
      { w.putTimer w.nextId { spec with } with nextId := w.nextId + 1 }.goTo tid task (.writesId w.nextId)
    | .writesId id => (if fault then { w with timers := w.timers.erase id } else w).goTo tid task .guest
    | .sets id interval next =>
      match w.timers.lookup id with
      | none => w.goTo tid task .guest
      | some t =>
        (w.putTimer id { t with interval, next, armed := t.armed + 1 }).goTo tid task (.arms id (t.armed + 1) next)
    | .arms id armed next =>
      (if fault then w else { w with dues := (next.map fun at_ => ⟨at_, id, armed⟩).toList ++ w.dues }).goTo tid task .guest
    | .takes sig => w.takeInfo tid task sig
    | .dequeues info => (w.dequeued info).goTo tid task .guest

/-- a task in the guest does something -/
def inGuest (w : World) (tid : ℕ) (f : Task → World) : World :=
  match w.tasks.lookup tid with
  | none => w
  | some task => if task.pc = .guest then f task else w

def step (w : World) : Act → World
  | .tick n => { w with clock := w.clock + n }
  | .fires i => w.stepFiring i
  | .create tid clock sevp => w.inGuest tid fun task =>
    match w.created clock sevp with
    | none => w
    | some spec => w.goTo tid task (.creates spec)
  | .settime tid id abstime interval value clockNow => w.inGuest tid fun task =>
    match w.timers.lookup id with
    | none => w
    | some _ =>
      w.goTo tid task (.sets id interval
        (if value = 0 then none else some (w.clock + if abstime then value - clockNow else value)))
  | .delete id => { w with timers := w.timers.erase id }
  | .deliver tid sig => w.inGuest tid fun task =>
    if task.pending sig then
      w.putTask tid
        { pending := Function.update task.pending sig false
          queuedInfo := none
          pc := if task.queuedInfo = some sig then .guest else .takes sig }
    else w
  | .sigwait tid sig => w.inGuest tid fun task =>
    if task.pending sig then
      w.putTask tid { task with pending := Function.update task.pending sig false, pc := .takes sig }
    else w
  | .kill tid sig => w.setBit tid sig
  | .trap tid => w.inGuest tid fun task =>
    w.putTask tid
      { task with
        queuedInfo := some SIGSYS
        pending := Function.update task.pending SIGSYS true }
  | .spawn => { w.putTask w.nextTid {} with nextTid := w.nextTid + 1 }
  | .exit tid => w.inGuest tid fun _ => { w with tasks := w.tasks.erase tid }
  -- a new image, with no timers; the old one's expire on nothing
  | .exec => { World.start w.pid with clock := w.clock }
  | .move tid fault => w.move tid fault

/-- `timer_getoverrun` -/
def getoverrun (w : World) (id : ℕ) : Except Errno ℕ :=
  match w.timers.lookup id with
  | none => .error EINVAL
  | some t => .ok t.lastOverrun

/-- ids are an `i32`: fewer than 2^31 timers are made -/
def counted (w : World) : Act → Prop
  | .move tid _ =>
    match w.tasks.lookup tid with
    | some { pc := .creates _, .. } => w.nextId < i32Max
    | _ => True
  | _ => True

/-- a timer's information is queued for a task there is, and for whose signal no other is queued; the information of a signal
is not left behind, by its task's end or for a seccomp filter's; and a setting is not left off the schedule -/
def steady (w : World) (a : Act) : Prop :=
  w.counted a ∧
    match a with
    | .fires _ =>
      match w.firing with
      | .pushes tid info => (w.tasks.lookup tid).isSome ∧ ∀ p ∈ w.infos, isFor tid info.signo p = false
      | _ => True
    | .exit tid => ∀ p ∈ w.infos, p.1 ≠ tid
    | .deliver tid sig =>
      match w.tasks.lookup tid with
      | some task => task.pending sig = true → task.queuedInfo = some sig →
          ∀ p ∈ w.infos, isFor tid sig p = false
      | none => True
    | .move tid fault =>
      match w.tasks.lookup tid with
      | some { pc := .arms id armed _, .. } => fault = true → ∀ t ∈ w.timers.lookup id, t.armed = armed → t.next = none
      | _ => True
    | _ => True

end World

/-! ## Expiries -/

theorem passOver_eq {interval now : ℕ} (hpos : 0 < interval) : ∀ (fuel n expiries : ℕ), now < n + fuel → expiries ≤ i32Max →
    passOver interval now fuel n expiries =
      if n ≤ now then (min (expiries + ((now - n) / interval + 1)) i32Max, n + ((now - n) / interval + 1) * interval)
      else (expiries, n)
  | 0, n, expiries, hn, _ => by
    rw [if_neg (by omega)]
    rfl
  | fuel + 1, n, expiries, hn, he => by
    rw [passOver]
    split
    · rename_i hle
      have hsat : saturatingAdd expiries 1 ≤ i32Max := Nat.min_le_right ..
      rw [passOver_eq hpos fuel (n + interval) _ (by omega) hsat]
      split
      · rename_i hle'
        have hdiv : (now - n) / interval = (now - (n + interval)) / interval + 1 := by
          rw [Nat.div_eq_sub_div hpos (by omega), Nat.sub_add_eq]
        rw [hdiv]
        generalize (now - (n + interval)) / interval = late
        refine Prod.ext ?_ ?_
        · simp only [saturatingAdd]
          generalize i32Max = limit
          omega
        · ring
      · rename_i hgt
        have hdiv : (now - n) / interval = 0 := Nat.div_eq_of_lt (by omega)
        rw [hdiv]
        refine Prod.ext rfl ?_
        ring
    · rfl

/-- the loop counts the expiries there are, as far as an `i32` can -/
theorem elapsed_fst {t : Timer} {next now : ℕ} (h : next ≤ now) : (t.elapsed next now).1 = min (t.passed next now) i32Max := by
  unfold Timer.elapsed Timer.passed
  split
  · rfl
  · rename_i hne
    have hpos : 0 < t.interval := Nat.pos_of_ne_zero hne
    have hone : 1 ≤ i32Max := by decide
    change (passOver t.interval now (now + 1) (next + t.interval) 1).1 = _
    rw [passOver_eq hpos _ _ _ (by omega) hone]
    split
    · rename_i hle
      have hdiv : (now - next) / t.interval = (now - (next + t.interval)) / t.interval + 1 := by
        rw [Nat.div_eq_sub_div hpos (by omega), Nat.sub_add_eq]
      rw [hdiv, Nat.add_comm 1]
    · have hdiv : (now - next) / t.interval = 0 := Nat.div_eq_of_lt (by omega)
      rw [hdiv]
      rfl

/-- what its signal, while it waits, stands for -/
def Timer.owed (t : Timer) : ℕ := if t.queued then 1 + t.overrun else 0

theorem passed_pos (t : Timer) (next now : ℕ) : 0 < t.passed next now := by
  unfold Timer.passed
  split
  · exact Nat.one_pos
  · exact Nat.succ_pos _

/-- what an expiry does to the rest of the timer -/
theorem expire_frame (t : Timer) (next now : ℕ) :
    (t.expire next now).notify = t.notify ∧ (t.expire next now).expired = t.expired + t.passed next now ∧
      (t.expire next now).lastOverrun = t.lastOverrun ∧ (t.expire next now).armed = t.armed ∧
      (t.expire next now).next = (t.elapsed next now).2 := by
  unfold Timer.expire
  simp only
  split
  · exact ⟨rfl, rfl, rfl, rfl, rfl⟩
  · split
    · exact ⟨rfl, rfl, rfl, rfl, rfl⟩
    · exact ⟨rfl, rfl, rfl, rfl, rfl⟩

theorem expire_owed {t : Timer} {next now : ℕ} (h : next ≤ now) (hn : t.notify ≠ .none) :
    (t.expire next now).owed + (t.expire next now).clamped = t.owed + t.clamped + t.passed next now := by
  have he := elapsed_fst (t := t) h
  have hp := passed_pos t next now
  have hone : 1 ≤ i32Max := by decide
  unfold Timer.expire Timer.owed
  simp only [hn, if_false]
  by_cases hq : t.queued = true
  · simp only [hq, if_true, he, saturatingAdd]
    omega
  · simp only [hq, if_false, if_true, he, Bool.false_eq_true]
    omega

/-! ## What every run keeps -/

def Pc.carries (id : ℕ) : Pc → ℕ
  | .dequeues info => if info.timer = id then 1 else 0
  | _ => 0

def Firing.carries (id : ℕ) : Firing → ℕ
  | .pushes _ info => if info.timer = id then 1 else 0
  | _ => 0

/-- how many pieces of a timer's signal information are on their way: in the hands of the timers' thread, queued, or taken off
the queue and not yet told of -/
def carriers (w : World) (id : ℕ) : ℕ :=
  w.firing.carries id + w.infos.countP (·.2.timer = id) + Map.weigh (fun _ task => task.pc.carries id) w.tasks

/-- what the timer's signals taken so far stand for: themselves and the overruns reported with them -/
def taken (w : World) (id : ℕ) : ℕ := ((w.delivered.filter (·.timer = id)).map fun i => 1 + i.overrun).sum

/-- the overrun that the timer's signal last taken reported -/
def lastReported (w : World) (id : ℕ) : ℕ := ((w.delivered.find? (·.timer = id)).map (·.overrun)).getD 0

/-- the timer's expiries are what its signals taken stand for, what the one that waits does, and what was clamped, which is
nothing before an `i32` is full -/
structure Balanced (taken : ℕ) (t : Timer) : Prop where
  sum : t.expired = taken + t.owed + t.clamped
  clamps : t.expired ≤ i32Max → t.clamped = 0

structure Sound (w : World) : Prop where
  fresh : ∀ id, w.nextId ≤ id → w.timers.lookup id = none ∧ carriers w id = 0 ∧ ∀ i ∈ w.delivered, i.timer ≠ id
  tids : ∀ tid, w.nextTid ≤ tid → w.tasks.lookup tid = none
  stray : ∀ id, carriers w id ≤ 1
  mark : ∀ id t, w.timers.lookup id = some t → carriers w id = if t.queued then 1 else 0
  account : ∀ id t, w.timers.lookup id = some t → t.notify ≠ .none → Balanced (taken w id) t
  report : ∀ id t, w.timers.lookup id = some t → t.lastOverrun = lastReported w id

theorem Balanced.expire {taken : ℕ} {t : Timer} {next now : ℕ} (h : Balanced taken t) (hle : next ≤ now)
    (hn : t.notify ≠ .none) : Balanced taken (t.expire next now) := by
  obtain ⟨-, hexp, -⟩ := expire_frame t next now
  have ho := expire_owed hle hn
  have hsum := h.sum
  constructor
  · rw [hexp]
    omega
  · intro hfits
    rw [hexp] at hfits
    have hold := h.clamps (by omega)
    -- nothing is beyond what an `i32` holds
    have howed : t.queued = true → t.owed = 1 + t.overrun := fun hq => if_pos hq
    unfold Timer.expire
    simp only [hn, if_false]
    split
    · rename_i hq
      have := howed hq
      change t.clamped + (t.overrun + t.passed next now - i32Max) = 0
      omega
    · change t.clamped + (t.passed next now - i32Max) = 0
      omega

section Moves

variable {w w' : World} {tid id : ℕ} {task task' : Task} {t t' : Timer}

/-- a task's step that leaves the timers as they are, and takes nothing of theirs -/
theorem Sound.congr (h : Sound w) (ht : w'.timers = w.timers) (hid : w'.nextId = w.nextId)
    (hd : w'.delivered = w.delivered) (hc : ∀ id, carriers w' id = carriers w id)
    (htids : ∀ tid, w'.nextTid ≤ tid → w'.tasks.lookup tid = none) : Sound w' := by
  have htaken : ∀ id, taken w' id = taken w id := by
    intro id
    rw [taken, hd, taken]
  have hlast : ∀ id, lastReported w' id = lastReported w id := by
    intro id
    rw [lastReported, hd, lastReported]
  constructor
  case fresh =>
    intro id hle
    rw [ht, hc, hd]
    exact h.fresh id (hid ▸ hle)
  case tids => exact htids
  case stray =>
    intro id
    rw [hc]
    exact h.stray id
  case mark =>
    intro id t hl
    rw [hc]
    exact h.mark id t (ht ▸ hl)
  case account =>
    intro id t hl hn
    rw [htaken]
    exact h.account id t (ht ▸ hl) hn
  case report =>
    intro id t hl
    rw [hlast]
    exact h.report id t (ht ▸ hl)

theorem carriers_putTask (hl : w.tasks.lookup tid = some task) (task' : Task) (id : ℕ) :
    carriers (w.putTask tid task') id + task.pc.carries id = carriers w id + task'.pc.carries id := by
  have hw := Map.weigh_insert (fun _ (task : Task) => task.pc.carries id) w.tasks tid task'
  rw [Map.weighAt_some hl] at hw
  simp only [carriers, World.putTask]
  omega

theorem tids_putTask (h : Sound w) (hl : w.tasks.lookup tid = some task) (u : ℕ) (hu : w.nextTid ≤ u) :
    (w.putTask tid task').tasks.lookup u = none := by
  have hne : u ≠ tid := by
    rintro rfl
    rw [h.tids u hu] at hl
    cases hl
  rw [World.putTask, Map.lookup_insert_eq, if_neg hne]
  exact h.tids u hu

/-- a task's step from a place that carries nothing to another such -/
theorem Sound.putTask (h : Sound w) (hl : w.tasks.lookup tid = some task) (hold : ∀ id, task.pc.carries id = 0)
    (hnew : ∀ id, task'.pc.carries id = 0) : Sound (w.putTask tid task') := by
  refine h.congr rfl rfl rfl ?_ (tids_putTask h hl)
  intro id
  have hc := carriers_putTask hl task' id
  rw [hold, hnew] at hc
  exact hc

theorem Sound.goTo {pc : Pc} (h : Sound w) (hl : w.tasks.lookup tid = some task) (hold : ∀ id, task.pc.carries id = 0)
    (hnew : ∀ id, pc.carries id = 0) : Sound (w.goTo tid task pc) := h.putTask hl hold hnew

theorem Sound.setBit (h : Sound w) (tid sig : ℕ) : Sound (w.setBit tid sig) := by
  unfold World.setBit
  cases hl : w.tasks.lookup tid with
  | none => exact h
  | some task =>
    refine h.congr rfl rfl rfl ?_ (tids_putTask h hl)
    intro id
    exact Nat.add_right_cancel (carriers_putTask hl _ id)

/-- one timer changes, and with it what is on its way and what was taken -/
theorem Sound.update (h : Sound w) (hl : w.timers.lookup id = some t) (ht : w'.timers = w.timers.insert id t')
    (hid : w'.nextId = w.nextId) (hc : ∀ id', id' ≠ id → carriers w' id' = carriers w id')
    (hd : ∀ i ∈ w'.delivered, i ∈ w.delivered ∨ i.timer = id)
    (ho : ∀ id', id' ≠ id → taken w' id' = taken w id' ∧ lastReported w' id' = lastReported w id')
    (hmark : carriers w' id = if t'.queued then 1 else 0)
    (haccount : t'.notify ≠ .none → Balanced (taken w' id) t')
    (hreport : t'.lastOverrun = lastReported w' id) (htids : ∀ tid, w'.nextTid ≤ tid → w'.tasks.lookup tid = none) :
    Sound w' := by
  have hlook : ∀ id' t₁, w'.timers.lookup id' = some t₁ →
      id' = id ∧ t₁ = t' ∨ id' ≠ id ∧ w.timers.lookup id' = some t₁ := by
    intro id' t₁ h₁
    rw [ht, Map.lookup_insert_eq] at h₁
    split at h₁
    · rename_i heq
      cases h₁
      exact .inl ⟨heq, rfl⟩
    · rename_i hne
      exact .inr ⟨hne, h₁⟩
  constructor
  case fresh =>
    intro id' hle
    rw [hid] at hle
    have hne : id' ≠ id := by
      rintro rfl
      rw [(h.fresh id' hle).1] at hl
      cases hl
    obtain ⟨hnone, hzero, hdel⟩ := h.fresh id' hle
    refine ⟨?_, (hc id' hne).trans hzero, ?_⟩
    · rw [ht, Map.lookup_insert_eq, if_neg hne]
      exact hnone
    · intro i hi
      rcases hd i hi with hi | hi
      · exact hdel i hi
      · rw [hi]
        exact hne.symm
  case tids => exact htids
  case stray =>
    intro id'
    rcases eq_or_ne id' id with rfl | hne
    · rw [hmark]
      split <;> decide
    · rw [hc id' hne]
      exact h.stray id'
  case mark =>
    intro id' t₁ h₁
    rcases hlook id' t₁ h₁ with ⟨rfl, rfl⟩ | ⟨hne, h₀⟩
    · exact hmark
    · rw [hc id' hne]
      exact h.mark id' t₁ h₀
  case account =>
    intro id' t₁ h₁ hn
    rcases hlook id' t₁ h₁ with ⟨rfl, rfl⟩ | ⟨hne, h₀⟩
    · exact haccount hn
    · rw [(ho id' hne).1]
      exact h.account id' t₁ h₀ hn
  case report =>
    intro id' t₁ h₁
    rcases hlook id' t₁ h₁ with ⟨rfl, rfl⟩ | ⟨hne, h₀⟩
    · exact hreport
    · rw [(ho id' hne).2]
      exact h.report id' t₁ h₀

/-- a timer set anew: its mark and its account are as they were -/
theorem Sound.set (h : Sound w) (hl : w.timers.lookup id = some t) (interval : ℕ) (next : Option ℕ) (armed : ℕ) :
    Sound (w.putTimer id { t with interval, next, armed }) :=
  h.update hl rfl rfl (fun _ _ => rfl) (fun _ hi => .inl hi) (fun _ _ => ⟨rfl, rfl⟩) (h.mark id t hl)
    (fun hn => ⟨(h.account id t hl hn).sum, (h.account id t hl hn).clamps⟩) (h.report id t hl) h.tids

theorem Sound.fire (h : Sound w) {due : Due} {now : ℕ} (hf : w.firing = .fires due now) : Sound (w.fire due now) := by
  have hzero : ∀ id, w.firing.carries id = 0 := by
    intro id
    rw [hf]
    rfl
  have hrest : ∀ dues, Sound { w with firing := .rests, dues := dues } := by
    intro dues
    refine h.congr rfl rfl rfl ?_ h.tids
    intro id
    change Firing.carries id .rests + _ + _ = w.firing.carries id + _ + _
    rw [hzero]
    rfl
  unfold World.fire
  cases hl : w.timers.lookup due.id with
  | none => exact hrest w.dues
  | some t =>
    simp only
    split
    · exact hrest w.dues
    · cases hnext : t.next with
      | none => exact hrest w.dues
      | some next =>
        simp only
        split
        · exact hrest _
        · rename_i hle
          have hle : next ≤ now := by omega
          have hcarry : ∀ id, carriers w id =
              w.infos.countP (·.2.timer = id) + Map.weigh (fun _ task => task.pc.carries id) w.tasks := by
            intro id
            simp only [carriers, hzero, zero_add]
          have hm := h.mark due.id t hl
          refine h.update hl rfl rfl ?_ (fun _ hi => .inl hi) (fun _ _ => ⟨rfl, rfl⟩) ?_ ?_ ?_ h.tids
          · intro id' hne
            rw [hcarry]
            split
            · simp only [carriers, Firing.carries, World.putTimer, zero_add]
            · have hother : Firing.carries id' (.pushes (w.target t) (World.infoOf due.id t)) = 0 := if_neg hne.symm
              simp only [carriers, hother, World.putTimer, zero_add]
          · rw [hcarry] at hm
            simp only [carriers, World.putTimer, Timer.expire]
            by_cases hn : t.notify = .none
            · simp only [hn, true_or, if_true, Firing.carries, zero_add]
              exact hm
            · by_cases hq : t.queued = true
              · simp only [hn, hq, false_or, if_true, if_false, Firing.carries, zero_add]
                rw [hm, hq]
                rfl
              · have hone : Firing.carries due.id (.pushes (w.target t) (World.infoOf due.id t)) = 1 := if_pos rfl
                simp only [hq, if_false, Bool.false_eq_true] at hm
                simp only [hn, hq, false_or, if_true, if_false, hone, Bool.false_eq_true]
                omega
          · intro hn
            have hn : t.notify ≠ .none := (expire_frame t next now).1 ▸ hn
            exact (h.account due.id t hl hn).expire hle hn
          · rw [(expire_frame t next now).2.2.1]
            exact h.report due.id t hl

theorem Sound.erase (h : Sound w) (id : ℕ) : Sound { w with timers := w.timers.erase id } := by
  have hlook : ∀ id' t₁, (w.timers.erase id).lookup id' = some t₁ → w.timers.lookup id' = some t₁ := by
    intro id' t₁ h₁
    rw [Map.lookup_erase_eq] at h₁
    split at h₁
    · cases h₁
    · exact h₁
  constructor
  case fresh =>
    intro id' hle
    refine ⟨?_, (h.fresh id' hle).2⟩
    change (w.timers.erase id).lookup id' = none
    rw [Map.lookup_erase_eq]
    split
    · rfl
    · exact (h.fresh id' hle).1
  case tids => exact h.tids
  case stray => exact h.stray
  case mark => exact fun id' t₁ h₁ => h.mark id' t₁ (hlook id' t₁ h₁)
  case account => exact fun id' t₁ h₁ => h.account id' t₁ (hlook id' t₁ h₁)
  case report => exact fun id' t₁ h₁ => h.report id' t₁ (hlook id' t₁ h₁)

/-- `create`'s new timer -/
theorem Sound.insert (h : Sound w) (spec : Spec) :
    Sound { w.putTimer w.nextId { spec with } with nextId := w.nextId + 1 } := by
  obtain ⟨-, hzero, hdel⟩ := h.fresh w.nextId le_rfl
  have hlook : ∀ id t, (w.timers.insert w.nextId { spec with }).lookup id = some t →
      id = w.nextId ∧ t = { spec with } ∨ w.timers.lookup id = some t := by
    intro id t hl
    rw [Map.lookup_insert_eq] at hl
    split at hl
    · rename_i heq
      cases hl
      exact .inl ⟨heq, rfl⟩
    · exact .inr hl
  constructor
  case fresh =>
    intro id hle
    have hlt : w.nextId + 1 ≤ id := hle
    refine ⟨?_, (h.fresh id (by omega)).2⟩
    change (w.timers.insert w.nextId _).lookup id = none
    rw [Map.lookup_insert_eq, if_neg (by omega)]
    exact (h.fresh id (by omega)).1
  case tids => exact h.tids
  case stray => exact h.stray
  case mark =>
    intro id t hl
    rcases hlook id t hl with ⟨rfl, rfl⟩ | hl
    · exact hzero
    · exact h.mark id t hl
  case account =>
    intro id t hl hn
    rcases hlook id t hl with ⟨rfl, rfl⟩ | hl
    · have hnone : w.delivered.filter (·.timer = w.nextId) = [] := by
        rw [List.filter_eq_nil_iff]
        intro i hi
        simpa using hdel i hi
      refine ⟨?_, fun _ => rfl⟩
      change 0 = ((w.delivered.filter _).map _).sum + 0 + 0
      rw [hnone]
      rfl
    · exact h.account id t hl hn
  case report =>
    intro id t hl
    rcases hlook id t hl with ⟨rfl, rfl⟩ | hl
    · have hnone : w.delivered.find? (·.timer = w.nextId) = none := by
        rw [List.find?_eq_none]
        intro i hi
        simpa using hdel i hi
      change 0 = ((w.delivered.find? _).map _).getD 0
      rw [hnone]
      rfl
    · exact h.report id t hl

theorem Sound.stepFiring (h : Sound w) (i : ℕ) : Sound (w.stepFiring i) := by
  unfold World.stepFiring
  cases hf : w.firing with
  | rests =>
    cases hr : w.ready with
    | nil => exact h.congr rfl rfl rfl (fun id => by simp only [carriers, hf]) h.tids
    | cons due ready =>
      refine h.congr rfl rfl rfl ?_ h.tids
      intro id
      simp only [carriers, hf, Firing.carries]
  | fires due now => exact h.fire hf
  | pushes tid info =>
    refine h.congr rfl rfl rfl ?_ h.tids
    intro id
    simp only [carriers, hf, Firing.carries, List.countP_append, List.countP_singleton, decide_eq_true_eq]
    omega
  | posts tid sig =>
    have h₁ := h.setBit tid sig
    have hf₁ : (w.setBit tid sig).firing = .posts tid sig := by
      unfold World.setBit
      split <;> exact hf
    exact h₁.congr rfl rfl rfl (fun id => by simp only [carriers, hf₁, Firing.carries]) h₁.tids

theorem find_eraseP {α : Type} {q : α → Bool} {l : List α} {a : α} (h : l.find? q = some a) :
    ∃ l₁ l₂, l = l₁ ++ a :: l₂ ∧ l.eraseP q = l₁ ++ l₂ ∧ q a = true ∧ ∀ b ∈ l₁, q b = false := by
  obtain ⟨ha, l₁, l₂, rfl, hno⟩ := List.find?_eq_some_iff_append.mp h
  have hno : ∀ b ∈ l₁, q b = false := fun b hb => by simpa using hno b hb
  refine ⟨l₁, l₂, rfl, ?_, ha, hno⟩
  rw [List.eraseP_append_right _ fun b hb => by simp [hno b hb], List.eraseP_cons_of_pos ha]

theorem Sound.takeInfo {sig : ℕ} (h : Sound w) (hl : w.tasks.lookup tid = some task) (hpc : task.pc = .takes sig) :
    Sound (w.takeInfo tid task sig) := by
  have hold : ∀ id, task.pc.carries id = 0 := fun id => by rw [hpc]; rfl
  unfold World.takeInfo
  cases hfind : w.infos.find? (isFor tid sig) with
  | none => exact h.goTo hl hold fun _ => rfl
  | some p =>
    obtain ⟨l₁, l₂, hinfos, herase, -⟩ := find_eraseP hfind
    refine h.congr rfl rfl rfl ?_ (tids_putTask h hl)
    intro id
    -- the piece is the task's now
    have hput := carriers_putTask (w := { w with infos := w.infos.eraseP (isFor tid sig) }) hl
      { task with pc := .dequeues p.2 } id
    rw [hold] at hput
    have hcount : w.infos.countP (·.2.timer = id) =
        (w.infos.eraseP (isFor tid sig)).countP (·.2.timer = id) + if p.2.timer = id then 1 else 0 := by
      rw [herase, hinfos]
      simp only [List.countP_append, List.countP_cons, decide_eq_true_eq]
      omega
    have hcarry : Pc.carries id (.dequeues p.2) = if p.2.timer = id then 1 else 0 := rfl
    refine hput.trans ?_
    simp only [carriers, hcarry]
    omega

theorem Sound.dequeue {info : SigInfo} (h : Sound w) (hl : w.tasks.lookup tid = some task) (hpc : task.pc = .dequeues info) :
    Sound ((w.dequeued info).goTo tid task .guest) := by
  have hone : task.pc.carries info.timer = 1 := by
    rw [hpc]
    exact if_pos rfl
  have hother : ∀ id, id ≠ info.timer → task.pc.carries id = 0 := by
    intro id hne
    rw [hpc]
    exact if_neg hne.symm
  have hput : ∀ id, carriers (w.goTo tid task .guest) id + task.pc.carries id = carriers w id :=
    fun id => carriers_putTask hl _ id
  have hpos : 1 ≤ carriers w info.timer := by
    have := hput info.timer
    omega
  have hborn : info.timer < w.nextId := by
    by_contra hge
    have := (h.fresh info.timer (by omega)).2.1
    omega
  unfold World.dequeued
  cases ht : w.timers.lookup info.timer with
  | none =>
    have hsame : ∀ id t, w.timers.lookup id = some t → info.timer ≠ id := by
      rintro id t hid rfl
      rw [ht] at hid
      cases hid
    have hc : ∀ id, carriers (w.goTo tid task .guest) id ≤ carriers w id := fun id => (hput id).le.trans' (Nat.le_add_right _ _)
    constructor
    case fresh =>
      intro id hle
      obtain ⟨hnone, hzero, hdel⟩ := h.fresh id hle
      refine ⟨hnone, Nat.le_zero.mp (hzero ▸ hc id), ?_⟩
      intro i hi
      rcases List.mem_cons.mp hi with rfl | hi
      · change w.nextId ≤ id at hle
        omega
      · exact hdel i hi
    case tids => exact tids_putTask h hl
    case stray => exact fun id => (hc id).trans (h.stray id)
    case mark =>
      intro id t hid
      have := hput id
      rw [hother id (hsame id t hid).symm] at this
      exact this.trans (h.mark id t hid)
    case account =>
      intro id t hid hn
      have hfilter : taken ({ w with delivered := info :: w.delivered }.goTo tid task .guest) id = taken w id := by
        change (((info :: w.delivered).filter _).map _).sum = _
        rw [List.filter_cons_of_neg (by simpa using hsame id t hid)]
        rfl
      rw [hfilter]
      exact h.account id t hid hn
    case report =>
      intro id t hid
      have hfind : lastReported ({ w with delivered := info :: w.delivered }.goTo tid task .guest) id = lastReported w id := by
        change (((info :: w.delivered).find? _).map _).getD 0 = _
        rw [List.find?_cons_of_neg (by simpa using hsame id t hid)]
        rfl
      rw [hfind]
      exact h.report id t hid
  | some t =>
    have hq : t.queued = true := by
      have hm := h.mark info.timer t ht
      by_contra hno
      rw [if_neg hno] at hm
      omega
    have howed : t.owed = 1 + t.overrun := if_pos hq
    have hdel : ∀ id, id ≠ info.timer → ({ info with overrun := t.overrun } : SigInfo).timer ≠ id := fun id hne => hne.symm
    refine h.update ht rfl rfl ?_ ?_ ?_ ?_ ?_ ?_ (tids_putTask h hl)
    · intro id hne
      have := hput id
      rw [hother id hne] at this
      exact this
    · intro i hi
      rcases List.mem_cons.mp hi with rfl | hi
      · exact .inr rfl
      · exact .inl hi
    · intro id hne
      constructor
      · change (((_ :: w.delivered).filter _).map _).sum = _
        rw [List.filter_cons_of_neg (by simpa using hne.symm)]
        rfl
      · change (((_ :: w.delivered).find? _).map _).getD 0 = _
        rw [List.find?_cons_of_neg (by simpa using hne.symm)]
        rfl
    · have hm := h.mark info.timer t ht
      have := hput info.timer
      rw [if_pos hq] at hm
      change carriers (w.goTo tid task .guest) info.timer = 0
      omega
    · intro hn
      have ha := h.account info.timer t ht hn
      refine ⟨?_, ha.clamps⟩
      change t.expired = (((_ :: w.delivered).filter _).map _).sum + 0 + t.clamped
      rw [List.filter_cons_of_pos (by simp), List.map_cons, List.sum_cons]
      change t.expired = 1 + t.overrun + taken w info.timer + 0 + t.clamped
      have hsum := ha.sum
      omega
    · change t.overrun = (((_ :: w.delivered).find? _).map _).getD 0
      rw [List.find?_cons_of_pos (by simp)]
      rfl

theorem Sound.move (h : Sound w) (tid : ℕ) (fault : Bool) : Sound (w.move tid fault) := by
  unfold World.move
  cases hl : w.tasks.lookup tid with
  | none => exact h
  | some task =>
    simp only
    cases hpc : task.pc with
    | guest => exact h
    | creates spec =>
      have h₁ := h.insert spec
      exact h₁.goTo hl (fun _ => by rw [hpc]; rfl) fun _ => rfl
    | writesId id =>
      simp only
      split
      · exact (h.erase id).goTo hl (fun _ => by rw [hpc]; rfl) fun _ => rfl
      · exact h.goTo hl (fun _ => by rw [hpc]; rfl) fun _ => rfl
    | sets id interval next =>
      simp only
      split
      · exact h.goTo hl (fun _ => by rw [hpc]; rfl) fun _ => rfl
      · rename_i t ht
        have h₁ := h.set ht interval next (t.armed + 1)
        exact h₁.goTo hl (fun _ => by rw [hpc]; rfl) fun _ => rfl
    | arms id armed next =>
      simp only
      split
      · exact h.goTo hl (fun _ => by rw [hpc]; rfl) fun _ => rfl
      · have h₁ : Sound { w with dues := (next.map fun at_ => ⟨at_, id, armed⟩).toList ++ w.dues } :=
          h.congr rfl rfl rfl (fun _ => rfl) h.tids
        exact h₁.goTo hl (fun _ => by rw [hpc]; rfl) fun _ => rfl
    | takes sig => exact h.takeInfo hl hpc
    | dequeues info => exact h.dequeue hl hpc

/-- a task in the guest, which carries nothing, does something -/
theorem Sound.inGuest {f : Task → World} (h : Sound w)
    (hf : ∀ task, w.tasks.lookup tid = some task → task.pc = .guest → (∀ id, task.pc.carries id = 0) → Sound (f task)) :
    Sound (w.inGuest tid f) := by
  unfold World.inGuest
  cases hl : w.tasks.lookup tid with
  | none => exact h
  | some task =>
    simp only
    split
    · rename_i hpc
      exact hf task hl hpc fun _ => by rw [hpc]; rfl
    · exact h

theorem sound_start (pid : ℕ) : Sound (World.start pid) := by
  have hlook : ∀ tid task, (World.start pid).tasks.lookup tid = some task → tid = pid ∧ task.pc = .guest := by
    intro tid task hl
    rw [World.start, Map.lookup_insert_eq] at hl
    split at hl
    · rename_i heq
      cases hl
      exact ⟨heq, rfl⟩
    · cases hl
  have hzero : ∀ id, carriers (World.start pid) id = 0 := by
    intro id
    have hw : Map.weigh (fun _ (task : Task) => task.pc.carries id) (World.start pid).tasks = 0 := by
      refine Map.weigh_eq_zero fun tid task hl => ?_
      rw [(hlook tid task hl).2]
      rfl
    rw [carriers, hw]
    rfl
  constructor
  case fresh => exact fun id _ => ⟨rfl, hzero id, nofun⟩
  case tids =>
    intro tid hle
    have hlt : pid + 1 ≤ tid := hle
    rw [World.start, Map.lookup_insert_eq, if_neg (by omega)]
    rfl
  case stray => exact fun id => (hzero id).trans_le (Nat.zero_le 1)
  case mark => exact nofun
  case account => exact nofun
  case report => exact nofun

theorem step_sound (h : Sound w) (a : Act) : Sound (w.step a) := by
  cases a with
  | tick n => exact h.congr rfl rfl rfl (fun _ => rfl) h.tids
  | fires i => exact h.stepFiring i
  | create tid clock sevp =>
    refine h.inGuest fun task hl hpc hold => ?_
    split
    · exact h
    · exact h.goTo hl hold fun _ => rfl
  | settime tid id abstime interval value clockNow =>
    refine h.inGuest fun task hl hpc hold => ?_
    split
    · exact h
    · exact h.goTo hl hold fun _ => rfl
  | delete id => exact h.erase id
  | deliver tid sig =>
    refine h.inGuest fun task hl hpc hold => ?_
    split
    · refine h.putTask hl hold fun _ => ?_
      simp only
      split <;> rfl
    · exact h
  | sigwait tid sig =>
    refine h.inGuest fun task hl hpc hold => ?_
    split
    · exact h.putTask hl hold fun _ => rfl
    · exact h
  | kill tid sig => exact h.setBit tid sig
  | trap tid => exact h.inGuest fun task hl hpc hold => h.putTask hl hold hold
  | spawn =>
    have hnone := h.tids w.nextTid le_rfl
    have hc : ∀ id, carriers (w.putTask w.nextTid {}) id = carriers w id := by
      intro id
      have hw := Map.weigh_insert (fun _ (task : Task) => task.pc.carries id) w.tasks w.nextTid {}
      rw [Map.weighAt_none hnone] at hw
      have hz : ({} : Task).pc.carries id = 0 := rfl
      simp only [carriers, World.putTask]
      omega
    refine h.congr rfl rfl rfl hc ?_
    intro tid hle
    have hlt : w.nextTid + 1 ≤ tid := hle
    change (w.tasks.insert w.nextTid {}).lookup tid = none
    rw [Map.lookup_insert_eq, if_neg (by omega)]
    exact h.tids tid (by omega)
  | exit tid =>
    refine h.inGuest fun task hl hpc hold => ?_
    refine h.congr rfl rfl rfl ?_ ?_
    · intro id
      have hw := Map.weigh_erase (fun _ (task : Task) => task.pc.carries id) w.tasks tid
      rw [Map.weighAt_some hl, hold] at hw
      simp only [carriers]
      omega
    · intro u hle
      change (w.tasks.erase tid).lookup u = none
      rw [Map.lookup_erase_eq]
      split
      · rfl
      · exact h.tids u hle
  | exec =>
    have h₁ := sound_start w.pid
    exact h₁.congr rfl rfl rfl (fun _ => rfl) h₁.tids
  | move tid fault => exact h.move tid fault

end Moves

/-! ## What is queued is pending, and what is armed is scheduled -/

/-- the information is queued for a task there is, whose bit is set or about to be, or which is about to take it -/
def Awaited (w : World) (p : ℕ × SigInfo) : Prop :=
  ∃ task, w.tasks.lookup p.1 = some task ∧
    (task.pending p.2.signo = true ∨ w.firing = .posts p.1 p.2.signo ∨ task.pc = .takes p.2.signo)

/-- on the schedule, or in the hands of the timers' thread -/
def Comes (w : World) (d : Due) : Prop := d ∈ w.dues ++ w.ready ∨ ∃ now, w.firing = .fires d now

/-- an expiry of the arming is to come, or a task is about to put it on the schedule -/
def Scheduled (w : World) (id armed : ℕ) : Prop :=
  (∃ d, Comes w d ∧ d.id = id ∧ d.armed = armed) ∨
    ∃ tid task at_, w.tasks.lookup tid = some task ∧ task.pc = .arms id armed (some at_)

structure Traced (w : World) : Prop where
  pending : ∀ p ∈ w.infos, Awaited w p
  single : w.infos.Pairwise fun p q => isFor p.1 p.2.signo q = false
  due : ∀ id t at_, w.timers.lookup id = some t → t.next = some at_ → Scheduled w id t.armed

section Moves

variable {w w' : World} {tid id armed : ℕ} {task task' : Task} {t t' : Timer} {p : ℕ × SigInfo}

theorem isFor_iff {tid sig : ℕ} : isFor tid sig p = true ↔ p.1 = tid ∧ p.2.signo = sig := by
  simp [isFor]

theorem Awaited.putTask (ha : Awaited w p) (hl : w.tasks.lookup tid = some task)
    (hkeep : p.1 = tid → task.pending p.2.signo = true ∨ task.pc = .takes p.2.signo →
      task'.pending p.2.signo = true ∨ task'.pc = .takes p.2.signo) : Awaited (w.putTask tid task') p := by
  obtain ⟨task₁, hl₁, hw⟩ := ha
  unfold Awaited
  rw [World.putTask, Map.lookup_insert_eq]
  by_cases hp : p.1 = tid
  · rw [hp, hl] at hl₁
    cases hl₁
    rw [if_pos hp]
    refine ⟨task', rfl, ?_⟩
    rcases hw with hw | hw | hw
    · rcases hkeep hp (.inl hw) with hk | hk
      · exact .inl hk
      · exact .inr (.inr hk)
    · exact .inr (.inl hw)
    · rcases hkeep hp (.inr hw) with hk | hk
      · exact .inl hk
      · exact .inr (.inr hk)
  · rw [if_neg hp]
    exact ⟨task₁, hl₁, hw⟩

theorem Scheduled.putTask (hs : Scheduled w id armed) (hl : w.tasks.lookup tid = some task)
    (hpc : ∀ at_, task.pc ≠ .arms id armed (some at_)) : Scheduled (w.putTask tid task') id armed := by
  rcases hs with hs | ⟨u, task₁, at_, hu, hpc₁⟩
  · exact .inl hs
  · refine .inr ⟨u, task₁, at_, ?_, hpc₁⟩
    have hne : u ≠ tid := by
      rintro rfl
      rw [hl] at hu
      cases hu
      exact hpc at_ hpc₁
    rw [World.putTask, Map.lookup_insert_eq, if_neg hne]
    exact hu

theorem Traced.putTask (h : Traced w) (hl : w.tasks.lookup tid = some task)
    (hkeep : ∀ p ∈ w.infos, p.1 = tid → task.pending p.2.signo = true ∨ task.pc = .takes p.2.signo →
      task'.pending p.2.signo = true ∨ task'.pc = .takes p.2.signo)
    (hpc : ∀ id armed at_, task.pc ≠ .arms id armed (some at_)) : Traced (w.putTask tid task') where
  pending p hp := (h.pending p hp).putTask hl (hkeep p hp)
  single := h.single
  due id t at_ ht hn := (h.due id t at_ ht hn).putTask hl (hpc id t.armed)

/-- a task moves on that is not about to take information, nor to put an arming on the schedule -/
theorem Traced.goTo {pc : Pc} (h : Traced w) (hl : w.tasks.lookup tid = some task) (htakes : ∀ sig, task.pc ≠ .takes sig)
    (hpc : ∀ id armed at_, task.pc ≠ .arms id armed (some at_)) : Traced (w.goTo tid task pc) := by
  refine h.putTask hl ?_ hpc
  rintro p - - (hb | ht)
  · exact .inl hb
  · exact absurd ht (htakes _)

theorem Traced.setBit (h : Traced w) (tid sig : ℕ) : Traced (w.setBit tid sig) := by
  unfold World.setBit
  cases hl : w.tasks.lookup tid with
  | none => exact h
  | some task =>
    constructor
    case pending =>
      intro p hp
      refine (h.pending p hp).putTask hl ?_
      rintro - (hb | ht)
      · left
        change Function.update task.pending sig true p.2.signo = true
        rw [Function.update_apply]
        split
        · rfl
        · exact hb
      · exact .inr ht
    case single => exact h.single
    case due =>
      intro id t at_ ht hn
      rcases h.due id t at_ ht hn with hs | ⟨u, task₁, at₁, hu, hpc₁⟩
      · exact .inl hs
      · right
        by_cases hut : u = tid
        · subst hut
          rw [hl] at hu
          cases hu
          exact ⟨u, _, at₁, AList.lookup_insert _, hpc₁⟩
        · exact ⟨u, task₁, at₁, (AList.lookup_insert_ne hut).trans hu, hpc₁⟩

/-- a timer that keeps its arming, or is not armed -/
theorem Traced.putTimer (h : Traced w) (hl : ∀ at_, t'.next = some at_ → Scheduled w id t'.armed) : Traced (w.putTimer id t') where
  pending := h.pending
  single := h.single
  due id' t₁ at_ ht hn := by
    rw [World.putTimer, Map.lookup_insert_eq] at ht
    split at ht
    · rename_i heq
      subst heq
      cases ht
      exact hl at_ hn
    · exact h.due id' t₁ at_ ht hn

theorem Traced.erase (h : Traced w) (id : ℕ) : Traced { w with timers := w.timers.erase id } where
  pending := h.pending
  single := h.single
  due id' t₁ at_ ht hn := by
    change (w.timers.erase id).lookup id' = some t₁ at ht
    rw [Map.lookup_erase_eq] at ht
    split at ht
    · cases ht
    · exact h.due id' t₁ at_ ht hn

theorem Scheduled.mono (hs : Scheduled w id armed) (ht : w'.tasks = w.tasks) (hc : ∀ d, Comes w d → Comes w' d) :
    Scheduled w' id armed := by
  rcases hs with ⟨d, hd, he⟩ | hs
  · exact .inl ⟨d, hc d hd, he⟩
  · right
    rw [ht]
    exact hs

/-- the timers' thread lets go of a due expiry that is not the timer's arming any more -/
theorem Scheduled.rest {due : Due} {now : ℕ} (hs : Scheduled w id armed) (hf : w.firing = .fires due now)
    (hne : ¬(due.id = id ∧ due.armed = armed)) (ht : w'.tasks = w.tasks) (hd : ∀ d ∈ w.dues ++ w.ready, d ∈ w'.dues ++ w'.ready) :
    Scheduled w' id armed := by
  rcases hs with ⟨d, hd' | ⟨now', hd'⟩, he⟩ | hs
  · exact .inl ⟨d, .inl (hd d hd'), he⟩
  · rw [hf] at hd'
    cases hd'
    exact absurd he hne
  · right
    rw [ht]
    exact hs

theorem Traced.fire {due : Due} {now : ℕ} (h : Traced w) (hf : w.firing = .fires due now) : Traced (w.fire due now) := by
  have hpending : ∀ w' : World, w'.tasks = w.tasks → w'.infos = w.infos → ∀ p ∈ w'.infos, Awaited w' p := by
    intro w' ht hi p hp
    rw [hi] at hp
    obtain ⟨task, hl, hw⟩ := h.pending p hp
    refine ⟨task, ht ▸ hl, ?_⟩
    rcases hw with hw | hw | hw
    · exact .inl hw
    · rw [hf] at hw
      cases hw
    · exact .inr (.inr hw)
  unfold World.fire
  cases hl : w.timers.lookup due.id with
  | none =>
    refine ⟨hpending _ rfl rfl, h.single, ?_⟩
    intro id t at_ ht hn
    refine (h.due id t at_ ht hn).rest hf ?_ rfl fun _ hd => hd
    rintro ⟨rfl, -⟩
    cases hl.symm.trans ht
  | some t₀ =>
    simp only
    split
    · rename_i harmed
      refine ⟨hpending _ rfl rfl, h.single, ?_⟩
      intro id t at_ ht hn
      refine (h.due id t at_ ht hn).rest hf ?_ rfl fun _ hd => hd
      rintro ⟨rfl, he⟩
      cases hl.symm.trans ht
      exact harmed he.symm
    · rename_i harmed
      have harmed : t₀.armed = due.armed := not_not.mp harmed
      cases hnext : t₀.next with
      | none =>
        refine ⟨hpending _ rfl rfl, h.single, ?_⟩
        intro id t at_ ht hn
        refine (h.due id t at_ ht hn).rest hf ?_ rfl fun _ hd => hd
        rintro ⟨rfl, -⟩
        cases hl.symm.trans ht
        rw [hnext] at hn
        cases hn
      | some next =>
        simp only
        split
        · refine ⟨hpending _ rfl rfl, h.single, ?_⟩
          intro id t at_ ht hn
          by_cases he : due.id = id ∧ due.armed = t.armed
          · exact .inl ⟨⟨next, due.id, due.armed⟩, .inl List.mem_cons_self, he⟩
          · exact (h.due id t at_ ht hn).rest hf he rfl fun _ hd => List.mem_cons_of_mem _ hd
        · refine ⟨hpending _ rfl rfl, h.single, ?_⟩
          intro id t at_ ht hn
          change (w.timers.insert due.id _).lookup id = some t at ht
          rw [Map.lookup_insert_eq] at ht
          split at ht
          · rename_i heq
            obtain ⟨-, -, -, ha, hx⟩ := expire_frame t₀ next now
            cases ht
            rw [hx] at hn
            rw [ha]
            refine .inl ⟨⟨at_, due.id, due.armed⟩, .inl ?_, heq.symm, harmed.symm⟩
            change _ ∈ (Option.map _ (t₀.elapsed next now).2).toList ++ w.dues ++ w.ready
            rw [hn]
            exact List.mem_cons_self
          · rename_i hne
            refine (h.due id t at_ ht hn).rest hf (fun he => hne he.1.symm) rfl ?_
            intro d hd
            change d ∈ _ ++ w.dues ++ w.ready
            rw [List.append_assoc]
            exact List.mem_append_right _ hd

theorem Traced.stepFiring (h : Traced w) (i : ℕ) (ho : w.steady (.fires i)) : Traced (w.stepFiring i) := by
  unfold World.stepFiring
  cases hf : w.firing with
  | rests =>
    have hpending : ∀ w' : World, w'.tasks = w.tasks → w'.infos = w.infos → ∀ p ∈ w'.infos, Awaited w' p := by
      intro w' ht hi p hp
      rw [hi] at hp
      obtain ⟨task, hl, hw⟩ := h.pending p hp
      refine ⟨task, ht ▸ hl, ?_⟩
      rcases hw with hw | hw | hw
      · exact .inl hw
      · rw [hf] at hw
        cases hw
      · exact .inr (.inr hw)
    have hno : ∀ d now, w.firing ≠ .fires d now := by
      intro d now hd
      rw [hf] at hd
      cases hd
    cases hr : w.ready with
    | nil =>
      refine ⟨hpending _ rfl rfl, h.single, ?_⟩
      intro id t at_ ht hn
      refine (h.due id t at_ ht hn).mono rfl ?_
      rintro d (hd | ⟨now, hd⟩)
      · left
        rw [hr, List.append_nil] at hd
        refine List.mem_append.mpr ?_
        simp only [List.mem_filter, decide_eq_true_eq]
        rcases Nat.lt_or_ge w.clock d.at_ with hlt | hge
        · exact .inl ⟨hd, hlt⟩
        · exact .inr ⟨hd, hge⟩
      · exact absurd hd (hno d now)
    | cons due ready =>
      refine ⟨hpending _ rfl rfl, h.single, ?_⟩
      intro id t at_ ht hn
      refine (h.due id t at_ ht hn).mono rfl ?_
      rintro d (hd | ⟨now, hd⟩)
      · by_cases heq : d = ((due :: ready)[i]?).getD due
        · exact .inr ⟨w.clock, by rw [heq]⟩
        · left
          rcases List.mem_append.mp hd with hd | hd
          · exact List.mem_append_left _ hd
          · rw [hr] at hd
            exact List.mem_append_right _ ((List.mem_erase_of_ne heq).mpr hd)
      · exact absurd hd (hno d now)
  | fires due now => exact h.fire hf
  | pushes tid info =>
    have hok := ho.2
    simp only [hf] at hok
    obtain ⟨hlive, hnone⟩ := hok
    obtain ⟨task, hl⟩ := Option.isSome_iff_exists.mp hlive
    constructor
    case pending =>
      intro p hp
      rcases List.mem_append.mp hp with hp | hp
      · obtain ⟨task, hl, hw⟩ := h.pending p hp
        refine ⟨task, hl, ?_⟩
        rcases hw with hw | hw | hw
        · exact .inl hw
        · rw [hf] at hw
          cases hw
        · exact .inr (.inr hw)
      · cases List.mem_singleton.mp hp
        exact ⟨task, hl, .inr (.inl rfl)⟩
    case single =>
      refine List.pairwise_append.mpr ⟨h.single, List.pairwise_singleton .., ?_⟩
      intro p hp q hq
      cases List.mem_singleton.mp hq
      have := hnone p hp
      by_contra hfor
      rw [Bool.not_eq_false, isFor_iff] at hfor
      rw [isFor_iff.mpr ⟨hfor.1.symm, hfor.2.symm⟩] at this
      cases this
    case due =>
      intro id t at_ ht hn
      refine (h.due id t at_ ht hn).mono rfl ?_
      rintro d (hd | ⟨now, hd⟩)
      · exact .inl hd
      · rw [hf] at hd
        cases hd
  | posts tid sig =>
    have h₁ := h.setBit tid sig
    have hsame : (w.setBit tid sig).infos = w.infos ∧ (w.setBit tid sig).firing = .posts tid sig := by
      unfold World.setBit
      split <;> exact ⟨rfl, hf⟩
    constructor
    case pending =>
      intro p hp
      obtain ⟨task, hl, hw⟩ := h₁.pending p hp
      refine ⟨task, hl, ?_⟩
      rcases hw with hw | hw | hw
      · exact .inl hw
      · rw [hsame.2] at hw
        cases hw
        left
        have hp' : p ∈ w.infos := by rwa [← hsame.1]
        obtain ⟨task₀, hl₀, -⟩ := h.pending p hp'
        unfold World.setBit at hl
        simp only [hl₀] at hl
        change (w.tasks.insert p.1 _).lookup p.1 = some task at hl
        rw [AList.lookup_insert] at hl
        cases hl
        exact Function.update_self ..
      · exact .inr (.inr hw)
    case single => exact h₁.single
    case due =>
      intro id t at_ ht hn
      refine (h₁.due id t at_ ht hn).mono rfl ?_
      rintro d (hd | ⟨now, hd⟩)
      · exact .inl hd
      · rw [hsame.2] at hd
        cases hd

theorem Traced.takeInfo {sig : ℕ} (h : Traced w) (hl : w.tasks.lookup tid = some task) (hpc : task.pc = .takes sig) :
    Traced (w.takeInfo tid task sig) := by
  have hnot : ∀ id armed at_, task.pc ≠ .arms id armed (some at_) := by
    intro id armed at_ hc
    rw [hpc] at hc
    cases hc
  -- whoever else's signal it is, the task is not about to take it
  have hkeep : ∀ (p : ℕ × SigInfo) (pc : Pc), isFor tid sig p = false → p.1 = tid →
      task.pending p.2.signo = true ∨ task.pc = .takes p.2.signo → task.pending p.2.signo = true ∨ pc = .takes p.2.signo := by
    rintro p pc hno hp (hb | ht)
    · exact .inl hb
    · rw [hpc] at ht
      injection ht with hs
      rw [isFor_iff.mpr ⟨hp, hs.symm⟩] at hno
      cases hno
  unfold World.takeInfo
  cases hfind : w.infos.find? (isFor tid sig) with
  | none =>
    refine h.putTask hl ?_ hnot
    intro p hp
    refine hkeep p .guest ?_
    simpa using List.find?_eq_none.mp hfind p hp
  | some p₀ =>
    obtain ⟨l₁, l₂, hinfos, herase, hfor, hbefore⟩ := find_eraseP hfind
    obtain ⟨htid, hsig⟩ := isFor_iff.mp hfor
    have hsingle := h.single
    rw [hinfos, List.pairwise_append, List.pairwise_cons] at hsingle
    have hsub : List.Sublist (w.infos.eraseP (isFor tid sig)) w.infos := List.eraseP_sublist
    have hno : ∀ p ∈ w.infos.eraseP (isFor tid sig), isFor tid sig p = false := by
      intro p hp
      rw [herase] at hp
      rcases List.mem_append.mp hp with hp | hp
      · exact hbefore p hp
      · have := hsingle.2.1.1 p hp
        rwa [htid, hsig] at this
    have h₁ : Traced { w with infos := w.infos.eraseP (isFor tid sig) } :=
      ⟨fun p hp => h.pending p (hsub.subset hp), h.single.sublist hsub, h.due⟩
    exact h₁.putTask hl (fun p hp => hkeep p _ (hno p hp)) hnot

theorem Traced.move (h : Traced w) (fault : Bool) (ho : w.steady (.move tid fault)) : Traced (w.move tid fault) := by
  have hok := ho.2
  unfold World.move
  cases hl : w.tasks.lookup tid with
  | none => exact h
  | some task =>
    have hother : ∀ {pc : Pc}, task.pc = pc → (∀ sig, pc ≠ .takes sig) → (∀ id armed at_, pc ≠ .arms id armed (some at_)) →
        (∀ sig, task.pc ≠ .takes sig) ∧ ∀ id armed at_, task.pc ≠ .arms id armed (some at_) := by
      rintro pc rfl ht ha
      exact ⟨ht, ha⟩
    simp only
    cases hpc : task.pc with
    | guest => exact h
    | creates spec =>
      obtain ⟨ht, ha⟩ := hother hpc nofun nofun
      have h₁ : Traced (w.putTimer w.nextId { spec with }) := h.putTimer nofun
      have h₂ : Traced { w.putTimer w.nextId { spec with } with nextId := w.nextId + 1 } := ⟨h₁.pending, h₁.single, h₁.due⟩
      exact h₂.goTo hl ht ha
    | writesId id =>
      obtain ⟨ht, ha⟩ := hother hpc nofun nofun
      simp only
      split
      · exact (h.erase id).goTo hl ht ha
      · exact h.goTo hl ht ha
    | sets id interval next =>
      obtain ⟨ht, ha⟩ := hother hpc nofun nofun
      simp only
      cases hid : w.timers.lookup id with
      | none => exact h.goTo hl ht ha
      | some t =>
        have h₁ : Traced (w.goTo tid task (.arms id (t.armed + 1) next)) := h.goTo hl ht ha
        refine @Traced.putTimer _ id _ h₁ ?_
        intro at_ hn
        have hn : next = some at_ := hn
        exact .inr ⟨tid, _, at_, AList.lookup_insert _, by rw [hn]⟩
    | arms id armed next =>
      have hpending : ∀ p ∈ w.infos, Awaited (w.goTo tid task .guest) p := by
        intro p hp
        refine (h.pending p hp).putTask hl ?_
        rintro - (hb | ht)
        · exact .inl hb
        · rw [hpc] at ht
          cases ht
      simp only
      by_cases hfault : fault = true
      · rw [if_pos hfault]
        refine ⟨hpending, h.single, ?_⟩
        intro id' t at_ ht hn
        refine (h.due id' t at_ ht hn).putTask hl ?_
        intro at' hc
        rw [hpc] at hc
        cases hc
        obtain ⟨pending, queuedInfo, pc⟩ := task
        subst hpc
        simp only [hl] at hok
        rw [hok hfault t ht rfl] at hn
        cases hn
      · rw [if_neg hfault]
        refine ⟨hpending, h.single, ?_⟩
        intro id' t at_ ht hn
        have hgrow : ∀ d, Comes w d →
            Comes ({ w with dues := (next.map fun at_ => Due.mk at_ id armed).toList ++ w.dues }.goTo tid task .guest) d := by
          rintro d (hd | hd)
          · left
            change d ∈ _ ++ w.dues ++ w.ready
            rw [List.append_assoc]
            exact List.mem_append_right _ hd
          · exact .inr hd
        rcases h.due id' t at_ ht hn with ⟨d, hd, he⟩ | ⟨u, task₁, at₁, hu, hpc₁⟩
        · exact .inl ⟨d, hgrow d hd, he⟩
        · by_cases hut : u = tid
          · subst hut
            cases hl.symm.trans hu
            rw [hpc] at hpc₁
            injection hpc₁ with hi harm hn₁
            subst hn₁
            exact .inl ⟨⟨at₁, id, armed⟩, .inl List.mem_cons_self, hi, harm⟩
          · exact .inr ⟨u, task₁, at₁, (AList.lookup_insert_ne hut).trans hu, hpc₁⟩
    | takes sig => exact h.takeInfo hl hpc
    | dequeues info =>
      obtain ⟨ht, ha⟩ := hother hpc nofun nofun
      have h₁ : Traced (w.dequeued info) := by
        unfold World.dequeued
        cases hid : w.timers.lookup info.timer with
        | none => exact ⟨h.pending, h.single, h.due⟩
        | some t =>
          have h₁ : Traced (w.putTimer info.timer { t with lastOverrun := t.overrun, overrun := 0, queued := false }) :=
            h.putTimer fun at_ hn => h.due info.timer t at_ hid hn
          exact ⟨h₁.pending, h₁.single, h₁.due⟩
      have hl₁ : (w.dequeued info).tasks.lookup tid = some task := by
        unfold World.dequeued
        split <;> exact hl
      exact h₁.goTo hl₁ ht ha

theorem Traced.inGuest {f : Task → World} (h : Traced w)
    (hf : ∀ task, w.tasks.lookup tid = some task → task.pc = .guest → Traced (f task)) : Traced (w.inGuest tid f) := by
  unfold World.inGuest
  cases hl : w.tasks.lookup tid with
  | none => exact h
  | some task =>
    simp only
    split
    · rename_i hpc
      exact hf task hl hpc
    · exact h

theorem traced_start (pid : ℕ) : Traced (World.start pid) where
  pending := nofun
  single := List.Pairwise.nil
  due := nofun

theorem step_traced (h : Traced w) (hs : Sound w) (a : Act) (ho : w.steady a) : Traced (w.step a) := by
  have hguest : ∀ {task : Task}, task.pc = .guest →
      (∀ sig, task.pc ≠ .takes sig) ∧ ∀ id armed at_, task.pc ≠ .arms id armed (some at_) := by
    intro task hpc
    rw [hpc]
    exact ⟨nofun, nofun⟩
  -- a bit cleared by a task that is about to take the information
  have hclear : ∀ {task task' : Task} {sig : ℕ}, task.pc = .guest → task'.pending = Function.update task.pending sig false →
      ∀ p : ℕ × SigInfo, task'.pc = .takes sig ∨ p.2.signo ≠ sig →
        task.pending p.2.signo = true ∨ task.pc = .takes p.2.signo → task'.pending p.2.signo = true ∨ task'.pc = .takes p.2.signo := by
    rintro task task' sig hpc hbits p htake (hb | ht)
    · by_cases hsig : p.2.signo = sig
      · right
        rw [hsig]
        exact htake.resolve_right (not_not.mpr hsig)
      · left
        rw [hbits, Function.update_of_ne hsig]
        exact hb
    · rw [hpc] at ht
      cases ht
  cases a with
  | tick n => exact ⟨h.pending, h.single, h.due⟩
  | fires i => exact h.stepFiring i ho
  | create tid clock sevp =>
    refine h.inGuest fun task hl hpc => ?_
    split
    · exact h
    · exact h.goTo hl (hguest hpc).1 (hguest hpc).2
  | settime tid id abstime interval value clockNow =>
    refine h.inGuest fun task hl hpc => ?_
    split
    · exact h
    · exact h.goTo hl (hguest hpc).1 (hguest hpc).2
  | delete id => exact h.erase id
  | deliver tid sig =>
    have hok := ho.2
    refine h.inGuest fun task hl hpc => ?_
    simp only [hl] at hok
    split
    · rename_i hbit
      refine h.putTask hl ?_ (hguest hpc).2
      intro p hp htid
      refine hclear hpc rfl p ?_
      by_cases hown : task.queuedInfo = some sig
      · right
        intro hsig
        have := hok hbit hown p hp
        rw [isFor_iff.mpr ⟨htid, hsig⟩] at this
        cases this
      · left
        exact if_neg hown
    · exact h
  | sigwait tid sig =>
    refine h.inGuest fun task hl hpc => ?_
    split
    · exact h.putTask hl (fun p _ _ => hclear hpc rfl p (.inl rfl)) (hguest hpc).2
    · exact h
  | kill tid sig => exact h.setBit tid sig
  | trap tid =>
    refine h.inGuest fun task hl hpc => ?_
    refine h.putTask hl ?_ (hguest hpc).2
    rintro p - - (hb | ht)
    · left
      change Function.update task.pending SIGSYS true p.2.signo = true
      rw [Function.update_apply]
      split
      · rfl
      · exact hb
    · exact .inr ht
  | spawn =>
    have hnone := hs.tids w.nextTid le_rfl
    have hold : ∀ u task, w.tasks.lookup u = some task → (w.tasks.insert w.nextTid {}).lookup u = some task := by
      intro u task hu
      refine (AList.lookup_insert_ne ?_).trans hu
      rintro rfl
      cases hnone.symm.trans hu
    refine ⟨?_, h.single, ?_⟩
    · intro p hp
      obtain ⟨task, hl, hw⟩ := h.pending p hp
      exact ⟨task, hold _ _ hl, hw⟩
    · intro id t at_ ht hn
      rcases h.due id t at_ ht hn with hd | ⟨u, task, at₁, hu, hpc⟩
      · exact .inl hd
      · exact .inr ⟨u, task, at₁, hold _ _ hu, hpc⟩
  | exit tid =>
    have hok := ho.2
    refine h.inGuest fun task hl hpc => ?_
    have hold : ∀ u task, u ≠ tid → w.tasks.lookup u = some task → (w.tasks.erase tid).lookup u = some task :=
      fun u task hu hl => (AList.lookup_erase_ne hu).trans hl
    refine ⟨?_, h.single, ?_⟩
    · intro p hp
      obtain ⟨task, hl, hw⟩ := h.pending p hp
      exact ⟨task, hold _ _ (hok p hp) hl, hw⟩
    · intro id t at_ ht hn
      rcases h.due id t at_ ht hn with hd | ⟨u, task₁, at₁, hu, hpc₁⟩
      · exact .inl hd
      · refine .inr ⟨u, task₁, at₁, hold _ _ ?_ hu, hpc₁⟩
        rintro rfl
        cases hl.symm.trans hu
        rw [hpc] at hpc₁
        cases hpc₁
  | exec =>
    have h₁ := traced_start w.pid
    exact ⟨h₁.pending, h₁.single, h₁.due⟩
  | move tid fault => exact h.move fault ho

end Moves

/-! ## Every run -/

/-- the timer's signal information is on its way to the queue, pending for a live task, or just taken -/
def Pending (w : World) (id : ℕ) : Prop :=
  (∃ tid info, w.firing = .pushes tid info ∧ info.timer = id) ∨ (∃ p ∈ w.infos, p.2.timer = id ∧ Awaited w p) ∨
    ∃ tid task info, w.tasks.lookup tid = some task ∧ task.pc = .dequeues info ∧ info.timer = id

/-- a timer that is marked as queued has one piece of signal information, another has none; its expiries are accounted for, and
`timer_getoverrun` answers what its signal last taken reported -/
structure Accounted (w : World) : Prop where
  once : ∀ id t, w.timers.lookup id = some t → carriers w id = if t.queued then 1 else 0
  account : ∀ id t, w.timers.lookup id = some t → t.notify ≠ .none → Balanced (taken w id) t
  report : ∀ id n, w.getoverrun id = .ok n → n = lastReported w id

/-- the account between two states: the expiries between them are the signals taken, with the overruns reported, and the change
in what is owed and clamped -/
def Between (w w' : World) : Prop :=
  ∀ id t t', w.timers.lookup id = some t → w'.timers.lookup id = some t' → t.notify ≠ .none → t'.notify ≠ .none →
    t'.expired + (taken w id + t.owed + t.clamped) = t.expired + (taken w' id + t'.owed + t'.clamped)

/-- a timer is marked as queued exactly while its signal is pending, and an armed one is to expire -/
structure Heard (w : World) : Prop where
  mark : ∀ id t, w.timers.lookup id = some t → (t.queued = true ↔ Pending w id)
  due : ∀ id t at_, w.timers.lookup id = some t → t.next = some at_ → Scheduled w id t.armed

section Moves

variable {w : World} {id : ℕ}

theorem firing_carries (f : Firing) : 0 < f.carries id ↔ ∃ tid info, f = .pushes tid info ∧ info.timer = id := by
  constructor
  · intro h
    cases f with
    | pushes tid info =>
      by_cases hid : info.timer = id
      · exact ⟨tid, info, rfl, hid⟩
      · rw [Firing.carries, if_neg hid] at h
        omega
    | _ => cases h
  · rintro ⟨tid, info, rfl, hid⟩
    rw [Firing.carries, if_pos hid]
    exact Nat.one_pos

theorem pc_carries (pc : Pc) : 0 < pc.carries id ↔ ∃ info, pc = .dequeues info ∧ info.timer = id := by
  constructor
  · intro h
    cases pc with
    | dequeues info =>
      by_cases hid : info.timer = id
      · exact ⟨info, rfl, hid⟩
      · rw [Pc.carries, if_neg hid] at h
        omega
    | _ => cases h
  · rintro ⟨info, rfl, hid⟩
    rw [Pc.carries, if_pos hid]
    exact Nat.one_pos

/-- what is queued being awaited, a piece that is on its way is pending -/
theorem carriers_pos (h : ∀ p ∈ w.infos, Awaited w p) : 0 < carriers w id ↔ Pending w id := by
  constructor
  · intro hpos
    by_contra hno
    simp only [Pending, not_or] at hno
    obtain ⟨hhand, hqueue, htaker⟩ := hno
    have h₁ : w.firing.carries id = 0 := by
      by_contra hne
      exact hhand ((firing_carries w.firing).mp (Nat.pos_of_ne_zero hne))
    have h₂ : w.infos.countP (·.2.timer = id) = 0 := by
      rw [List.countP_eq_zero]
      intro p hp hid
      exact hqueue ⟨p, hp, by simpa using hid, h p hp⟩
    have h₃ : Map.weigh (fun _ (task : Task) => task.pc.carries id) w.tasks = 0 := by
      refine Map.weigh_eq_zero fun tid task hl => ?_
      by_contra hne
      obtain ⟨info, hpc, hid⟩ := (pc_carries task.pc).mp (Nat.pos_of_ne_zero hne)
      exact htaker ⟨tid, task, info, hl, hpc, hid⟩
    rw [carriers, h₁, h₂, h₃] at hpos
    omega
  · rintro (hhand | ⟨p, hp, hid, -⟩ | ⟨tid, task, info, hl, hpc, hid⟩)
    · have := (firing_carries w.firing).mpr hhand
      rw [carriers]
      omega
    · have : 0 < w.infos.countP (·.2.timer = id) := List.countP_pos_iff.mpr ⟨p, hp, by simpa using hid⟩
      rw [carriers]
      omega
    · have h₁ := (pc_carries task.pc).mpr ⟨info, hpc, hid⟩
      have h₂ := Map.le_weigh (w := fun _ (task : Task) => task.pc.carries id) hl
      rw [carriers]
      omega

theorem Sound.accounted (h : Sound w) : Accounted w where
  once := h.mark
  account := h.account
  report id n hn := by
    unfold World.getoverrun at hn
    cases hl : w.timers.lookup id with
    | none =>
      rw [hl] at hn
      cases hn
    | some t =>
      rw [hl] at hn
      cases hn
      exact h.report id t hl

theorem Sound.between {w' : World} (h : Sound w) (h' : Sound w') : Between w w' := by
  intro id t t' hl hl' hn hn'
  have := (h.account id t hl hn).sum
  have := (h'.account id t' hl' hn').sum
  omega

theorem Traced.heard (ht : Traced w) (hs : Sound w) : Heard w where
  due := ht.due
  mark id t hl := by
    rw [← carriers_pos ht.pending, hs.mark id t hl]
    split <;> simp_all

end Moves

/-- **Every expiry is accounted for.** In every run, between any two states of it. In every run in which a timer's information
is queued for a live task alone, and not left behind, a timer is marked as queued exactly while its signal is pending, and an
armed timer is to expire. -/
theorem timers_account (pid : ℕ) :
    (∀ w, Reach World.step World.counted (World.start pid) w → Accounted w ∧
      ∀ w', Reach World.step World.counted w w' → Between w w') ∧
      ∀ w, Reach World.step World.steady (World.start pid) w → Accounted w ∧ Heard w := by
  have hsound : ∀ {ok : World → Act → Prop} {w₀ w : World}, Sound w₀ → Reach World.step ok w₀ w → Sound w :=
    fun h₀ h => h.invariant Sound h₀ fun _ a _ _ hs => step_sound hs a
  constructor
  · intro w h
    have hs := hsound (sound_start pid) h
    exact ⟨hs.accounted, fun w' h' => hs.between (hsound hs h')⟩
  · intro w h
    have hs := hsound (sound_start pid) h
    have ht : Traced w := h.invariant Traced (traced_start pid) fun s a hr ho ht =>
      step_traced ht (hsound (sound_start pid) hr) a ho
    exact ⟨hs.accounted, ht.heard hs⟩

section Decide

variable (w : World)

instance decCounted (a : Act) : Decidable (w.counted a) := by
  unfold World.counted
  split
  · split <;> infer_instance
  · infer_instance

instance decSteady (a : Act) : Decidable (w.steady a) := by
  unfold World.steady
  refine @instDecidableAnd _ _ _ ?_
  split
  any_goals split
  all_goals infer_instance

end Decide

/-- the main task makes a `SIGALRM` timer and sets it to expire once, in 5 -/
def createRun (id : ℕ) : List Act :=
  [.create 1 1 none, .move 1 false, .move 1 false, .settime 1 id false 0 5 0, .move 1 false, .move 1 false]

/-- the timers' thread takes what is due; and makes one timer expire -/
def fireRun : List Act := [.fires 0, .fires 0, .fires 0, .fires 0]

/-- the main task takes a `SIGALRM` -/
def deliverRun : List Act := [.deliver 1 SIGALRM, .move 1 false, .move 1 false]

def onceRun : List Act := createRun 0 ++ [.tick 5, .fires 0] ++ fireRun ++ deliverRun

theorem timers_account_once :
    Accounted (run World.step (World.start 1) onceRun) ∧ Heard (run World.step (World.start 1) onceRun) ∧
      (run World.step (World.start 1) onceRun).getoverrun 0 = .ok 0 := by
  have h := (timers_account 1).2 _ (.run .start onceRun (by decide))
  exact ⟨h.1, h.2, by decide⟩

/-- two timers, both expired while the task was elsewhere; then it takes the signal -/
def twoRun : List Act := createRun 0 ++ createRun 1 ++ [.tick 5, .fires 0] ++ fireRun ++ fireRun ++ deliverRun

/-- a timer for a thread that has gone -/
def goneRun : List Act :=
  [.spawn, .create 1 1 (some ⟨0, 34, 4, 2⟩), .move 1 false, .move 1 false, .settime 1 0 false 0 5 0, .move 1 false,
    .move 1 false, .exit 2, .tick 5, .fires 0] ++ fireRun

/-- the old setting cannot be written -/
def faultRun : List Act :=
  [.create 1 1 none, .move 1 false, .move 1 false, .settime 1 0 false 0 5 0, .move 1 false, .move 1 true]

section Quiet

variable {w : World} {id armed : ℕ}

/-- nothing is pending where no one does anything and no bit of a queued signal is set -/
theorem not_pending (hf : w.firing = .rests) (hg : ∀ e ∈ w.tasks.entries, e.2.pc = .guest)
    (hb : ∀ p ∈ w.infos, ∀ e ∈ w.tasks.entries, e.1 = p.1 → e.2.pending p.2.signo = false) : ¬Pending w id := by
  rintro (⟨tid, info, hf', -⟩ | ⟨p, hp, -, task, hl, hw⟩ | ⟨tid, task, info, hl, hpc, -⟩)
  · cases hf.symm.trans hf'
  · have he := (Map.mem_entries w.tasks p.1 task).mpr hl
    rcases hw with hw | hw | hw
    · cases (hb p hp _ he rfl).symm.trans hw
    · cases hf.symm.trans hw
    · cases (hg _ he).symm.trans hw
  · cases (hg _ ((Map.mem_entries w.tasks tid task).mpr hl)).symm.trans hpc

theorem not_scheduled (hf : w.firing = .rests) (hg : ∀ e ∈ w.tasks.entries, e.2.pc = .guest) (hd : w.dues ++ w.ready = []) :
    ¬Scheduled w id armed := by
  rintro (⟨d, hc | ⟨now, hc⟩, -⟩ | ⟨tid, task, at_, hl, hpc⟩)
  · rw [hd] at hc
    cases hc
  · cases hf.symm.trans hc
  · cases (hg _ ((Map.mem_entries w.tasks tid task).mpr hl)).symm.trans hpc

end Quiet

/-- **Timers that fall silent.** One bit stands for two timers' signals, and one taker takes one; information is queued for a
thread that has gone; a setting whose old value cannot be written is never scheduled. -/
theorem timers_fall_silent : ¬Heard (run World.step (World.start 1) twoRun) ∧ ¬Heard (run World.step (World.start 1) goneRun) ∧
    ¬Heard (run World.step (World.start 1) faultRun) := by
  refine ⟨fun h => ?_, fun h => ?_, fun h => ?_⟩
  · have hq : ((run World.step (World.start 1) twoRun).timers.lookup 0).map (·.queued) = some true := by decide +kernel
    obtain ⟨t, hl, hq⟩ := Option.map_eq_some_iff.mp hq
    exact not_pending (by decide +kernel) (by decide +kernel) (by decide +kernel) ((h.mark 0 t hl).mp hq)
  · have hq : ((run World.step (World.start 1) goneRun).timers.lookup 0).map (·.queued) = some true := by decide +kernel
    obtain ⟨t, hl, hq⟩ := Option.map_eq_some_iff.mp hq
    exact not_pending (by decide +kernel) (by decide +kernel) (by decide +kernel) ((h.mark 0 t hl).mp hq)
  · have hn : ((run World.step (World.start 1) faultRun).timers.lookup 0).map (·.next) = some (some 5) := by decide +kernel
    obtain ⟨t, hl, hn⟩ := Option.map_eq_some_iff.mp hn
    exact not_scheduled (by decide +kernel) (by decide +kernel) (by decide +kernel) (h.due 0 t 5 hl hn)

end Omnidroid.Timers
