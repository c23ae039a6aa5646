/-
`timer_settime` and the timers' thread, by their times (`omni-linux/src/timer.rs`): how a time is read from the guest, added to the
host's clock and put on the schedule. What an expiry sends is in `Kernel.Timers`.

One step is one hold of a lock. Times are nanoseconds of the host's clock, which has none from `E` on: a sum that passes it panics.
- `World.exec`: a step, and what a call answers that ends with it.
- `Safe`: no thread has panicked, a call that fails leaves its timer as it was, one that does not has its deadline on the schedule, and
  every armed timer is to expire.
- `World.fits`: no sum of the step passes the clock's end, and a setting is not left with its old value unwritten.
- `settime_safe`: `Safe`, in every run whose steps fit. `settime_not_safe`, `settime_unscheduled`: without it, not so.
-/
import Omnidroid.Errno
import Omnidroid.Lib.Run

namespace Omnidroid.TimerSettime

/-! ## The code -/

def TIMER_ABSTIME : UInt64 := 1

/-- a second, in nanoseconds -/
def SECOND : ℕ := 1000000000

/-- a process, and the `i32` of one of its timers -/
abbrev Key := ℕ × UInt32

structure Timer where
  clock : UInt64
  interval : ℕ := 0
  next : Option ℕ := none
  /-- bumped at each arming -/
  armed : ℕ := 0
deriving DecidableEq

/-- an expiry to come -/
structure Due where
  at_ : ℕ
  key : Key
  armed : ℕ
deriving DecidableEq

/-- sixteen bytes of the guest's memory, as two `i64` -/
structure GuestMem where
  read : UInt64 → Except Errno (Int64 × Int64)
  /-- what is read is in the guest's space, which ends before the last address; a pointer's top byte is a tag -/
  inside : ∀ a v, read a = .ok v → a.toNat % 2 ^ 56 + 16 < 2 ^ 56

/-- where a guest thread's call is -/
inductive Pc where
  | guest
  /-- about to set the timer -/
  | sets (key : Key) (interval : ℕ) (next : Option ℕ) (now : ℕ) (old : UInt64)
  /-- about to write the old setting and put the new one on the schedule -/
  | arms (key : Key) (armed interval : ℕ) (next : Option ℕ) (was : ℕ × Option ℕ) (now : ℕ) (old : UInt64)
  | dead
deriving DecidableEq

/-- where the timers' thread is -/
inductive Firing where
  | rests
  /-- has read the clock: about to decide the expiry -/
  | fires (due : Due) (now : ℕ)
  | dead
deriving DecidableEq

structure World where
  clock : ℕ := 0
  timers : Key → Option Timer := fun _ => none
  /-- the schedule, and what of it the timers' thread has taken -/
  dues : List Due := []
  ready : List Due := []
  firing : Firing := .rests
  pc : ℕ → Pc := fun _ => .guest

def readTimespec (mem : GuestMem) (a : UInt64) : Except Errno ℕ :=
  match mem.read a with
  | .error e => .error e
  | .ok (s, ns) =>
    if s < 0 ∨ ¬(0 ≤ ns ∧ ns < 1000000000) then .error EINVAL else .ok (s.toInt.toNat * SECOND + ns.toInt.toNat)

/-- how far from now a value is; `clockNow` is what a clock reads -/
def delta (flags : UInt64) (value : ℕ) (clockNow : Except Errno ℕ) : Except Errno ℕ :=
  if flags &&& TIMER_ABSTIME ≠ 0 then clockNow.map (value - ·) else .ok value

section
variable (E : ℕ)

/-- `Instant + Duration` -/
def after (now d : ℕ) : Option ℕ := if now + d < E then some (now + d) else none

/-- a timer's arguments are read and its next expiry is reckoned -/
def World.begin (w : World) (process : ℕ) (a0 a1 a2 a3 : UInt64) (mem : GuestMem) (clockNow : UInt64 → Except Errno ℕ) :
    Except Errno Pc :=
  match readTimespec mem a2 with
  | .error e => .error e
  | .ok interval =>
    if 2 ^ 64 ≤ a2.toNat + 16 then .ok .dead
    else
      match readTimespec mem (a2 + 16) with
      | .error e => .error e
      | .ok value =>
        match w.timers (process, a0.toUInt32) with
        | none => .error EINVAL
        | some t =>
          if value = 0 then .ok (.sets (process, a0.toUInt32) interval none w.clock a3)
          else
            match delta a1 value (clockNow t.clock) with
            | .error e => .error e
            | .ok d =>
              match after E w.clock d with
              | none => .ok .dead
              | some at_ => .ok (.sets (process, a0.toUInt32) interval (some at_) w.clock a3)

/-- the loop over the periods that have passed: the first expiry that has not -/
def passOver (interval now : ℕ) (h : 0 < interval) (n : ℕ) : Option ℕ :=
  if n ≤ now then
    if n + interval < E then passOver interval now h (n + interval) else none
  else some n
termination_by now + 1 - n

/-- the expiry after `next` -/
def elapsed (interval next now : ℕ) (h : 0 < interval) : Option ℕ :=
  if next + interval < E then passOver E interval now h (next + interval) else none

namespace World

def putTimer (w : World) (key : Key) (t : Option Timer) : World := { w with timers := Function.update w.timers key t }

def goTo (w : World) (tid : ℕ) (pc : Pc) : World := { w with pc := Function.update w.pc tid pc }

/-- a timer expires, if it is still the arming that was scheduled -/
def fire (w : World) (due : Due) (now : ℕ) : World :=
  let rested := { w with firing := .rests }
  match w.timers due.key with
  | none => rested
  | some t =>
    if t.armed ≠ due.armed then rested
    else
      match t.next with
      | none => rested
      | some next =>
        if now < next then { rested with dues := ⟨next, due.key, due.armed⟩ :: w.dues }
        else if h : 0 < t.interval then
          match elapsed E t.interval next now h with
          | none => { w with firing := .dead }
          | some n => { rested.putTimer due.key (some { t with next := some n }) with dues := ⟨n, due.key, due.armed⟩ :: w.dues }
        else rested.putTimer due.key (some { t with next := none })

/-- the next step of the timers' thread; `i` is which of the ready expiries it takes next -/
def stepFiring (w : World) (i : ℕ) : World :=
  match w.firing with
  | .dead => w
  | .rests =>
    match w.ready with
    | [] => { w with dues := w.dues.filter fun d => w.clock < d.at_, ready := w.dues.filter fun d => d.at_ ≤ w.clock }
    | due :: _ =>
      let due := (w.ready[i]?).getD due
      { w with ready := w.ready.erase due, firing := .fires due w.clock }
  | .fires due now => w.fire E due now

end World

inductive Act where
  | tick (n : ℕ)
  /-- a step of the timers' thread -/
  | fires (i : ℕ)
  | create (key : Key) (clock : UInt64)
  /-- a timer deleted, or gone with its process -/
  | delete (key : Key)
  | settime (tid process : ℕ) (a0 a1 a2 a3 : UInt64) (mem : GuestMem) (clockNow : UInt64 → Except Errno ℕ)
  /-- the next step of a thread's call; `write` is what storing an interval and a value comes to -/
  | move (tid : ℕ) (write : UInt64 → ℕ → ℕ → Except Errno Unit)

/-- the old setting written out, if the guest asks for it -/
def storeOld (was : ℕ × Option ℕ) (now : ℕ) (old : UInt64) (write : UInt64 → ℕ → ℕ → Except Errno Unit) : Except Errno Unit :=
  if old ≠ 0 then write old was.1 (was.2.elim 0 (· - now)) else .ok ()

/-- a step, and the answer of the call that ends with it -/
def World.exec (w : World) : Act → World × Option (Except Errno ℕ)
  | .tick n => ({ w with clock := w.clock + n }, none)
  | .fires i => (w.stepFiring E i, none)
  | .create key clock => (if w.timers key = none then w.putTimer key (some { clock }) else w, none)
  | .delete key => (w.putTimer key none, none)
  | .settime tid process a0 a1 a2 a3 mem clockNow =>
    match w.pc tid with
    | .guest =>
      match w.begin E process a0 a1 a2 a3 mem clockNow with
      | .error e => (w, some (.error e))
      | .ok pc => (w.goTo tid pc, none)
    | _ => (w, none)
  | .move tid write =>
    match w.pc tid with
    | .sets key interval next now old =>
      match w.timers key with
      | none => (w.goTo tid .guest, some (.error EINVAL))
      | some t =>
        ((w.putTimer key (some { t with interval, next, armed := t.armed + 1 })).goTo tid
          (.arms key (t.armed + 1) interval next (t.interval, t.next) now old), none)
    | .arms key armed _ next was now old =>
      match storeOld was now old write with
      | .error e => (w.goTo tid .guest, some (.error e))
      | .ok () =>
        ({ w with dues := (next.map fun at_ => (⟨at_, key, armed⟩ : Due)).toList ++ w.dues }.goTo tid .guest, some (.ok 0))
    | _ => (w, none)

def World.next (w : World) (a : Act) : World := (w.exec E a).1

/-! ## What is to hold -/

/-- the first expiry after `now`, of those from `next` on -/
def firstAfter (interval next now : ℕ) : ℕ := next + ((now - next) / interval + 1) * interval

/-- no sum of the step passes the clock's end, and the old setting is written where it is asked for, or is what was set anew -/
def World.fits (w : World) : Act → Prop
  | .fires _ =>
    match w.firing with
    | .fires due now => ∀ t next, w.timers due.key = some t → t.armed = due.armed → t.next = some next → next ≤ now →
        0 < t.interval → firstAfter t.interval next now < E
    | _ => True
  | .settime _ process a0 a1 a2 _ mem clockNow =>
    ∀ interval value t d, readTimespec mem a2 = .ok interval → readTimespec mem (a2 + 16) = .ok value →
      w.timers (process, a0.toUInt32) = some t → value ≠ 0 → delta a1 value (clockNow t.clock) = .ok d → w.clock + d < E
  | .move tid write =>
    match w.pc tid with
    | .arms _ _ interval next was now old => storeOld was now old write = .ok () ∨ next = none ∧ was = (interval, none)
    | _ => True
  | _ => True

/-- an expiry is on the schedule, or is being handled, or a call is about to put it there -/
def Scheduled (w : World) (d : Due) : Prop :=
  d ∈ w.dues ∨ d ∈ w.ready ∨ (∃ now, w.firing = .fires d now) ∨
    ∃ tid interval was now old, w.pc tid = .arms d.key d.armed interval (some d.at_) was now old

structure Sound (w : World) : Prop where
  firing : w.firing ≠ .dead
  calls : ∀ tid, w.pc tid ≠ .dead
  scheduled : ∀ key t at_, w.timers key = some t → t.next = some at_ → Scheduled w ⟨at_, key, t.armed⟩

/-- what is said of a state, and of the steps from there that `ok` allows -/
structure Safe (ok : Act → Prop) (w : World) : Prop extends Sound w where
  /-- a call that fails ends as it was before the timer was set, or has set it to what it was -/
  failed : ∀ a e, ok a → (w.exec E a).2 = some (.error e) → (w.next E a).timers = w.timers ∧ (w.next E a).dues = w.dues ∧
    ∀ tid write key armed interval next was now old, a = .move tid write →
      w.pc tid = .arms key armed interval next was now old → was = (interval, next)
  /-- a call goes on with a deadline, unless its value is zero -/
  begun : ∀ tid process a0 a1 a2 a3 mem clockNow key interval next now old, ok (.settime tid process a0 a1 a2 a3 mem clockNow) →
    w.pc tid = .guest → (w.next E (.settime tid process a0 a1 a2 a3 mem clockNow)).pc tid = .sets key interval next now old →
      ∃ value, readTimespec mem (a2 + 16) = .ok value ∧ (next = none ↔ value = 0)
  /-- a call that succeeds has its deadline on the schedule -/
  succeeded : ∀ a n, ok a → (w.exec E a).2 = some (.ok n) → ∃ tid write, a = .move tid write ∧
    ∃ key armed interval next was now old, w.pc tid = .arms key armed interval next was now old ∧
      ∀ at_, next = some at_ → ⟨at_, key, armed⟩ ∈ (w.next E a).dues

/-! ## The loop over the periods -/

theorem passOver_some {interval now m : ℕ} (hpos : 0 < interval) (hm : m < E) (hafter : now < m) (hfirst : m ≤ now + interval) :
    ∀ k n, n + k * interval = m → passOver E interval now hpos n = some m
  | 0, n, hk => by
    have hn : n = m := by simpa using hk
    rw [passOver, if_neg (by omega), hn]
  | k + 1, n, hk => by
    rw [Nat.add_mul, Nat.one_mul] at hk
    have hle : n + interval ≤ m := by omega
    rw [passOver, if_pos (by omega), if_pos (by omega), passOver_some hpos hm hafter hfirst k (n + interval) (by omega)]

theorem elapsed_some {interval next now : ℕ} (hpos : 0 < interval) (hnext : next ≤ now) (hfits : firstAfter interval next now < E) :
    elapsed E interval next now hpos = some (firstAfter interval next now) := by
  have hdiv := Nat.div_add_mod' (now - next) interval
  have hmod := Nat.mod_lt (now - next) hpos
  have hfirst : firstAfter interval next now = next + (now - next) / interval * interval + interval := by
    rw [firstAfter, Nat.add_mul, Nat.one_mul, Nat.add_assoc]
  rw [elapsed, if_pos (by omega)]
  exact passOver_some E hpos hfits (by omega) (by omega) ((now - next) / interval) (next + interval) (by omega)

/-! ## What a step keeps -/

section
variable {E} {w : World}

theorem begin_fits {process : ℕ} {a0 a1 a2 a3 : UInt64} {mem : GuestMem} {clockNow : UInt64 → Except Errno ℕ} {tid : ℕ}
    (hfits : w.fits E (.settime tid process a0 a1 a2 a3 mem clockNow)) {pc : Pc}
    (h : w.begin E process a0 a1 a2 a3 mem clockNow = .ok pc) :
    ∃ interval next value, pc = .sets (process, a0.toUInt32) interval next w.clock a3 ∧
      readTimespec mem (a2 + 16) = .ok value ∧ (next = none ↔ value = 0) := by
  unfold World.begin at h
  split at h
  · cases h
  rename_i interval hinterval
  have htop : ¬2 ^ 64 ≤ a2.toNat + 16 := by
    unfold readTimespec at hinterval
    split at hinterval
    · cases hinterval
    · rename_i hread
      have hinside := mem.inside _ _ hread
      have hlt := a2.toNat_lt
      omega
  rw [if_neg htop] at h
  split at h
  · cases h
  rename_i value hvalue
  split at h
  · cases h
  rename_i t ht
  split_ifs at h with hzero
  · cases h
    exact ⟨interval, none, value, rfl, hvalue, iff_of_true rfl hzero⟩
  · split at h
    · cases h
    rename_i d hd
    have hsum := hfits interval value t d hinterval hvalue ht hzero hd
    rw [after, if_pos hsum] at h
    cases h
    exact ⟨interval, _, value, rfl, hvalue, iff_of_false (Option.some_ne_none _) hzero⟩

/-- what is scheduled stays so where nothing leaves the schedule -/
theorem Scheduled.mono {w' : World} {d : Due} (h : Scheduled w d) (hdues : ∀ d, d ∈ w.dues → d ∈ w'.dues)
    (hready : w'.ready = w.ready) (hfiring : w'.firing = w.firing)
    (hpc : ∀ tid interval was now old, w.pc tid = .arms d.key d.armed interval (some d.at_) was now old → Scheduled w' d) :
    Scheduled w' d := by
  rcases h with h | h | ⟨now, h⟩ | ⟨tid, interval, was, now, old, h⟩
  · exact .inl (hdues d h)
  · exact .inr (.inl (hready ▸ h))
  · exact .inr (.inr (.inl ⟨now, hfiring ▸ h⟩))
  · exact hpc tid interval was now old h

theorem Sound.tick (h : Sound w) (n : ℕ) : Sound { w with clock := w.clock + n } := ⟨h.firing, h.calls, h.scheduled⟩

/-- a timer put in with nothing to expire, or taken out -/
theorem Sound.put (h : Sound w) (key : Key) {t : Option Timer} (hnone : ∀ t', t = some t' → t'.next = none) :
    Sound (w.putTimer key t) := by
  refine ⟨h.firing, h.calls, fun key' t' at_ hget hnext => ?_⟩
  have hget' : Function.update w.timers key t key' = some t' := hget
  rw [Function.update_apply] at hget'
  split_ifs at hget' with heq
  · rw [hnone t' hget'] at hnext
    cases hnext
  · exact h.scheduled key' t' at_ hget' hnext

/-- a thread goes on, and leaves nothing to be put on the schedule behind -/
theorem Sound.goTo (h : Sound w) {tid : ℕ} {pc : Pc} (hpc : pc ≠ .dead)
    (hold : ∀ key armed interval at_ was now old, w.pc tid = .arms key armed interval (some at_) was now old →
      ⟨at_, key, armed⟩ ∈ w.dues) : Sound (w.goTo tid pc) := by
  refine ⟨h.firing, fun tid' => ?_, fun key t at_ hget hnext => ?_⟩
  · change Function.update w.pc tid pc tid' ≠ .dead
    rw [Function.update_apply]
    split_ifs
    · exact hpc
    · exact h.calls tid'
  · refine (h.scheduled key t at_ hget hnext).mono (fun _ hd => hd) rfl rfl fun tid' interval was now old hpc' => ?_
    by_cases htid : tid' = tid
    · rw [htid] at hpc'
      exact .inl (hold key t.armed interval at_ was now old hpc')
    · refine .inr (.inr (.inr ⟨tid', interval, was, now, old, ?_⟩))
      change Function.update w.pc tid pc tid' = _
      rw [Function.update_of_ne htid]
      exact hpc'

/-- a timer is set: the call that sets it is to put it on the schedule -/
theorem Sound.set (h : Sound w) {tid : ℕ} {key : Key} {interval now : ℕ} {next : Option ℕ} {old : UInt64} {t : Timer}
    (hpc : w.pc tid = .sets key interval next now old) :
    Sound ((w.putTimer key (some { t with interval, next, armed := t.armed + 1 })).goTo tid
      (.arms key (t.armed + 1) interval next (t.interval, t.next) now old)) := by
  have hkept : ∀ d, Scheduled w d → Scheduled ((w.putTimer key (some { t with interval, next, armed := t.armed + 1 })).goTo tid
      (.arms key (t.armed + 1) interval next (t.interval, t.next) now old)) d := by
    refine fun d hd => hd.mono (fun _ hd => hd) rfl rfl fun tid' interval' was now' old' hpc' => ?_
    have htid : tid' ≠ tid := by
      rintro rfl
      rw [hpc] at hpc'
      cases hpc'
    refine .inr (.inr (.inr ⟨tid', interval', was, now', old', ?_⟩))
    change Function.update w.pc tid _ tid' = _
    rw [Function.update_of_ne htid]
    exact hpc'
  refine ⟨h.firing, fun tid' => ?_, fun key' t' at_ hget hnext => ?_⟩
  · change Function.update w.pc tid _ tid' ≠ .dead
    rw [Function.update_apply]
    split_ifs
    · intro hdead
      cases hdead
    · exact h.calls tid'
  · have hget' : Function.update w.timers key _ key' = some t' := hget
    rw [Function.update_apply] at hget'
    split_ifs at hget' with heq
    · cases hget'
      refine .inr (.inr (.inr ⟨tid, interval, (t.interval, t.next), now, old, ?_⟩))
      change Function.update w.pc tid _ tid = _
      rw [Function.update_self, heq]
      dsimp only at hnext ⊢
      rw [hnext]
    · exact hkept _ (h.scheduled key' t' at_ hget' hnext)

/-- a timer expires, or its expiry is put off, or is not its arming's any more -/
theorem Sound.fire (h : Sound w) {due : Due} {now : ℕ} (hf : w.firing = .fires due now) (hfits : w.fits E (.fires 0)) :
    Sound (w.fire E due now) := by
  have hfits' : ∀ t next, w.timers due.key = some t → t.armed = due.armed → t.next = some next → next ≤ now →
      0 < t.interval → firstAfter t.interval next now < E := by
    rw [World.fits, hf] at hfits
    exact hfits
  -- what is scheduled elsewhere stays so; the expiry handled is this arming's
  have hkept : ∀ w' : World, (∀ d, d ∈ w.dues → d ∈ w'.dues) → w'.ready = w.ready → w'.pc = w.pc → ∀ d, d ≠ due → Scheduled w d →
      Scheduled w' d := by
    rintro w' hdues hready hpc d hne (hd | hd | ⟨now', hd⟩ | ⟨tid, interval, was, now', old, hd⟩)
    · exact .inl (hdues d hd)
    · exact .inr (.inl (hready ▸ hd))
    · rw [hf] at hd
      exact absurd (Firing.fires.inj hd).1.symm hne
    · exact .inr (.inr (.inr ⟨tid, interval, was, now', old, hpc ▸ hd⟩))
  have hrested : (∀ t at_, w.timers due.key = some t → t.next = some at_ → t.armed ≠ due.armed) → Sound { w with firing := .rests } := by
    intro hnot
    refine ⟨(by intro hdead; cases hdead), h.calls, fun key t at_ hget hnext => ?_⟩
    refine hkept { w with firing := .rests } (fun _ hd => hd) rfl rfl _ ?_ (h.scheduled key t at_ hget hnext)
    rintro rfl
    exact hnot t at_ hget hnext rfl
  have hagain : ∀ (t t' : Timer) (at_ : ℕ), w.timers due.key = some t → t.armed = due.armed → t'.armed = t.armed → t'.next = some at_ →
      Sound { w with firing := .rests, timers := Function.update w.timers due.key (some t'), dues := ⟨at_, due.key, due.armed⟩ :: w.dues } := by
    intro t t' at_ ht harmed harmed' hnext'
    refine ⟨(by intro hdead; cases hdead), h.calls, fun key t'' at' hget hnext => ?_⟩
    have hget' : Function.update w.timers due.key (some t') key = some t'' := hget
    rw [Function.update_apply] at hget'
    split_ifs at hget' with heq
    · cases hget'
      rw [hnext'] at hnext
      cases hnext
      rw [heq, harmed', harmed]
      exact .inl List.mem_cons_self
    · refine hkept { w with firing := .rests, dues := ⟨at_, due.key, due.armed⟩ :: w.dues } (fun _ hd => List.mem_cons_of_mem _ hd)
        rfl rfl _ ?_ (h.scheduled key t'' at' hget' hnext)
      rintro rfl
      exact heq rfl
  unfold World.fire
  dsimp only
  split
  · rename_i hnone
    exact hrested fun t at_ ht => by rw [hnone] at ht; cases ht
  rename_i t ht
  by_cases harmed : t.armed = due.armed
  swap
  · rw [if_pos harmed]
    refine hrested fun t' at_ ht' _ => ?_
    rw [ht] at ht'
    cases ht'
    exact harmed
  rw [if_neg (not_not.mpr harmed)]
  split
  · rename_i hnone
    refine hrested fun t' at_ ht' hnext => ?_
    rw [ht] at ht'
    cases ht'
    rw [hnone] at hnext
    cases hnext
  rename_i next hnext
  by_cases hlater : now < next
  · rw [if_pos hlater]
    have := hagain t t next ht harmed rfl hnext
    rwa [Function.update_eq_self_iff.mpr ht.symm] at this
  rw [if_neg hlater]
  by_cases hpos : 0 < t.interval
  · rw [dif_pos hpos, elapsed_some E hpos (not_lt.mp hlater) (hfits' t next ht harmed hnext (not_lt.mp hlater) hpos)]
    exact hagain t _ _ ht harmed rfl rfl
  · rw [dif_neg hpos]
    refine ⟨(by intro hdead; cases hdead), h.calls, fun key t' at_ hget hnext' => ?_⟩
    have hget' : Function.update w.timers due.key (some { t with next := none }) key = some t' := hget
    rw [Function.update_apply] at hget'
    split_ifs at hget' with heq
    · cases hget'
      cases hnext'
    · refine hkept { w with firing := .rests } (fun _ hd => hd) rfl rfl _ ?_ (h.scheduled key t' at_ hget' hnext')
      rintro rfl
      exact heq rfl

theorem Sound.stepFiring (h : Sound w) (i : ℕ) (hfits : w.fits E (.fires i)) : Sound (w.stepFiring E i) := by
  cases hf : w.firing with
  | dead => exact absurd hf h.firing
  | fires due now =>
    have := h.fire hf hfits
    rwa [World.stepFiring, hf]
  | rests =>
    have hnot : ∀ {d now}, w.firing ≠ .fires d now := fun hd => by rw [hf] at hd; cases hd
    unfold World.stepFiring
    rw [hf]
    dsimp only
    split
    · rename_i hready
      refine ⟨(by intro hdead; cases hdead), h.calls, fun key t at_ hget hnext => ?_⟩
      rcases h.scheduled key t at_ hget hnext with hd | hd | ⟨now, hd⟩ | hd
      · by_cases hlate : at_ ≤ w.clock
        · exact .inr (.inl (List.mem_filter.mpr ⟨hd, decide_eq_true hlate⟩))
        · exact .inl (List.mem_filter.mpr ⟨hd, decide_eq_true (not_le.mp hlate)⟩)
      · rw [hready] at hd
        cases hd
      · exact absurd hd hnot
      · exact .inr (.inr (.inr hd))
    · rename_i due rest hready
      refine ⟨(by intro hdead; cases hdead), h.calls, fun key t at_ hget hnext => ?_⟩
      rcases h.scheduled key t at_ hget hnext with hd | hd | ⟨now, hd⟩ | hd
      · exact .inl hd
      · by_cases heq : (⟨at_, key, t.armed⟩ : Due) = (w.ready[i]?).getD due
        · exact .inr (.inr (.inl ⟨w.clock, by rw [heq]⟩))
        · exact .inr (.inl ((List.mem_erase_of_ne heq).mpr hd))
      · exact absurd hd hnot
      · exact .inr (.inr (.inr hd))

/-- what a step of a thread's call comes to -/
theorem exec_move (tid : ℕ) (write : UInt64 → ℕ → ℕ → Except Errno Unit) :
    (w.exec E (.move tid write) = (w, none)) ∨
      (∃ key interval next now old, w.pc tid = .sets key interval next now old ∧
        ((w.timers key = none ∧ w.exec E (.move tid write) = (w.goTo tid .guest, some (.error EINVAL))) ∨
          ∃ t, w.timers key = some t ∧ w.exec E (.move tid write) =
            ((w.putTimer key (some { t with interval, next, armed := t.armed + 1 })).goTo tid
              (.arms key (t.armed + 1) interval next (t.interval, t.next) now old), none))) ∨
        ∃ key armed interval next was now old, w.pc tid = .arms key armed interval next was now old ∧
          ((∃ e, storeOld was now old write = .error e ∧ w.exec E (.move tid write) = (w.goTo tid .guest, some (.error e))) ∨
            storeOld was now old write = .ok () ∧ w.exec E (.move tid write) =
              ({ w with dues := (next.map fun at_ => (⟨at_, key, armed⟩ : Due)).toList ++ w.dues }.goTo tid .guest, some (.ok 0))) := by
  cases hpc : w.pc tid with
  | guest => exact .inl (by simp only [World.exec, hpc])
  | dead => exact .inl (by simp only [World.exec, hpc])
  | sets key interval next now old =>
    refine .inr (.inl ⟨key, interval, next, now, old, rfl, ?_⟩)
    cases ht : w.timers key with
    | none => exact .inl ⟨rfl, by simp only [World.exec, hpc, ht]⟩
    | some t => exact .inr ⟨t, rfl, by simp only [World.exec, hpc, ht]⟩
  | arms key armed interval next was now old =>
    refine .inr (.inr ⟨key, armed, interval, next, was, now, old, rfl, ?_⟩)
    cases hstore : storeOld was now old write with
    | error e => exact .inl ⟨e, rfl, by simp only [World.exec, hpc, hstore]⟩
    | ok u => exact .inr ⟨rfl, by simp only [World.exec, hpc, hstore]⟩

theorem Sound.step (h : Sound w) (a : Act) (hfits : w.fits E a) : Sound (w.next E a) := by
  cases a with
  | tick n => exact h.tick n
  | fires i => exact h.stepFiring i hfits
  | create key clock =>
    unfold World.next World.exec
    dsimp only
    split_ifs
    · refine h.put key fun t' ht' => ?_
      cases ht'
      rfl
    · exact h
  | delete key => exact h.put key fun t' ht' => by cases ht'
  | settime tid process a0 a1 a2 a3 mem clockNow =>
    unfold World.next World.exec
    dsimp only
    split
    · rename_i hpc
      split
      · exact h
      · rename_i pc hbegin
        obtain ⟨interval, next, value, rfl, _⟩ := begin_fits hfits hbegin
        refine h.goTo (by intro hdead; cases hdead) fun key armed interval' at_ was now old hpc' => ?_
        rw [hpc] at hpc'
        cases hpc'
    · exact h
  | move tid write =>
    rcases exec_move tid write with hexec | ⟨key, interval, next, now, old, hpc, ⟨_, hexec⟩ | ⟨t, _, hexec⟩⟩ |
      ⟨key, armed, interval, next, was, now, old, hpc, ⟨e, hstore, hexec⟩ | ⟨hstore, hexec⟩⟩
    · rw [World.next, hexec]
      exact h
    · rw [World.next, hexec]
      refine h.goTo (by intro hdead; cases hdead) fun key armed interval' at_ was now old hpc' => ?_
      rw [hpc] at hpc'
      cases hpc'
    · rw [World.next, hexec]
      exact h.set hpc
    · rw [World.next, hexec]
      refine h.goTo (by intro hdead; cases hdead) fun key' armed' interval' at_ was' now' old' hpc' => ?_
      -- the call has nothing to put on the schedule
      rw [World.fits, hpc] at hfits
      rw [hpc] at hpc'
      cases hpc'
      rcases hfits with hok | ⟨hnone, _⟩
      · rw [hstore] at hok
        cases hok
      · cases hnone
    · rw [World.next, hexec]
      have hkept : Sound { w with dues := (next.map fun at_ => (⟨at_, key, armed⟩ : Due)).toList ++ w.dues } :=
        ⟨h.firing, h.calls, fun key' t at_ hget hnext => (h.scheduled key' t at_ hget hnext).mono
          (fun _ hd => List.mem_append_right _ hd) rfl rfl
          fun tid' interval' was' now' old' hpc' => .inr (.inr (.inr ⟨tid', interval', was', now', old', hpc'⟩))⟩
      refine hkept.goTo (by intro hdead; cases hdead) fun key' armed' interval' at_ was' now' old' hpc' => ?_
      have hpc'' : w.pc tid = _ := hpc'
      rw [hpc] at hpc''
      cases hpc''
      exact List.mem_append_left _ (by simp)

/-- what a sound state's next steps come to -/
theorem Sound.safe (h : Sound w) : Safe E (w.fits E) w := by
  refine ⟨h, fun a e hfits he => ?_, ?_, fun a n hfits hn => ?_⟩
  · cases a with
    | settime tid process a0 a1 a2 a3 mem clockNow =>
      refine ⟨?_, ?_, fun _ _ _ _ _ _ _ _ _ ha => by cases ha⟩
      all_goals
        unfold World.next
        unfold World.exec at he ⊢
        dsimp only at he ⊢
        split at he
        · split at he
          · rfl
          · cases he
        · cases he
    | move tid write =>
      rcases exec_move tid write with hexec | ⟨key, interval, next, now, old, hpc, ⟨_, hexec⟩ | ⟨t, _, hexec⟩⟩ |
        ⟨key, armed, interval, next, was, now, old, hpc, ⟨e', hstore, hexec⟩ | ⟨hstore, hexec⟩⟩
      · rw [hexec] at he
        cases he
      · rw [World.next, hexec]
        refine ⟨rfl, rfl, fun tid' write' key' armed interval' next' was now' old' ha hpc' => ?_⟩
        cases ha
        rw [hpc] at hpc'
        cases hpc'
      · rw [hexec] at he
        cases he
      · rw [World.next, hexec]
        refine ⟨rfl, rfl, fun tid' write' key' armed' interval' next' was' now' old' ha hpc' => ?_⟩
        cases ha
        rw [World.fits, hpc] at hfits
        rw [hpc] at hpc'
        cases hpc'
        rcases hfits with hok | ⟨hnone, hwas⟩
        · rw [hstore] at hok
          cases hok
        · rw [hwas, hnone]
      · rw [hexec] at he
        cases he
    | _ => cases he
  · intro tid process a0 a1 a2 a3 mem clockNow key interval next now old hfits hguest hpc
    unfold World.next World.exec at hpc
    simp only [hguest] at hpc
    split at hpc
    · rw [hguest] at hpc
      cases hpc
    · rename_i pc hbegin
      obtain ⟨interval', next', value, rfl, hvalue, hzero⟩ := begin_fits hfits hbegin
      have hpc' : Function.update w.pc tid _ tid = _ := hpc
      rw [Function.update_self] at hpc'
      cases hpc'
      exact ⟨value, hvalue, hzero⟩
  · cases a with
    | settime tid process a0 a1 a2 a3 mem clockNow =>
      unfold World.exec at hn
      dsimp only at hn
      split at hn
      · split at hn <;> cases hn
      · cases hn
    | move tid write =>
      rcases exec_move tid write with hexec | ⟨key, interval, next, now, old, hpc, ⟨_, hexec⟩ | ⟨t, _, hexec⟩⟩ |
        ⟨key, armed, interval, next, was, now, old, hpc, ⟨e', hstore, hexec⟩ | ⟨hstore, hexec⟩⟩
      · rw [hexec] at hn
        cases hn
      · rw [hexec] at hn
        cases hn
      · rw [hexec] at hn
        cases hn
      · rw [hexec] at hn
        cases hn
      · refine ⟨tid, write, rfl, key, armed, interval, next, was, now, old, hpc, fun at_ hnext => ?_⟩
        rw [World.next, hexec, hnext]
        exact List.mem_cons_self
    | _ => cases hn

end

/-! ## Every run -/

theorem sound_start : Sound {} := by
  refine ⟨?_, ?_, ?_⟩
  · intro hdead
    cases hdead
  · intro tid hdead
    cases hdead
  · intro key t at_ hget
    cases hget

/-- **A timer is set safely**, on a host of any clock, in every run in which the sums of clock and time stay below the clock's end and
a setting's old value can be written where it is asked for. -/
theorem settime_safe {w : World} (h : Reach (World.next E) (World.fits E) {} w) : Safe E (w.fits E) w :=
  Sound.safe (h.invariant Sound sound_start fun _ a _ hfits hs => hs.step a hfits)

end

/-- where the host's clock has `i64` seconds -/
def unixEnd : ℕ := 2 ^ 63 * SECOND

/-- an `itimerspec` at 4096, and nothing else -/
def specAt (interval value : Int64 × Int64) : GuestMem where
  read a := if a = 4096 then .ok interval else if a = 4112 then .ok value else .error EFAULT
  inside := by
    intro a v h
    split_ifs at h with h0 h1
    · rw [h0]
      decide
    · rw [h1]
      decide

/-- a thread sets a timer, with its old setting to be stored at `old` if it is not null -/
def setRun (interval value : Int64 × Int64) (old : UInt64) : List Act :=
  [.tick SECOND, .create (0, 0) 1, .settime 1 0 0 0 4096 old (specAt interval value) fun _ => .ok 0, .move 1 fun _ _ _ => .error EFAULT,
    .move 1 fun _ _ _ => .error EFAULT]

theorem setRun_fits : Allowed (World.next unixEnd) (World.fits unixEnd) {} (setRun (0, 5) (0, 5) 0) := by
  refine ⟨trivial, trivial, ?_, trivial, .inl rfl, trivial⟩
  intro interval value t d _ hvalue _ _ hd
  cases hvalue
  cases hd
  decide

theorem settime_safe_set : Safe unixEnd (World.fits unixEnd (run (World.next unixEnd) {} (setRun (0, 5) (0, 5) 0)))
    (run (World.next unixEnd) {} (setRun (0, 5) (0, 5) 0)) :=
  settime_safe unixEnd (.run .start _ setRun_fits)

/-- the largest time panics the thread that sets it -/
theorem settime_not_safe : ¬∀ w, Reach (World.next unixEnd) anyStep {} w → Safe unixEnd (fun _ => True) w := by
  intro h
  have hpanic := h _ (reach_run (World.next unixEnd) {} (setRun (0, 0) (9223372036854775807, 0) 0))
  exact hpanic.calls 1 (by decide)

/-- a setting whose old one cannot be written stays, off the schedule -/
theorem settime_unscheduled : ¬Sound (run (World.next unixEnd) {} (setRun (0, 0) (0, 5) 8192)) := by
  have hguest : ∀ tid, (run (World.next unixEnd) {} (setRun (0, 0) (0, 5) 8192)).pc tid = .guest := by
    intro tid
    by_cases htid : tid = 1
    · subst htid
      decide
    · exact (Function.update_of_ne htid _ _).trans ((Function.update_of_ne htid _ _).trans (Function.update_of_ne htid _ _))
  intro h
  rcases h.scheduled (0, 0) ⟨1, 0, some 1000000005, 1⟩ 1000000005 (by decide) rfl with hd | hd | ⟨now, hd⟩ |
    ⟨tid, interval, was, now, old, hd⟩
  · revert hd
    decide
  · revert hd
    decide
  · cases hd
  · rw [hguest tid] at hd
    cases hd

end Omnidroid.TimerSettime
