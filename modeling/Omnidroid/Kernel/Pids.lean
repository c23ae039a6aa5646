/-
Process and thread ids of one host process (`allocate_pid`, `allocate_tid` and `Process`'s drop of `omni-linux/src/process.rs`).
A process gets a thousand of its own, its threads' ids are counted on from there, and a process goes when its last task has.
- `Unique`: no two tasks alive have one id, and every id is positive.
- `ids_unique`: so in every run where no process's count leaves its thousand and an assigned pid is the first of one not taken.
- `ids_meet`: a process's thousandth thread has the id of its neighbour's main task.
-/
import Mathlib.Logic.Function.Basic
import Omnidroid.Lib.Run

namespace Omnidroid.Pids

def I32_MAX : ℤ := 2 ^ 31 - 1

def SLOTS : ℕ := 4194304 / 1000

/-- one more, as an `AtomicI32` counts -/
def succ32 (n : ℤ) : ℤ := if n = I32_MAX then -2 ^ 31 else n + 1

structure Proc where
  pid : ℤ
  nextTid : ℤ
  /-- the ids of its tasks, those of threads that ended taken out -/
  tasks : List ℤ
deriving DecidableEq

structure World where
  /-- `LIVE_PIDS` -/
  live : List ℤ := []
  /-- `LAST` -/
  last : ℕ := 0
  /-- `ASSIGNED_PID` -/
  assigned : Option ℤ := none
  procs : ℕ → Option Proc := fun _ => none
  nextProc : ℕ := 0

inductive Act where
  /-- `assign_next_pid` -/
  | assign (pid : ℤ)
  /-- `reserve_pid`: a pid for a process of another host process -/
  | reserve
  /-- a fork or a spawn -/
  | create
  /-- a thread is made in a process; whether it starts -/
  | thread (proc : ℕ) (starts : Bool)
  /-- a task ends, the main one or another; a process exits as its tasks end -/
  | ends (proc : ℕ) (tid : ℤ)
  /-- the last reference to a process goes; each of its tasks holds one -/
  | drop (proc : ℕ)
deriving DecidableEq

namespace World

/-- the `step`th thousand after the last one given -/
def slot (w : World) (step : ℕ) : ℕ := ((w.last / 1000 + step) % SLOTS + 1) * 1000

/-- the pid assigned, or the next free thousand; none when all are taken, where the host process panics -/
def allocatePid (w : World) : Option (ℤ × World) :=
  match w.assigned with
  | some pid => some (pid, { w with assigned := none, live := pid :: w.live })
  | none =>
    (((List.range SLOTS).map w.slot).find? fun p : ℕ => (p : ℤ) ∉ w.live).map fun p : ℕ =>
      ((p : ℤ), { w with last := p, live := (p : ℤ) :: w.live })

/-- a new process, its main task under its pid -/
def assemble (w : World) (pid : ℤ) : World :=
  { w with
    procs := Function.update w.procs w.nextProc (some { pid, nextTid := succ32 pid, tasks := [pid] })
    nextProc := w.nextProc + 1 }

def setProc (w : World) (k : ℕ) (p : Proc) : World := { w with procs := Function.update w.procs k (some p) }

/-- a thread id taken, and a task under it if the thread starts -/
def allocateTid (p : Proc) (starts : Bool) : Proc :=
  { p with nextTid := succ32 p.nextTid, tasks := if starts then p.nextTid :: p.tasks else p.tasks }

def step (w : World) : Act → World
  | .assign pid => { w with assigned := some pid }
  | .reserve =>
    match w.allocatePid with
    | some (_, w') => w'
    | none => w
  | .create =>
    match w.allocatePid with
    | some (pid, w') => w'.assemble pid
    | none => w
  | .thread k starts =>
    match w.procs k with
    | some p => w.setProc k (allocateTid p starts)
    | none => w
  | .ends k tid =>
    match w.procs k with
    | some p => w.setProc k { p with tasks := p.tasks.erase tid }
    | none => w
  | .drop k =>
    match w.procs k with
    | some p =>
      if p.tasks = [] then { w with procs := Function.update w.procs k none, live := w.live.filter (· ≠ p.pid) } else w
    | none => w

/-- the first of a thousand ids -/
def First (pid : ℤ) : Prop := 0 < pid ∧ pid % 1000 = 0 ∧ pid + 1000 ≤ I32_MAX

/-- an assigned pid is the first of a thousand that is not taken; a process's count is in its thousand -/
def steady (w : World) : Act → Prop
  | .assign pid => First pid ∧ pid ∉ w.live
  | .thread k _ => ∀ p ∈ w.procs k, p.nextTid < p.pid + 1000
  | _ => True

end World

/-- the tasks alive, each of its process -/
def Alive (w : World) (k : ℕ) (tid : ℤ) : Prop := ∃ p, w.procs k = some p ∧ tid ∈ p.tasks

structure Unique (w : World) : Prop where
  /-- no id is two processes' -/
  apart : ∀ k k' tid, Alive w k tid → Alive w k' tid → k = k'
  /-- nor two tasks' of one -/
  once : ∀ k p, w.procs k = some p → p.tasks.Nodup
  positive : ∀ k tid, Alive w k tid → 0 < tid

/-! ## Thousands -/

open World

structure InThousand (p : Proc) : Prop where
  first : First p.pid
  next : p.pid < p.nextTid ∧ p.nextTid ≤ p.pid + 1000
  tasks : ∀ t ∈ p.tasks, p.pid ≤ t ∧ t < p.nextTid
  nodup : p.tasks.Nodup

/-- every process keeps to its thousand, and no two have one -/
structure Inv (w : World) : Prop where
  procs : ∀ k p, w.procs k = some p → InThousand p ∧ p.pid ∈ w.live
  apart : ∀ k k' p p', w.procs k = some p → w.procs k' = some p' → p.pid = p'.pid → k = k'
  assigned : ∀ pid ∈ w.assigned, First pid ∧ pid ∉ w.live
  fresh : ∀ k, w.nextProc ≤ k → w.procs k = none

theorem succ32_of_lt {n : ℤ} (h : n < I32_MAX) : succ32 n = n + 1 := by
  rw [succ32, if_neg h.ne]

theorem slot_first (w : World) (step : ℕ) : First (w.slot step) := by
  have hlt : (w.last / 1000 + step) % SLOTS < SLOTS := Nat.mod_lt _ (by decide)
  have hslots : SLOTS = 4194 := rfl
  have hmax : I32_MAX = 2147483647 := rfl
  unfold slot First
  generalize (w.last / 1000 + step) % SLOTS = n at hlt
  omega

/-- the pid given is the first of a thousand that was free -/
theorem allocatePid_spec {w w' : World} {pid : ℤ} (hi : Inv w) (h : w.allocatePid = some (pid, w')) :
    First pid ∧ pid ∉ w.live ∧ w'.live = pid :: w.live ∧ w'.assigned = none ∧ w'.procs = w.procs ∧ w'.nextProc = w.nextProc := by
  unfold allocatePid at h
  cases ha : w.assigned with
  | some q =>
    rw [ha] at h
    cases h
    obtain ⟨hf, hn⟩ := hi.assigned pid ha
    exact ⟨hf, hn, rfl, rfl, rfl, rfl⟩
  | none =>
    rw [ha] at h
    obtain ⟨p, hp, he⟩ := Option.map_eq_some_iff.mp h
    obtain ⟨hpid, hw⟩ := Prod.mk.inj he
    have hnot : (p : ℤ) ∉ w.live := by simpa using List.find?_some hp
    obtain ⟨step, -, hs⟩ := List.mem_map.mp (List.mem_of_find?_eq_some hp)
    have hfirst : First (p : ℤ) := hs ▸ slot_first w step
    rw [← hpid, ← hw]
    exact ⟨hfirst, hnot, rfl, rfl, rfl, rfl⟩

theorem assemble_self (w : World) (pid : ℤ) :
    (w.assemble pid).procs w.nextProc = some { pid, nextTid := succ32 pid, tasks := [pid] } := Function.update_self ..

theorem assemble_other {w : World} {k : ℕ} (h : k ≠ w.nextProc) (pid : ℤ) : (w.assemble pid).procs k = w.procs k :=
  Function.update_of_ne h ..

theorem setProc_self (w : World) (k : ℕ) (p : Proc) : (w.setProc k p).procs k = some p := Function.update_self ..

theorem setProc_other {w : World} {j k : ℕ} (h : j ≠ k) (p : Proc) : (w.setProc k p).procs j = w.procs j :=
  Function.update_of_ne h ..

/-! ## What a step keeps -/

theorem inv_init : Inv {} where
  procs _ _ h := by cases h
  apart _ _ _ _ h := by cases h
  assigned _ h := by cases h
  fresh _ _ := rfl

/-- a pid given, to no process yet -/
theorem inv_allocate {w w' : World} {pid : ℤ} (hi : Inv w) (h : w.allocatePid = some (pid, w')) : Inv w' := by
  obtain ⟨-, -, hlive, hassigned, hprocs, hnext⟩ := allocatePid_spec hi h
  constructor
  · intro k p hp
    rw [hprocs] at hp
    obtain ⟨hin, hl⟩ := hi.procs k p hp
    exact ⟨hin, by rw [hlive]; exact List.mem_cons_of_mem _ hl⟩
  · rw [hprocs]
    exact hi.apart
  · intro q hq
    rw [hassigned] at hq
    cases hq
  · rw [hprocs, hnext]
    exact hi.fresh

theorem inv_assemble {w w' : World} {pid : ℤ} (hi : Inv w) (h : w.allocatePid = some (pid, w')) : Inv (w'.assemble pid) := by
  obtain ⟨hfirst, hnot, hlive, hassigned, hprocs, hnext⟩ := allocatePid_spec hi h
  have hi' := inv_allocate hi h
  have hold : ∀ k p, w'.procs k = some p → p.pid ≠ pid := by
    intro k p hp he
    rw [hprocs] at hp
    exact hnot (he ▸ (hi.procs k p hp).2)
  constructor
  · intro k p hp
    rcases eq_or_ne k w'.nextProc with rfl | hk
    · rw [assemble_self] at hp
      cases hp
      have hs : succ32 pid = pid + 1 := succ32_of_lt (by unfold First at hfirst; omega)
      refine ⟨⟨hfirst, ?_, ?_, List.nodup_singleton pid⟩, ?_⟩
      · simp only [hs]
        omega
      · intro t ht
        cases List.mem_singleton.mp ht
        simp only [hs]
        omega
      · change pid ∈ w'.live
        rw [hlive]
        exact List.mem_cons_self
    · rw [assemble_other hk] at hp
      exact hi'.procs k p hp
  · intro k k' p p' hp hp' he
    rcases eq_or_ne k w'.nextProc with rfl | hk
    · rcases eq_or_ne k' w'.nextProc with rfl | hk'
      · rfl
      · rw [assemble_self] at hp
        rw [assemble_other hk'] at hp'
        cases hp
        exact absurd he.symm (hold k' p' hp')
    · rw [assemble_other hk] at hp
      rcases eq_or_ne k' w'.nextProc with rfl | hk'
      · rw [assemble_self] at hp'
        cases hp'
        exact absurd he (hold k p hp)
      · rw [assemble_other hk'] at hp'
        exact hi'.apart k k' p p' hp hp' he
  · exact hi'.assigned
  · intro k hk
    have hk' : w'.nextProc + 1 ≤ k := hk
    rw [assemble_other (by omega)]
    exact hi'.fresh k (by omega)

/-- a process changed, its pid as it was -/
theorem inv_setProc {w : World} {k : ℕ} {p p' : Proc} (hi : Inv w) (hp : w.procs k = some p) (hpid : p'.pid = p.pid)
    (hin : InThousand p') : Inv (w.setProc k p') := by
  have hold : ∀ j q, (w.setProc k p').procs j = some q → ∃ q', w.procs j = some q' ∧ q'.pid = q.pid ∧ InThousand q := by
    intro j q hq
    rcases eq_or_ne j k with rfl | hj
    · rw [setProc_self] at hq
      cases hq
      exact ⟨p, hp, hpid.symm, hin⟩
    · rw [setProc_other hj] at hq
      exact ⟨q, hq, rfl, (hi.procs j q hq).1⟩
  constructor
  · intro j q hq
    obtain ⟨q', hq', he, hq''⟩ := hold j q hq
    exact ⟨hq'', he ▸ (hi.procs j q' hq').2⟩
  · intro j j' q r hq hr he
    obtain ⟨q', hq', heq, -⟩ := hold j q hq
    obtain ⟨r', hr', her, -⟩ := hold j' r hr
    exact hi.apart j j' q' r' hq' hr' (by rw [heq, her, he])
  · exact hi.assigned
  · intro j hj
    have hjk : j ≠ k := by
      rintro rfl
      rw [hi.fresh j hj] at hp
      cases hp
    rw [setProc_other hjk]
    exact hi.fresh j hj

theorem inThousand_thread {p : Proc} (hin : InThousand p) (hlt : p.nextTid < p.pid + 1000) (starts : Bool) :
    InThousand (allocateTid p starts) := by
  obtain ⟨hfirst, hnext, htasks, hnodup⟩ := hin
  have hs : succ32 p.nextTid = p.nextTid + 1 := succ32_of_lt (by unfold First at hfirst; omega)
  have hfresh : p.nextTid ∉ p.tasks := fun h => absurd (htasks _ h).2 (by omega)
  refine ⟨hfirst, ?_, ?_, ?_⟩
  · change p.pid < succ32 p.nextTid ∧ succ32 p.nextTid ≤ p.pid + 1000
    omega
  · intro t ht
    change p.pid ≤ t ∧ t < succ32 p.nextTid
    cases starts with
    | false =>
      have hb := htasks t ht
      omega
    | true =>
      rcases List.mem_cons.mp ht with rfl | ht
      · omega
      · have hb := htasks t ht
        omega
  · cases starts with
    | false => exact hnodup
    | true => exact List.nodup_cons.mpr ⟨hfresh, hnodup⟩

theorem inThousand_ends {p : Proc} (hin : InThousand p) (tid : ℤ) : InThousand { p with tasks := p.tasks.erase tid } :=
  ⟨hin.first, hin.next, fun t ht => hin.tasks t (List.mem_of_mem_erase ht), hin.nodup.erase tid⟩

theorem inv_drop {w : World} {k : ℕ} {p : Proc} (hi : Inv w) (hp : w.procs k = some p) :
    Inv { w with procs := Function.update w.procs k none, live := w.live.filter (· ≠ p.pid) } := by
  have hold : ∀ {j q}, Function.update w.procs k none j = some q → j ≠ k ∧ w.procs j = some q := by
    intro j q hq
    rcases eq_or_ne j k with rfl | hj
    · rw [Function.update_self] at hq
      cases hq
    · rw [Function.update_of_ne hj] at hq
      exact ⟨hj, hq⟩
  constructor
  · intro j q hq
    obtain ⟨hj, hq⟩ := hold hq
    obtain ⟨hin, hl⟩ := hi.procs j q hq
    have hne : q.pid ≠ p.pid := fun he => hj (hi.apart j k q p hq hp he)
    exact ⟨hin, List.mem_filter.mpr ⟨hl, by simpa using hne⟩⟩
  · intro j j' q r hq hr he
    exact hi.apart j j' q r (hold hq).2 (hold hr).2 he
  · intro pid hpid
    obtain ⟨hf, hn⟩ := hi.assigned pid hpid
    exact ⟨hf, fun h => hn (List.mem_filter.mp h).1⟩
  · intro j hj
    have hjk : j ≠ k := by
      rintro rfl
      rw [hi.fresh j hj] at hp
      cases hp
    change Function.update w.procs k none j = none
    rw [Function.update_of_ne hjk]
    exact hi.fresh j hj

theorem step_inv {w : World} (hi : Inv w) (a : Act) (ho : w.steady a) : Inv (w.step a) := by
  cases a with
  | assign pid =>
    exact ⟨hi.procs, hi.apart, fun q hq => by cases hq; exact ho, hi.fresh⟩
  | reserve =>
    simp only [step]
    cases h : w.allocatePid with
    | none => exact hi
    | some r => exact inv_allocate hi h
  | create =>
    simp only [step]
    cases h : w.allocatePid with
    | none => exact hi
    | some r => exact inv_assemble hi h
  | thread k starts =>
    simp only [step]
    cases hp : w.procs k with
    | none => exact hi
    | some p => exact inv_setProc hi hp rfl (inThousand_thread (hi.procs k p hp).1 (ho p hp) starts)
  | ends k tid =>
    simp only [step]
    cases hp : w.procs k with
    | none => exact hi
    | some p => exact inv_setProc hi hp rfl (inThousand_ends (hi.procs k p hp).1 tid)
  | drop k =>
    simp only [step]
    cases hp : w.procs k with
    | none => exact hi
    | some p =>
      dsimp only
      split_ifs
      · exact inv_drop hi hp
      · exact hi

/-! ## Ids -/

/-- an id between two numbers of one thousand tells which thousand it is -/
theorem pid_of_task {p p' : Proc} {t : ℤ} (hp : InThousand p) (hp' : InThousand p') (ht : t ∈ p.tasks) (ht' : t ∈ p'.tasks) :
    p.pid = p'.pid := by
  have h := hp.tasks t ht
  have h' := hp'.tasks t ht'
  have hn := hp.next
  have hn' := hp'.next
  have hf := hp.first.2.1
  have hf' := hp'.first.2.1
  omega

/-- **Ids are unique.** In every run in which no process's count of threads leaves its thousand, and an assigned pid is the
first of a thousand that is not taken. -/
theorem ids_unique {w : World} (h : Reach World.step World.steady {} w) : Unique w := by
  have hi : Inv w := h.invariant Inv inv_init fun _ a _ ho hs => step_inv hs a ho
  refine ⟨?_, ?_, ?_⟩
  · rintro k k' tid ⟨p, hp, ht⟩ ⟨p', hp', ht'⟩
    exact hi.apart k k' p p' hp hp' (pid_of_task (hi.procs k p hp).1 (hi.procs k' p' hp').1 ht ht')
  · intro k p hp
    exact (hi.procs k p hp).1.nodup
  · rintro k tid ⟨p, hp, ht⟩
    obtain ⟨hin, -⟩ := hi.procs k p hp
    exact lt_of_lt_of_le hin.first.1 (hin.tasks tid ht).1

instance decFirst (pid : ℤ) : Decidable (First pid) := inferInstanceAs (Decidable (0 < pid ∧ pid % 1000 = 0 ∧ pid + 1000 ≤ I32_MAX))

instance decSteady (w : World) : (a : Act) → Decidable (w.steady a)
  | .assign pid => inferInstanceAs (Decidable (First pid ∧ pid ∉ w.live))
  | .thread k _ =>
    match h : w.procs k with
    | some p => decidable_of_iff (p.nextTid < p.pid + 1000) (by simp [World.steady, h])
    | none => .isTrue (by simp [World.steady, h])
  | .reserve | .create | .ends .. | .drop _ => .isTrue trivial

/-- two processes, the second under an assigned pid, and a thread in each -/
def twoProcs : List Act := [.create, .thread 0 true, .assign 5000, .create, .thread 1 true, .ends 0 1000]

set_option maxRecDepth 50000 in
theorem ids_unique_two : Unique (run World.step {} twoProcs) := ids_unique (.run .start twoProcs (by decide))

/-- threads that do not start use up ids all the same -/
theorem run_failing {k : ℕ} (n : ℕ) {w : World} {p : Proc} (hp : w.procs k = some p) (hle : p.nextTid + n ≤ I32_MAX) :
    run World.step w (List.replicate n (.thread k false)) = w.setProc k { p with nextTid := p.nextTid + n } := by
  induction n generalizing w p with
  | zero =>
    have hself : Function.update w.procs k (some p) = w.procs := by rw [← hp, Function.update_eq_self]
    simp [run, setProc, hself]
  | succ n ih =>
    have hs : succ32 p.nextTid = p.nextTid + 1 := succ32_of_lt (by push_cast at hle; omega)
    have hstep : w.step (.thread k false) = w.setProc k { p with nextTid := p.nextTid + 1 } := by
      simp only [step, hp, allocateTid, hs, Bool.false_eq_true, if_false]
    have hrun := ih (setProc_self w k { p with nextTid := p.nextTid + 1 }) (by push_cast at hle ⊢; omega)
    change run World.step (w.step (.thread k false)) (List.replicate n (.thread k false)) = _
    rw [hstep, hrun]
    simp only [setProc, Function.update_idem, Nat.cast_add, Nat.cast_one]
    rw [add_assoc, add_comm (1 : ℤ)]

/-- one process, and as many threads as use its thousand up; then its neighbour, and one more thread -/
def fullThousand : List Act := [.create] ++ List.replicate 999 (.thread 0 false) ++ [.create, .thread 0 true]

set_option maxRecDepth 50000 in
/-- **A thread meets its neighbour.** -/
theorem ids_meet : ¬Unique (run World.step {} fullThousand) := by
  have hstart : (World.step {} .create).procs 0 = some { pid := 1000, nextTid := 1001, tasks := [1000] } := by decide
  have hrun : run World.step {} fullThousand =
      run World.step ((World.step {} .create).setProc 0 { pid := 1000, nextTid := 2000, tasks := [1000] }) [.create, .thread 0 true] := by
    have hthreads := run_failing 999 hstart (by decide)
    simp only [run] at hthreads
    simp only [fullThousand, run, List.foldl_append, List.foldl_cons, List.foldl_nil, hthreads]
    norm_num
  rw [hrun]
  intro hu
  have h₀ : Alive (run World.step ((World.step {} .create).setProc 0 { pid := 1000, nextTid := 2000, tasks := [1000] })
      [.create, .thread 0 true]) 0 2000 := ⟨{ pid := 1000, nextTid := 2001, tasks := [2000, 1000] }, by decide, by decide⟩
  have h₁ : Alive (run World.step ((World.step {} .create).setProc 0 { pid := 1000, nextTid := 2000, tasks := [1000] })
      [.create, .thread 0 true]) 1 2000 := ⟨{ pid := 2000, nextTid := 2001, tasks := [2000] }, by decide, by decide⟩
  exact absurd (hu.apart 0 1 2000 h₀ h₁) (by decide)

end Omnidroid.Pids
