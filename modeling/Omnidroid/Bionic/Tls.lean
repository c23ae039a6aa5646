/-
`pthread_key_*` and the sweep of a thread's exit (`omni-bionic/src/tls.rs`).

A registry's keys are slots with a generation each; a thread's values are a block of pairs, a generation and a value; a host
thread keeps the blocks it has found in a cache of its own. Any host thread serves any guest thread, one call at a time, and
between two steps of a sweep, where a destructor runs, anything may be called, other sweeps included.
- `keyCreate`, `keyDelete`, `setspecific`, `getspecific`, `threadAtexit`, `sweepStep`: the code, `takeExitWork` a step at a time.
- `Event`, `lookup`, `destructor`, `pending`: what happened, and what it says a key holds, destroys, and is left to run. These
  know no slots, blocks or caches.
- `Right`: what each event must be, given those before it.
- `Inv`: how the state holds what the log says. `step_inv` keeps it.
- `tls_storage`: every run's log is right; no stored value is passed to a destructor twice.
-/
import Omnidroid.Lib.Run

namespace Omnidroid.Bionic.Tls

/-! ## The code -/

def PTHREAD_KEYS_MAX : ℕ := 128
def PTHREAD_DESTRUCTOR_ITERATIONS : ℕ := 4
def CACHE_ENTRIES : ℕ := 4
def EAGAIN : ℕ := 11
def EINVAL : ℕ := 22
def u64Max : ℕ := 2 ^ 64 - 1

structure KeySlot where
  dtor : ℕ
  generation : ℕ
deriving DecidableEq

structure ValuePair where
  generation : ℕ := 0
  value : ℕ := 0

def ValuePair.read (p : ValuePair) (generation : ℕ) : ℕ := if p.generation = generation then p.value else 0

structure ThreadValues where
  retired : Bool := false
  pairs : ℕ → ValuePair := fun _ => {}

structure TlsRegistry where
  generations : ℕ → ℕ := fun _ => 0
  keys : List KeySlot := []
  /-- by guest thread: destructor, object, stamp -/
  threadAtexit : ℕ → Option (List (ℕ × ℕ × ℕ)) := fun _ => none
  generation : ℕ := 0
  atexitStamp : ℕ := 0
  /-- by guest thread: its block -/
  threads : ℕ → Option ℕ := fun _ => none

namespace TlsRegistry

def liveGeneration (r : TlsRegistry) (idx : ℕ) : Option ℕ :=
  if idx < PTHREAD_KEYS_MAX then if r.generations idx ≠ 0 then some (r.generations idx) else none else none

/-- the slot `idx`, filled; none where the generations have run out -/
def fill (r : TlsRegistry) (keys : ℕ → List KeySlot) (idx : ℕ) : Option TlsRegistry :=
  if r.generation + 1 ≤ u64Max then
    some { r with
      generation := r.generation + 1
      keys := keys (r.generation + 1)
      generations := Function.update r.generations idx (r.generation + 1) }
  else none

def keyCreate (r : TlsRegistry) (dtor : ℕ) : Option (Except ℕ ℕ × TlsRegistry) :=
  if PTHREAD_KEYS_MAX ≤ r.keys.length then
    -- a freed slot first
    match r.keys.findIdx? fun s => s.dtor = u64Max ∧ s.generation = 0 with
    | some idx => (r.fill (fun gen => r.keys.set idx ⟨dtor, gen⟩) idx).map fun r' => (.ok idx, r')
    | none => some (.error EAGAIN, r)
  else (r.fill (fun gen => r.keys ++ [⟨dtor, gen⟩]) r.keys.length).map fun r' => (.ok r.keys.length, r')

def keyDelete (r : TlsRegistry) (key : ℕ) : ℕ × TlsRegistry :=
  match r.keys[key]? with
  | none => (EINVAL, r)
  | some slot =>
    (if slot.generation ≠ 0 then 0 else EINVAL,
      { r with keys := r.keys.set key ⟨u64Max, 0⟩, generations := Function.update r.generations key 0 })

def atexit (r : TlsRegistry) (thread dtor object : ℕ) : TlsRegistry :=
  { r with
    atexitStamp := r.atexitStamp + 1
    threadAtexit := Function.update r.threadAtexit thread
      (some ((r.threadAtexit thread).getD [] ++ [(dtor, object, r.atexitStamp + 1)])) }

end TlsRegistry

/-- a block a host thread has looked up -/
structure Cached where
  registry : ℕ
  thread : ℕ
  values : ℕ

def Cached.mine (registry thread : ℕ) (c : Cached) : Bool := c.registry = registry ∧ c.thread = thread

/-- the process: registries by identity, blocks by address, caches by host thread (none once its locals are gone) -/
structure World where
  registries : ℕ → TlsRegistry := fun _ => {}
  blocks : ℕ → ThreadValues := fun _ => {}
  allocated : ℕ := 0
  caches : ℕ → Option (List Cached) := fun _ => some []

namespace World

variable (w : World) (host registry thread : ℕ)

def usable (c : Cached) : Bool := c.mine registry thread && !(w.blocks c.values).retired

def setRegistry (r : TlsRegistry) : World := { w with registries := Function.update w.registries registry r }

/-- the block of a thread in the map -/
def setThread (b : Option ℕ) : World :=
  w.setRegistry registry { w.registries registry with
    threads := Function.update (w.registries registry).threads thread b }

def setCache (cache : List Cached) : World := { w with caches := Function.update w.caches host (some cache) }

/-- the entry for a thread in the map, made if there is none -/
def orInsert : ℕ × World :=
  match (w.registries registry).threads thread with
  | some b => (b, w)
  | none =>
    (w.allocated,
      { w.setThread registry thread (some w.allocated) with
        blocks := Function.update w.blocks w.allocated {}
        allocated := w.allocated + 1 })

def threadValues : ℕ × World :=
  match w.caches host with
  | none => w.orInsert registry thread
  | some cache =>
    match cache.findIdx? (w.usable registry thread) with
    | some at' =>
      match cache[at']? with
      | some entry => (entry.values, w.setCache host (entry :: cache.eraseIdx at'))
      | none => w.orInsert registry thread
    | none =>
      let (b, w') := w.orInsert registry thread
      let kept := cache.filter fun c => !c.mine registry thread && !(w'.blocks c.values).retired
      (b, w'.setCache host ((⟨registry, thread, b⟩ :: kept).take CACHE_ENTRIES))

/-- the block of a thread: the first of the host thread's cache, else the slow way -/
def withValues : ℕ × World :=
  match w.caches host with
  | some (hit :: _) => if w.usable registry thread hit then (hit.values, w) else w.threadValues host registry thread
  | _ => w.threadValues host registry thread

def write (b idx generation value : ℕ) : World :=
  { w with blocks := Function.update w.blocks b { w.blocks b with
      pairs := Function.update (w.blocks b).pairs idx ⟨generation, value⟩ } }

def retire : World :=
  let w' := match (w.registries registry).threads thread with
    | none => w
    | some b =>
      { w.setThread registry thread none with
        blocks := Function.update w.blocks b { w.blocks b with retired := true } }
  match w'.caches host with
  | none => w'
  | some cache => w'.setCache host (cache.filter fun c => !c.mine registry thread)

def setspecific (key value : ℕ) : ℕ × World :=
  match (w.registries registry).liveGeneration key with
  | none => (EINVAL, w)
  | some generation =>
    let (b, w') := w.withValues host registry thread
    (0, w'.write b key generation value)

def getspecific (key : ℕ) : ℕ × World :=
  match (w.registries registry).liveGeneration key with
  | none => (0, w)
  | some generation =>
    let (b, w') := w.withValues host registry thread
    (((w'.blocks b).pairs key).read generation, w')

end World

/-! ## The sweep of a thread's exit -/

inductive Pc where
  | atexit
  /-- the round, the slot the walk is at, and how many destructors the round has called -/
  | round (n idx called : ℕ)
  | leftover
  | done

/-- a call of `take_exit_work` under way, and the list it will return -/
structure Sweep where
  host : ℕ
  registry : ℕ
  thread : ℕ
  pc : Pc := .atexit
  work : List (ℕ × ℕ) := []

/-- what happened: sweeps by number, threads and keys of a registry -/
inductive Event where
  | created (registry key dtor : ℕ)
  /-- `EAGAIN` -/
  | refused (registry : ℕ)
  | deleted (registry key : ℕ)
  | stored (registry thread key value : ℕ)
  | got (registry thread key value : ℕ)
  | registered (registry thread dtor object : ℕ)
  /-- a handler of `thread_atexit` is run -/
  | handled (sweep registry thread dtor object : ℕ)
  /-- no handler is left to the sweep -/
  | drained (sweep registry thread : ℕ)
  /-- a value is cleared and its key's destructor run -/
  | passed (sweep registry thread round key dtor value : ℕ)
  /-- a thread's storage is given back -/
  | retired (registry thread : ℕ)
deriving DecidableEq

def Sweep.goTo (f : Sweep) (pc : Pc) : Sweep := { f with pc }

def Sweep.call (f : Sweep) (pc : Pc) (dtor value : ℕ) : Sweep := { f with pc, work := f.work ++ [(dtor, value)] }

/-- a sweep up to its next call of a destructor, or less -/
def World.sweepStep (w : World) (s : ℕ) (f : Sweep) : World × Sweep × Option Event :=
  let r := w.registries f.registry
  match f.pc with
  | .atexit =>
    match ((r.threadAtexit f.thread).getD []).getLast? with
    | none =>
      (w.setRegistry f.registry { r with threadAtexit := Function.update r.threadAtexit f.thread none },
        f.goTo (.round 0 0 0), some (.drained s f.registry f.thread))
    | some (dtor, object, _) =>
      (w.setRegistry f.registry { r with
          threadAtexit := Function.update r.threadAtexit f.thread
            (some ((r.threadAtexit f.thread).getD []).dropLast) },
        f.call .atexit dtor object, some (.handled s f.registry f.thread dtor object))
  | .round n idx called =>
    if n = PTHREAD_DESTRUCTOR_ITERATIONS then (w, f.goTo .leftover, none)
    else
      match r.keys[idx]? with
      | none => (w, f.goTo (if called = 0 then .leftover else .round (n + 1) 0 0), none)
      | some slot =>
        let dtor := if slot.dtor = u64Max then 0 else slot.dtor
        if slot.generation = 0 ∨ dtor = 0 then (w, f.goTo (.round n (idx + 1) called), none)
        else
          let (b, w') := w.withValues f.host f.registry f.thread
          let v := ((w'.blocks b).pairs idx).read slot.generation
          if v ≠ 0 then
            (w'.write b idx slot.generation 0, f.call (.round n (idx + 1) (called + 1)) dtor v,
              some (.passed s f.registry f.thread n idx dtor v))
          else (w', f.goTo (.round n (idx + 1) called), none)
  | .leftover =>
    let (b, w') := w.withValues f.host f.registry f.thread
    let leftover := r.keys.zipIdx.any fun (slot, idx) =>
      slot.generation ≠ 0 && slot.dtor ≠ 0 && slot.dtor ≠ u64Max && ((w'.blocks b).pairs idx).read slot.generation ≠ 0
    if leftover then (w', f.goTo .done, none)
    else (w'.retire f.host f.registry f.thread, f.goTo .done, some (.retired f.registry f.thread))
  | .done => (w, f, none)

/-! ## The process -/

inductive Act where
  | keyCreate (registry dtor : ℕ)
  | keyDelete (registry key : ℕ)
  | setspecific (host registry thread key value : ℕ)
  | getspecific (host registry thread key : ℕ)
  | threadAtexit (registry thread dtor object : ℕ)
  /-- `take_exit_work` is called, and goes on -/
  | exit (host registry thread : ℕ)
  | sweep (s : ℕ)
  /-- a host thread's locals are destroyed -/
  | hostGone (host : ℕ)

structure State where
  world : World := {}
  sweeps : List Sweep := []
  /-- the last event first -/
  log : List Event := []

def State.step (s : State) : Act → State
  | .keyCreate registry dtor =>
    match (s.world.registries registry).keyCreate dtor with
    -- the addition past 64 bits: a call that does not come back
    | none => s
    | some (.ok key, r) => { s with world := s.world.setRegistry registry r, log := .created registry key dtor :: s.log }
    | some (.error _, r) => { s with world := s.world.setRegistry registry r, log := .refused registry :: s.log }
  | .keyDelete registry key =>
    let (code, r) := (s.world.registries registry).keyDelete key
    { s with
      world := s.world.setRegistry registry r
      log := if code = 0 then .deleted registry key :: s.log else s.log }
  | .setspecific host registry thread key value =>
    let (code, w) := s.world.setspecific host registry thread key value
    { s with world := w, log := if code = 0 then .stored registry thread key value :: s.log else s.log }
  | .getspecific host registry thread key =>
    let (value, w) := s.world.getspecific host registry thread key
    { s with world := w, log := .got registry thread key value :: s.log }
  | .threadAtexit registry thread dtor object =>
    { s with
      world := s.world.setRegistry registry ((s.world.registries registry).atexit thread dtor object)
      log := .registered registry thread dtor object :: s.log }
  | .exit host registry thread => { s with sweeps := s.sweeps ++ [{ host, registry, thread }] }
  | .sweep i =>
    match s.sweeps[i]? with
    | none => s
    | some f =>
      let (w, f', e) := s.world.sweepStep i f
      { world := w, sweeps := s.sweeps.set i f', log := e.toList ++ s.log }
  | .hostGone host => { s with world := { s.world with caches := Function.update s.world.caches host none } }

def Reachable (s : State) : Prop := Reach State.step anyStep {} s

/-! ## What a log says -/

/-- the value a thread has under the key that a slot's number now names -/
def lookup (registry thread key : ℕ) : List Event → ℕ
  | [] => 0
  | .created r k _ :: log => if r = registry ∧ k = key then 0 else lookup registry thread key log
  | .deleted r k :: log => if r = registry ∧ k = key then 0 else lookup registry thread key log
  | .stored r t k v :: log => if r = registry ∧ t = thread ∧ k = key then v else lookup registry thread key log
  | .passed _ r t _ k _ _ :: log => if r = registry ∧ t = thread ∧ k = key then 0 else lookup registry thread key log
  | .retired r t :: log => if r = registry ∧ t = thread then 0 else lookup registry thread key log
  | _ :: log => lookup registry thread key log

/-- the destructor of the key that a number now names, if it names one -/
def destructor (registry key : ℕ) : List Event → Option ℕ
  | [] => none
  | .created r k d :: log => if r = registry ∧ k = key then some d else destructor registry key log
  | .deleted r k :: log => if r = registry ∧ k = key then none else destructor registry key log
  | _ :: log => destructor registry key log

/-- the handlers a thread has registered and no sweep has run, the last first -/
def pending (registry thread : ℕ) : List Event → List (ℕ × ℕ)
  | [] => []
  | .registered r t d o :: log =>
    if r = registry ∧ t = thread then (d, o) :: pending registry thread log else pending registry thread log
  | .handled _ r t _ _ :: log =>
    if r = registry ∧ t = thread then (pending registry thread log).tail else pending registry thread log
  | _ :: log => pending registry thread log

/-- what a sweep has called, the last first -/
def calls (s : ℕ) : List Event → List (ℕ × ℕ)
  | [] => []
  | .handled i _ _ d o :: log => if i = s then (d, o) :: calls s log else calls s log
  | .passed i _ _ _ _ d v :: log => if i = s then (d, v) :: calls s log else calls s log
  | _ :: log => calls s log

/-- an event, given those before it -/
def Right (log : List Event) : Event → Prop
  | .created r k _ => k < PTHREAD_KEYS_MAX ∧ destructor r k log = none
  | .refused r => ∀ k < PTHREAD_KEYS_MAX, (destructor r k log).isSome
  | .deleted r k => (destructor r k log).isSome
  | .stored r _ k _ => (destructor r k log).isSome
  | .got r t k v => v = lookup r t k log
  | .registered .. => True
  | .handled s r t d o => (pending r t log).head? = some (d, o) ∧ ∀ r' t', Event.drained s r' t' ∉ log
  | .drained _ r t => pending r t log = []
  | .passed s r t n k d v =>
    n < PTHREAD_DESTRUCTOR_ITERATIONS ∧ destructor r k log = some d ∧ v = lookup r t k log ∧ v ≠ 0 ∧
      Event.drained s r t ∈ log ∧
      ∀ r' t' n' k' d' v', Event.passed s r' t' n' k' d' v' ∈ log → r' = r ∧ t' = t ∧ (n' < n ∨ n' = n ∧ k' < k)
  | .retired .. => True

def AllRight : List Event → Prop
  | [] => True
  | e :: log => Right log e ∧ AllRight log

/-! ## Blocks -/

namespace World

variable {w w' : World} {host registry thread b r t k : ℕ}

/-- each thread has a block of its own, and a cached block is the thread's or is retired -/
structure Blocks (w : World) : Prop where
  owned : ∀ r t b, (w.registries r).threads t = some b → b < w.allocated ∧ (w.blocks b).retired = false
  owner : ∀ r t r' t' b, (w.registries r).threads t = some b → (w.registries r').threads t' = some b → r = r' ∧ t = t'
  cached : ∀ host cache, w.caches host = some cache → ∀ c ∈ cache, c.values < w.allocated ∧
    ((w.blocks c.values).retired = false → (w.registries c.registry).threads c.thread = some c.values)

/-- the pair of a thread, as if every thread had a block -/
def pair (w : World) (r t k : ℕ) : ValuePair :=
  match (w.registries r).threads t with
  | some b => (w.blocks b).pairs k
  | none => {}

/-- nothing has changed but where the blocks are -/
structure Serves (w w' : World) : Prop where
  blocks : Blocks w'
  registries : ∀ r, w'.registries r = { w.registries r with threads := (w'.registries r).threads }
  pairs : ∀ r t k, w'.pair r t k = w.pair r t k

theorem Serves.refl (h : Blocks w) : Serves w w := ⟨h, fun _ => rfl, fun _ _ _ => rfl⟩

theorem Serves.trans {w'' : World} (h : Serves w w') (h' : Serves w' w'') : Serves w w'' where
  blocks := h'.blocks
  registries r := by rw [h'.registries r, h.registries r]
  pairs r t k := (h'.pairs r t k).trans (h.pairs r t k)

@[simp] theorem caches_setCache {cache : List Cached} (host' : ℕ) :
    (w.setCache host cache).caches host' = if host' = host then some cache else w.caches host' :=
  Function.update_apply ..

@[simp] theorem registries_setRegistry {r' : TlsRegistry} :
    (w.setRegistry registry r').registries r = if r = registry then r' else w.registries r :=
  Function.update_apply ..

theorem threads_setThread {o : Option ℕ} : ((w.setThread registry thread o).registries r).threads t =
    if r = registry ∧ t = thread then o else (w.registries r).threads t := by
  rw [setThread, registries_setRegistry]
  by_cases hr : r = registry
  · rw [if_pos hr, hr]
    dsimp only
    rw [Function.update_apply]
    simp only [true_and]
  · rw [if_neg hr, if_neg fun h => hr h.1]

theorem registries_setThread {o : Option ℕ} (r : ℕ) : (w.setThread registry thread o).registries r =
    { w.registries r with threads := ((w.setThread registry thread o).registries r).threads } := by
  rw [setThread, registries_setRegistry]
  by_cases hr : r = registry
  · rw [if_pos hr, hr]
  · rw [if_neg hr]

theorem Serves.setCache {cache : List Cached} (h : Blocks w) (hc : ∀ c ∈ cache, c.values < w.allocated ∧
      ((w.blocks c.values).retired = false → (w.registries c.registry).threads c.thread = some c.values)) :
    Serves w (w.setCache host cache) where
  blocks := ⟨h.owned, h.owner, fun host' cache' heq => by
    rw [caches_setCache] at heq
    split at heq
    · cases heq
      exact hc
    · exact h.cached host' cache' heq⟩
  registries _ := rfl
  pairs _ _ _ := rfl

/-- a new block, all its pairs those of no block -/
theorem insert_spec (h : Blocks w) (hnone : (w.registries registry).threads thread = none) :
    Serves w { w.setThread registry thread (some w.allocated) with
      blocks := Function.update w.blocks w.allocated {}, allocated := w.allocated + 1 } where
  blocks.owned r t b heq := by
    rw [threads_setThread] at heq
    split at heq
    · cases heq
      exact ⟨Nat.lt_succ_self _, by dsimp only; rw [Function.update_self]⟩
    · have hold := h.owned r t b heq
      exact ⟨Nat.lt_succ_of_lt hold.1, (congrArg ThreadValues.retired (Function.update_of_ne hold.1.ne ..)).trans hold.2⟩
  blocks.owner r t r' t' b heq heq' := by
    rw [threads_setThread] at heq heq'
    split at heq <;> split at heq'
    · next h₁ h₂ => exact ⟨h₁.1.trans h₂.1.symm, h₁.2.trans h₂.2.symm⟩
    · cases heq
      exact absurd (h.owned r' t' _ heq').1 (lt_irrefl _)
    · cases heq'
      exact absurd (h.owned r t _ heq).1 (lt_irrefl _)
    · exact h.owner r t r' t' b heq heq'
  blocks.cached host cache heq c hc := by
    have hold := h.cached host cache heq c hc
    refine ⟨Nat.lt_succ_of_lt hold.1, fun hret => ?_⟩
    have hthread := hold.2 ((congrArg ThreadValues.retired (Function.update_of_ne hold.1.ne ..)).symm.trans hret)
    have hne : ¬(c.registry = registry ∧ c.thread = thread) := by
      rintro ⟨hr, ht⟩
      rw [hr, ht, hnone] at hthread
      cases hthread
    exact (threads_setThread.trans (if_neg hne)).trans hthread
  registries := registries_setThread
  pairs r t k := by
    unfold pair
    dsimp only
    rw [threads_setThread]
    by_cases hrt : r = registry ∧ t = thread
    · rw [if_pos hrt, hrt.1, hrt.2, hnone]
      dsimp only
      rw [Function.update_self]
    · rw [if_neg hrt]
      cases hb : (w.registries r).threads t with
      | none => rfl
      | some b =>
        dsimp only
        rw [Function.update_of_ne (h.owned r t b hb).1.ne]

theorem orInsert_spec (h : Blocks w) : Serves w (w.orInsert registry thread).2 ∧
    ((w.orInsert registry thread).2.registries registry).threads thread = some (w.orInsert registry thread).1 := by
  unfold orInsert
  cases hb : (w.registries registry).threads thread with
  | some b => exact ⟨Serves.refl h, hb⟩
  | none => exact ⟨insert_spec h hb, threads_setThread.trans (if_pos ⟨rfl, rfl⟩)⟩

theorem orInsert_caches : (w.orInsert registry thread).2.caches = w.caches := by
  unfold orInsert
  split <;> rfl

theorem usable_thread {cache : List Cached} {c : Cached} (h : Blocks w) (hcache : w.caches host = some cache) (hc : c ∈ cache)
    (hu : w.usable registry thread c = true) : (w.registries registry).threads thread = some c.values := by
  unfold usable Cached.mine at hu
  simp only [Bool.and_eq_true, decide_eq_true_eq, Bool.not_eq_true'] at hu
  obtain ⟨⟨rfl, rfl⟩, hret⟩ := hu
  exact (h.cached host cache hcache c hc).2 hret

theorem threadValues_spec (h : Blocks w) : Serves w (w.threadValues host registry thread).2 ∧
    ((w.threadValues host registry thread).2.registries registry).threads thread =
      some (w.threadValues host registry thread).1 := by
  unfold threadValues
  cases hcache : w.caches host with
  | none => exact orInsert_spec h
  | some cache =>
    dsimp only
    cases hfind : cache.findIdx? (w.usable registry thread) with
    | some at' =>
      dsimp only
      cases hentry : cache[at']? with
      | none => exact orInsert_spec h
      | some entry =>
        have hmem := List.mem_of_getElem? hentry
        have hold := h.cached host cache hcache
        have husable : w.usable registry thread entry = true := by
          obtain ⟨hlt, hp, -⟩ := List.findIdx?_eq_some_iff_getElem.1 hfind
          obtain ⟨_, rfl⟩ := List.getElem?_eq_some_iff.1 hentry
          exact hp
        have hthread := usable_thread h hcache hmem husable
        refine ⟨Serves.setCache h fun c hc => ?_, hthread⟩
        rcases List.mem_cons.1 hc with rfl | hc
        · exact hold c hmem
        · exact hold c (List.mem_of_mem_eraseIdx hc)
    | none =>
      obtain ⟨hserves, hthread⟩ := @orInsert_spec w registry thread h
      have hcaches := @orInsert_caches w registry thread
      refine ⟨hserves.trans (Serves.setCache hserves.blocks fun c hc => ?_), hthread⟩
      rcases List.mem_cons.1 (List.mem_of_mem_take hc) with rfl | hc
      · exact ⟨(hserves.blocks.owned _ _ _ hthread).1, fun _ => hthread⟩
      · exact hserves.blocks.cached host cache (by rw [hcaches, hcache]) c (List.mem_of_mem_filter hc)

/-- whatever the cache holds, the block is the thread's -/
theorem withValues_spec (h : Blocks w) : Serves w (w.withValues host registry thread).2 ∧
    ((w.withValues host registry thread).2.registries registry).threads thread =
      some (w.withValues host registry thread).1 := by
  unfold withValues
  split
  · next hit rest hcache =>
    by_cases hu : w.usable registry thread hit = true
    · rw [if_pos hu]
      exact ⟨Serves.refl h, usable_thread h hcache List.mem_cons_self hu⟩
    · rw [if_neg hu]
      exact threadValues_spec h
  · exact threadValues_spec h

theorem write_blocks {idx generation value : ℕ} (h : Blocks w) : Blocks (w.write b idx generation value) := by
  have hret : ∀ b', ((w.write b idx generation value).blocks b').retired = (w.blocks b').retired := by
    intro b'
    unfold write
    dsimp only
    by_cases hb : b' = b
    · rw [hb, Function.update_self]
    · rw [Function.update_of_ne hb]
  refine ⟨fun r t b' heq => ?_, h.owner, fun host cache heq c hc => ?_⟩
  · rw [hret]
    exact h.owned r t b' heq
  · rw [hret]
    exact h.cached host cache heq c hc

theorem pair_write {idx generation value : ℕ} (h : Blocks w) (hb : (w.registries registry).threads thread = some b) :
    (w.write b idx generation value).pair r t k =
      if r = registry ∧ t = thread ∧ k = idx then ⟨generation, value⟩ else w.pair r t k := by
  unfold pair write
  dsimp only
  cases hrt : (w.registries r).threads t with
  | none =>
    rw [if_neg]
    rintro ⟨rfl, rfl, -⟩
    rw [hb] at hrt
    cases hrt
  | some b' =>
    dsimp only
    by_cases hbb : b' = b
    · obtain ⟨rfl, rfl⟩ := h.owner _ _ _ _ _ hrt (hbb ▸ hb)
      rw [hbb, Function.update_self]
      dsimp only
      rw [Function.update_apply]
      simp only [true_and]
    · rw [Function.update_of_ne hbb, if_neg]
      rintro ⟨rfl, rfl, -⟩
      rw [hb] at hrt
      cases hrt
      exact hbb rfl

/-- the entry taken out of the map, and its block marked -/
theorem remove_spec (h : Blocks w) (hb : (w.registries registry).threads thread = some b) :
    Blocks { w.setThread registry thread none with
      blocks := Function.update w.blocks b { w.blocks b with retired := true } } where
  owned r t b' heq := by
    rw [threads_setThread] at heq
    split at heq
    · cases heq
    · next hrt =>
      have hne : b' ≠ b := by
        rintro rfl
        exact hrt (h.owner _ _ _ _ _ heq hb)
      have hold := h.owned r t b' heq
      exact ⟨hold.1, (congrArg ThreadValues.retired (Function.update_of_ne hne ..)).trans hold.2⟩
  owner r t r' t' b' heq heq' := by
    rw [threads_setThread] at heq heq'
    split at heq
    · cases heq
    · split at heq'
      · cases heq'
      · exact h.owner r t r' t' b' heq heq'
  cached host cache heq c hc := by
    have hold := h.cached host cache heq c hc
    refine ⟨hold.1, fun hret => ?_⟩
    have hne : c.values ≠ b := by
      intro hcb
      dsimp only at hret
      rw [hcb, Function.update_self] at hret
      cases hret
    have hthread := hold.2 ((congrArg ThreadValues.retired (Function.update_of_ne hne ..)).symm.trans hret)
    refine (threads_setThread.trans (if_neg ?_)).trans hthread
    rintro ⟨hr, ht⟩
    rw [hr, ht, hb] at hthread
    cases hthread
    exact hne rfl

theorem pair_remove (h : Blocks w) (hb : (w.registries registry).threads thread = some b) :
    { w.setThread registry thread none with
      blocks := Function.update w.blocks b { w.blocks b with retired := true } : World }.pair r t k =
      if r = registry ∧ t = thread then {} else w.pair r t k := by
  unfold pair
  dsimp only
  rw [threads_setThread]
  by_cases hrt : r = registry ∧ t = thread
  · rw [if_pos hrt, if_pos hrt]
  · rw [if_neg hrt, if_neg hrt]
    cases hb' : (w.registries r).threads t with
    | none => rfl
    | some b' =>
      dsimp only
      rw [Function.update_of_ne]
      rintro rfl
      exact hrt (h.owner _ _ _ _ _ hb' hb)

/-- the thread has no block any more, and its pairs are those of none -/
theorem retire_spec (h : Blocks w) : Blocks (w.retire host registry thread) ∧
    (∀ r, (w.retire host registry thread).registries r =
      { w.registries r with threads := ((w.retire host registry thread).registries r).threads }) ∧
    ∀ r t k, (w.retire host registry thread).pair r t k = if r = registry ∧ t = thread then {} else w.pair r t k := by
  have hfilter : ∀ w' : World, Blocks w' → ∀ cache, w'.caches host = some cache →
      Serves w' (w'.setCache host (cache.filter fun c => !c.mine registry thread)) :=
    fun w' h' cache hcache => Serves.setCache h' fun c hc => h'.cached host cache hcache c (List.mem_of_mem_filter hc)
  unfold retire
  cases hb : (w.registries registry).threads thread with
  | none =>
    dsimp only
    have hnone : ∀ r t k, w.pair r t k = if r = registry ∧ t = thread then {} else w.pair r t k := by
      intro r t k
      split
      · next hrt =>
        unfold pair
        rw [hrt.1, hrt.2, hb]
      · rfl
    cases hcache : w.caches host with
    | none => exact ⟨h, fun _ => rfl, hnone⟩
    | some cache => exact ⟨(hfilter w h cache hcache).blocks, fun _ => rfl, hnone⟩
  | some b =>
    dsimp only
    have hremove := remove_spec h hb
    split
    · exact ⟨hremove, registries_setThread, fun r t k => pair_remove h hb⟩
    · next cache hcache =>
      exact ⟨(hfilter _ hremove cache hcache).blocks, registries_setThread, fun r t k => pair_remove h hb⟩

end World

/-! ## Key slots -/

namespace TlsRegistry

variable {r r' : TlsRegistry} {k key dtor gen : ℕ} {slot : KeySlot}

/-- the slot of a key that there is -/
def live (r : TlsRegistry) (k : ℕ) : Option KeySlot := r.keys[k]?.filter fun slot => slot.generation ≠ 0

structure Table (r : TlsRegistry) : Prop where
  length : r.keys.length ≤ PTHREAD_KEYS_MAX
  mirror : ∀ k < PTHREAD_KEYS_MAX, r.generations k = (r.live k).elim 0 KeySlot.generation
  freed : ∀ slot ∈ r.keys, slot.generation = 0 → slot.dtor = u64Max
  bound : ∀ slot ∈ r.keys, slot.generation ≤ r.generation

theorem live_eq_some : r.live k = some slot ↔ r.keys[k]? = some slot ∧ slot.generation ≠ 0 := by
  rw [live, Option.filter_eq_some_iff]
  simp

theorem Table.live_lt (h : Table r) (hl : r.live k = some slot) : k < PTHREAD_KEYS_MAX :=
  (List.getElem?_eq_some_iff.1 (live_eq_some.1 hl).1).1.trans_le h.length

theorem Table.live_bound (h : Table r) (hl : r.live k = some slot) : slot.generation ≤ r.generation :=
  h.bound slot (List.mem_of_getElem? (live_eq_some.1 hl).1)

theorem Table.liveGeneration (h : Table r) (k : ℕ) : r.liveGeneration k = (r.live k).map KeySlot.generation := by
  unfold TlsRegistry.liveGeneration
  by_cases hk : k < PTHREAD_KEYS_MAX
  · rw [if_pos hk, h.mirror k hk]
    cases hl : r.live k with
    | none => rfl
    | some slot => exact if_pos (live_eq_some.1 hl).2
  · rw [if_neg hk]
    cases hl : r.live k with
    | none => rfl
    | some slot => exact absurd (h.live_lt hl) hk

/-- one slot is another, and the generations go on -/
theorem Table.put (h : Table r) (k : ℕ) (slot : KeySlot) {keys : List KeySlot} (hlen : keys.length ≤ PTHREAD_KEYS_MAX)
    (hkeys : ∀ i, keys[i]? = if i = k then some slot else r.keys[i]?) (hgen : r.generation ≤ gen)
    (hbound : slot.generation ≤ gen) (hfreed : slot.generation = 0 → slot.dtor = u64Max) :
    Table { r with generation := gen, keys, generations := Function.update r.generations k slot.generation } ∧
      ∀ i, { r with generation := gen, keys, generations := Function.update r.generations k slot.generation }.live i =
        if i = k then (some slot).filter fun slot => slot.generation ≠ 0 else r.live i := by
  have hlive : ∀ i, { r with
        generation := gen, keys, generations := Function.update r.generations k slot.generation }.live i =
      if i = k then (some slot).filter fun slot => slot.generation ≠ 0 else r.live i := by
    intro i
    unfold live
    dsimp only
    rw [hkeys]
    split <;> rfl
  have hmem : ∀ slot' ∈ keys, slot' = slot ∨ slot' ∈ r.keys := by
    intro slot' hs
    obtain ⟨i, hi⟩ := List.mem_iff_getElem?.1 hs
    rw [hkeys] at hi
    split at hi
    · exact .inl (Option.some.inj hi).symm
    · exact .inr (List.mem_of_getElem? hi)
  refine ⟨⟨hlen, fun i hi => ?_, fun slot' hs => ?_, fun slot' hs => ?_⟩, hlive⟩
  · rw [hlive]
    dsimp only
    rw [Function.update_apply]
    by_cases hik : i = k
    · rw [if_pos hik, if_pos hik]
      by_cases hzero : slot.generation = 0 <;> simp [Option.filter, hzero]
    · rw [if_neg hik, if_neg hik, h.mirror i hi]
  · rcases hmem slot' hs with rfl | hold
    · exact hfreed
    · exact h.freed slot' hold
  · rcases hmem slot' hs with rfl | hold
    · exact hbound
    · exact (h.bound slot' hold).trans hgen

/-- a new key: the slot was free, and the generation is above all there have been -/
structure Created (r r' : TlsRegistry) (key dtor : ℕ) : Prop where
  table : Table r'
  key_lt : key < PTHREAD_KEYS_MAX
  free : r.live key = none
  generation : r'.generation = r.generation + 1
  live : ∀ k, r'.live k = if k = key then some ⟨dtor, r.generation + 1⟩ else r.live k
  threads : r'.threads = r.threads
  threadAtexit : r'.threadAtexit = r.threadAtexit

theorem Table.fill (h : Table r) {keys : ℕ → List KeySlot} (hk : key < PTHREAD_KEYS_MAX) (hfree : r.live key = none)
    (hlen : ∀ gen, (keys gen).length ≤ PTHREAD_KEYS_MAX)
    (hkeys : ∀ gen i, (keys gen)[i]? = if i = key then some ⟨dtor, gen⟩ else r.keys[i]?)
    (hr : r.fill keys key = some r') : Created r r' key dtor := by
  unfold TlsRegistry.fill at hr
  split at hr
  · cases hr
    obtain ⟨htable, hlive⟩ := h.put key ⟨dtor, r.generation + 1⟩ (hlen _) (hkeys _) (Nat.le_succ _) le_rfl
      (fun h => absurd h (Nat.succ_ne_zero _))
    exact ⟨htable, hk, hfree, rfl, hlive, rfl, rfl⟩
  · cases hr

theorem Table.keyCreate (h : Table r) {answer : Except ℕ ℕ} (hr : r.keyCreate dtor = some (answer, r')) :
    match answer with
    | .ok key => Created r r' key dtor
    | .error e => e = EAGAIN ∧ r' = r ∧ ∀ k < PTHREAD_KEYS_MAX, (r.live k).isSome := by
  unfold TlsRegistry.keyCreate at hr
  split at hr
  · next hfull =>
    have hlen := le_antisymm h.length hfull
    split at hr
    · next idx hfind =>
      obtain ⟨hlt, hp, -⟩ := List.findIdx?_eq_some_iff_getElem.1 hfind
      obtain ⟨r'', hfill, heq⟩ := Option.map_eq_some_iff.1 hr
      cases heq
      refine h.fill (hlen ▸ hlt) ?_ (fun _ => by rw [List.length_set]; exact h.length) (fun gen i => ?_) hfill
      · rw [live, List.getElem?_eq_getElem hlt]
        simp only [decide_eq_true_eq] at hp
        simp [Option.filter, hp.2]
      · by_cases hi : i = idx
        · rw [if_pos hi, hi, List.getElem?_set_self hlt]
        · rw [if_neg hi, List.getElem?_set_ne (Ne.symm hi)]
    · next hnone =>
      cases hr
      refine ⟨rfl, rfl, fun k hk => ?_⟩
      have hlt : k < r.keys.length := hlen ▸ hk
      have hkey := List.findIdx?_eq_none_iff.1 hnone r.keys[k] (List.getElem_mem hlt)
      have hne : r.keys[k].generation ≠ 0 := by
        intro hzero
        have := h.freed _ (List.getElem_mem hlt) hzero
        simp [this, hzero] at hkey
      rw [live_eq_some.2 ⟨List.getElem?_eq_getElem hlt, hne⟩]
      rfl
  · next hroom =>
    obtain ⟨r'', hfill, heq⟩ := Option.map_eq_some_iff.1 hr
    cases heq
    have hlt := not_le.1 hroom
    refine h.fill hlt ?_ (fun _ => by rw [List.length_append]; exact hlt) (fun gen i => ?_) hfill
    · rw [live, List.getElem?_eq_none le_rfl]
      rfl
    · rw [List.getElem?_append]
      rcases lt_trichotomy i r.keys.length with hi | hi | hi
      · rw [if_pos hi, if_neg hi.ne]
      · rw [if_neg hi.not_lt, if_pos hi, hi, Nat.sub_self]
        rfl
      · rw [if_neg (not_lt.2 hi.le), if_neg hi.ne', List.getElem?_eq_none hi.le, List.getElem?_eq_none]
        rw [List.length_singleton]
        omega

theorem Table.keyDelete (h : Table r) (key : ℕ) : Table (r.keyDelete key).2 ∧
    ((r.keyDelete key).1 = 0 ↔ (r.live key).isSome) ∧
    (∀ k, (r.keyDelete key).2.live k = if k = key then none else r.live k) ∧
    (r.keyDelete key).2.generation = r.generation ∧ (r.keyDelete key).2.threads = r.threads ∧
    (r.keyDelete key).2.threadAtexit = r.threadAtexit := by
  unfold TlsRegistry.keyDelete
  cases hkey : r.keys[key]? with
  | none =>
    have hdead : r.live key = none := by rw [live, hkey]; rfl
    refine ⟨h, ?_, fun k => ?_, rfl, rfl, rfl⟩
    · rw [hdead]
      exact ⟨fun h => absurd h (show EINVAL ≠ 0 by decide), fun h => absurd h (by decide)⟩
    · by_cases hk : k = key
      · rw [if_pos hk, hk]
        exact hdead
      · rw [if_neg hk]
  | some slot =>
    obtain ⟨hlt, -⟩ := List.getElem?_eq_some_iff.1 hkey
    have hlen : (r.keys.set key ⟨u64Max, 0⟩).length ≤ PTHREAD_KEYS_MAX := by
      rw [List.length_set]
      exact h.length
    have hkeys : ∀ i, (r.keys.set key ⟨u64Max, 0⟩)[i]? = if i = key then some ⟨u64Max, 0⟩ else r.keys[i]? := by
      intro i
      by_cases hi : i = key
      · rw [if_pos hi, hi, List.getElem?_set_self hlt]
      · rw [if_neg hi, List.getElem?_set_ne (Ne.symm hi)]
    obtain ⟨htable, hlive⟩ := h.put key ⟨u64Max, 0⟩ hlen hkeys le_rfl (Nat.zero_le _) (fun _ => rfl)
    refine ⟨htable, ?_, hlive, rfl, rfl, rfl⟩
    rw [live, hkey]
    by_cases hzero : slot.generation = 0 <;> simp [Option.filter, hzero, EINVAL]

end TlsRegistry

end Omnidroid.Bionic.Tls
