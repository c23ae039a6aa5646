/-
The waits that take a signal mask (`omni-linux/src/poll.rs`): `epoll_pwait`, `ppoll` and `pselect6`, which put a temporary mask
in the task's place before their first look and the old one back by hand at the end.
- `Machine`: what a wait reads and changes of the rest of the system; in between, every other thread may do anything.
- `temporaryMask`, `restoreMask`: the mask in, and out again.
- `turns`: looks, one after another, until one is the last; so many of them at most.
- `epollLook`, `ppollLook`, `pselectLook`: one look of each, and the sleep after it.
-/
import Omnidroid.Errno
import Omnidroid.Kernel.Epoll
import Omnidroid.Lib.Bytes

namespace Omnidroid.Waits

instance neZero_args : NeZero 6 := ⟨by decide⟩

open Bytes

def EBADF : Errno := ⟨9⟩

def IN : UInt32 := 0x001
def OUT : UInt32 := 0x004
def ERR : UInt32 := 0x008
def HUP : UInt32 := 0x010
def NVAL : UInt32 := 0x020

/-- how guest memory refuses an access -/
inductive MemError where
  | efault
  | eio
deriving DecidableEq, Repr

def MemError.errno : MemError → Errno
  | .efault => EFAULT
  | .eio => EIO

/-- an entry of an epoll set -/
structure Interest (File : Type) where
  file : File
  events : UInt32
  data : UInt64
  edge : Epoll.Edge

/-- the keys a wait is on, or anything at all -/
abbrev Keys := Option (List ℕ)

/-- what a wait asks of the rest of the system, whose state each answer may find changed -/
structure Machine (σ File : Type) where
  read : UInt64 → ℕ → σ → Except MemError Bytes × σ
  write : UInt64 → Bytes → σ → Except MemError Unit × σ
  now : σ → ℕ × σ
  /-- the sum of an instant and a duration, if there is such an instant -/
  checkedAdd : ℕ → ℕ → Option ℕ
  get : ℤ → σ → Except Errno File × σ
  isEpoll : File → σ → Bool × σ
  readiness : File → ℕ → σ → (UInt32 × Option ℕ) × σ
  /-- the file has not been closed -/
  alive : File → σ → Bool × σ
  /-- the changes counted for a file -/
  edges : File → σ → ℕ × σ
  edgeTriggered : σ → Bool × σ
  interest : File → σ → List (ℤ × Interest File) × σ
  setInterest : File → List (ℤ × Interest File) → σ → σ
  keyOf : File → σ → Option ℕ × σ
  setKey : File → ℕ
  keyed : σ → Bool × σ
  watch : Keys → σ → σ
  generation : σ → ℕ × σ
  /-- the signals posted to the task, and whether its process has to stop waiting -/
  pending : σ → UInt64 × σ
  interrupted : σ → Bool × σ
  slice : σ → ℕ × σ
  /-- until a change that is watched, or a time -/
  sleep : Keys → ℕ → σ → σ

/-- what a wait uses of its task -/
structure Task where
  sigmask : UInt64
  savedSigmask : Option UInt64
deriving DecidableEq, Repr

structure State (σ : Type) where
  task : Task
  world : σ
  /-- history: the call has put a temporary mask in place -/
  installed : Bool := false

/-- a call that has not returned ended early with an error, or is still looking -/
inductive Halt where
  | errno (e : Errno)
  | looking
deriving DecidableEq, Repr

abbrev Call (σ α : Type) := EStateM Halt (State σ) α

section Calls

variable {σ File α : Type}

def ask (f : σ → α × σ) : Call σ α := fun s => .ok (f s.world).1 { s with world := (f s.world).2 }

def tell (f : σ → σ) : Call σ Unit := fun s => .ok () { s with world := f s.world }

/-- an error, out of the call at once -/
def early (e : Errno) : Call σ α := throw (.errno e)

variable [DecidableEq File] (m : Machine σ File)

def readMem (at_ : UInt64) (len : ℕ) : Call σ Bytes := do
  match ← ask (m.read at_ len) with
  | .ok bytes => pure bytes
  | .error e => early e.errno

def readU64 (at_ : UInt64) : Call σ UInt64 := do
  let bytes ← readMem m at_ 8
  pure (UInt64.ofNat (leNat bytes))

def writeMem (at_ : UInt64) (bytes : Bytes) : Call σ (Except Errno Unit) := do
  match ← ask (m.write at_ bytes) with
  | .ok () => pure (.ok ())
  | .error e => pure (.error e.errno)

/-- a `timespec`, in nanoseconds -/
def readTimespec (at_ : UInt64) : Call σ ℕ := do
  let bytes ← readMem m at_ 16
  let sec := leNat (slice bytes 0 8)
  let nsec := leNat (slice bytes 8 8)
  if 2 ^ 63 ≤ sec ∨ 1000000000 ≤ nsec then early EINVAL else pure (sec * 1000000000 + nsec)

/-- the deadline of a call with a `timespec` -/
def readDeadline (at_ : UInt64) : Call σ (Option ℕ) := do
  if at_ = 0 then pure none
  else
    let now ← ask m.now
    let timeout ← readTimespec m at_
    pure (m.checkedAdd now timeout)

/-! ## The mask -/

/-- `SIGKILL` and `SIGSTOP` are not masked -/
def maskable (mask : UInt64) : UInt64 := mask &&& ~~~((1 : UInt64) <<< 8 ||| (1 : UInt64) <<< 18)

/-- the mask to put back, if a temporary one is in place now -/
def temporaryMask (at_ size : UInt64) : Call σ (Option UInt64) := do
  if at_ = 0 then pure none
  else if size ≠ 8 then early EINVAL
  else
    let old := (← get).task.sigmask
    let mask ← readU64 m at_
    modify fun s => { s with task := { s.task with sigmask := maskable mask }, installed := true }
    pure (some old)

/-- a wait that a signal ended leaves the old mask to the signal's delivery; any other has it back -/
def restoreMask (restore : Option UInt64) (result : Except Errno UInt64) : Call σ Unit :=
  match restore with
  | none => pure ()
  | some old =>
    if result = .error EINTR then modify fun s => { s with task := { s.task with savedSigmask := some old } }
    else modify fun s => { s with task := { s.task with sigmask := old } }

def finish (restore : Option UInt64) (result : Except Errno UInt64) : Call σ UInt64 := do
  restoreMask restore result
  match result with
  | .ok n => pure n
  | .error e => early e

/-! ## Looks -/

inductive Turn (W : Type) where
  | done (result : Except Errno UInt64)
  | again (watching : W)

/-- looks in turn, so many at most -/
def turns {W : Type} (look : W → Call σ (Turn W)) : ℕ → W → Call σ (Except Errno UInt64)
  | 0, _ => throw .looking
  | n + 1, watching => do
    match ← look watching with
    | .done result => pure result
    | .again watching => turns look n watching

/-- `Watch::wait` -/
def wait (keys : Keys) (deadline : Option ℕ) : Call σ (Except Errno Unit) := do
  let pending ← ask m.pending
  let mask := (← get).task.sigmask
  let interrupted ← ask m.interrupted
  if pending &&& ~~~mask ≠ 0 ∨ interrupted then pure (.error EINTR)
  else
    let now ← ask m.now
    let slice ← ask m.slice
    tell (m.sleep keys (deadline.elim (now + slice) (min · (now + slice))))
    pure (.ok ())

/-- the sooner of two times that may not be there -/
def sooner : Option ℕ → Option ℕ → Option ℕ
  | some d, some e => some (min d e)
  | some d, none => some d
  | none, e => e

/-- the keys of files, none where one of them has none -/
def keysOf : List File → List ℕ → Call σ Keys
  | [], keys => pure (some keys)
  | f :: files, keys => do
    match ← ask (m.keyOf f) with
    | none => pure none
    | some k => keysOf files (if k ∈ keys then keys else keys ++ [k])

/-! ### `epoll_pwait` -/

structure Found where
  events : List (UInt32 × UInt64) := []
  earliest : Option ℕ := none

def retain : List (ℤ × Interest File) → Call σ (List (ℤ × Interest File))
  | [] => pure []
  | e :: entries => do
    let alive ← ask (m.alive e.2.file)
    let rest ← retain entries
    pure (if alive then e :: rest else rest)

/-- an edge-triggered entry's state after a look, and whether it lets the entry be reported -/
def lookEdge (e : Interest File) (ready wanted : UInt32) : Call σ (Epoll.Edge × Bool) := do
  let edged ← ask m.edgeTriggered
  if e.events &&& Epoll.EDGE ≠ 0 ∧ edged then
    let edges ← ask (m.edges e.file)
    pure (e.edge.report edges ready wanted)
  else pure (e.edge, true)

/-- an entry looked at: what it adds to the events found, and what becomes of it -/
def judge (now max : ℕ) (found : Found) (e : Interest File) : Call σ (Found × Interest File) := do
  let (ready, next) ← ask (m.readiness e.file now)
  let found := { found with earliest := sooner found.earliest next }
  let wanted := e.events ||| ERR ||| HUP
  let got := ready &&& wanted
  let (edge, passes) ← lookEdge m e ready wanted
  if passes ∧ got ≠ 0 ∧ found.events.length < max then
    let edge := if e.events &&& Epoll.EDGE ≠ 0 then { edge with armed := false } else edge
    let events := if e.events &&& Epoll.ONESHOT ≠ 0 then 0 else e.events
    pure ({ found with events := found.events ++ [(got, e.data)] }, { e with edge := edge, events := events })
  else pure (found, { e with edge := edge })

/-- the file is open, and the descriptor is its -/
def stillNamed (fd : ℤ) (file : File) : Call σ Bool := do
  if ← ask (m.alive file) then
    match ← ask (m.get fd) with
    | .ok f => pure (f = file)
    | .error _ => pure false
  else pure false

/-- one whose descriptor is another file's now is left out -/
def scanOne (now max : ℕ) (found : Found) (fd : ℤ) (e : Interest File) : Call σ (Found × Interest File) := do
  if ← stillNamed m fd e.file then judge m now max found e else pure (found, e)

/-- the set's entries in turn -/
def scan (now max : ℕ) : List (ℤ × Interest File) → Found → Call σ (Found × List (ℤ × Interest File))
  | [], found => pure (found, [])
  | (fd, e) :: entries, found => do
    let (found, e) ← scanOne m now max found fd e
    let (found, rest) ← scan now max entries found
    pure (found, (fd, e) :: rest)

def eventBytes (e : UInt32 × UInt64) : Bytes := leBytes 4 e.1.toNat ++ leBytes 4 0 ++ leBytes 8 e.2.toNat

/-- the files of a set that are still open -/
def openFiles : List (ℤ × Interest File) → Call σ (List File)
  | [] => pure []
  | e :: entries => do
    let alive ← ask (m.alive e.2.file)
    let rest ← openFiles entries
    pure (if alive then e.2.file :: rest else rest)

/-- the wait between two looks: what to watch, or the sleep on it -/
def sleepOrWatch (watching : Option Keys) (wake : Option ℕ) (keys : Call σ Keys) : Call σ (Turn (Option Keys)) := do
  match watching with
  | none =>
    let keys ← keys
    tell (m.watch keys)
    pure (.again (some keys))
  | some keys =>
    match ← wait m keys wake with
    | .error e => pure (.done (.error e))
    | .ok () => pure (.again none)

def epollLook (ep : File) (events : UInt64) (max : ℕ) (deadline : Option ℕ) (watching : Option Keys) :
    Call σ (Turn (Option Keys)) := do
  let now ← ask m.now
  let entries ← ask (m.interest ep)
  let entries ← retain m entries
  let (found, entries) ← scan m now max entries {}
  tell (m.setInterest ep entries)
  if found.events ≠ [] then
    let written ← writeMem m events (found.events.flatMap eventBytes)
    pure (.done (written.map fun _ => UInt64.ofNat found.events.length))
  else if deadline.any (· ≤ now) then pure (.done (.ok 0))
  else
    sleepOrWatch m watching (sooner deadline found.earliest) do
      let entries ← ask (m.interest ep)
      let files ← openFiles m entries
      let keys ← keysOf m files []
      let keyed ← ask m.keyed
      pure (if keyed then keys.map (· ++ [m.setKey ep]) else keys)

/-- the low half of an argument, as a signed number -/
def int32 (n : UInt64) : ℤ := n.toUInt32.toInt32.toInt

def epollOf (fd : UInt64) : Call σ File := do
  match ← ask (m.get (int32 fd)) with
  | .error e => early e
  | .ok file => if ← ask (m.isEpoll file) then pure file else early EINVAL

def sysEpollPwait (fuel : ℕ) (a : Fin 6 → UInt64) : Call σ UInt64 := do
  let ep ← epollOf m (a 0)
  let max := int32 (a 2)
  if max ≤ 0 ∨ 2 ^ 16 < max then early EINVAL
  else
    let timeout := int32 (a 3)
    let now ← ask m.now
    let deadline := if 0 ≤ timeout then some (now + timeout.toNat * 1000000) else none
    let restore ← temporaryMask m (a 4) (a 5)
    let result ← turns (epollLook m ep (a 1) max.toNat deadline) fuel none
    finish restore result

/-! ### `ppoll` -/

structure Polled where
  raw : Bytes
  count : ℕ := 0
  earliest : Option ℕ := none

/-- the descriptor of an entry of the array -/
def pollFd (raw : Bytes) (i : ℕ) : ℤ := (UInt32.ofNat (leNat (slice raw (i * 8) 4))).toInt32.toInt

/-- what is told of a descriptor, and when to look again -/
def reventsOf (now : ℕ) (fd : ℤ) (events : UInt32) : Call σ (UInt32 × Option ℕ) := do
  if fd < 0 then pure (0, none)
  else
    match ← ask (m.get fd) with
    | .error _ => pure (NVAL, none)
    | .ok file =>
      let (ready, next) ← ask (m.readiness file now)
      pure (ready &&& (events ||| ERR ||| HUP), next)

def pollOne (now : ℕ) (p : Polled) (i : ℕ) : Call σ Polled := do
  let fd := pollFd p.raw i
  let events := UInt32.ofNat (leNat (slice p.raw (i * 8 + 4) 2))
  let (revents, next) ← reventsOf m now fd events
  pure ⟨patch p.raw (i * 8 + 6) (leBytes 2 revents.toNat), if revents = 0 then p.count else p.count + 1,
    sooner p.earliest next⟩

/-- the files of the array's descriptors -/
def pollFiles (raw : Bytes) : List ℕ → Call σ (List File)
  | [] => pure []
  | i :: is => do
    let file ← ask (m.get (pollFd raw i))
    let rest ← pollFiles raw is
    match file with
    | .ok file => pure (file :: rest)
    | .error _ => pure rest

/-- a look at the array as it was read -/
def ppollTurn (at_ : UInt64) (n : ℕ) (timed : Bool) (deadline : Option ℕ) (watching : Option Keys) (raw : Bytes) :
    Call σ (Turn (Option Keys)) := do
  let now ← ask m.now
  let polled ← (List.range n).foldlM (pollOne m now) { raw := raw }
  if 0 < polled.count ∨ (timed ∧ deadline.all (· ≤ now)) then
    let written ← writeMem m at_ polled.raw
    pure (.done (written.map fun _ => UInt64.ofNat polled.count))
  else
    sleepOrWatch m watching (sooner deadline polled.earliest) do
      let files ← pollFiles m polled.raw (List.range n)
      keysOf m files []

/-- the array is read at every look, and an error of it is the call's at once -/
def ppollLook (at_ : UInt64) (n : ℕ) (timed : Bool) (deadline : Option ℕ) (watching : Option Keys) :
    Call σ (Turn (Option Keys)) := do
  let raw ← readMem m at_ (n * 8)
  ppollTurn m at_ n timed deadline watching raw

/-- what comes before the first look: the deadline, and the mask to put back -/
def ppollStart (a : Fin 6 → UInt64) : Call σ (Option ℕ × Option UInt64) := do
  if 2 ^ 16 < (a 1).toNat then early EINVAL
  else
    let deadline ← readDeadline m (a 2)
    let restore ← temporaryMask m (a 3) (a 4)
    pure (deadline, restore)

def sysPpoll (fuel : ℕ) (a : Fin 6 → UInt64) : Call σ UInt64 := do
  let (deadline, restore) ← ppollStart m a
  let result ← turns (ppollLook m (a 0) (a 1).toNat (a 2 ≠ 0) deadline) fuel none
  finish restore result

/-! ### `pselect6` -/

def readSet (at_ : UInt64) (bytes : ℕ) : Call σ (Option Bytes) := do
  if at_ = 0 then pure none else some <$> readMem m at_ bytes

def bit (set : Option Bytes) (fd : ℕ) : Bool := set.any fun s => (s.getD (fd / 8) 0).toNat.testBit (fd % 8)

def setBit (out : Bytes) (fd : ℕ) : Bytes := out.set (fd / 8) (out.getD (fd / 8) 0 ||| 1 <<< UInt8.ofNat (fd % 8))

structure Selected where
  readable : Bytes
  writable : Bytes
  count : ℕ := 0
  earliest : Option ℕ := none

/-- the descriptors of the sets in turn; none where one of them is no file -/
def selectScan (now : ℕ) (reads writes excepts : Option Bytes) : List ℕ → Selected → Call σ (Option Selected)
  | [], s => pure (some s)
  | fd :: fds, s => do
    let r := bit reads fd
    let w := bit writes fd
    if !r && !w && !bit excepts fd then selectScan now reads writes excepts fds s
    else
      match ← ask (m.get fd) with
      | .error _ => pure none
      | .ok file =>
        let (ready, next) ← ask (m.readiness file now)
        let r := r && ready &&& (IN ||| HUP ||| ERR) ≠ 0
        let w := w && ready &&& (OUT ||| ERR) ≠ 0
        selectScan now reads writes excepts fds
          { readable := if r then setBit s.readable fd else s.readable
            writable := if w then setBit s.writable fd else s.writable
            count := s.count + r.toNat + w.toNat
            earliest := sooner s.earliest next }

/-- writes in turn, up to the first that fails -/
def writeAll : List (UInt64 × Bytes) → Call σ (Except Errno Unit)
  | [] => pure (.ok ())
  | (at_, bytes) :: rest => do
    if at_ = 0 then writeAll rest
    else
      match ← writeMem m at_ bytes with
      | .error e => pure (.error e)
      | .ok () => writeAll rest

/-- the time left, where there is a deadline -/
def writeLeft (at_ : UInt64) (deadline : Option ℕ) : Call σ (Except Errno Unit) := do
  match deadline with
  | none => pure (.ok ())
  | some d =>
    let now ← ask m.now
    match ← writeMem m at_ (leBytes 8 ((d - now) / 1000000000)) with
    | .error e => pure (.error e)
    | .ok () => writeMem m (at_ + 8) (leBytes 8 ((d - now) % 1000000000))

/-- `wait_for_change` -/
def waitForChange (seen : ℕ) (deadline : Option ℕ) : Call σ (Except Errno Unit) := do
  tell (m.watch none)
  let generation ← ask m.generation
  if generation ≠ seen then pure (.ok ()) else wait m none deadline

def pselectLook (a : Fin 6 → UInt64) (n bytes : ℕ) (reads writes excepts : Option Bytes) (deadline : Option ℕ) (_ : Unit) :
    Call σ (Turn Unit) := do
  let seen ← ask m.generation
  let now ← ask m.now
  let zeros := List.replicate bytes 0
  match ← selectScan m now reads writes excepts (List.range n) { readable := zeros, writable := zeros } with
  | none => pure (.done (.error EBADF))
  | some s =>
    if 0 < s.count ∨ (a 4 ≠ 0 ∧ deadline.all (· ≤ now)) then
      match ← writeAll m [(a 1, s.readable), (a 2, s.writable), (a 3, zeros)] with
      | .error e => pure (.done (.error e))
      | .ok () =>
        let written ← writeLeft m (a 4) deadline
        pure (.done (written.map fun _ => UInt64.ofNat s.count))
    else
      match ← waitForChange m seen (sooner deadline s.earliest) with
      | .error e => pure (.done (.error e))
      | .ok () => pure (.again ())

/-- where the mask is, and its size: a pair in memory -/
def selectMask (at_ : UInt64) : Call σ (Option UInt64) := do
  if at_ = 0 then pure none
  else
    let mask ← readU64 m at_
    let size ← readU64 m (at_ + 8)
    temporaryMask m mask size

def sysPselect6 (fuel : ℕ) (a : Fin 6 → UInt64) : Call σ UInt64 := do
  let n := (a 0).toInt64.toInt
  if n < 0 ∨ 2 ^ 16 < n then early EINVAL
  else
    let bytes := (n.toNat + 63) / 64 * 8
    let reads ← readSet m (a 1) bytes
    let writes ← readSet m (a 2) bytes
    let excepts ← readSet m (a 3) bytes
    let deadline ← readDeadline m (a 4)
    let restore ← selectMask m (a 5)
    let result ← turns (pselectLook m a n.toNat bytes reads writes excepts deadline) fuel ()
    finish restore result

end Calls

end Omnidroid.Waits
