/-
The extraction cache (`LibraryCache` of `omni-apk/src/cache.rs`): `lookup` and `extract` by any number of processes over one cache
root, one file-system call a step.

- `Job`: what a call is about, an entry of an archive. `Setting`: the jobs of a run, SHA-256, and where the host has a library.
- `World.advance`: a call's next step, as its `Pc` says. Any file-system call may be refused; a process may end at any time, and
  its number be another's then.
- What is not modelled: the directories, but for a refusal to make one.
-/
import Omnidroid.Lib.Files
import Omnidroid.Lib.Run
import Omnidroid.Apk.Probe

namespace Omnidroid.Apk

/-! ## Jobs -/

structure Job where
  identity : Identity
  entry : Entry
  /-- what reading the entry's payload gives -/
  data : Bytes
  /-- whether the reading ends, with as many bytes as the directory says and with its CRC -/
  good : Bool
  whole : good = true → data.length = entry.uncompressedSize.toNat

structure Setting (ι ℓ : Type*) where
  job : ι → Job
  /-- SHA-256 -/
  sha : Bytes → Digest
  /-- where the host has a file name in a digest's directory -/
  place : Digest → Bytes → ℓ

/-- a temporary file's name: the key, the process, the process's count of them, and whether it is for a hint -/
structure Temp where
  key : Digest
  pid : ℕ
  sequence : ℕ
  index : Bool
deriving DecidableEq

inductive Path (ℓ : Type*) where
  | lib (place : ℓ)
  | index (key : Digest)
  | temp (t : Temp)
deriving DecidableEq

inductive Failure where
  | notANativeLibrary
  | io
  /-- the entry cannot be read, or is not what the directory says -/
  | entry
  | cacheSizeMismatch
  | cachePublish
deriving DecidableEq

/-- what a call answers: `Reused`, with the file that the hint was read from; `Extracted`; `ReusedAfterRace` -/
inductive Answer (ℓ : Type*) where
  | missed
  | reused (digest : Digest) (len : ℕ) (hint : Ino (Path ℓ))
  | extracted (digest : Digest)
  | raced (digest : Digest)
  | failed (e : Failure)
deriving DecidableEq

inductive Pc (ℓ : Type*) where
  /-- `lookup`: about to open the hint, to read it, to look at the library it names -/
  | opens
  | reads (hint : Ino (Path ℓ))
  | inspects (hint : Ino (Path ℓ)) (digest : Digest)
  /-- `extract`, `write_temp`: about to make the directory, to create the file, to write what is left, to sync it -/
  | makesTmp
  | creates
  | writes (t : Temp) (i : Ino (Path ℓ)) (left : Bytes)
  | syncs (t : Temp) (i : Ino (Path ℓ))
  /-- `publish`: about to make the directory, to rename, to look at what is there -/
  | makesLib (t : Temp)
  | renames (t : Temp)
  | checks (t : Temp)
  /-- `write_index`; the extraction's own file is still to be removed if it was not published -/
  | makesIndex (held : Option Temp) (a : Answer ℓ)
  | makesIndexTmp (held : Option Temp) (a : Answer ℓ)
  | createsIndex (held : Option Temp) (a : Answer ℓ)
  | writesIndex (held : Option Temp) (a : Answer ℓ) (x : Temp) (i : Ino (Path ℓ)) (left : Bytes)
  | syncsIndex (held : Option Temp) (a : Answer ℓ) (x : Temp) (i : Ino (Path ℓ))
  | renamesIndex (held : Option Temp) (a : Answer ℓ) (x : Temp)
  | removesIndex (held : Option Temp) (a : Answer ℓ) (x : Temp)
  | removes (t : Temp) (a : Answer ℓ)
  | done (a : Answer ℓ)
deriving DecidableEq

structure Proc where
  pid : ℕ := 0
  alive : Bool := false
  /-- how many temporary files it has named: `TEMP_SEQUENCE`, before it wraps -/
  count : ℕ := 0

structure Call (ι ℓ : Type*) where
  proc : ℕ
  job : ι
  extract : Bool
  pc : Pc ℓ
  /-- history: a file-system call of it was refused -/
  refused : Bool := false

structure World (ι ℓ : Type*) where
  files : Files (Path ℓ)
  /-- history: the call that made a file, or emptied it, in this run -/
  author : Ino (Path ℓ) → Option ℕ := fun _ => none
  procs : ℕ → Proc := fun _ => {}
  nextProc : ℕ := 0
  calls : ℕ → Option (Call ι ℓ) := fun _ => none
  nextCall : ℕ := 0

inductive Act (ι : Type*) where
  | spawn (pid : ℕ)
  | crash (p : ℕ)
  | call (p : ℕ) (i : ι) (extract : Bool)
  /-- a call's next step: whether its file-system call is refused, and one less than how many bytes a write takes at most -/
  | move (c : ℕ) (fault : Bool) (n : ℕ)

variable {ι ℓ : Type*}

namespace Setting

variable (S : Setting ι ℓ) (i : ι)

def key : Digest := S.sha (probe (S.job i).identity (S.job i).entry)

def digest : Digest := S.sha (S.job i).data

def size : ℕ := (S.job i).entry.uncompressedSize.toNat

def fileName : Bytes := (nativeLibraryFileName (S.job i).entry).getD []

def libraryPath (d : Digest) : Path ℓ := .lib (S.place d (S.fileName i))

end Setting

namespace World

/-- no two live processes have one number -/
def free (w : World ι ℓ) (pid : ℕ) : Bool := (List.range w.nextProc).all fun p => !((w.procs p).alive && (w.procs p).pid == pid)

def goTo (w : World ι ℓ) (c : ℕ) (call : Call ι ℓ) (pc : Pc ℓ) (refused : Bool) : World ι ℓ :=
  { w with calls := Function.update w.calls c (some { call with pc, refused := call.refused || refused }) }

/-- a call of a process, from `pc` on -/
def enter (w : World ι ℓ) (p : ℕ) (i : ι) (extract : Bool) (pc : Pc ℓ) : World ι ℓ :=
  { w with calls := Function.update w.calls w.nextCall (some ⟨p, i, extract, pc, false⟩), nextCall := w.nextCall + 1 }

/-- the lookup has found nothing to use -/
def miss (call : Call ι ℓ) : Pc ℓ := if call.extract then .makesTmp else .done .missed

/-- the end of an extraction -/
def finish (held : Option Temp) (a : Answer ℓ) : Pc ℓ :=
  match held with
  | some t => .removes t a
  | none => .done a

/-- the next temporary file's name, and the count of them -/
def temp (w : World ι ℓ) (S : Setting ι ℓ) (call : Call ι ℓ) (index : Bool) : Temp :=
  ⟨S.key call.job, (w.procs call.proc).pid, (w.procs call.proc).count % 2 ^ 64, index⟩

def counted (w : World ι ℓ) (p : ℕ) : World ι ℓ :=
  { w with procs := Function.update w.procs p { w.procs p with count := (w.procs p).count + 1 } }

variable [DecidableEq ℓ]

/-- a temporary file created, for `pc` to go on with, or not -/
def create (w : World ι ℓ) (c : ℕ) (call : Call ι ℓ) (t : Temp) (fault : Bool) (pc : Ino (Path ℓ) → Pc ℓ) (otherwise : Pc ℓ) :
    World ι ℓ :=
  match fault, w.files.create (.temp t) with
  | false, some (files, i) =>
    { w.counted call.proc with files, author := Function.update w.author i (some c) }.goTo c call (pc i) false
  | _, _ => (w.counted call.proc).goTo c call otherwise true

/-- a temporary file renamed, for `pc` to go on with, or not -/
def rename (w : World ι ℓ) (c : ℕ) (call : Call ι ℓ) (t : Temp) (p : Path ℓ) (fault : Bool) (pc otherwise : Pc ℓ) : World ι ℓ :=
  match fault, w.files.rename (.temp t) p with
  | false, some files => { w with files }.goTo c call pc false
  | _, _ => w.goTo c call otherwise true

/-- a temporary file removed, if it can be -/
def remove (w : World ι ℓ) (c : ℕ) (call : Call ι ℓ) (t : Temp) (fault : Bool) (pc : Pc ℓ) : World ι ℓ :=
  (if fault then w else { w with files := w.files.remove (.temp t) }).goTo c call pc fault

/-- the call's next step -/
def advance (w : World ι ℓ) (S : Setting ι ℓ) (c : ℕ) (call : Call ι ℓ) (fault : Bool) (n : ℕ) : World ι ℓ :=
  let d := S.digest call.job
  match call.pc with
  | .opens =>
    if fault then w.goTo c call (.done (.failed .io)) true
    else
      match w.files.names (.index (S.key call.job)) with
      | .absent => w.goTo c call (miss call) false
      | .dir => w.goTo c call (.done (.failed .io)) true
      | .file hint => w.goTo c call (.reads hint) false
  | .reads hint =>
    if fault then w.goTo c call (.done (.failed .io)) true
    else
      match readIndex (w.files.data hint) with
      | some digest => w.goTo c call (.inspects hint digest) false
      | none => w.goTo c call (miss call) false
  | .inspects hint digest =>
    if fault then w.goTo c call (.done (.failed .io)) true
    else
      match w.files.names (S.libraryPath call.job digest) with
      | .file i =>
        if (w.files.data i).length = S.size call.job then
          w.goTo c call (.done (.reused digest (w.files.data i).length hint)) false
        else w.goTo c call (if call.extract then .makesTmp else .done (.failed .cacheSizeMismatch)) false
      | _ => w.goTo c call (miss call) false
  | .makesTmp => if fault then w.goTo c call (.done (.failed .io)) true else w.goTo c call .creates false
  | .creates =>
    let t := w.temp S call false
    w.create c call t fault (fun i => .writes t i (S.job call.job).data) (.removes t (.failed .io))
  | .writes t i left =>
    if fault then w.goTo c call (.removes t (.failed .io)) true
    else if left = [] then
      if (S.job call.job).good then w.goTo c call (.syncs t i) false else w.goTo c call (.removes t (.failed .entry)) false
    else { w with files := w.files.append i (left.take (n + 1)) }.goTo c call (.writes t i (left.drop (n + 1))) false
  | .syncs t _ => if fault then w.goTo c call (.removes t (.failed .io)) true else w.goTo c call (.makesLib t) false
  | .makesLib t => if fault then w.goTo c call (.removes t (.failed .io)) true else w.goTo c call (.renames t) false
  | .renames t => w.rename c call t (S.libraryPath call.job d) fault (.makesIndex none (.extracted d)) (.checks t)
  | .checks t =>
    match fault, w.files.names (S.libraryPath call.job d) with
    | false, .file i =>
      if (w.files.data i).length = S.size call.job then w.goTo c call (.makesIndex (some t) (.raced d)) false
      else w.goTo c call (.removes t (.failed .cachePublish)) false
    | _, _ => w.goTo c call (.removes t (.failed .cachePublish)) fault
  | .makesIndex held a => if fault then w.goTo c call (finish held a) true else w.goTo c call (.makesIndexTmp held a) false
  | .makesIndexTmp held a => if fault then w.goTo c call (finish held a) true else w.goTo c call (.createsIndex held a) false
  | .createsIndex held a =>
    let x := w.temp S call true
    w.create c call x fault (fun i => .writesIndex held a x i (hintText d)) (.removesIndex held a x)
  | .writesIndex held a x i left =>
    if fault then w.goTo c call (.removesIndex held a x) true
    else if left = [] then w.goTo c call (.syncsIndex held a x i) false
    else { w with files := w.files.append i (left.take (n + 1)) }.goTo c call (.writesIndex held a x i (left.drop (n + 1))) false
  | .syncsIndex held a x _ =>
    if fault then w.goTo c call (.removesIndex held a x) true else w.goTo c call (.renamesIndex held a x) false
  | .renamesIndex held a x => w.rename c call x (.index (S.key call.job)) fault (finish held a) (.removesIndex held a x)
  | .removesIndex held a x => w.remove c call x fault (finish held a)
  | .removes t a => w.remove c call t fault (.done a)
  | .done _ => w

def step (S : Setting ι ℓ) (w : World ι ℓ) : Act ι → World ι ℓ
  | .spawn pid =>
    if w.free pid then { w with procs := Function.update w.procs w.nextProc ⟨pid, true, 0⟩, nextProc := w.nextProc + 1 } else w
  | .crash p => { w with procs := Function.update w.procs p { w.procs p with alive := false } }
  | .call p i extract =>
    if (w.procs p).alive then
      w.enter p i extract (if (nativeLibraryFileName (S.job i).entry).isSome then .opens else .done (.failed .notANativeLibrary))
    else w
  | .move c fault n =>
    match w.calls c with
    | none => w
    | some call => if (w.procs call.proc).alive then w.advance S c call fault n else w

/-- a cache root with anything in it, and no process -/
def start (held : Path ℓ → Option Bytes) (dirs : Path ℓ → Bool) : World ι ℓ := { files := .start held dirs }

end World

end Omnidroid.Apk
