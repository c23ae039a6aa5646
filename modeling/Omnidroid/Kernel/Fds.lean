/-
Descriptor tables (`FdTable`, `sys_close`, `sys_dup3` and what else installs descriptors, `omni-linux/src/fd.rs` and `pipe.rs`): a
table for each process image, over open files that many descriptors can be on.
- `insert`: the lowest free number from a minimum on; `insert_spec`.
- `World.close`: a number taken out, with all that a close does: a binder driver's waiting readers return, the process's
  record locks on the file go, and, were it the last reference, the file's own locks. No close changes a file's contents.
- `descriptors_kept`: what holds of tables, allocations and `dup3` in every run whose minima and targets are in the table's
  range, and in which `dup3` replaces no descriptor whose close does more than let go of its file.
- `dup3_wrong`: one call for each of these that goes wrong.
-/
import Omnidroid.Kernel.Locks

namespace Omnidroid.Fds

open Locks

def EBADF : Errno := ⟨9⟩
def EMFILE : Errno := ⟨24⟩

def LIMIT : ℤ := 32768

/-- one more, as an `i32` counts -/
def succ32 (n : ℤ) : ℤ := if n = 2 ^ 31 - 1 then -2 ^ 31 else n + 1

/-! ## A table -/

/-- what an open file is to its closing -/
structure OpenFile where
  /-- the file its record locks are on -/
  key : String
  binder : Bool
deriving DecidableEq, Repr

/-- number to open file, and whether close-on-exec -/
abbrev Table := Map ℤ (ℕ × Bool)

/-- `while fds.contains_key(&fd) { fd += 1 }`; a table's size is enough fuel -/
def firstFree (t : Table) : ℕ → ℤ → ℤ
  | 0, fd => fd
  | fuel + 1, fd => if (t.lookup fd).isSome then firstFree t fuel (succ32 fd) else fd

/-- `FdTable::insert`: the table after it, and the number -/
def insert (t : Table) (file : ℕ) (cloexec : Bool) (min : ℤ) : Except Errno (Table × ℤ) :=
  let fd := firstFree t t.entries.length min
  if LIMIT ≤ fd then .error EMFILE else .ok (AList.insert fd (file, cloexec) t, fd)

/-! ## The machine -/

/-- a process image -/
structure Image where
  pid : ℕ
  fds : Table

structure World where
  images : Map ℕ Image := ∅
  files : ℕ → OpenFile := fun _ => ⟨"", false⟩
  nextFile : ℕ := 0
  /-- open files that a message, a mapping or a call under way holds -/
  elsewhere : ℕ → Bool := fun _ => false
  locks : List Lock := []
  /-- a binder driver's flushes, and which open files are gone -/
  flushes : ℕ → ℕ := fun _ => 0
  gone : ℕ → Bool := fun _ => false

inductive Act where
  /-- an open file made and put at the lowest number: `open`, `socket`, `memfd_create`, .. -/
  | open (i : ℕ) (file : OpenFile) (cloexec : Bool)
  /-- `pipe2`; whether the two numbers can be written where the guest wants them -/
  | pipe (i : ℕ) (cloexec writes : Bool)
  | dup (i : ℕ) (fd : ℤ)
  | dup3 (i : ℕ) (old new : ℤ) (cloexec : Bool)
  /-- `F_DUPFD`, and `F_DUPFD_CLOEXEC` -/
  | dupFd (i : ℕ) (fd min : ℤ) (cloexec : Bool)
  | setCloexec (i : ℕ) (fd : ℤ) (on : Bool)
  | close (i : ℕ) (fd : ℤ)
  | closeRange (i : ℕ) (first last : ℤ)
  /-- a child's image -/
  | fork (i child pid : ℕ)
  /-- the image of the program that `execve` loads; the old one exits -/
  | exec (i image : ℕ)
  /-- an image ends: every descriptor is closed -/
  | exit (i : ℕ)
  /-- record locks are taken and let go -/
  | setLocks (locks : List Lock)
  /-- a message, a mapping, .. takes a reference to an open file -/
  | hold (file : ℕ)
  | letGo (file : ℕ)

namespace World

def setFds (w : World) (i : ℕ) (im : Image) (t : Table) : World := { w with images := w.images.insert i { im with fds := t } }

/-- whether anything holds an open file -/
def held (w : World) (file : ℕ) : Bool :=
  w.elsewhere file || w.images.entries.any fun e => e.2.fds.entries.any fun d => d.2.1 == file

/-- a reference to an open file let go of: the last one is its drop, and `locks::released` -/
def dropped (w : World) (file : ℕ) : World :=
  if w.held file then w
  else { w with locks := w.locks.filter (·.holder ≠ .ofd file), gone := Function.update w.gone file true }

/-- `flush` -/
def flush (w : World) (file : ℕ) : World :=
  if (w.files file).binder then { w with flushes := Function.update w.flushes file (w.flushes file + 1) } else w

/-- `locks::closed` -/
def closed (w : World) (pid file : ℕ) : World :=
  { w with locks := w.locks.filter fun l => !(l.holder = .process pid && (l.file = (w.files file).key || l.via = file)) }

/-- `sys_close` -/
def close (w : World) (i : ℕ) (im : Image) (fd : ℤ) : World × Except Errno ℤ :=
  match im.fds.lookup fd with
  | none => (w, .error EBADF)
  | some (file, _) => ((((w.setFds i im (im.fds.erase fd)).flush file).closed im.pid file).dropped file, .ok 0)

/-- an open file put at the lowest number from `min` on -/
def allocate (w : World) (i : ℕ) (im : Image) (file : ℕ) (cloexec : Bool) (min : ℤ) : World × Except Errno ℤ :=
  match insert im.fds file cloexec min with
  | .ok (t, fd) => (w.setFds i im t, .ok fd)
  | .error e => (w, .error e)

/-- `FdTable::place`: what was there is dropped -/
def place (w : World) (i : ℕ) (im : Image) (fd : ℤ) (file : ℕ) (cloexec : Bool) : World :=
  let w' := w.setFds i im (AList.insert fd (file, cloexec) im.fds)
  match im.fds.lookup fd with
  | none => w'
  | some (old, _) => w'.dropped old

/-- a new open file -/
def newFile (w : World) (file : OpenFile) : World :=
  { w with files := Function.update w.files w.nextFile file, nextFile := w.nextFile + 1 }

/-- `sys_pipe2` -/
def pipe (w : World) (i : ℕ) (im : Image) (cloexec writes : Bool) : World × Except Errno ℤ :=
  match insert im.fds w.nextFile cloexec 0 with
  | .error e => (w, .error e)
  | .ok (t, r) =>
    match insert t (w.nextFile + 1) cloexec 0 with
    | .error e => (w.setFds i im (t.erase r), .error e)
    | .ok (t', x) =>
      if writes then (((w.newFile ⟨"pipe", false⟩).newFile ⟨"pipe", false⟩).setFds i im t', .ok 0)
      else (w.setFds i im ((t'.erase r).erase x), .error EFAULT)

/-- a call of an image there is -/
def callOf (w : World) (i : ℕ) (im : Image) : Act → World × Except Errno ℤ
  | .open _ file cloexec =>
    match insert im.fds w.nextFile cloexec 0 with
    | .ok (t, fd) => ((w.newFile file).setFds i im t, .ok fd)
    | .error e => (w, .error e)
  | .pipe _ cloexec writes => w.pipe i im cloexec writes
  | .dup _ fd =>
    match im.fds.lookup fd with
    | none => (w, .error EBADF)
    | some (file, _) => w.allocate i im file false 0
  | .dup3 _ old new cloexec =>
    if old = new then (w, .error EINVAL)
    else
      match im.fds.lookup old with
      | none => (w, .error EBADF)
      | some (file, _) => (w.place i im new file cloexec, .ok new)
  | .dupFd _ fd min cloexec =>
    match im.fds.lookup fd with
    | none => (w, .error EBADF)
    | some (file, _) => w.allocate i im file cloexec min
  | .setCloexec _ fd on =>
    match im.fds.lookup fd with
    | none => (w, .error EBADF)
    | some (file, _) => (w.setFds i im (AList.insert fd (file, on) im.fds), .ok 0)
  | .close _ fd => w.close i im fd
  | .fork _ child pid =>
    if (w.images.lookup child).isSome then (w, .error EAGAIN)
    else ({ w with images := w.images.insert child { pid, fds := im.fds } }, .ok 0)
  | .exec _ image =>
    if (w.images.lookup image).isSome then (w, .error EAGAIN)
    else ({ w with images := w.images.insert image { im with fds := im.fds.retain fun _ e => if e.2 then none else some e } }, .ok 0)
  | .exit _ =>
    let flushed := im.fds.entries.foldl (fun w e => w.flush e.2.1) { w with images := w.images.erase i }
    (im.fds.entries.foldl (fun w e => w.dropped e.2.1) flushed, .ok 0)
  -- there is no `close_range`
  | .closeRange .. => (w, .error ENOSYS)
  | .setLocks _ | .hold _ | .letGo _ => (w, .ok 0)

end World

/-- whose call it is -/
def Act.image : Act → Option ℕ
  | .open i .. | .pipe i .. | .dup i _ | .dup3 i .. | .dupFd i .. | .setCloexec i .. | .close i _ | .closeRange i .. | .fork i ..
  | .exec i _ | .exit i => some i
  | .setLocks _ | .hold _ | .letGo _ => none

namespace World

/-- an act, and its answer -/
def call (w : World) (a : Act) : World × Except Errno ℤ :=
  match a.image with
  | some i =>
    match w.images.lookup i with
    | some im => w.callOf i im a
    | none => (w, .ok 0)
  | none =>
    match a with
    | .setLocks locks => ({ w with locks }, .ok 0)
    | .hold file => ({ w with elsewhere := Function.update w.elsewhere file true }, .ok 0)
    | .letGo file => ({ w with elsewhere := Function.update w.elsewhere file false }.dropped file, .ok 0)
    | _ => (w, .ok 0)

def step (w : World) (a : Act) : World := (w.call a).1

/-- an image with the standard descriptors -/
def init (pid : ℕ) : World where
  images := AList.singleton 0 { pid, fds := AList.insert 0 (0, false) (AList.insert 1 (1, false) (AList.singleton 2 (2, false))) }
  nextFile := 3

/-- a descriptor put at a number -/
def install (w : World) (i : ℕ) (fd : ℤ) (file : ℕ) (cloexec : Bool) : World :=
  match w.images.lookup i with
  | some im => w.setFds i im (AList.insert fd (file, cloexec) im.fds)
  | none => w

/-- closing a descriptor on a file lets go of the file, and does nothing else -/
def Quiet (w : World) (pid file : ℕ) : Prop :=
  (w.files file).binder = false ∧
    ∀ l ∈ w.locks, l.holder = .process pid → l.file ≠ (w.files file).key ∧ l.via ≠ file

def Inside (n : ℤ) : Prop := 0 ≤ n ∧ n < LIMIT

/-- minima are inside the table's range; a target of `dup3` is, and what it replaces is quiet -/
def steadyOf (w : World) (im : Image) : Act → Prop
  | .dupFd _ fd min _ => (im.fds.lookup fd).isSome → Inside min
  | .dup3 _ old new _ =>
    (Inside new ∧ ((im.fds.lookup old).isSome → ∀ e ∈ im.fds.lookup new, w.Quiet im.pid e.1)) ∨
      (old ≠ new ∧ im.fds.lookup old = none)
  | _ => True

def steady (w : World) (a : Act) : Prop := ∀ i ∈ a.image, ∀ im ∈ w.images.lookup i, w.steadyOf im a

end World

/-! ## What is to hold -/

/-- the lowest free number from `min` on -/
def Lowest (t : Table) (min n : ℤ) : Prop :=
  min ≤ n ∧ n < LIMIT ∧ t.lookup n = none ∧ ∀ k, min ≤ k → k < n → (t.lookup k).isSome

def Full (t : Table) (min : ℤ) : Prop := ∀ k, min ≤ k → k < LIMIT → (t.lookup k).isSome

/-- what an allocation makes of a table, and answers -/
def Allocated (t : Table) (min : ℤ) (entry : ℕ × Bool) (t' : Table) (r : Except Errno ℤ) : Prop :=
  (∃ n, Lowest t min n ∧ t' = AList.insert n entry t ∧ r = .ok n) ∨ (Full t min ∧ t' = t ∧ r = .error EMFILE)

/-- what a pipe's two make of it -/
def AllocatedTwo (t : Table) (first second : ℕ × Bool) (t' : Table) (r : Except Errno ℤ) : Prop :=
  (∃ n m, Lowest t 0 n ∧ Lowest (AList.insert n first t) 0 m ∧ t' = AList.insert m second (AList.insert n first t) ∧ r = .ok 0) ∨
    ((Full t 0 ∨ ∃ n, Lowest t 0 n ∧ Full (AList.insert n first t) 0) ∧ t' = t ∧ r = .error EMFILE)

namespace World

/-- an image's table -/
def fdsOf (w : World) (i : ℕ) : Table := ((w.images.lookup i).map (·.fds)).getD ∅

/-- what a call of an image is to do -/
def MeetsOf (w : World) (i : ℕ) (im : Image) (a : Act) : Prop :=
  match a with
  | .open _ _ cloexec => Allocated im.fds 0 (w.nextFile, cloexec) ((w.call a).1.fdsOf i) (w.call a).2
  | .pipe _ cloexec writes =>
    AllocatedTwo im.fds (w.nextFile, cloexec) (w.nextFile + 1, cloexec) ((w.call a).1.fdsOf i) (w.call a).2 ∨
      (writes = false ∧ (w.call a).1.fdsOf i = im.fds ∧ (w.call a).2 = .error EFAULT)
  | .dup _ fd => ∀ e ∈ im.fds.lookup fd, Allocated im.fds 0 (e.1, false) ((w.call a).1.fdsOf i) (w.call a).2
  | .dupFd _ fd min cloexec =>
    ∀ e ∈ im.fds.lookup fd,
      (Inside min → Allocated im.fds min (e.1, cloexec) ((w.call a).1.fdsOf i) (w.call a).2) ∧
      (¬Inside min → w.call a = (w, .error EINVAL))
  | .dup3 _ old new cloexec =>
    (¬Inside new → w.call a = (w, .error EBADF)) ∧
      (Inside new → old ≠ new → ∀ e ∈ im.fds.lookup old,
        w.call a = (((w.close i im new).1.install i new e.1 cloexec), .ok new))
  | _ => True

def Meets (w : World) (a : Act) : Prop := ∀ i ∈ a.image, ∀ im ∈ w.images.lookup i, w.MeetsOf i im a

/-- every number of a table is inside its range -/
def InRange (w : World) : Prop := ∀ i im n, w.images.lookup i = some im → (im.fds.lookup n).isSome → Inside n

end World

/-! ## The lowest free number -/

section Table

variable {t : Table} {min : ℤ}

theorem firstFree_spec (t : Table) (fuel : ℕ) (fd : ℤ) (hle : fd + fuel < 2 ^ 31) :
    ∃ k : ℕ, k ≤ fuel ∧ firstFree t fuel fd = fd + k ∧ (∀ j < k, (t.lookup (fd + j)).isSome) ∧
      (k < fuel → t.lookup (fd + k) = none) := by
  induction fuel generalizing fd with
  | zero => exact ⟨0, le_rfl, by simp [firstFree], by simp, by simp⟩
  | succ fuel ih =>
    cases hl : t.lookup fd with
    | none =>
      refine ⟨0, by omega, by simp [firstFree, hl], by simp, fun _ => ?_⟩
      rwa [Nat.cast_zero, add_zero]
    | some e =>
      have hs : succ32 fd = fd + 1 := by
        rw [succ32, if_neg (by push_cast at hle; omega)]
      obtain ⟨k, hk, hn, hall, hfree⟩ := ih (fd + 1) (by push_cast at hle ⊢; omega)
      refine ⟨k + 1, by omega, ?_, ?_, ?_⟩
      · simp only [firstFree, hl, Option.isSome_some, if_true, hs, hn]
        push_cast
        ring
      · intro j hj
        cases j with
        | zero =>
          rw [Nat.cast_zero, add_zero, hl]
          rfl
        | succ j =>
          have hjk := hall j (by omega)
          rwa [show fd + ((j + 1 : ℕ) : ℤ) = fd + 1 + j by push_cast; ring]
      · intro hlt
        rw [show fd + ((k + 1 : ℕ) : ℤ) = fd + 1 + k by push_cast; ring]
        exact hfree (by omega)

theorem mem_keys_of_isSome {n : ℤ} (h : (t.lookup n).isSome) : n ∈ t.keys.toFinset :=
  List.mem_toFinset.mpr (AList.mem_keys.mp (AList.lookup_isSome.mp h))

theorem card_keys (t : Table) : t.keys.toFinset.card = t.entries.length := by
  rw [List.toFinset_card_of_nodup t.keys_nodup, AList.keys, List.keys, List.length_map]

/-- a table has as many entries as numbers, and no more -/
theorem run_lt_size {k : ℕ} {fd : ℤ} (h : ∀ j < k, (t.lookup (fd + j)).isSome) : k ≤ t.entries.length := by
  have hinj : Function.Injective fun j : ℕ => fd + (j : ℤ) := fun a b hab => by
    have : fd + (a : ℤ) = fd + b := hab
    omega
  have hsub : (Finset.range k).image (fun j : ℕ => fd + (j : ℤ)) ⊆ t.keys.toFinset := by
    intro n hn
    obtain ⟨j, hj, rfl⟩ := Finset.mem_image.mp hn
    exact mem_keys_of_isSome (h j (Finset.mem_range.mp hj))
  have hcard := Finset.card_le_card hsub
  rwa [Finset.card_image_of_injective _ hinj, Finset.card_range, card_keys] at hcard

theorem size_le (h : ∀ n, (t.lookup n).isSome → World.Inside n) : t.entries.length ≤ 32768 := by
  have hsub : t.keys.toFinset ⊆ Finset.Ico (0 : ℤ) LIMIT := by
    intro n hn
    have hk : n ∈ t := AList.mem_keys.mpr (List.mem_toFinset.mp hn)
    exact Finset.mem_Ico.mpr (h n (AList.lookup_isSome.mpr hk))
  have hcard := Finset.card_le_card hsub
  rw [card_keys, Int.card_Ico] at hcard
  exact hcard

/-- the search ends at the lowest free number -/
theorem firstFree_lowest (h : ∀ n, (t.lookup n).isSome → World.Inside n) (hmin : World.Inside min) :
    min ≤ firstFree t t.entries.length min ∧ t.lookup (firstFree t t.entries.length min) = none ∧
      ∀ k, min ≤ k → k < firstFree t t.entries.length min → (t.lookup k).isSome := by
  have hsize := size_le h
  have hlt : min < 32768 := hmin.2
  obtain ⟨k, hk, hn, hall, hfree⟩ := firstFree_spec t t.entries.length min (by omega)
  have hnone : t.lookup (min + k) = none := by
    rcases lt_or_eq_of_le hk with hlt | heq
    · exact hfree hlt
    · by_contra hsome
      have hmore : ∀ j < k + 1, (t.lookup (min + j)).isSome := by
        intro j hj
        rcases Nat.lt_succ_iff_lt_or_eq.mp hj with hj | rfl
        · exact hall j hj
        · exact Option.isSome_iff_ne_none.mpr hsome
      have := run_lt_size hmore
      omega
  rw [hn]
  refine ⟨by omega, hnone, ?_⟩
  intro n hle hlt
  have hj := hall (n - min).toNat (by omega)
  rwa [show min + ((n - min).toNat : ℤ) = n by omega] at hj

/-- **`insert`**: the lowest free number, or none is free -/
theorem insert_spec (h : ∀ n, (t.lookup n).isSome → World.Inside n) (hmin : World.Inside min) (file : ℕ) (cloexec : Bool) :
    (∃ n, Lowest t min n ∧ insert t file cloexec min = .ok (AList.insert n (file, cloexec) t, n)) ∨
      (Full t min ∧ insert t file cloexec min = .error EMFILE) := by
  obtain ⟨hle, hnone, hall⟩ := firstFree_lowest h hmin
  unfold insert
  simp only
  split_ifs with hlim
  · exact .inr ⟨fun k hk hlt => hall k hk (by omega), rfl⟩
  · exact .inl ⟨_, ⟨hle, by omega, hnone, hall⟩, rfl⟩

/-- a number put in a table is inside, if what was there is -/
theorem inside_insert (h : ∀ n, (t.lookup n).isSome → World.Inside n) {n : ℤ} (hn : World.Inside n) (e : ℕ × Bool) :
    ∀ k, ((AList.insert n e t).lookup k).isSome → World.Inside k := by
  intro k hk
  rw [Map.lookup_insert_eq] at hk
  split_ifs at hk with hkn
  · exact hkn ▸ hn
  · exact h k hk

theorem inside_erase (h : ∀ n, (t.lookup n).isSome → World.Inside n) (n : ℤ) :
    ∀ k, ((t.erase n).lookup k).isSome → World.Inside k := by
  intro k hk
  rw [Map.lookup_erase_eq] at hk
  split_ifs at hk with hkn
  · cases hk
  · exact h k hk

theorem Lowest.inside {n : ℤ} (hmin : World.Inside min) (h : Lowest t min n) : World.Inside n :=
  ⟨hmin.1.trans h.1, h.2.1⟩

theorem inside_zero : World.Inside 0 := ⟨le_rfl, by decide⟩

/-- what was put in is taken out again -/
theorem erase_insert {n : ℤ} (h : t.lookup n = none) (e : ℕ × Bool) : (AList.insert n e t).erase n = t := by
  apply AList.ext
  have hn : List.kerase n (⟨n, e⟩ :: List.kerase n t.entries) = List.kerase n t.entries := List.kerase_cons_eq rfl
  have hent : ((AList.insert n e t).erase n).entries = List.kerase n (⟨n, e⟩ :: List.kerase n t.entries) := rfl
  rw [hent, hn]
  exact List.kerase_of_notMem_keys (AList.lookup_eq_none.mp h)

theorem insert_erase (t : Table) (n : ℤ) (e : ℕ × Bool) : AList.insert n e (t.erase n) = AList.insert n e t := by
  have hk : List.kerase n (List.kerase n t.entries) = List.kerase n t.entries :=
    List.kerase_of_notMem_keys (List.notMem_keys_kerase n t.nodupKeys)
  apply AList.ext
  exact congrArg (List.cons ⟨n, e⟩) hk

end Table

/-! ## What a call does to the images -/

namespace World

variable {w : World} {i : ℕ} {im : Image}

theorem images_flush (w : World) (file : ℕ) : (w.flush file).images = w.images := by
  unfold flush
  split <;> rfl

theorem images_dropped (w : World) (file : ℕ) : (w.dropped file).images = w.images := by
  unfold dropped
  split <;> rfl

theorem images_foldl (f : World → ℕ → World) (hf : ∀ w file, (f w file).images = w.images) (l : List (Sigma fun _ : ℤ => ℕ × Bool))
    (w : World) : (l.foldl (fun w e => f w e.2.1) w).images = w.images := by
  induction l generalizing w with
  | nil => rfl
  | cons e l ih => rw [List.foldl_cons, ih, hf]

theorem lookup_setFds (w : World) (i j : ℕ) (im : Image) (t : Table) :
    (w.setFds i im t).images.lookup j = if j = i then some { im with fds := t } else w.images.lookup j :=
  Map.lookup_insert_eq ..

@[simp] theorem fdsOf_setFds (w : World) (i : ℕ) (im : Image) (t : Table) : (w.setFds i im t).fdsOf i = t := by
  simp [fdsOf, lookup_setFds]

theorem fdsOf_eq (h : w.images.lookup i = some im) : w.fdsOf i = im.fds := by
  simp [fdsOf, h]

/-- a table changed for one whose numbers are inside -/
theorem inRange_setFds (hr : w.InRange) {t : Table} (ht : ∀ n, (t.lookup n).isSome → Inside n) : (w.setFds i im t).InRange := by
  intro j im' n hj hn
  rw [lookup_setFds] at hj
  split_ifs at hj with hji
  · cases hj
    exact ht n hn
  · exact hr j im' n hj hn

theorem inRange_of_images {w' : World} (hr : w.InRange) (h : w'.images = w.images) : w'.InRange := by
  intro j im' n hj hn
  rw [h] at hj
  exact hr j im' n hj hn

/-- an image more, its table part of one there is -/
theorem inRange_insert (hr : w.InRange) {im' : Image} (k : ℕ) (h : ∀ n, (im'.fds.lookup n).isSome → Inside n) :
    ({ w with images := w.images.insert k im' } : World).InRange := by
  intro j im'' n hj hn
  rw [Map.lookup_insert_eq] at hj
  split_ifs at hj with hjk
  · cases hj
    exact h n hn
  · exact hr j im'' n hj hn

theorem call_of {a : Act} (ha : a.image = some i) (hi : w.images.lookup i = some im) : w.call a = w.callOf i im a := by
  simp only [call, ha, hi]

/-- a pipe's two numbers, or none: what was put in is taken out again -/
theorem pipe_cases (h : ∀ n, (im.fds.lookup n).isSome → Inside n) (cloexec writes : Bool) :
    (∃ n m, Lowest im.fds 0 n ∧ Lowest (AList.insert n (w.nextFile, cloexec) im.fds) 0 m ∧
      w.pipe i im cloexec writes =
        if writes then
          (((w.newFile ⟨"pipe", false⟩).newFile ⟨"pipe", false⟩).setFds i im
            (AList.insert m (w.nextFile + 1, cloexec) (AList.insert n (w.nextFile, cloexec) im.fds)), .ok 0)
        else (w.setFds i im im.fds, .error EFAULT)) ∨
    (Full im.fds 0 ∧ w.pipe i im cloexec writes = (w, .error EMFILE)) ∨
    (∃ n, Lowest im.fds 0 n ∧ Full (AList.insert n (w.nextFile, cloexec) im.fds) 0 ∧
      w.pipe i im cloexec writes = (w.setFds i im im.fds, .error EMFILE)) := by
  unfold pipe
  rcases insert_spec h inside_zero w.nextFile cloexec with ⟨n, hn, hins⟩ | ⟨hfull, hins⟩
  · have hback := erase_insert hn.2.2.1 (w.nextFile, cloexec)
    rcases insert_spec (inside_insert h (hn.inside inside_zero) (w.nextFile, cloexec)) inside_zero (w.nextFile + 1) cloexec with
      ⟨m, hm, hins'⟩ | ⟨hfull, hins'⟩
    · refine .inl ⟨n, m, hn, hm, ?_⟩
      have hback' := erase_insert hm.2.2.1 (w.nextFile + 1, cloexec)
      simp only [hins, hins']
      rw [AList.erase_erase, hback', hback]
    · refine .inr (.inr ⟨n, hn, hfull, ?_⟩)
      simp only [hins, hins', hback]
  · refine .inr (.inl ⟨hfull, ?_⟩)
    simp only [hins]

theorem setFds_same (hi : w.images.lookup i = some im) (hr : w.InRange) : (w.setFds i im im.fds).InRange :=
  inRange_setFds hr fun n hn => hr i im n hi hn

/-- an allocation keeps every table in its range -/
theorem inRange_allocate (hr : w.InRange) (hi : w.images.lookup i = some im) (file : ℕ) (cloexec : Bool) {min : ℤ}
    (hmin : Inside min) : (w.allocate i im file cloexec min).1.InRange := by
  unfold allocate
  rcases insert_spec (fun n hn => hr i im n hi hn) hmin file cloexec with ⟨n, hn, hins⟩ | ⟨-, hins⟩
  · rw [hins]
    exact inRange_setFds hr (inside_insert (fun n hn => hr i im n hi hn) (hn.inside hmin) _)
  · rw [hins]
    exact hr

theorem inRange_pipe (hr : w.InRange) (hi : w.images.lookup i = some im) (cloexec writes : Bool) :
    (w.pipe i im cloexec writes).1.InRange := by
  have hin : ∀ n, (im.fds.lookup n).isSome → Inside n := fun n hn => hr i im n hi hn
  rcases pipe_cases (w := w) (i := i) hin cloexec writes with ⟨n, m, hn, hm, he⟩ | ⟨-, he⟩ | ⟨n, hn, -, he⟩
  · rw [he]
    split_ifs
    · refine inRange_setFds (inRange_of_images hr rfl) ?_
      exact inside_insert (inside_insert hin (hn.inside inside_zero) _) (hm.inside inside_zero) _
    · exact setFds_same hi hr
  · rw [he]
    exact hr
  · rw [he]
    exact setFds_same hi hr

theorem inRange_close (hr : w.InRange) (hi : w.images.lookup i = some im) (fd : ℤ) : (w.close i im fd).1.InRange := by
  unfold close
  cases hl : im.fds.lookup fd with
  | none => exact hr
  | some e =>
    refine inRange_of_images (w := w.setFds i im (im.fds.erase fd)) ?_ ?_
    · exact inRange_setFds hr (inside_erase (fun n hn => hr i im n hi hn) fd)
    · rw [images_dropped]
      exact images_flush ..

theorem inRange_place (hr : w.InRange) (hi : w.images.lookup i = some im) {fd : ℤ} (hfd : Inside fd) (file : ℕ) (cloexec : Bool) :
    (w.place i im fd file cloexec).InRange := by
  have hset : (w.setFds i im (AList.insert fd (file, cloexec) im.fds)).InRange :=
    inRange_setFds hr (inside_insert (fun n hn => hr i im n hi hn) hfd _)
  unfold place
  cases hl : im.fds.lookup fd with
  | none => exact hset
  | some e => exact inRange_of_images hset (images_dropped ..)

/-- a call that keeps to the range leaves every table in it -/
theorem inRange_callOf (hr : w.InRange) (hi : w.images.lookup i = some im) (a : Act) (ho : w.steadyOf im a) :
    (w.callOf i im a).1.InRange := by
  have hin : ∀ n, (im.fds.lookup n).isSome → Inside n := fun n hn => hr i im n hi hn
  cases a with
  | «open» _ file cloexec =>
    simp only [callOf]
    rcases insert_spec hin inside_zero w.nextFile cloexec with ⟨n, hn, hins⟩ | ⟨-, hins⟩
    · rw [hins]
      exact inRange_setFds (inRange_of_images hr rfl) (inside_insert hin (hn.inside inside_zero) _)
    · rw [hins]
      exact hr
  | pipe _ cloexec writes => exact inRange_pipe hr hi cloexec writes
  | dup _ fd =>
    simp only [callOf]
    cases hl : im.fds.lookup fd with
    | none => exact hr
    | some e => exact inRange_allocate hr hi e.1 false inside_zero
  | dup3 _ old new cloexec =>
    simp only [callOf]
    split_ifs with hne
    · exact hr
    · cases hl : im.fds.lookup old with
      | none => exact hr
      | some e =>
        rcases ho with ⟨hnew, -⟩ | ⟨-, hnone⟩
        · exact inRange_place hr hi hnew e.1 cloexec
        · rw [hl] at hnone
          cases hnone
  | dupFd _ fd min cloexec =>
    simp only [callOf]
    cases hl : im.fds.lookup fd with
    | none => exact hr
    | some e => exact inRange_allocate hr hi e.1 cloexec (ho (by rw [hl]; rfl))
  | setCloexec _ fd on =>
    simp only [callOf]
    cases hl : im.fds.lookup fd with
    | none => exact hr
    | some e => exact inRange_setFds hr (inside_insert hin (hin fd (by rw [hl]; rfl)) _)
  | close _ fd => exact inRange_close hr hi fd
  | fork _ child pid =>
    simp only [callOf]
    split_ifs
    · exact hr
    · exact inRange_insert hr child hin
  | exec _ image =>
    simp only [callOf]
    split_ifs
    · exact hr
    · refine inRange_insert hr image fun n hn => hin n ?_
      rw [Map.lookup_retain] at hn
      obtain ⟨e, he⟩ := Option.isSome_iff_exists.mp hn
      obtain ⟨e', he', -⟩ := Option.bind_eq_some_iff.mp he
      rw [he']
      rfl
  | exit _ =>
    simp only [callOf]
    refine inRange_of_images (w := { w with images := w.images.erase i }) ?_ ?_
    · intro j im' n hj hn
      rw [Map.lookup_erase_eq] at hj
      by_cases hji : j = i
      · rw [if_pos hji] at hj
        cases hj
      · rw [if_neg hji] at hj
        exact hr j im' n hj hn
    · rw [images_foldl _ images_dropped, images_foldl _ images_flush]
  | closeRange => exact hr
  | setLocks => exact hr
  | hold => exact hr
  | letGo => exact hr

theorem step_inRange (hr : w.InRange) (a : Act) (ho : w.steady a) : (w.step a).InRange := by
  unfold step call
  cases ha : a.image with
  | some i =>
    simp only
    cases hi : w.images.lookup i with
    | some im => exact inRange_callOf hr hi a (ho i ha im hi)
    | none => exact hr
  | none =>
    simp only
    split
    · exact hr
    · exact hr
    · exact inRange_of_images (w := w) hr (images_dropped ..)
    · exact hr

theorem inRange_init (pid : ℕ) : (init pid).InRange := by
  intro i im n hi hn
  have hi' : im = { pid, fds := AList.insert 0 (0, false) (AList.insert 1 (1, false) (AList.singleton 2 (2, false))) } := by
    have hm := (Map.mem_entries _ _ _).mpr hi
    have hs := List.mem_singleton.mp hm
    cases hs
    rfl
  subst hi'
  obtain ⟨e, he⟩ := Option.isSome_iff_exists.mp hn
  have hm := (Map.mem_entries _ _ _).mpr he
  have hn' : n = 0 ∨ n = 1 ∨ n = 2 := by
    rcases List.mem_cons.mp hm with h | h
    · cases h
      exact .inl rfl
    · rcases List.mem_cons.mp h with h | h
      · cases h
        exact .inr (.inl rfl)
      · cases List.mem_singleton.mp h
        exact .inr (.inr rfl)
  unfold Inside LIMIT
  omega

/-! ## What an allocation answers -/

/-- `allocate`, on a table whose numbers are inside -/
theorem allocated_allocate (hin : ∀ n, (im.fds.lookup n).isSome → Inside n) (hi : w.images.lookup i = some im) (file : ℕ)
    (cloexec : Bool) {min : ℤ} (hmin : Inside min) :
    Allocated im.fds min (file, cloexec) ((w.allocate i im file cloexec min).1.fdsOf i) (w.allocate i im file cloexec min).2 := by
  unfold allocate
  rcases insert_spec hin hmin file cloexec with ⟨n, hn, hins⟩ | ⟨hfull, hins⟩
  · rw [hins]
    exact .inl ⟨n, hn, fdsOf_setFds .., rfl⟩
  · rw [hins]
    exact .inr ⟨hfull, fdsOf_eq hi, rfl⟩

theorem allocated_pipe (hin : ∀ n, (im.fds.lookup n).isSome → Inside n) (hi : w.images.lookup i = some im) (cloexec writes : Bool) :
    AllocatedTwo im.fds (w.nextFile, cloexec) (w.nextFile + 1, cloexec) ((w.pipe i im cloexec writes).1.fdsOf i)
        (w.pipe i im cloexec writes).2 ∨
      (writes = false ∧ (w.pipe i im cloexec writes).1.fdsOf i = im.fds ∧ (w.pipe i im cloexec writes).2 = .error EFAULT) := by
  rcases pipe_cases (w := w) (i := i) hin cloexec writes with ⟨n, m, hn, hm, he⟩ | ⟨hfull, he⟩ | ⟨n, hn, hfull, he⟩
  · rw [he]
    cases writes with
    | true => exact .inl (.inl ⟨n, m, hn, hm, fdsOf_setFds .., rfl⟩)
    | false => exact .inr ⟨rfl, fdsOf_setFds .., rfl⟩
  · rw [he]
    exact .inl (.inr ⟨.inl hfull, fdsOf_eq hi, rfl⟩)
  · rw [he]
    exact .inl (.inr ⟨.inr ⟨n, hn, hfull⟩, fdsOf_setFds .., rfl⟩)

/-! ## `dup3` -/

/-- something holds an open file: a descriptor on it, or what is not a descriptor -/
theorem held_iff (w : World) (file : ℕ) :
    w.held file ↔ w.elsewhere file ∨ ∃ j im n b, w.images.lookup j = some im ∧ im.fds.lookup n = some (file, b) := by
  unfold held
  rw [Bool.or_eq_true, List.any_eq_true]
  refine or_congr Iff.rfl ⟨?_, ?_⟩
  · rintro ⟨⟨j, im⟩, hj, hany⟩
    obtain ⟨⟨n, f, b⟩, hn, hf⟩ := List.any_eq_true.mp hany
    have hf' : f = file := beq_iff_eq.mp hf
    exact ⟨j, im, n, b, (Map.mem_entries ..).mp hj, hf' ▸ (Map.mem_entries ..).mp hn⟩
  · rintro ⟨j, im, n, b, hj, hn⟩
    refine ⟨⟨j, im⟩, (Map.mem_entries ..).mpr hj, List.any_eq_true.mpr ⟨⟨n, file, b⟩, (Map.mem_entries ..).mpr hn, ?_⟩⟩
    exact beq_self_eq_true file

/-- with the table of one image changed: that image's descriptors, and the others' as before -/
theorem held_setFds (w : World) (i : ℕ) (im : Image) (t : Table) (file : ℕ) :
    (w.setFds i im t).held file ↔
      w.elsewhere file ∨ (∃ n b, t.lookup n = some (file, b)) ∨
        ∃ j im' n b, j ≠ i ∧ w.images.lookup j = some im' ∧ im'.fds.lookup n = some (file, b) := by
  rw [held_iff]
  refine or_congr Iff.rfl ⟨?_, ?_⟩
  · rintro ⟨j, im', n, b, hj, hn⟩
    rw [lookup_setFds] at hj
    split_ifs at hj with hji
    · cases hj
      exact .inl ⟨n, b, hn⟩
    · exact .inr ⟨j, im', n, b, hji, hj, hn⟩
  · rintro (⟨n, b, hn⟩ | ⟨j, im', n, b, hji, hj, hn⟩)
    · exact ⟨i, { im with fds := t }, n, b, by rw [lookup_setFds, if_pos rfl], hn⟩
    · exact ⟨j, im', n, b, by rw [lookup_setFds, if_neg hji, hj], hn⟩

/-- whether the replaced file is let go of does not depend on whether the duplicate is there yet: it is on a number already -/
theorem held_replace {old new : ℤ} {file gone : ℕ} {b : Bool} (hne : old ≠ new) (hold : im.fds.lookup old = some (file, b))
    (cloexec : Bool) :
    (w.setFds i im (AList.insert new (file, cloexec) im.fds)).held gone = (w.setFds i im (im.fds.erase new)).held gone := by
  rw [Bool.eq_iff_iff, held_setFds, held_setFds]
  refine or_congr Iff.rfl (or_congr ⟨?_, ?_⟩ Iff.rfl)
  · rintro ⟨n, c, hn⟩
    rw [Map.lookup_insert_eq] at hn
    split_ifs at hn with hnn
    · cases hn
      exact ⟨old, b, by rw [Map.lookup_erase_eq, if_neg hne, hold]⟩
    · exact ⟨n, c, by rw [Map.lookup_erase_eq, if_neg hnn, hn]⟩
  · rintro ⟨n, c, hn⟩
    rw [Map.lookup_erase_eq] at hn
    by_cases hnn : n = new
    · rw [if_pos hnn] at hn
      cases hn
    · rw [if_neg hnn] at hn
      exact ⟨n, c, by rw [Map.lookup_insert_eq, if_neg hnn, hn]⟩

theorem setFds_setFds (w : World) (i : ℕ) (im : Image) (t t' : Table) :
    (w.setFds i im t).setFds i { im with fds := t } t' = w.setFds i im t' := by
  simp only [setFds, AList.insert_insert]

/-- a file let go of, and then a table changed: the other way round, if that changes nothing about who holds the file -/
theorem dropped_setFds {t t' : Table} {gone : ℕ} (h : (w.setFds i im t').held gone = (w.setFds i im t).held gone) :
    ((w.setFds i im t).dropped gone).setFds i { im with fds := t } t' = (w.setFds i im t').dropped gone := by
  unfold dropped
  rw [h]
  split_ifs
  · exact setFds_setFds ..
  · simp only [setFds, AList.insert_insert]

/-- a close that does nothing but let go of the file -/
theorem close_quiet {new : ℤ} {e : ℕ × Bool} (hnew : im.fds.lookup new = some e) (hq : w.Quiet im.pid e.1) :
    (w.close i im new).1 = (w.setFds i im (im.fds.erase new)).dropped e.1 := by
  have hflush : (w.setFds i im (im.fds.erase new)).flush e.1 = w.setFds i im (im.fds.erase new) := by
    unfold flush
    exact if_neg (by rw [show (w.setFds i im (im.fds.erase new)).files e.1 = w.files e.1 from rfl, hq.1]; decide)
  have hclosed : (w.setFds i im (im.fds.erase new)).closed im.pid e.1 = w.setFds i im (im.fds.erase new) := by
    have hlocks : w.locks.filter (fun l => !(l.holder = .process im.pid && (l.file = (w.files e.1).key || l.via = e.1))) = w.locks := by
      refine List.filter_eq_self.mpr fun l hl => ?_
      by_cases hh : l.holder = .process im.pid
      · obtain ⟨hkey, hvia⟩ := hq.2 l hl hh
        simp [hkey, hvia]
      · simp [hh]
    unfold closed
    exact congrArg (fun locks => { w.setFds i im (im.fds.erase new) with locks }) hlocks
  unfold close
  rw [hnew]
  dsimp only
  rw [hflush, hclosed]

/-- **`dup3` on a quiet number** is closing it and putting the duplicate there -/
theorem place_eq {old new : ℤ} {e : ℕ × Bool} (hi : w.images.lookup i = some im) (hne : old ≠ new)
    (hold : im.fds.lookup old = some e) (hq : ∀ g ∈ im.fds.lookup new, w.Quiet im.pid g.1) (cloexec : Bool) :
    w.place i im new e.1 cloexec = (w.close i im new).1.install i new e.1 cloexec := by
  cases hnew : im.fds.lookup new with
  | none =>
    unfold place close install
    simp only [hnew, hi]
  | some g =>
    have hlook : ((w.setFds i im (im.fds.erase new)).dropped g.1).images.lookup i = some { im with fds := im.fds.erase new } := by
      rw [images_dropped, lookup_setFds, if_pos rfl]
    rw [close_quiet hnew (hq g hnew)]
    unfold place install
    simp only [hnew, hlook]
    rw [dropped_setFds, insert_erase]
    rw [insert_erase]
    exact held_replace hne hold cloexec

/-- what a call that keeps to the range does -/
theorem meets (hr : w.InRange) (a : Act) (ho : w.steady a) : w.Meets a := by
  intro i ha im hi
  have hin : ∀ n, (im.fds.lookup n).isSome → Inside n := fun n hn => hr i im n hi hn
  have hs : w.steadyOf im a := ho i ha im hi
  have hcall := call_of ha hi
  cases a with
  | «open» k file cloexec =>
    simp only [MeetsOf, hcall, callOf]
    rcases insert_spec hin inside_zero w.nextFile cloexec with ⟨n, hn, hins⟩ | ⟨hfull, hins⟩
    · rw [hins]
      exact .inl ⟨n, hn, fdsOf_setFds .., rfl⟩
    · rw [hins]
      exact .inr ⟨hfull, fdsOf_eq hi, rfl⟩
  | pipe k cloexec writes =>
    simp only [MeetsOf, hcall, callOf]
    exact allocated_pipe hin hi cloexec writes
  | dup k fd =>
    intro e he
    have he' : im.fds.lookup fd = some e := he
    rw [hcall]
    simp only [callOf, he']
    exact allocated_allocate hin hi e.1 false inside_zero
  | dupFd k fd min cloexec =>
    intro e he
    have he' : im.fds.lookup fd = some e := he
    have hmin : Inside min := hs (by rw [he']; rfl)
    refine ⟨fun _ => ?_, fun hout => absurd hmin hout⟩
    rw [hcall]
    simp only [callOf, he']
    exact allocated_allocate hin hi e.1 cloexec hmin
  | dup3 k old new cloexec =>
    refine ⟨fun hout => ?_, fun _ hne e he => ?_⟩
    · rcases hs with ⟨hnew, -⟩ | ⟨hne, hnone⟩
      · exact absurd hnew hout
      · rw [hcall]
        simp only [callOf, if_neg hne, hnone]
    · have he' : im.fds.lookup old = some e := he
      rcases hs with ⟨-, hq⟩ | ⟨-, hnone⟩
      · rw [hcall]
        simp only [callOf, if_neg hne, he']
        rw [place_eq hi hne he' (hq (by rw [he']; rfl)) cloexec]
      · rw [he'] at hnone
        cases hnone
  | setCloexec | close | closeRange | fork | exec | exit | setLocks | hold | letGo => trivial

end World

/-- **Descriptors are kept.** In every run whose minima and targets are in the table's range, and in which `dup3` replaces no
binder driver's descriptor and none on a file the process has record locks on, every table is in its range, and the next
such call does what it is to do. -/
theorem descriptors_kept (pid : ℕ) {w : World} (h : Reach World.step World.steady (World.init pid) w) :
    w.InRange ∧ ∀ a, w.steady a → w.Meets a := by
  have hr : w.InRange := h.invariant World.InRange (World.inRange_init pid) fun _ a _ ho hs => World.step_inRange hs a ho
  exact ⟨hr, fun a ho => World.meets hr a ho⟩

instance decInside (n : ℤ) : Decidable (World.Inside n) := inferInstanceAs (Decidable (0 ≤ n ∧ n < LIMIT))

instance decQuiet (w : World) (pid file : ℕ) : Decidable (w.Quiet pid file) :=
  inferInstanceAs (Decidable ((w.files file).binder = false ∧
    ∀ l ∈ w.locks, l.holder = .process pid → l.file ≠ (w.files file).key ∧ l.via ≠ file))

instance decSteadyOf (w : World) (im : Image) : (a : Act) → Decidable (w.steadyOf im a)
  | .dupFd _ fd min _ => inferInstanceAs (Decidable ((im.fds.lookup fd).isSome → World.Inside min))
  | .dup3 _ old new _ =>
    inferInstanceAs (Decidable
      ((World.Inside new ∧ ((im.fds.lookup old).isSome → ∀ e ∈ im.fds.lookup new, w.Quiet im.pid e.1)) ∨
        (old ≠ new ∧ im.fds.lookup old = none)))
  | .open .. | .pipe .. | .dup .. | .setCloexec .. | .close .. | .closeRange .. | .fork .. | .exec .. | .exit _ | .setLocks _
  | .hold _ | .letGo _ => .isTrue trivial

instance decSteady (w : World) (a : Act) : Decidable (w.steady a) :=
  inferInstanceAs (Decidable (∀ i ∈ a.image, ∀ im ∈ w.images.lookup i, w.steadyOf im a))

/-- a file opened, locked, and another put in the place of its descriptor's duplicate once the lock is gone -/
def quietRun : List Act :=
  [.open 0 ⟨"a", false⟩ false, .setLocks [⟨"a", 3, .process 1000, 1000, 0, 1, true⟩], .dupFd 0 1 5 true, .dup3 0 3 7 false,
    .setLocks [], .dup3 0 1 7 true, .pipe 0 false true, .fork 0 1 2000, .close 1 7, .exec 1 2, .exit 1]

theorem descriptors_kept_run :
    (run World.step (World.init 1000) quietRun).InRange ∧
      ∀ a, (run World.step (World.init 1000) quietRun).steady a → (run World.step (World.init 1000) quietRun).Meets a :=
  descriptors_kept 1000 (.run .start quietRun (by decide))

/-- a file with a record lock at 3 -/
def locked : World :=
  run World.step (World.init 1000) [.open 0 ⟨"a", false⟩ false, .setLocks [⟨"a", 3, .process 1000, 1000, 0, 1, true⟩]]

/-- a binder driver at 3 -/
def withBinder : World := run World.step (World.init 1000) [.open 0 ⟨"binder", true⟩ false]

/-- an image there is, by its process and its table -/
theorem image_eq {w : World} {i : ℕ} (pid : ℕ) (h : (w.images.lookup i).map (·.pid) = some pid) :
    w.images.lookup i = some { pid, fds := w.fdsOf i } := by
  obtain ⟨im, him, rfl⟩ := Option.map_eq_some_iff.mp h
  rw [World.fdsOf_eq him, him]

/-- **What goes wrong.** A minimum below zero and a target past the limit become numbers of the table, a minimum past the limit
has another errno, and a descriptor replaced keeps its record locks and its waiting readers. -/
theorem dup3_wrong :
    ¬(run World.step (World.init 1000) [.dupFd 0 1 (-1) false]).InRange ∧
      ¬(run World.step (World.init 1000) [.dup3 0 1 40000 false]).InRange ∧
      ¬(World.init 1000).Meets (.dupFd 0 1 40000 false) ∧ ¬locked.Meets (.dup3 0 1 3 false) ∧
      ¬withBinder.Meets (.dup3 0 1 3 false) := by
  refine ⟨?_, ?_, ?_, ?_, ?_⟩
  · intro h
    have hin := h 0 _ (-1) (image_eq 1000 (by decide)) (by decide)
    exact absurd hin (by decide)
  · intro h
    have hin := h 0 _ 40000 (image_eq 1000 (by decide)) (by decide)
    exact absurd hin (by decide)
  · intro h
    have hm := (h 0 rfl _ (image_eq 1000 (by decide)) (1, false) (by decide)).2 (by decide)
    exact absurd (congrArg Prod.snd hm) (by decide)
  · intro h
    have hm := (h 0 rfl _ (image_eq 1000 (by decide))).2 (by decide) (by decide) (1, false) (by decide)
    exact absurd (congrArg (fun r => r.1.locks) hm) (by decide)
  · intro h
    have hm := (h 0 rfl _ (image_eq 1000 (by decide))).2 (by decide) (by decide) (1, false) (by decide)
    exact absurd (congrArg (fun r => r.1.flushes 3) hm) (by decide)

end Omnidroid.Fds
