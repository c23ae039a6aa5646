/-
BSD locks (`flock` of `omni-linux/src/locks.rs`), in the table that the record locks are in, under keys of their own. A call finds its
file's key first; then each time it has the table's lock is one step: the first, which takes the caller's old lock away, and one
each time it is back from a wait.
- `Apart`: two open files' locks on one file are both shared. `Single`: an open file has one lock on a file at most.
- `flock_kept`: `Apart` holds in every run; `Single` in every run where no call that waited finds its open file locked already; and
  an operation that is none leaves the table as it was exactly where its open file has no lock.
- `flock_twice`: two threads wait through one open file and both take the lock; an invalid operation drops the one that is there.
-/
import Omnidroid.Kernel.Locks

namespace Omnidroid.Flock

open Locks

def LOCK_SH : ℕ := 1
def LOCK_EX : ℕ := 2
def LOCK_NB : ℕ := 4
def LOCK_UN : ℕ := 8

inductive Want where
  | unlock
  /-- exclusive or shared -/
  | lock (write : Bool)
deriving DecidableEq

/-- a call that has found its file's key -/
structure Call where
  key : String
  /-- the open file, by its address -/
  file : ℕ
  pid : ℕ
  op : UInt64
deriving DecidableEq

namespace Call

variable (c : Call)

/-- `op & !LOCK_NB`, if it is an operation -/
def want : Option Want :=
  let op := c.op &&& ~~~4
  if op = 8 then some .unlock
  else if op = 1 then some (.lock false)
  else if op = 2 then some (.lock true)
  else none

def nonblocking : Bool := c.op &&& 4 ≠ 0

def flockKey : String := "flock:" ++ c.key

def holder : Holder := .ofd c.file

def owns (l : Lock) : Bool := l.file = c.flockKey && l.holder = c.holder

def entry (write : Bool) : Lock :=
  { file := c.flockKey, via := c.file, holder := c.holder, pid := c.pid, start := 0, end_ := U64_MAX, write }

end Call

inductive Answer where
  | done
  | failed (e : Errno)
  | waits
deriving DecidableEq

/-- from the start of the loop; `signal`: a deliverable one is pending -/
def look (locks : List Lock) (c : Call) (write signal : Bool) : List Lock × Answer :=
  if (conflict locks c.flockKey c.holder 0 U64_MAX write).isSome then
    if c.nonblocking then (locks, .failed EAGAIN)
    else if signal then (locks, .failed EINTR)
    else (locks, .waits)
  else (locks ++ [c.entry write], .done)

/-- `flock` up to its first wait -/
def flock (locks : List Lock) (c : Call) (signal : Bool) : List Lock × Answer :=
  let locks := locks.filter fun l => !c.owns l
  match c.want with
  | some .unlock => (locks, .done)
  | some (.lock write) => look locks c write signal
  | none => (locks, .failed EINVAL)

/-! ## Runs -/

/-- a key of a BSD lock; `file_key` makes no such key -/
def isFlock (key : String) : Bool := "flock:".toList.isPrefixOf key.toList

structure World where
  /-- the table, and the record locks' calls under way -/
  base : Locks.World := {}
  /-- the calls that wait, each with what it asks for -/
  waits : Map ℕ (Call × Bool) := ∅

inductive Act where
  | flock (thread : ℕ) (c : Call) (signal : Bool)
  /-- a wait is over -/
  | again (thread : ℕ) (signal : Bool)
  /-- the record locks, and what closes release -/
  | record (a : Locks.Act)

namespace World

def setTable (w : World) (locks : List Lock) : World := { w with base := { w.base with locks := locks } }

/-- a call has its answer, or goes on waiting -/
def answered (w : World) (thread : ℕ) (c : Call) (write : Bool) : List Lock × Answer → World
  | (locks, .waits) => { w.setTable locks with waits := w.waits.insert thread (c, write) }
  | (locks, _) => { w.setTable locks with waits := w.waits.erase thread }

def step (w : World) : Act → World
  | .flock t c signal =>
    if (w.waits.lookup t).isSome then w
    else w.answered t c (c.want = some (.lock true)) (Flock.flock w.base.locks c signal)
  | .again t signal =>
    match w.waits.lookup t with
    | some (c, write) => w.answered t c write (look w.base.locks c write signal)
    | none => w
  | .record a =>
    match a with
    | .call _ c => if isFlock c.file.key then w else { w with base := Locks.step w.base a }
    | a => { w with base := Locks.step w.base a }

/-- a call whose wait is over does not find that its open file has a lock on the file, taken by another call meanwhile -/
def steady (w : World) : Act → Prop
  | .again t _ => ∀ x ∈ w.waits.lookup t,
      conflict w.base.locks x.1.flockKey x.1.holder 0 U64_MAX x.2 = none → w.base.locks.any x.1.owns = false
  | _ => True

instance (w : World) : ∀ a, Decidable (steady w a)
  | .again t _ =>
    match h : w.waits.lookup t with
    | none => .isTrue (by simp [steady, h])
    | some x => decidable_of_iff
        (conflict w.base.locks x.1.flockKey x.1.holder 0 U64_MAX x.2 = none → w.base.locks.any x.1.owns = false)
        (by simp [steady, h])
  | .flock _ _ _ | .record _ => .isTrue trivial

end World

/-- the BSD locks of the table -/
def flocks (locks : List Lock) : List Lock := locks.filter (isFlock ·.file)

/-- two open files' locks on one file are both shared -/
def Apart (locks : List Lock) : Prop :=
  (flocks locks).Pairwise fun a b => a.file = b.file → a.holder ≠ b.holder → a.write = false ∧ b.write = false

/-- an open file has one lock on a file at most -/
def Single (locks : List Lock) : Prop := (flocks locks).Pairwise fun a b => a.file = b.file → a.holder ≠ b.holder

instance (locks : List Lock) : Decidable (Single locks) :=
  inferInstanceAs (Decidable ((flocks locks).Pairwise fun a b => a.file = b.file → a.holder ≠ b.holder))

/-! ## What a step does to the BSD locks -/

variable {locks locks' : List Lock} {c : Call}

theorem isFlock_flockKey (c : Call) : isFlock c.flockKey = true := by
  unfold isFlock Call.flockKey
  rw [String.toList_append, List.isPrefixOf_iff_prefix]
  exact List.prefix_append _ _

theorem flocks_append (a b : List Lock) : flocks (a ++ b) = flocks a ++ flocks b := List.filter_append ..

theorem flocks_entry (c : Call) (write : Bool) : flocks [c.entry write] = [c.entry write] :=
  List.filter_cons_of_pos (isFlock_flockKey c)

theorem flocks_filter (p : Lock → Bool) (locks : List Lock) : (flocks (locks.filter p)).Sublist (flocks locks) :=
  List.filter_sublist.filter _

/-- a BSD lock is on the whole file, and an open file's -/
structure Whole (l : Lock) : Prop where
  start : l.start = 0
  end_ : l.end_ = U64_MAX
  holder : ∃ a, l.holder = .ofd a

theorem whole_entry (c : Call) (write : Bool) : Whole (c.entry write) := ⟨rfl, rfl, c.file, rfl⟩

/-- without a conflict every other open file's lock on the file is shared, and so is the one asked for -/
theorem conflict_none {write : Bool} (h : conflict locks c.flockKey c.holder 0 U64_MAX write = none)
    (hw : ∀ l ∈ flocks locks, Whole l) {l : Lock} (hl : l ∈ flocks locks) (hf : l.file = c.flockKey)
    (hh : l.holder ≠ c.holder) : l.write = false ∧ write = false := by
  have hn := List.find?_eq_none.1 h l (List.mem_of_mem_filter hl)
  obtain ⟨hs, he, -⟩ := hw l hl
  have h0 : 0 < U64_MAX := by decide
  simp only [hf, hh, hs, he, h0, ne_eq, decide_true, not_false_eq_true, Bool.and_true, Bool.true_and, Bool.or_eq_true, not_or,
    Bool.not_eq_true] at hn
  exact hn.symm

theorem apart_take {write : Bool} (h : Apart locks) (hw : ∀ l ∈ flocks locks, Whole l)
    (hc : conflict locks c.flockKey c.holder 0 U64_MAX write = none) : Apart (locks ++ [c.entry write]) := by
  unfold Apart
  rw [flocks_append, flocks_entry]
  refine List.pairwise_append.2 ⟨h, List.pairwise_singleton .., ?_⟩
  intro l hl e he hf hh
  cases List.mem_singleton.1 he
  exact conflict_none hc hw hl hf hh

theorem single_take {write : Bool} (h : Single locks) (hown : locks.any c.owns = false) : Single (locks ++ [c.entry write]) := by
  unfold Single
  rw [flocks_append, flocks_entry]
  refine List.pairwise_append.2 ⟨h, List.pairwise_singleton .., ?_⟩
  intro l hl e he hf hh
  cases List.mem_singleton.1 he
  have hl' := List.any_eq_false.1 hown l (List.mem_of_mem_filter hl)
  have hf' : l.file = c.flockKey := hf
  have hh' : l.holder = c.holder := hh
  exact hl' (by simp [Call.owns, hf', hh'])

/-- what a call that takes its lock, or does not, makes of the table -/
inductive Looked (locks : List Lock) (c : Call) (write : Bool) : List Lock → Prop
  | same : Looked locks c write locks
  | took (hc : conflict locks c.flockKey c.holder 0 U64_MAX write = none) : Looked locks c write (locks ++ [c.entry write])

theorem look_looked (locks : List Lock) (c : Call) (write signal : Bool) :
    Looked locks c write (look locks c write signal).1 := by
  unfold look
  split_ifs with hc
  · exact .same
  · exact .same
  · exact .same
  · exact .took (by simpa using hc)

/-- the record locks leave the BSD locks alone -/
theorem flocks_update {r : Request} (hr : isFlock r.key = false) : flocks (r.update locks) = flocks locks := by
  have hadd : flocks (if r.kind ≠ F_UNLCK then [r.entry] else []) = [] := by
    split_ifs
    · exact List.filter_cons_of_neg (by simp [Request.entry, hr])
    · rfl
  have hgive : flocks (locks.flatMap r.giveWay) = flocks locks := by
    induction locks with
    | nil => rfl
    | cons l locks ih =>
      rw [List.flatMap_cons, flocks_append, ih]
      by_cases hl : isFlock l.file = true
      · have hne : l.file ≠ r.key := fun he => by rw [he, hr] at hl; cases hl
        rw [giveWay_other (.inl hne)]
        simp [flocks, hl]
      · have hnone : flocks (r.giveWay l) = [] :=
          List.filter_eq_nil_iff.2 fun p hp => by rw [(part_giveWay hp).file]; exact hl
        rw [hnone]
        simp [flocks, hl]
  rw [Request.update, flocks_append, hgive, hadd, List.append_nil]

/-- the record locks' calls under way are under keys of their own -/
def Foreign (w : World) : Prop := ∀ t r, w.base.calls.lookup t = some r → isFlock r.key = false

/-- a step of the record locks takes BSD locks away at most -/
theorem record_flocks {w : World} (hw : Foreign w) (a : Locks.Act) :
    (flocks (w.step (.record a)).base.locks).Sublist (flocks w.base.locks) := by
  cases a with
  | call t c =>
    dsimp only [World.step, Locks.step]
    split_ifs
    · exact .refl _
    · split <;> exact .refl _
  | look t signal =>
    dsimp only [World.step, Locks.step]
    split
    · exact .refl _
    · rename_i r hr
      split
      · exact .refl _
      · exact .refl _
      · exact .refl _
      · rename_i locks hl
        rw [(look_set hl).1, flocks_update (hw t r hr)]
  | closed pid key via => exact flocks_filter _ _
  | released addr => exact flocks_filter _ _
  | processEnded pid => exact flocks_filter _ _

theorem record_foreign {w : World} (hw : Foreign w) (a : Locks.Act) : Foreign (w.step (.record a)) := by
  cases a with
  | call t c =>
    dsimp only [World.step, Locks.step]
    split_ifs with hc
    · exact hw
    · split
      · rename_i r hr
        intro t' r' hr'
        rw [Map.lookup_insert_eq] at hr'
        split_ifs at hr'
        · cases hr'
          rw [request_key hr]
          simpa using hc
        · exact hw t' r' hr'
      · exact hw
  | look t signal =>
    dsimp only [World.step, Locks.step]
    have hover : ∀ t' r', (w.base.calls.erase t).lookup t' = some r' → isFlock r'.key = false := by
      intro t' r' hr'
      rw [Map.lookup_erase_eq] at hr'
      split_ifs at hr'
      exact hw t' r' hr'
    split
    · exact hw
    · split
      · exact hw
      · exact hover
      · exact hover
      · exact hover
  | closed pid key via => exact hw
  | released addr => exact hw
  | processEnded pid => exact hw

/-! ## Runs -/

structure Inv (w : World) : Prop where
  foreign : Foreign w
  whole : ∀ l ∈ flocks w.base.locks, Whole l
  apart : Apart w.base.locks

namespace Inv

variable {w : World}

/-- some BSD locks gone -/
theorem fewer (h : Inv w) {w' : World} (hf : Foreign w') (hs : (flocks w'.base.locks).Sublist (flocks w.base.locks)) : Inv w' :=
  ⟨hf, fun l hl => h.whole l (hs.subset hl), h.apart.sublist hs⟩

/-- a call's look at the table, its own old lock gone -/
theorem looked (h : Inv w) {w' : World} {locks : List Lock} {write : Bool} (hcalls : w'.base.calls = w.base.calls)
    (hs : (flocks locks).Sublist (flocks w.base.locks)) (hl : Looked locks c write w'.base.locks) : Inv w' := by
  have hf : Foreign w' := fun t r hr => h.foreign t r (hcalls ▸ hr)
  have hw : ∀ l ∈ flocks locks, Whole l := fun l hl => h.whole l (hs.subset hl)
  have ha : Apart locks := h.apart.sublist hs
  generalize hw' : w'.base.locks = locks' at hl
  cases hl with
  | same => exact ⟨hf, by rwa [hw'], by rwa [hw']⟩
  | took hc =>
    refine ⟨hf, fun l hl => ?_, ?_⟩
    · rw [hw', flocks_append, flocks_entry, List.mem_append, List.mem_singleton] at hl
      rcases hl with hl | rfl
      · exact hw l hl
      · exact whole_entry c write
    · rw [hw']
      exact apart_take ha hw hc

end Inv

theorem answered_locks (w : World) (t : ℕ) (c : Call) (write : Bool) (x : List Lock × Answer) :
    (w.answered t c write x).base.locks = x.1 ∧ (w.answered t c write x).base.calls = w.base.calls := by
  obtain ⟨locks, answer⟩ := x
  cases answer <;> exact ⟨rfl, rfl⟩

theorem inv_start : Inv {} where
  foreign := fun _ _ h => nomatch h
  whole := nofun
  apart := List.Pairwise.nil

/-- a call drops its old lock, and looks, or not -/
theorem flock_looked (locks : List Lock) (c : Call) (signal : Bool) :
    Looked (locks.filter fun l => !c.owns l) c (c.want = some (.lock true)) (flock locks c signal).1 := by
  unfold flock
  dsimp only
  split
  · exact .same
  · rename_i write hwant
    have hw : decide (c.want = some (.lock true)) = write := by rw [hwant]; cases write <;> rfl
    rw [hw]
    exact look_looked ..
  · exact .same

theorem step_inv {w : World} (h : Inv w) (a : Act) : Inv (w.step a) := by
  cases a with
  | flock t c signal =>
    dsimp only [World.step]
    split_ifs
    · exact h
    · have hx := answered_locks w t c (c.want = some (.lock true)) (Flock.flock w.base.locks c signal)
      have hl := flock_looked w.base.locks c signal
      rw [← hx.1] at hl
      exact h.looked hx.2 (flocks_filter _ _) hl
  | again t signal =>
    dsimp only [World.step]
    split
    · rename_i c write hwait
      have hx := answered_locks w t c write (look w.base.locks c write signal)
      have hl := look_looked w.base.locks c write signal
      rw [← hx.1] at hl
      exact h.looked hx.2 (.refl _) hl
    · exact h
  | record a => exact h.fewer (record_foreign h.foreign a) (record_flocks h.foreign a)

/-- a call that has dropped its old lock has none to find -/
theorem owns_dropped (locks : List Lock) (c : Call) : (locks.filter fun l => !c.owns l).any c.owns = false := by
  rw [List.any_eq_false]
  intro l hl ho
  have hnot := (List.mem_filter.1 hl).2
  rw [ho] at hnot
  cases hnot

theorem single_looked {write : Bool} (h : Single locks)
    (hown : conflict locks c.flockKey c.holder 0 U64_MAX write = none → locks.any c.owns = false)
    (hl : Looked locks c write locks') : Single locks' := by
  cases hl with
  | same => exact h
  | took hc => exact single_take h (hown hc)

theorem step_single {w : World} (hi : Inv w) (h : Single w.base.locks) (a : Act) (ho : w.steady a) :
    Single (w.step a).base.locks := by
  cases a with
  | flock t c signal =>
    dsimp only [World.step]
    split_ifs
    · exact h
    · rw [(answered_locks ..).1]
      exact single_looked (h.sublist (flocks_filter _ _)) (fun _ => owns_dropped ..) (flock_looked ..)
  | again t signal =>
    dsimp only [World.step]
    split
    · rename_i c write hwait
      rw [(answered_locks ..).1]
      exact single_looked h (ho (c, write) hwait) (look_looked ..)
    · exact h
  | record a => exact h.sublist (record_flocks hi.foreign a)

/-- an operation that is none drops the caller's lock, and does nothing else -/
theorem flock_invalid {c : Call} (hc : c.want = none) (locks : List Lock) (signal : Bool) :
    (flock locks c signal).1 = locks ↔ locks.any c.owns = false := by
  have hf : (flock locks c signal).1 = locks.filter fun l => !c.owns l := by simp [flock, hc]
  rw [hf, List.filter_eq_self, List.any_eq_false]
  simp

/-! ## The result -/

/-- **BSD locks.** In every run two open files' locks on one file are both shared; in every run in which no call that waited finds
its open file locked already, an open file has one lock on a file at most; and a call whose operation is none leaves the table as
it was exactly where its open file has no lock on the file. -/
theorem flock_kept (w : World) (locks : List Lock) (c : Call) (signal : Bool) :
    (Reach World.step anyStep {} w → Apart w.base.locks) ∧
      (Reach World.step World.steady {} w → Single w.base.locks) ∧
      (c.want = none → ((flock locks c signal).1 = locks ↔ locks.any c.owns = false)) := by
  have hinv : ∀ {w}, Reach World.step anyStep {} w → Inv w := fun hw => hw.invariant Inv inv_start fun _ a _ _ h => step_inv h a
  refine ⟨fun hw => (hinv hw).apart, fun hw => ?_, fun hc => flock_invalid hc locks signal⟩
  have empty : Single ({} : World).base.locks := List.Pairwise.nil
  exact hw.invariant (fun w => Single w.base.locks) empty fun s a hs ho h => step_single (hinv hs.any) h a ho

/-- open file 1 takes the lock, two threads wait for it through open file 2, and it goes -/
def twiceRun : List Act :=
  [.flock 1 ⟨"host:/f", 1, 7, 2⟩ false, .flock 2 ⟨"host:/f", 2, 7, 2⟩ false, .flock 3 ⟨"host:/f", 2, 7, 2⟩ false,
    .flock 1 ⟨"host:/f", 1, 7, 8⟩ false, .again 2 false, .again 3 false]

/-- the run without the second waiter's turn -/
theorem flock_kept_once :
    Apart (run World.step {} twiceRun).base.locks ∧ Single (run World.step {} (twiceRun.take 5)).base.locks ∧
      ((flock [] ⟨"host:/f", 1, 7, 3⟩ false).1 = [] ↔ ([] : List Lock).any (Call.owns ⟨"host:/f", 1, 7, 3⟩) = false) :=
  ⟨(flock_kept _ [] ⟨"host:/f", 1, 7, 3⟩ false).1 (reach_run World.step {} twiceRun),
    (flock_kept _ [] ⟨"host:/f", 1, 7, 3⟩ false).2.1 (Reach.run .start (twiceRun.take 5) (by decide)),
    (flock_kept {} [] _ false).2.2 (by decide)⟩

/-- both waiters take the lock, each an entry of its own; and an operation that is none (the exclusive lock's and the shared one's
bits at once) takes away a lock that was there -/
theorem flock_twice :
    ¬Single (run World.step {} twiceRun).base.locks ∧
      (flock (run World.step {} (twiceRun.take 1)).base.locks ⟨"host:/f", 1, 7, 3⟩ false) = ([], .failed EINVAL) ∧
      (run World.step {} (twiceRun.take 1)).base.locks ≠ [] := by
  decide

end Omnidroid.Flock
