/-
POSIX record locks (`omni-linux/src/locks.rs`): one table of byte ranges for all files and holders. A call decodes its
`struct flock` and finds its file's key before it takes the table's lock; each look at the table is one step, and an
`F_SETLKW` that meets a conflict looks again. What the call reads of its process and its file is its input.
- `Sound`: what no two entries of the table may be to each other. `step_sound` keeps it.
- `stateAt`: what a holder has on one byte of a file; `stateAt_update` is what a set does to it.
- `record_locks`: in every reachable state the table is sound, and a set that succeeds changes its own bytes alone.
-/
import Omnidroid.Errno
import Omnidroid.Lib.Bytes
import Omnidroid.Lib.FinMap
import Omnidroid.Lib.Run

namespace Omnidroid.Locks

open Bytes

def F_RDLCK : ℤ := 0
def F_WRLCK : ℤ := 1
def F_UNLCK : ℤ := 2

def I64_MAX : ℤ := 2 ^ 63 - 1
def U64_MAX : ℕ := 2 ^ 64 - 1

/-! ## The table -/

inductive Holder where
  | process (pid : ℕ)
  /-- an open file description, by its address -/
  | ofd (addr : ℕ)
deriving DecidableEq, Repr

structure Lock where
  file : String
  /-- the open file it was taken through -/
  via : ℕ
  holder : Holder
  pid : ℕ
  start : ℕ
  /-- exclusive; `U64_MAX` for "to the end" -/
  end_ : ℕ
  write : Bool
deriving DecidableEq, Repr

/-- the first lock another holder has that conflicts with taking `[start, end_)` -/
def conflict (locks : List Lock) (file : String) (holder : Holder) (start end_ : ℕ) (write : Bool) : Option Lock :=
  locks.find? fun l => l.file = file && l.holder ≠ holder && l.start < end_ && start < l.end_ && (write || l.write)

/-! ## Requests -/

/-- what a descriptor's file tells of itself: a file of the host has a position and a length, where they can be had -/
inductive FileKind where
  | host (position length : Option ℤ)
  | other
deriving DecidableEq, Repr

structure OpenFile where
  addr : ℕ
  /-- `file_key` -/
  key : String
  kind : FileKind
deriving DecidableEq, Repr

def checkedAdd (a b : ℤ) : Except Errno ℤ := if -2 ^ 63 ≤ a + b ∧ a + b ≤ I64_MAX then .ok (a + b) else .error EINVAL

/-- where `l_start` counts from -/
def base (k : FileKind) (whence : ℤ) : Except Errno ℤ :=
  if whence = 0 then .ok 0
  else if whence = 1 then
    match k with
    | .host position _ => position.elim (.error EINVAL) .ok
    | .other => .ok 0
  else if whence = 2 then
    match k with
    | .host _ length => length.elim (.error EINVAL) .ok
    | .other => .ok 0
  else .error EINVAL

/-- the ends a length gives: to the end of the file, up from the start, or down to it -/
def ends (from_ len : ℤ) : Except Errno (ℤ × ℤ) :=
  if len = 0 then .ok (from_, I64_MAX)
  else if len > 0 then (checkedAdd from_ len).map fun to_ => (from_, to_)
  else (checkedAdd from_ len).map fun below => (below, from_)

/-- bytes `[from_, to_)`, one at least -/
structure Range where
  from_ : ℕ
  to_ : ℕ
  lt : from_ < to_
deriving DecidableEq, Repr

theorem checkedAdd_le {a b c : ℤ} (h : checkedAdd a b = .ok c) : c ≤ I64_MAX := by
  unfold checkedAdd at h
  split_ifs at h with hb
  cases h; exact hb.2

theorem range_lt {b start f len from_ to_ : ℤ} (hf : checkedAdd b start = .ok f) (he : ends f len = .ok (from_, to_))
    (h0 : ¬from_ < 0) : from_.toNat < (if to_ = I64_MAX then U64_MAX else to_.toNat) := by
  have hle := checkedAdd_le hf
  have h : from_ ≤ I64_MAX ∧ (to_ = I64_MAX ∨ from_ < to_) := by
    unfold ends at he
    split_ifs at he with h1 h2
    · cases he; exact ⟨hle, .inl rfl⟩
    all_goals
      unfold checkedAdd at he
      split_ifs at he with h3
      · cases he; exact ⟨by omega, .inr (by omega)⟩
      · cases he
  rw [I64_MAX] at h
  split_ifs with ht
  · rw [U64_MAX]; omega
  · rw [I64_MAX] at ht; omega

/-- the byte range a `struct flock` names -/
def range (k : FileKind) (whence start len : ℤ) : Except Errno Range :=
  match base k whence with
  | .error e => .error e
  | .ok b =>
    match hf : checkedAdd b start with
    | .error e => .error e
    | .ok f =>
      match he : ends f len with
      | .error e => .error e
      | .ok (from_, to_) =>
        if h0 : from_ < 0 then .error EINVAL
        else .ok ⟨from_.toNat, if to_ = I64_MAX then U64_MAX else to_.toNat, range_lt hf he h0⟩

/-- a signed field of `w` bytes -/
def field (raw : Bytes) (o w : ℕ) : ℤ := (BitVec.ofNat (8 * w) (leNat (slice raw o w))).toInt

/-- a call, with what it reads: its `struct flock`, its process, its file -/
structure Call where
  cmd : ℕ
  raw : Except Errno Bytes
  pid : ℕ
  file : OpenFile

/-- a call about to take the table's lock -/
structure Request where
  cmd : ℕ
  raw : Bytes
  kind : ℤ
  holder : Holder
  pid : ℕ
  via : ℕ
  key : String
  bytes : Range
deriving DecidableEq, Repr

def isOfd (cmd : ℕ) : Bool := 36 ≤ cmd && cmd ≤ 38

/-- `fcntl`, up to the table's lock -/
def request (c : Call) : Except Errno Request := do
  let raw ← c.raw
  if isOfd c.cmd && field raw 24 4 ≠ 0 then .error EINVAL
  else
    let bytes ← range c.file.kind (field raw 2 2) (field raw 8 8) (field raw 16 8)
    .ok { cmd := c.cmd, raw := raw, kind := field raw 0 2,
          holder := if isOfd c.cmd then .ofd c.file.addr else .process c.pid, pid := c.pid, via := c.file.addr,
          key := c.file.key, bytes := bytes }

theorem request_key {c : Call} {r : Request} (h : request c = .ok r) : r.key = c.file.key := by
  unfold request at h
  cases hraw : c.raw with
  | error e => simp [hraw, bind, Except.bind] at h
  | ok raw =>
    simp only [hraw, bind, Except.bind] at h
    by_cases hofd : (isOfd c.cmd && field raw 24 4 ≠ 0) = true
    · rw [if_pos hofd] at h
      cases h
    · rw [if_neg hofd] at h
      cases hb : range c.file.kind (field raw 2 2) (field raw 8 8) (field raw 16 8) with
      | error e => rw [hb] at h; cases h
      | ok bytes => rw [hb] at h; cases h; rfl

/-- what `F_GETLK` writes back -/
def getReply (raw : Bytes) : Option Lock → Bytes
  | none => patch raw 0 (leBytes 2 F_UNLCK.toNat)
  | some l =>
    let raw := patch raw 0 (leBytes 2 (if l.write then F_WRLCK else F_RDLCK).toNat)
    let raw := patch raw 2 (leBytes 2 0)
    let raw := patch raw 8 (leBytes 8 l.start)
    let raw := patch raw 16 (leBytes 8 (if l.end_ = U64_MAX then 0 else l.end_ - l.start))
    patch raw 24 (leBytes 4 (match l.holder with | .ofd _ => 2 ^ 32 - 1 | .process _ => l.pid))

/-- what is left of an entry under a set: its holder's own gives way, split around the range -/
def Request.giveWay (r : Request) (l : Lock) : List Lock :=
  if l.file ≠ r.key ∨ l.holder ≠ r.holder ∨ l.end_ ≤ r.bytes.from_ ∨ r.bytes.to_ ≤ l.start then [l]
  else (if l.start < r.bytes.from_ then [{ l with end_ := r.bytes.from_ }] else []) ++
    (if r.bytes.to_ < l.end_ then [{ l with start := r.bytes.to_ }] else [])

/-- the entry a set adds -/
def Request.entry (r : Request) : Lock :=
  { file := r.key, via := r.via, holder := r.holder, pid := r.pid, start := r.bytes.from_, end_ := r.bytes.to_,
    write := r.kind = F_WRLCK }

def Request.update (r : Request) (locks : List Lock) : List Lock :=
  locks.flatMap r.giveWay ++ (if r.kind ≠ F_UNLCK then [r.entry] else [])

/-- what a look at the table leads to -/
inductive Looked where
  | wait
  | failed (e : Errno)
  | got (reply : Bytes)
  | set (locks : List Lock)

def Request.conflict (r : Request) (locks : List Lock) : Option Lock :=
  Locks.conflict locks r.key r.holder r.bytes.from_ r.bytes.to_ (r.kind = F_WRLCK)

/-- `fcntl` under the table's lock, from the start of the loop; `signal`: a deliverable one is pending -/
def Request.look (r : Request) (locks : List Lock) (signal : Bool) : Looked :=
  if r.cmd ∈ [5, 36] then
    if r.kind ∉ [F_RDLCK, F_WRLCK] then .failed EINVAL
    else .got (getReply r.raw (r.conflict locks))
  else if r.cmd ∈ [6, 7, 37, 38] then
    if r.kind ∉ [F_RDLCK, F_WRLCK, F_UNLCK] then .failed EINVAL
    else if r.kind ≠ F_UNLCK ∧ (r.conflict locks).isSome then
      if r.cmd ∉ [7, 38] then .failed EAGAIN
      else if signal then .failed EINTR
      else .wait
    else .set (r.update locks)
  else .failed EINVAL

/-! ## Runs -/

structure World where
  locks : List Lock := []
  /-- the calls under way -/
  calls : Map ℕ Request := ∅

inductive Act where
  /-- a thread comes to the table's lock -/
  | call (thread : ℕ) (c : Call)
  /-- it has the lock: for the first time, or back from a wait -/
  | look (thread : ℕ) (signal : Bool)
  | closed (pid : ℕ) (key : String) (via : ℕ)
  | released (addr : ℕ)
  | processEnded (pid : ℕ)

/-- the calls that are over -/
def World.over (w : World) (thread : ℕ) : World := { w with calls := w.calls.erase thread }

def step (w : World) : Act → World
  | .call t c =>
    match request c with
    | .ok r => { w with calls := w.calls.insert t r }
    | .error _ => w
  | .look t signal =>
    match w.calls.lookup t with
    | none => w
    | some r =>
      match r.look w.locks signal with
      | .wait => w
      | .failed _ | .got _ => w.over t
      | .set locks => { w.over t with locks := locks }
  | .closed pid key via =>
    { w with locks := w.locks.filter fun l => !(l.holder = .process pid && (l.file = key || l.via = via)) }
  | .released addr => { w with locks := w.locks.filter (·.holder ≠ .ofd addr) }
  | .processEnded pid => { w with locks := w.locks.filter (·.holder ≠ .process pid) }

/-! ## What no two entries are to each other -/

def Lock.covers (l : Lock) (b : ℕ) : Prop := l.start ≤ b ∧ b < l.end_

instance (l : Lock) (b : ℕ) : Decidable (l.covers b) := inferInstanceAs (Decidable (_ ∧ _))

/-- two entries of one file that may stand side by side: of one holder, they share no byte; of two, none that either
has to itself -/
def Compatible (a b : Lock) : Prop :=
  a.file = b.file → (a.holder = b.holder ∨ a.write ∨ b.write) → ∀ x, ¬(a.covers x ∧ b.covers x)

def Sound (locks : List Lock) : Prop := locks.Pairwise Compatible

/-- part of an entry: some of its bytes, all else the same -/
structure Part (p l : Lock) : Prop where
  file : p.file = l.file
  holder : p.holder = l.holder
  write : p.write = l.write
  covers : ∀ x, p.covers x → l.covers x

theorem Compatible.part {a b p q : Lock} (h : Compatible a b) (hp : Part p a) (hq : Part q b) : Compatible p q :=
  fun hf hw x hx => h (by rw [← hp.file, hf, hq.file]) (by rwa [hp.holder, hq.holder, hp.write, hq.write] at hw) x
    ⟨hp.covers x hx.1, hq.covers x hx.2⟩

theorem part_giveWay {r : Request} {l p : Lock} (h : p ∈ r.giveWay l) : Part p l := by
  unfold Request.giveWay at h
  split_ifs at h with h1 h2 h3 h3
  · cases List.mem_singleton.1 h; exact ⟨rfl, rfl, rfl, fun _ hx => hx⟩
  · rcases List.mem_pair.1 h with rfl | rfl
    · exact ⟨rfl, rfl, rfl, fun x hx => ⟨hx.1, by have := hx.2; simp only at this; omega⟩⟩
    · exact ⟨rfl, rfl, rfl, fun x hx => ⟨by have := hx.1; simp only at this; omega, hx.2⟩⟩
  · cases List.mem_singleton.1 h
    exact ⟨rfl, rfl, rfl, fun x hx => ⟨hx.1, by have := hx.2; simp only at this; omega⟩⟩
  · cases List.mem_singleton.1 h
    exact ⟨rfl, rfl, rfl, fun x hx => ⟨by have := hx.1; simp only at this; omega, hx.2⟩⟩
  · cases h

/-- the holder's own entries keep the bytes they had, but for those of the range -/
theorem giveWay_covers {r : Request} {l : Lock} (hf : l.file = r.key) (hh : l.holder = r.holder) (x : ℕ) :
    (∃ p ∈ r.giveWay l, p.covers x) ↔ l.covers x ∧ ¬(r.bytes.from_ ≤ x ∧ x < r.bytes.to_) := by
  unfold Request.giveWay Lock.covers
  simp only [hf, hh, ne_eq, not_true_eq_false, false_or]
  split_ifs with h1 h2 h3 h3 <;> simp <;> omega

/-- another holder's, or another file's, are left alone -/
theorem giveWay_other {r : Request} {l : Lock} (h : l.file ≠ r.key ∨ l.holder ≠ r.holder) : r.giveWay l = [l] :=
  if_pos (by tauto)

theorem conflict_none {r : Request} {locks : List Lock} (h : r.conflict locks = none) {l : Lock} (hl : l ∈ locks)
    (hf : l.file = r.key) (hh : l.holder ≠ r.holder) (hw : l.write ∨ r.kind = F_WRLCK) (x : ℕ) :
    ¬(l.covers x ∧ r.entry.covers x) := by
  rintro ⟨⟨h1, h2⟩, h3, h4⟩
  have hn := List.find?_eq_none.1 h l hl
  simp only [Request.entry] at h3 h4
  have h13 : l.start < r.bytes.to_ := by omega
  have h24 : r.bytes.from_ < l.end_ := by omega
  simp [hf, hh, h13, h24] at hn
  rcases hw with hw | hw
  · rw [hw] at hn; exact absurd hn.2 (by simp)
  · exact hn.1 hw

/-- a set that met no conflict leaves the table sound -/
theorem sound_update {r : Request} {locks : List Lock} (h : Sound locks)
    (hc : r.kind ≠ F_UNLCK → r.conflict locks = none) : Sound (r.update locks) := by
  refine List.pairwise_append.2 ⟨List.pairwise_flatMap.2 ⟨fun l _ => ?_, ?_⟩, ?_, ?_⟩
  · -- the two parts of a split entry lie on either side of the range
    unfold Request.giveWay
    split_ifs <;> simp [Compatible, Lock.covers]
    have := r.bytes.lt
    intro x; omega
  · refine h.imp ?_
    intro a b hab p hp q hq
    exact hab.part (part_giveWay hp) (part_giveWay hq)
  · split <;> simp
  · intro p hp e he
    split at he
    · rename_i hk
      cases List.mem_singleton.1 he
      obtain ⟨l, hl, hpl⟩ := List.mem_flatMap.1 hp
      have part := part_giveWay hpl
      intro hf hw x hx
      have hlf : l.file = r.key := by rw [← part.file, hf]; rfl
      by_cases hh : l.holder = r.holder
      · exact ((giveWay_covers hlf hh x).1 ⟨p, hpl, hx.1⟩).2 hx.2
      · refine conflict_none (hc hk) hl hlf hh ?_ x ⟨part.covers x hx.1, hx.2⟩
        rcases hw with hw | hw | hw
        · exact absurd (part.holder ▸ hw) hh
        · exact .inl (part.write ▸ hw)
        · exact .inr (of_decide_eq_true hw)
    · cases he

/-- what a look that sets went through -/
theorem look_set {r : Request} {locks locks' : List Lock} {signal : Bool} (h : r.look locks signal = .set locks') :
    locks' = r.update locks ∧ r.cmd ∈ [6, 7, 37, 38] ∧ r.kind ∈ [F_RDLCK, F_WRLCK, F_UNLCK] ∧
      (r.kind ≠ F_UNLCK → r.conflict locks = none) := by
  unfold Request.look at h
  split_ifs at h with h1 h1' h2 h3 h4 h5 h6
  cases h
  exact ⟨rfl, h2, h3, fun hk => by by_contra hn; exact h4 ⟨hk, Option.isSome_iff_ne_none.2 hn⟩⟩

theorem step_sound {w : World} (h : Sound w.locks) (a : Act) : Sound (step w a).locks := by
  cases a with
  | call t c => rw [step]; split <;> exact h
  | look t signal =>
    rw [step]
    split
    · exact h
    · split
      · exact h
      · exact h
      · exact h
      · rename_i hl
        obtain ⟨rfl, -, -, hc⟩ := look_set hl
        exact sound_update h hc
  | closed pid key via => exact h.sublist List.filter_sublist
  | released addr => exact h.sublist List.filter_sublist
  | processEnded pid => exact h.sublist List.filter_sublist

/-! ## What a set changes -/

/-- what a holder has on one byte of a file: nothing, or a lock, shared or exclusive -/
def stateAt (locks : List Lock) (file : String) (holder : Holder) (x : ℕ) : Option Bool :=
  (locks.find? fun l => l.file = file && l.holder = holder && l.covers x).map (·.write)

theorem stateAt_cons (l : Lock) (locks : List Lock) (file : String) (holder : Holder) (x : ℕ) :
    stateAt (l :: locks) file holder x =
      if l.file = file ∧ l.holder = holder ∧ l.covers x then some l.write else stateAt locks file holder x := by
  unfold stateAt
  rw [List.find?_cons]
  by_cases h : l.file = file ∧ l.holder = holder ∧ l.covers x
  · simp [h]
  · rw [if_neg h]
    have : (decide (l.file = file) && decide (l.holder = holder) && decide (l.covers x)) = false := by
      simpa [and_assoc] using h
    simp [this]

theorem stateAt_append (a b : List Lock) (file : String) (holder : Holder) (x : ℕ) :
    stateAt (a ++ b) file holder x = (stateAt a file holder x).or (stateAt b file holder x) := by
  unfold stateAt
  rw [List.find?_append, Option.map_or]

/-- the bytes a set is about -/
def Request.names (r : Request) (file : String) (holder : Holder) (x : ℕ) : Prop :=
  file = r.key ∧ holder = r.holder ∧ r.bytes.from_ ≤ x ∧ x < r.bytes.to_

instance (r : Request) (file : String) (holder : Holder) (x : ℕ) : Decidable (r.names file holder x) :=
  inferInstanceAs (Decidable (_ ∧ _))

/-- one entry's bytes after it gave way -/
theorem stateAt_giveWay (r : Request) (l : Lock) (file : String) (holder : Holder) (x : ℕ) :
    stateAt (r.giveWay l) file holder x =
      if r.names file holder x then none else stateAt [l] file holder x := by
  have nil : stateAt [] file holder x = none := rfl
  by_cases ho : l.file ≠ r.key ∨ l.holder ≠ r.holder
  · rw [giveWay_other ho, stateAt_cons, nil]
    split_ifs with hl hn
    · obtain ⟨rfl, rfl, -⟩ := hl
      rcases ho with ho | ho
      · exact absurd hn.1 ho
      · exact absurd hn.2.1 ho
    all_goals rfl
  · obtain ⟨hf, hh⟩ : l.file = r.key ∧ l.holder = r.holder := by tauto
    by_cases hl : r.key = file ∧ r.holder = holder
    · obtain ⟨rfl, rfl⟩ := hl
      have hlt := r.bytes.lt
      simp only [Request.names, Request.giveWay, hf, hh, ne_eq, not_true_eq_false, false_or, true_and]
      split_ifs <;>
        simp only [stateAt_cons, nil, hf, hh, List.nil_append, List.cons_append, Lock.covers, true_and] <;>
        split_ifs <;> first | rfl | omega
    · have hn : ¬r.names file holder x := fun hn => hl ⟨hn.1.symm, hn.2.1.symm⟩
      rw [if_neg hn, stateAt_cons, if_neg fun h => hl ⟨hf ▸ h.1, hh ▸ h.2.1⟩, nil]
      rw [stateAt, List.find?_eq_none.2 fun p hp => ?_]
      · rfl
      · have part := part_giveWay hp
        have : ¬(p.file = file ∧ p.holder = holder) := by rwa [part.file, part.holder, hf, hh]
        simp only [Bool.and_eq_true, decide_eq_true_eq]
        tauto

theorem stateAt_gaveWay (r : Request) (locks : List Lock) (file : String) (holder : Holder) (x : ℕ) :
    stateAt (locks.flatMap r.giveWay) file holder x =
      if r.names file holder x then none else stateAt locks file holder x := by
  induction locks with
  | nil => simp [stateAt]
  | cons l locks ih =>
    rw [List.flatMap_cons, stateAt_append, ih, stateAt_giveWay]
    split_ifs
    · rfl
    · exact (stateAt_append [l] locks file holder x).symm

/-- what a set asks for on its bytes -/
def Request.wants (r : Request) : Option Bool := if r.kind = F_UNLCK then none else some (r.kind = F_WRLCK)

/-- a set gives its holder what it asks for on its own bytes, and changes no other byte of any file and holder -/
theorem stateAt_update (r : Request) (locks : List Lock) (file : String) (holder : Holder) (x : ℕ) :
    stateAt (r.update locks) file holder x =
      if r.names file holder x then r.wants else stateAt locks file holder x := by
  have entry : stateAt (if r.kind ≠ F_UNLCK then [r.entry] else []) file holder x =
      if r.names file holder x then r.wants else none := by
    unfold Request.wants
    by_cases hk : r.kind = F_UNLCK
    · simp [hk, stateAt]
    · have hn : (r.key = file ∧ r.holder = holder ∧ r.entry.covers x) ↔ r.names file holder x :=
        ⟨fun h => ⟨h.1.symm, h.2.1.symm, h.2.2⟩, fun h => ⟨h.1.symm, h.2.1.symm, h.2.2⟩⟩
      rw [if_pos hk, if_neg hk, stateAt_cons]
      exact if_congr hn rfl rfl
  rw [Request.update, stateAt_append, stateAt_gaveWay, entry]
  split_ifs
  · exact Option.none_or
  · exact Option.or_none

/-- **Record locks never conflict, and a set is a set of its own bytes.** In every reachable state no two entries of one
file share a byte when they are of one holder, or one of them is exclusive; and where a thread's look at the table sets,
its holder has what it asked for on exactly the bytes of its range, and every other byte of every file and holder is as
it was. -/
theorem record_locks (w : World) (h : Reach step anyStep {} w) :
    Sound w.locks ∧ ∀ t r signal locks, w.calls.lookup t = some r → r.look w.locks signal = .set locks →
      (step w (.look t signal)).locks = locks ∧ ∀ file holder x,
        stateAt locks file holder x = if r.names file holder x then r.wants else stateAt w.locks file holder x := by
  have empty : Sound ({} : World).locks := List.Pairwise.nil
  refine ⟨h.invariant (fun w : World => Sound w.locks) empty fun s a _ _ hs => step_sound hs a, ?_⟩
  intro t r signal locks hr hl
  refine ⟨by simp only [step, hr, hl], fun file holder x => ?_⟩
  rw [(look_set hl).1]
  exact stateAt_update r w.locks file holder x

/-- a `struct flock` -/
def flock (kind whence start len : ℕ) : Bytes :=
  leBytes 2 kind ++ leBytes 2 whence ++ leBytes 4 0 ++ leBytes 8 start ++ leBytes 8 len ++ leBytes 8 0

def dbFile : OpenFile := { addr := 1, key := "host:/db", kind := .host (some 0) (some 200) }

/-- process 1 reads bytes 0 to 100; process 2 waits to write 10 to 20; process 1 gives up 5 to 50 -/
def splitRun : List Act :=
  [.call 1 { cmd := 6, raw := .ok (flock 0 0 0 100), pid := 1, file := dbFile }, .look 1 false,
    .call 2 { cmd := 7, raw := .ok (flock 1 0 10 10), pid := 2, file := dbFile }, .look 2 false,
    .call 1 { cmd := 6, raw := .ok (flock 2 0 5 45), pid := 1, file := dbFile }, .look 1 false]

def writerRequest : Request :=
  { cmd := 7, raw := flock 1 0 10 10, kind := 1, holder := .process 2, pid := 2, via := 1, key := "host:/db",
    bytes := ⟨10, 20, by decide⟩ }

theorem record_locks_split :
    Sound (run step {} splitRun).locks ∧
      (step (run step {} splitRun) (.look 2 false)).locks = writerRequest.update (run step {} splitRun).locks ∧
      stateAt (writerRequest.update (run step {} splitRun).locks) "host:/db" (.process 2) 15 = some true := by
  have h := record_locks _ (reach_run step {} splitRun)
  have hset := h.2 2 writerRequest false _ (by decide) rfl
  refine ⟨h.1, hset.1, ?_⟩
  rw [hset.2]
  decide

end Omnidroid.Locks
