/-
Loopback ports of a namespace (`Namespace::bind`, `lookup` and `Binding`'s drop, `omni-linux/src/loopns.rs`): files that the host
processes of an instance share, changed by one of them at a time.

- `World.step`: each file operation of a bind or of a drop is a step, made while the directory is locked; a process that
  crashes lets go of the lock and leaves its files.
- `ports_kept`: who holds a port, what a lookup finds and what a drop changes, in every run in which no one goes on sharing
  a port whose holder is gone, no host port is bound twice, and no process comes to have the pid of a dead owner.
- `ports_lost`: a run for each of these.
-/
import Omnidroid.Lib.Run
import Omnidroid.Lib.FinMap
import Omnidroid.Net.Loopback

namespace Omnidroid.Loopback

open Bytes Lines

inductive Proto where
  | tcp
  | udp
deriving DecidableEq

/-- `f-<proto>-<guest port>` and `r-<proto>-<host port>` -/
inductive File where
  | forward (proto : Proto) (guest : UInt16)
  | reverse (proto : Proto) (host : UInt16)
deriving DecidableEq

structure Binding where
  pid : UInt32
  proto : Proto
  guest : UInt16
  host : UInt16
  shared : Bool
  /-- it has the forward entry; one that joined does not -/
  holds : Bool
deriving DecidableEq

def Binding.port (b : Binding) : Proto × UInt16 := (b.proto, b.guest)

/-- what a bind writes -/
def Binding.forwardEntry (b : Binding) : Entry := { port := b.host, owner := b.pid, shared := b.shared, expiry := none }
def Binding.reverseEntry (b : Binding) : Entry := { port := b.guest, owner := b.pid, shared := false, expiry := none }

def Binding.forward (b : Binding) : File := .forward b.proto b.guest
def Binding.reverse (b : Binding) : File := .reverse b.proto b.host

/-- a bind's next file operation -/
inductive BindStage where
  | read
  | join
  | writeForward
  | writeReverse
  /-- the forward entry just written is taken back -/
  | undo
deriving DecidableEq

/-- a drop's -/
inductive DropStage where
  | readForward
  | removeForward
  | readReverse
  /-- rewritten with its expiry; the port read from it -/
  | mark (port : UInt16)
deriving DecidableEq

/-- who has the directory locked -/
inductive Section where
  | bind (b : Binding) (stage : BindStage)
  | drop (id : ℕ) (b : Binding) (stage : DropStage)
deriving DecidableEq

def Section.pid : Section → UInt32
  | .bind b _ => b.pid
  | .drop _ b _ => b.pid

structure World where
  /-- host processes, by pid -/
  alive : UInt32 → Bool := fun _ => false
  /-- a file's bytes, and the binding it was made for -/
  files : Map File (Bytes × ℕ) := ∅
  /-- open bindings -/
  bindings : Map ℕ Binding := ∅
  locked : Option Section := none
  next : ℕ := 0

inductive Act where
  | spawn (pid : UInt32)
  | crash (pid : UInt32)
  | enterBind (pid : UInt32) (proto : Proto) (guest host : UInt16) (shared : Bool)
  /-- a binding's drop begins; whether it can lock the directory -/
  | enterDrop (id : ℕ) (locks : Bool)
  /-- the next file operation of whoever has the lock; whether it succeeds, and the expiry a drop writes -/
  | advance (ok : Bool) (until_ : UInt64)
deriving DecidableEq

namespace World

def entry (w : World) (f : File) : Option Entry := (w.files.lookup f).bind fun c => readEntry c.1

/-- a read that may fail -/
def read? (w : World) (ok : Bool) (f : File) : Option Entry := if ok then w.entry f else none

def write (w : World) (f : File) (e : Entry) (id : ℕ) : World := { w with files := w.files.insert f (e.text, id) }

def remove (w : World) (f : File) : World := { w with files := w.files.erase f }

def unlock (w : World) : World := { w with locked := none }

/-- the binding is returned -/
def added (w : World) (b : Binding) : World := { w with bindings := w.bindings.insert w.next b, next := w.next + 1, locked := none }

/-- `bind` -/
def advanceBind (w : World) (b : Binding) (ok : Bool) : BindStage → World
  | .read =>
    match w.read? ok b.forward with
    | some e =>
      if w.alive e.owner then
        if b.shared && e.shared then { w with locked := some (.bind b .join) }
        -- `EADDRINUSE`
        else w.unlock
      else { w with locked := some (.bind b .writeForward) }
    | none => { w with locked := some (.bind b .writeForward) }
  | .join =>
    if ok then (w.write b.reverse b.reverseEntry w.next).added { b with holds := false } else w.unlock
  | .writeForward =>
    if ok then { w.write b.forward b.forwardEntry w.next with locked := some (.bind b .writeReverse) } else w.unlock
  | .writeReverse =>
    if ok then (w.write b.reverse b.reverseEntry w.next).added { b with holds := true }
    else { w with locked := some (.bind b .undo) }
  | .undo => if ok then (w.remove b.forward).unlock else w.unlock

/-- `Binding::drop` -/
def advanceDrop (w : World) (id : ℕ) (b : Binding) (ok : Bool) (until_ : UInt64) : DropStage → World
  | .readForward =>
    match w.read? ok b.forward with
    | some e => { w with locked := some (.drop id b (if e.owner = b.pid then .removeForward else .readReverse)) }
    | none => { w with locked := some (.drop id b .readReverse) }
  | .removeForward => { (if ok then w.remove b.forward else w) with locked := some (.drop id b .readReverse) }
  | .readReverse =>
    match w.read? ok b.reverse with
    | some e => if e.owner = b.pid && e.expiry.isNone then { w with locked := some (.drop id b (.mark e.port)) } else w.unlock
    | none => w.unlock
  | .mark port =>
    if ok then (w.write b.reverse { port, owner := b.pid, shared := false, expiry := some until_ } id).unlock else w.unlock

def step (w : World) : Act → World
  | .spawn pid => { w with alive := Function.update w.alive pid true }
  | .crash pid =>
    { w with
      alive := Function.update w.alive pid false
      bindings := w.bindings.retain fun _ b => if b.pid = pid then none else some b
      locked := if w.locked.any (·.pid = pid) then none else w.locked }
  | .enterBind pid proto guest host shared =>
    if w.alive pid && w.locked.isNone then
      { w with locked := some (.bind ⟨pid, proto, if guest = 0 then host else guest, host, shared, true⟩ .read) }
    else w
  | .enterDrop id locks =>
    match w.bindings.lookup id with
    | none => w
    | some b =>
      if !locks then { w with bindings := w.bindings.erase id }
      else if w.locked.isNone then
        { w with bindings := w.bindings.erase id, locked := some (.drop id b (if b.holds then .readForward else .readReverse)) }
      else w
  | .advance ok until_ =>
    match w.locked with
    | none => w
    | some (.bind b stage) => w.advanceBind b ok stage
    | some (.drop id b stage) => w.advanceDrop id b ok until_ stage

/-- `Namespace::lookup` -/
def lookup (w : World) (proto : Proto) (guest : UInt16) : Option UInt16 :=
  match w.entry (.forward proto guest) with
  | some e => if w.alive e.owner then some e.port else none
  | none => none

/-- no forward entry is of a process of this pid -/
def unowned (w : World) (pid : UInt32) : Prop :=
  ∀ x ∈ w.files.entries, ∀ proto guest, x.1 = .forward proto guest → ∀ e ∈ readEntry x.2.1, e.owner ≠ pid

/-- no one is left sharing the port of a holder that is gone, host ports are bound once, dead owners' pids are not reused, and
what a bind or drop reads and removes can be read and removed -/
def steady (w : World) : Act → Prop
  | .spawn pid => w.unowned pid
  | .crash pid =>
    ∀ x ∈ w.bindings.entries, x.2.pid = pid → x.2.holds →
      (∀ y ∈ w.bindings.entries, y.2.port = x.2.port → y.2.pid = pid) ∧
        ∀ s ∈ w.locked, ∀ b, s = .bind b .join → b.port = x.2.port → b.pid = pid
  | .enterBind _ proto _ host _ => w.locked = none → ∀ y ∈ w.bindings.entries, y.2.reverse ≠ .reverse proto host
  | .enterDrop id locks =>
    locks ∧ (w.locked = none → ∀ b ∈ w.bindings.lookup id, b.holds → ∀ y ∈ w.bindings.entries, y.1 ≠ id → y.2.port ≠ b.port)
  | .advance ok _ =>
    match w.locked with
    | some (.bind _ .read) | some (.bind _ .undo) | some (.drop _ _ .readForward) | some (.drop _ _ .removeForward) => ok = true
    | _ => True

/-! ## What is to hold -/

/-- the file operations of a bind one after the other, none of them failing -/
def bound (w : World) (pid : UInt32) (proto : Proto) (guest host : UInt16) (shared : Bool) : World :=
  run step w [.enterBind pid proto guest host shared, .advance true 0, .advance true 0, .advance true 0]

end World

structure Kept (w : World) : Prop where
  /-- two bindings of a port share it -/
  apart : ∀ id b id' b', w.bindings.lookup id = some b → w.bindings.lookup id' = some b' → id ≠ id' → b.port = b'.port →
    b.shared ∧ b'.shared
  /-- no bind that does not share succeeds while there is one -/
  refused : ∀ a id b, w.bindings.lookup id = none → (w.step a).bindings.lookup id = some b → b.shared = false →
    ∀ id' b', w.bindings.lookup id' = some b' → b'.port ≠ b.port
  /-- a lookup finds one of them -/
  found : ∀ id b, w.bindings.lookup id = some b → ∃ id' b', w.bindings.lookup id' = some b' ∧ b'.port = b.port ∧
    w.lookup b.proto b.guest = some b'.host
  /-- a drop changes no entry made for another -/
  own : ∀ id b stage ok until_, w.locked = some (.drop id b stage) → ∀ f c maker, w.files.lookup f = some (c, maker) → maker ≠ id →
    (w.step (.advance ok until_)).files.lookup f = some (c, maker)
  /-- where there is none, a bind succeeds -/
  free : ∀ pid proto guest host shared, w.locked = none → w.alive pid →
    (∀ id b, w.bindings.lookup id = some b → b.port ≠ (proto, if guest = 0 then host else guest)) →
    (w.bound pid proto guest host shared).bindings.lookup w.next =
      some ⟨pid, proto, if guest = 0 then host else guest, host, shared, true⟩

/-! ## Who holds a port -/

/-- the port whose forward entry is on its way in or out -/
def Section.passing : Section → Option (Proto × UInt16)
  | .bind b .writeReverse | .bind b .undo | .drop _ b .readForward | .drop _ b .removeForward => some b.port
  | _ => none

namespace World

/-- a forward entry on its way in or out -/
def Passing (w : World) (port : Proto × UInt16) : Prop := ∃ s, w.locked = some s ∧ s.passing = some port

/-- no open binding has the port -/
def Unbound (w : World) (port : Proto × UInt16) : Prop := ∀ id b, w.bindings.lookup id = some b → b.port ≠ port

/-- an open binding has the port, holds it and shares it -/
def Shared (w : World) (port : Proto × UInt16) : Prop := ∃ id b, w.bindings.lookup id = some b ∧ b.holds ∧ b.port = port ∧ b.shared

/-- what whoever has the lock relies on -/
def BindOk (w : World) (b : Binding) : BindStage → Prop
  | .read => True
  | .join => b.shared ∧ w.Shared b.port
  | .writeForward => w.Unbound b.port
  | .writeReverse | .undo => w.Unbound b.port ∧ w.files.lookup b.forward = some (b.forwardEntry.text, w.next)

def DropOk (w : World) (id : ℕ) (b : Binding) : DropStage → Prop
  | .readForward | .removeForward => w.Unbound b.port ∧ w.files.lookup b.forward = some (b.forwardEntry.text, id)
  | .readReverse | .mark _ => True

def SectionOk (w : World) : Section → Prop
  | .bind b stage => (∀ id b', w.bindings.lookup id = some b' → b'.reverse ≠ b.reverse) ∧ w.BindOk b stage
  | .drop id b stage =>
    (∀ id b', w.bindings.lookup id = some b' → b'.reverse ≠ b.reverse) ∧ id < w.next ∧ w.bindings.lookup id = none ∧
      (∃ c, w.files.lookup b.reverse = some (c, id)) ∧ w.DropOk id b stage

structure Inv (w : World) : Prop where
  /-- a live owner's forward entry is an open binding's -/
  forwards : ∀ proto guest c id, w.files.lookup (.forward proto guest) = some (c, id) → ∀ e, readEntry c = some e → w.alive e.owner →
    (∃ b, w.bindings.lookup id = some b ∧ b.holds ∧ b.port = (proto, guest)) ∨ w.Passing (proto, guest)
  holders : ∀ id b, w.bindings.lookup id = some b → b.holds → w.files.lookup b.forward = some (b.forwardEntry.text, id)
  joiners : ∀ id b, w.bindings.lookup id = some b → b.holds = false → b.shared ∧ w.Shared b.port
  reverses : ∀ id b, w.bindings.lookup id = some b → ∃ c, w.files.lookup b.reverse = some (c, id)
  living : ∀ id b, w.bindings.lookup id = some b → w.alive b.pid
  livingLocked : ∀ s, w.locked = some s → w.alive s.pid
  fresh : ∀ id b, w.bindings.lookup id = some b → id < w.next
  locked : ∀ s, w.locked = some s → w.SectionOk s

variable {w : World}

theorem forward_eq {b c : Binding} (h : b.port = c.port) : b.forward = c.forward := by
  have h₁ := congrArg Prod.fst h
  have h₂ := congrArg Prod.snd h
  unfold Binding.forward
  rw [show b.proto = c.proto from h₁, show b.guest = c.guest from h₂]

/-- what is read from a binding's forward file is its entry -/
theorem entry_eq {b : Binding} {proto : Proto} {guest : UInt16} {id id' : ℕ} {c : Bytes} {e : Entry} (hp : b.port = (proto, guest))
    (hf : w.files.lookup b.forward = some (b.forwardEntry.text, id)) (hc : w.files.lookup (.forward proto guest) = some (c, id'))
    (he : readEntry c = some e) : e = b.forwardEntry := by
  rw [forward_eq (c := ⟨b.pid, proto, guest, b.host, b.shared, b.holds⟩) hp] at hf
  have hcf : c = b.forwardEntry.text := congrArg Prod.fst (Option.some.inj (hc.symm.trans hf))
  rw [hcf, readEntry_text] at he
  exact (Option.some.inj he).symm

/-- an open binding's port has a holder, and its entry -/
theorem holder_of (hi : w.Inv) {id : ℕ} {b : Binding} (h : w.bindings.lookup id = some b) :
    ∃ id' b', w.bindings.lookup id' = some b' ∧ b'.holds ∧ b'.port = b.port ∧ (id' = id ∨ (b.shared ∧ b'.shared)) := by
  cases hh : b.holds with
  | true => exact ⟨id, b, h, hh, rfl, .inl rfl⟩
  | false =>
    obtain ⟨hs, id', b', h', hh', hp, hs'⟩ := hi.joiners id b h hh
    exact ⟨id', b', h', hh', hp, .inr ⟨hs, hs'⟩⟩

theorem entry_of (hi : w.Inv) {id : ℕ} {b : Binding} (h : w.bindings.lookup id = some b) (hh : b.holds) :
    w.entry b.forward = some b.forwardEntry := by
  unfold entry
  rw [hi.holders id b h hh, Option.bind_some, readEntry_text]

/-- a port has one holder -/
theorem holder_unique (hi : w.Inv) {id id' : ℕ} {b b' : Binding} (h : w.bindings.lookup id = some b) (hh : b.holds)
    (h' : w.bindings.lookup id' = some b') (hh' : b'.holds) (hp : b.port = b'.port) : id = id' := by
  have hf := hi.holders id b h hh
  rw [forward_eq hp, hi.holders id' b' h' hh'] at hf
  exact (congrArg Prod.snd (Option.some.inj hf)).symm

/-- an entry of no live owner, or none: the port is not bound -/
theorem unbound_of (hi : w.Inv) {b : Binding} (h : ∀ e, w.entry b.forward = some e → w.alive e.owner = false) : w.Unbound b.port := by
  intro id b' hb hp
  obtain ⟨id', h', hl, hh, hpp, -⟩ := holder_of hi hb
  have he := entry_of hi hl hh
  rw [forward_eq (hpp.trans hp)] at he
  have halive := hi.living id' h' hl
  rw [show w.alive h'.pid = false from h _ he] at halive
  cases halive

/-- with nothing on its way, an entry of a live owner is an open binding's -/
theorem bound_of (hi : w.Inv) {b : Binding} (hpass : ¬w.Passing b.port) {e : Entry} (he : w.entry b.forward = some e)
    (ha : w.alive e.owner) : ∃ id b', w.bindings.lookup id = some b' ∧ b'.holds ∧ b'.port = b.port ∧ e = b'.forwardEntry := by
  obtain ⟨⟨c, id⟩, hc, hread⟩ := Option.bind_eq_some_iff.mp he
  rcases hi.forwards b.proto b.guest c id hc e hread ha with ⟨b', hb', hh, hp⟩ | h
  · refine ⟨id, b', hb', hh, hp, ?_⟩
    have he' := entry_of hi hb' hh
    rw [forward_eq (show b'.port = b.port from hp), he] at he'
    exact Option.some.inj he'
  · exact absurd h hpass

/-- the lock passes on, and nothing else changes -/
theorem inv_locked (hi : w.Inv) {l : Option Section} (ha : ∀ s, l = some s → w.alive s.pid) (hs : ∀ s, l = some s → w.SectionOk s)
    (hp : ∀ port, w.Passing port → ({ w with locked := l } : World).Passing port) : ({ w with locked := l } : World).Inv where
  forwards := fun proto guest c id hc e he halive => (hi.forwards proto guest c id hc e he halive).imp_right (hp _)
  holders := hi.holders
  joiners := hi.joiners
  reverses := hi.reverses
  living := hi.living
  livingLocked := ha
  fresh := hi.fresh
  locked := hs

theorem not_passing {s : Section} (hl : w.locked = some s) (hs : s.passing = none) (port : Proto × UInt16) : ¬w.Passing port := by
  rintro ⟨s', hl', hs'⟩
  rw [hl] at hl'
  cases hl'
  rw [hs] at hs'
  cases hs'

theorem not_passing_none (h : w.locked = none) (port : Proto × UInt16) : ¬w.Passing port := by
  rintro ⟨s, hl, -⟩
  rw [h] at hl
  cases hl

/-- an entry on its way is that of the binding it is for -/
theorem passing_entry {s : Section} (h : w.SectionOk s) {port : Proto × UInt16} (hp : s.passing = some port) :
    ∃ (b : Binding) (id : ℕ), b.pid = s.pid ∧ b.port = port ∧ w.files.lookup b.forward = some (b.forwardEntry.text, id) := by
  cases s with
  | bind b stage =>
    cases stage with
    | read | join | writeForward => cases hp
    | writeReverse | undo => exact ⟨b, w.next, rfl, Option.some.inj hp, h.2.2⟩
  | drop id b stage =>
    cases stage with
    | readReverse | mark => cases hp
    | readForward | removeForward => exact ⟨b, id, rfl, Option.some.inj hp, h.2.2.2.2.2⟩

theorem inv_unlock (hi : w.Inv) (h : ∀ port, ¬w.Passing port) : w.unlock.Inv :=
  inv_locked hi (fun s hs => by cases hs) (fun s hs => by cases hs) fun port hp => absurd hp (h port)

theorem inv_spawn (hi : w.Inv) {pid : UInt32} (ho : w.unowned pid) : (w.step (.spawn pid)).Inv where
  forwards := by
    intro proto guest c id hc e he halive
    have hne : e.owner ≠ pid := ho ⟨_, c, id⟩ ((Map.mem_entries ..).mpr hc) proto guest rfl e he
    exact hi.forwards proto guest c id hc e he ((Function.update_of_ne hne _ _).symm.trans halive)
  holders := hi.holders
  joiners := hi.joiners
  reverses := hi.reverses
  living := by
    intro id b hb
    change Function.update w.alive pid true b.pid = true
    rw [Function.update_apply]
    split_ifs
    · rfl
    · exact hi.living id b hb
  livingLocked := by
    intro s hs
    change Function.update w.alive pid true s.pid = true
    rw [Function.update_apply]
    split_ifs
    · rfl
    · exact hi.livingLocked s hs
  fresh := hi.fresh
  locked := hi.locked

/-- the bindings that a crash leaves -/
theorem lookup_crash (w : World) (pid : UInt32) (id : ℕ) (b : Binding) :
    (w.step (.crash pid)).bindings.lookup id = some b ↔ w.bindings.lookup id = some b ∧ b.pid ≠ pid := by
  change (w.bindings.retain fun _ b => if b.pid = pid then none else some b).lookup id = some b ↔ _
  rw [Map.lookup_retain, Option.bind_eq_some_iff]
  constructor
  · rintro ⟨b', hb', hif⟩
    split_ifs at hif with hp
    cases hif
    exact ⟨hb', hp⟩
  · rintro ⟨hb, hp⟩
    exact ⟨b, hb, if_neg hp⟩

theorem locked_crash (w : World) (pid : UInt32) (s : Section) :
    (w.step (.crash pid)).locked = some s ↔ w.locked = some s ∧ s.pid ≠ pid := by
  change (if w.locked.any (·.pid = pid) then none else w.locked) = some s ↔ _
  cases hl : w.locked with
  | none => simp
  | some s' =>
    by_cases hp : s'.pid = pid
    · rw [if_pos (by simpa using hp)]
      constructor
      · intro h
        cases h
      · rintro ⟨h, hne⟩
        cases h
        exact absurd hp hne
    · rw [if_neg (by simpa using hp)]
      constructor
      · intro h
        cases h
        exact ⟨rfl, hp⟩
      · exact fun h => h.1

theorem alive_crash {pid x : UInt32} : (w.step (.crash pid)).alive x = true ↔ w.alive x = true ∧ x ≠ pid := by
  change Function.update w.alive pid false x = true ↔ _
  rw [Function.update_apply]
  split_ifs with h
  · simp [h]
  · simp [h]

theorem inv_crash (hi : w.Inv) {pid : UInt32} (ho : w.steady (.crash pid)) : (w.step (.crash pid)).Inv := by
  have hunbound : ∀ port, w.Unbound port → (w.step (.crash pid)).Unbound port := fun port h id b hb =>
    h id b ((lookup_crash w pid id b).mp hb).1
  -- a holder that is shared by another process's binding does not crash
  have hshared : ∀ {port}, w.Shared port →
      ((∃ id b, w.bindings.lookup id = some b ∧ b.pid ≠ pid ∧ b.port = port) ∨
        ∃ b, w.locked = some (.bind b .join) ∧ b.pid ≠ pid ∧ b.port = port) →
      (w.step (.crash pid)).Shared port := by
    rintro port ⟨id, b, hb, hh, hp, hs⟩ hother
    refine ⟨id, b, (lookup_crash w pid id b).mpr ⟨hb, fun hpid => ?_⟩, hh, hp, hs⟩
    obtain ⟨hall, hjoin⟩ := ho ⟨id, b⟩ ((Map.mem_entries ..).mpr hb) hpid hh
    rcases hother with ⟨id', b', hb', hne, hp'⟩ | ⟨b', hl, hne, hp'⟩
    · exact hne (hall ⟨id', b'⟩ ((Map.mem_entries ..).mpr hb') (hp'.trans hp.symm))
    · exact hne (hjoin _ hl b' rfl (hp'.trans hp.symm))
  refine ⟨?_, ?_, ?_, ?_, ?_, ?_, ?_, ?_⟩
  · intro proto guest c id hc e he halive
    obtain ⟨halive, hne⟩ := alive_crash.mp halive
    rcases hi.forwards proto guest c id hc e he halive with ⟨b, hb, hh, hp⟩ | hpass
    · refine .inl ⟨b, (lookup_crash w pid id b).mpr ⟨hb, fun hpid => hne ?_⟩, hh, hp⟩
      -- the entry is the binding's, so its owner is
      rw [entry_eq hp (hi.holders id b hb hh) hc he]
      exact hpid
    · obtain ⟨s, hl, hs⟩ := hpass
      obtain ⟨b, id', hbs, hp, hf⟩ := passing_entry (hi.locked s hl) hs
      have heq := entry_eq hp hf hc he
      exact .inr ⟨s, (locked_crash w pid s).mpr ⟨hl, fun h => hne (by rw [heq]; exact hbs.trans h)⟩, hs⟩
  · exact fun id b hb hh => hi.holders id b ((lookup_crash w pid id b).mp hb).1 hh
  · intro id b hb hh
    obtain ⟨hb, hne⟩ := (lookup_crash w pid id b).mp hb
    obtain ⟨hs, hsh⟩ := hi.joiners id b hb hh
    exact ⟨hs, hshared hsh (.inl ⟨id, b, hb, hne, rfl⟩)⟩
  · exact fun id b hb => hi.reverses id b ((lookup_crash w pid id b).mp hb).1
  · intro id b hb
    obtain ⟨hb, hne⟩ := (lookup_crash w pid id b).mp hb
    exact alive_crash.mpr ⟨hi.living id b hb, hne⟩
  · intro s hs
    obtain ⟨hs, hne⟩ := (locked_crash w pid s).mp hs
    exact alive_crash.mpr ⟨hi.livingLocked s hs, hne⟩
  · exact fun id b hb => hi.fresh id b ((lookup_crash w pid id b).mp hb).1
  · intro s hs
    obtain ⟨hs, hne⟩ := (locked_crash w pid s).mp hs
    have hok := hi.locked s hs
    cases s with
    | bind b stage =>
      refine ⟨fun id b' hb' => hok.1 id b' ((lookup_crash w pid id b').mp hb').1, ?_⟩
      cases stage with
      | read => trivial
      | join => exact ⟨hok.2.1, hshared hok.2.2 (.inr ⟨b, hs, hne, rfl⟩)⟩
      | writeForward => exact hunbound _ hok.2
      | writeReverse => exact ⟨hunbound _ hok.2.1, hok.2.2⟩
      | undo => exact ⟨hunbound _ hok.2.1, hok.2.2⟩
    | drop id b stage =>
      obtain ⟨hrev, hlt, hnone, hfile, hdrop⟩ := hok
      refine ⟨fun id b' hb' => hrev id b' ((lookup_crash w pid id b').mp hb').1, hlt, ?_, hfile, ?_⟩
      · refine Option.eq_none_iff_forall_ne_some.mpr fun b' hb' => ?_
        rw [((lookup_crash w pid id b').mp hb').1] at hnone
        cases hnone
      · cases stage with
        | readForward => exact ⟨hunbound _ hdrop.1, hdrop.2⟩
        | removeForward => exact ⟨hunbound _ hdrop.1, hdrop.2⟩
        | readReverse => trivial
        | mark port => trivial

theorem inv_enterDrop (hi : w.Inv) (hl : w.locked = none) {id : ℕ} {b : Binding} (hb : w.bindings.lookup id = some b)
    (ho : b.holds → ∀ y ∈ w.bindings.entries, y.1 ≠ id → y.2.port ≠ b.port) :
    ({ w with bindings := w.bindings.erase id, locked := some (.drop id b (if b.holds then .readForward else .readReverse)) } : World).Inv := by
  have hlook : ∀ id' b', (w.bindings.erase id).lookup id' = some b' → id' ≠ id ∧ w.bindings.lookup id' = some b' := by
    intro id' b' h
    rw [Map.lookup_erase_eq] at h
    by_cases he : id' = id
    · rw [if_pos he] at h
      cases h
    · rw [if_neg he] at h
      exact ⟨he, h⟩
  have hkeep : ∀ id' b', id' ≠ id → w.bindings.lookup id' = some b' → (w.bindings.erase id).lookup id' = some b' := by
    intro id' b' he h
    rw [Map.lookup_erase_eq, if_neg he, h]
  refine ⟨?_, ?_, ?_, ?_, ?_, ?_, ?_, ?_⟩
  · intro proto guest c id' hc e he halive
    rcases hi.forwards proto guest c id' hc e he halive with ⟨b', hb', hh, hp⟩ | hpass
    · by_cases hid : id' = id
      · subst hid
        rw [hb] at hb'
        cases hb'
        exact .inr ⟨_, rfl, by rw [if_pos hh]; exact congrArg some hp⟩
      · exact .inl ⟨b', hkeep id' b' hid hb', hh, hp⟩
    · exact absurd hpass (not_passing_none hl _)
  · exact fun id' b' hb' hh => hi.holders id' b' (hlook id' b' hb').2 hh
  · intro id' b' hb' hh
    obtain ⟨hne, hopen⟩ := hlook id' b' hb'
    obtain ⟨hs, id'', b'', hb'', hh'', hp, hs''⟩ := hi.joiners id' b' hopen hh
    refine ⟨hs, id'', b'', hkeep id'' b'' (fun he => ?_) hb'', hh'', hp, hs''⟩
    subst he
    rw [hb] at hb''
    cases hb''
    exact ho hh'' ⟨id', b'⟩ ((Map.mem_entries ..).mpr hopen) hne hp.symm
  · exact fun id' b' hb' => hi.reverses id' b' (hlook id' b' hb').2
  · exact fun id' b' hb' => hi.living id' b' (hlook id' b' hb').2
  · intro s hs
    cases hs
    exact hi.living id b hb
  · exact fun id' b' hb' => hi.fresh id' b' (hlook id' b' hb').2
  · intro s hs
    cases hs
    refine ⟨?_, hi.fresh id b hb, ?_, hi.reverses id b hb, ?_⟩
    · intro id' b' hb' heq
      obtain ⟨hne, hb'⟩ := hlook id' b' hb'
      obtain ⟨c, hc⟩ := hi.reverses id b hb
      obtain ⟨c', hc'⟩ := hi.reverses id' b' hb'
      rw [heq, hc] at hc'
      exact hne (congrArg Prod.snd (Option.some.inj hc')).symm
    · change (w.bindings.erase id).lookup id = none
      rw [Map.lookup_erase_eq, if_pos rfl]
    · split_ifs with hh
      · refine ⟨fun id' b' hb' => ?_, hi.holders id b hb hh⟩
        obtain ⟨hne, hb'⟩ := hlook id' b' hb'
        exact ho hh ⟨id', b'⟩ ((Map.mem_entries ..).mpr hb') hne
      · trivial

/-! ## The file operations of a bind -/

/-- a binding added: its reverse entry is written, and its forward entry is its own or a holder's -/
theorem inv_added (hi : w.Inv) {b : Binding} (ha : w.alive b.pid)
    (hrev : ∀ id b', w.bindings.lookup id = some b' → b'.reverse ≠ b.reverse)
    (hown : b.holds → w.Unbound b.port ∧ w.files.lookup b.forward = some (b.forwardEntry.text, w.next))
    (hjoin : b.holds = false → b.shared ∧ w.Shared b.port)
    (hpass : ∀ port, w.Passing port → b.holds ∧ b.port = port) :
    ((w.write b.reverse b.reverseEntry w.next).added b).Inv := by
  have hfwd : ∀ proto guest, (w.write b.reverse b.reverseEntry w.next).files.lookup (.forward proto guest) =
      w.files.lookup (.forward proto guest) := fun proto guest => by
    change (w.files.insert b.reverse _).lookup _ = _
    rw [Map.lookup_insert_eq, if_neg (by intro h; cases h)]
  have hlook : ∀ id b', ((w.write b.reverse b.reverseEntry w.next).added b).bindings.lookup id = some b' ↔
      (id = w.next ∧ b' = b) ∨ (id ≠ w.next ∧ w.bindings.lookup id = some b') := by
    intro id b'
    change (w.bindings.insert w.next b).lookup id = some b' ↔ _
    rw [Map.lookup_insert_eq]
    split_ifs with h
    · simp [h, eq_comm]
    · simp [h]
  have hold : ∀ {id b'}, w.bindings.lookup id = some b' → ((w.write b.reverse b.reverseEntry w.next).added b).bindings.lookup id = some b' :=
    fun {id b'} h => (hlook id b').mpr (.inr ⟨(hi.fresh id b' h).ne, h⟩)
  have hshared : ∀ {port}, w.Shared port → ((w.write b.reverse b.reverseEntry w.next).added b).Shared port := by
    rintro port ⟨id, b', hb', h⟩
    exact ⟨id, b', hold hb', h⟩
  refine ⟨?_, ?_, ?_, ?_, ?_, ?_, ?_, ?_⟩
  · intro proto guest c id hc e he halive
    have hc' : w.files.lookup (.forward proto guest) = some (c, id) := (hfwd proto guest).symm.trans hc
    rcases hi.forwards proto guest c id hc' e he halive with ⟨b', hb', hh, hp⟩ | h
    · exact .inl ⟨b', hold hb', hh, hp⟩
    · obtain ⟨hh, hp⟩ := hpass _ h
      have hf := (hown hh).2
      rw [forward_eq (c := ⟨b.pid, proto, guest, b.host, b.shared, b.holds⟩) hp] at hf
      have hid : id = w.next := congrArg Prod.snd (Option.some.inj (hc'.symm.trans hf))
      exact .inl ⟨b, (hlook id b).mpr (.inl ⟨hid, rfl⟩), hh, hp⟩
  · intro id b' hb' hh
    refine (hfwd b'.proto b'.guest).trans ?_
    rcases (hlook id b').mp hb' with ⟨rfl, rfl⟩ | ⟨-, hb'⟩
    · exact (hown hh).2
    · exact hi.holders id b' hb' hh
  · intro id b' hb' hh
    rcases (hlook id b').mp hb' with ⟨rfl, rfl⟩ | ⟨-, hb'⟩
    · exact ⟨(hjoin hh).1, hshared (hjoin hh).2⟩
    · exact ⟨(hi.joiners id b' hb' hh).1, hshared (hi.joiners id b' hb' hh).2⟩
  · intro id b' hb'
    change ∃ c, (w.files.insert b.reverse _).lookup b'.reverse = some (c, id)
    rw [Map.lookup_insert_eq]
    rcases (hlook id b').mp hb' with ⟨rfl, rfl⟩ | ⟨-, hb'⟩
    · exact ⟨_, if_pos rfl⟩
    · rw [if_neg (hrev id b' hb')]
      exact hi.reverses id b' hb'
  · intro id b' hb'
    rcases (hlook id b').mp hb' with ⟨rfl, rfl⟩ | ⟨-, hb'⟩
    · exact ha
    · exact hi.living id b' hb'
  · intro s hs
    cases hs
  · intro id b' hb'
    change id < w.next + 1
    rcases (hlook id b').mp hb' with ⟨rfl, rfl⟩ | ⟨-, hb'⟩
    · exact Nat.lt_succ_self _
    · exact Nat.lt_succ_of_lt (hi.fresh id b' hb')
  · intro s hs
    cases hs

/-- the forward entry is written: its binding is not there yet -/
theorem inv_writeForward (hi : w.Inv) {b : Binding} (hl : w.locked = some (.bind b .writeForward)) :
    ({ w.write b.forward b.forwardEntry w.next with locked := some (.bind b .writeReverse) } : World).Inv := by
  obtain ⟨hrev, hunbound⟩ : (∀ id b', w.bindings.lookup id = some b' → b'.reverse ≠ b.reverse) ∧ w.Unbound b.port := hi.locked _ hl
  have hfile : ∀ f, (w.files.insert b.forward (b.forwardEntry.text, w.next)).lookup f =
      if f = b.forward then some (b.forwardEntry.text, w.next) else w.files.lookup f := fun f => Map.lookup_insert_eq ..
  have hpass : ∀ port, ¬w.Passing port := not_passing hl rfl
  refine ⟨?_, ?_, hi.joiners, ?_, hi.living, ?_, hi.fresh, ?_⟩
  · intro proto guest c id hc e he halive
    change (w.files.insert b.forward (b.forwardEntry.text, w.next)).lookup _ = _ at hc
    rw [hfile] at hc
    split_ifs at hc with hf
    · refine .inr ⟨_, rfl, ?_⟩
      cases hf
      rfl
    · exact (hi.forwards proto guest c id hc e he halive).imp_right fun h => absurd h (hpass _)
  · intro id b' hb' hh
    refine (hfile b'.forward).trans ?_
    rw [if_neg]
    · exact hi.holders id b' hb' hh
    · intro hf
      refine hunbound id b' hb' ?_
      unfold Binding.forward at hf
      cases hf' : b'
      cases hb : b
      rw [hf', hb] at hf
      cases hf
      rfl
  · intro id b' hb'
    have hr := hi.reverses id b' hb'
    change ∃ c, (w.files.insert b.forward _).lookup b'.reverse = some (c, id)
    rwa [Map.lookup_insert_eq, if_neg (by intro h; cases h)]
  · intro s hs
    cases hs
    exact hi.livingLocked (.bind b .writeForward) hl
  · intro s hs
    cases hs
    exact ⟨hrev, hunbound, (hfile b.forward).trans (if_pos rfl)⟩

/-- a forward entry whose binding is not there is removed -/
theorem inv_remove (hi : w.Inv) {b : Binding} (hunbound : w.Unbound b.port) (hpass : ∀ port, w.Passing port → b.port = port)
    {l : Option Section} (ha : ∀ s, l = some s → w.alive s.pid)
    (hs : ∀ s, l = some s → ({ w.remove b.forward with locked := l } : World).SectionOk s) :
    ({ w.remove b.forward with locked := l } : World).Inv := by
  have hfile : ∀ f, (w.files.erase b.forward).lookup f = if f = b.forward then none else w.files.lookup f := fun f =>
    Map.lookup_erase_eq ..
  refine ⟨?_, ?_, hi.joiners, ?_, hi.living, ha, hi.fresh, hs⟩
  · intro proto guest c id hc e he halive
    change (w.files.erase b.forward).lookup _ = _ at hc
    rw [hfile] at hc
    by_cases hf : File.forward proto guest = b.forward
    · rw [if_pos hf] at hc
      cases hc
    · rw [if_neg hf] at hc
      refine .inl ((hi.forwards proto guest c id hc e he halive).resolve_right fun h => hf ?_)
      exact (forward_eq (c := ⟨b.pid, proto, guest, b.host, b.shared, b.holds⟩) (hpass _ h)).symm
  · intro id b' hb' hh
    refine (hfile b'.forward).trans ?_
    rw [if_neg]
    · exact hi.holders id b' hb' hh
    · intro hf
      refine hunbound id b' hb' ?_
      unfold Binding.forward at hf
      cases hf' : b'
      cases hb : b
      rw [hf', hb] at hf
      cases hf
      rfl
  · intro id b' hb'
    have hr := hi.reverses id b' hb'
    change ∃ c, (w.files.erase b.forward).lookup b'.reverse = some (c, id)
    rwa [Map.lookup_erase_eq, if_neg (by intro h; cases h)]

theorem read_ok (w : World) (f : File) : w.read? true f = w.entry f := rfl

theorem inv_advanceBind (hi : w.Inv) {b : Binding} {stage : BindStage} (hl : w.locked = some (.bind b stage)) {ok : Bool}
    (hread : stage = .read → ok = true) (hundo : stage = .undo → ok = true) : (w.advanceBind b ok stage).Inv := by
  have ha : w.alive b.pid := hi.livingLocked _ hl
  obtain ⟨hrev, hok⟩ : (∀ id b', w.bindings.lookup id = some b' → b'.reverse ≠ b.reverse) ∧ w.BindOk b stage := hi.locked _ hl
  cases stage with
  | read =>
    cases hread rfl
    have hpass : ∀ port, ¬w.Passing port := not_passing hl rfl
    have hnext : ∀ stage, w.BindOk b stage → ({ w with locked := some (.bind b stage) } : World).Inv := by
      intro stage hstage
      refine inv_locked hi ?_ ?_ fun port hp => absurd hp (hpass port)
      · intro s hs
        cases hs
        exact ha
      · intro s hs
        cases hs
        refine ⟨hrev, ?_⟩
        cases stage with
        | read => trivial
        | join => exact hstage
        | writeForward => exact hstage
        | writeReverse => exact hstage
        | undo => exact hstage
    simp only [advanceBind, read_ok]
    cases he : w.entry b.forward with
    | none => exact hnext .writeForward (unbound_of hi fun e h => by rw [he] at h; cases h)
    | some e =>
      dsimp only
      split_ifs with hlive hs
      · -- a live holder that shares
        obtain ⟨hbs, hes⟩ := (Bool.and_eq_true _ _).mp hs
        obtain ⟨id, b', hb', hh, hp, rfl⟩ := bound_of hi (hpass _) he hlive
        exact hnext .join ⟨hbs, id, b', hb', hh, hp, hes⟩
      · exact inv_unlock hi hpass
      · refine hnext .writeForward (unbound_of hi fun e' h => ?_)
        rw [he] at h
        cases h
        exact Bool.eq_false_iff.mpr hlive
  | join =>
    have hpass : ∀ port, ¬w.Passing port := not_passing hl rfl
    simp only [advanceBind]
    split_ifs
    · exact inv_added (b := { b with holds := false }) hi ha hrev (fun h => by cases h) (fun _ => hok)
        fun port hp => absurd hp (hpass port)
    · exact inv_unlock hi hpass
  | writeForward =>
    simp only [advanceBind]
    split_ifs
    · exact inv_writeForward hi hl
    · exact inv_unlock hi (not_passing hl rfl)
  | writeReverse =>
    have hpass : ∀ port, w.Passing port → b.port = port := by
      rintro port ⟨s, hs, hp⟩
      rw [hl] at hs
      cases hs
      exact Option.some.inj hp
    simp only [advanceBind]
    split_ifs
    · exact inv_added (b := { b with holds := true }) hi ha hrev (fun _ => hok) (fun h => by cases h) fun port hp => ⟨rfl, hpass port hp⟩
    · refine inv_locked hi ?_ ?_ fun port hp => ⟨_, rfl, congrArg some (hpass port hp)⟩
      · intro s hs
        cases hs
        exact ha
      · intro s hs
        cases hs
        exact ⟨hrev, hok⟩
  | undo =>
    cases hundo rfl
    refine inv_remove hi hok.1 ?_ (fun s hs => by cases hs) (fun s hs => by cases hs)
    rintro port ⟨s, hs, hp⟩
    rw [hl] at hs
    cases hs
    exact Option.some.inj hp

/-! ## The file operations of a drop -/

theorem inv_mark (hi : w.Inv) {id : ℕ} {b : Binding} {port : UInt16} (hl : w.locked = some (.drop id b (.mark port))) (e : Entry) :
    (w.write b.reverse e id).unlock.Inv := by
  obtain ⟨hrev, -⟩ : (∀ id b', w.bindings.lookup id = some b' → b'.reverse ≠ b.reverse) ∧ _ := hi.locked _ hl
  have hfwd : ∀ proto guest, (w.files.insert b.reverse (e.text, id)).lookup (.forward proto guest) =
      w.files.lookup (.forward proto guest) := fun proto guest => by
    rw [Map.lookup_insert_eq, if_neg (by intro h; cases h)]
  refine ⟨?_, ?_, hi.joiners, ?_, hi.living, ?_, hi.fresh, ?_⟩
  · intro proto guest c id' hc e' he halive
    have hc' := (hfwd proto guest).symm.trans hc
    exact .inl ((hi.forwards proto guest c id' hc' e' he halive).resolve_right (not_passing hl rfl _))
  · exact fun id' b' hb' hh => (hfwd b'.proto b'.guest).trans (hi.holders id' b' hb' hh)
  · intro id' b' hb'
    have hr := hi.reverses id' b' hb'
    change ∃ c, (w.files.insert b.reverse _).lookup b'.reverse = some (c, id')
    rwa [Map.lookup_insert_eq, if_neg (hrev id' b' hb')]
  · intro s hs
    cases hs
  · intro s hs
    cases hs

theorem inv_advanceDrop (hi : w.Inv) {id : ℕ} {b : Binding} {stage : DropStage} (hl : w.locked = some (.drop id b stage)) {ok : Bool}
    (hread : stage = .readForward → ok = true) (hremove : stage = .removeForward → ok = true) (until_ : UInt64) :
    (w.advanceDrop id b ok until_ stage).Inv := by
  have ha : w.alive b.pid := hi.livingLocked _ hl
  obtain ⟨hrev, hlt, hnone, hfile, hok⟩ : (∀ id b', w.bindings.lookup id = some b' → b'.reverse ≠ b.reverse) ∧ id < w.next ∧
    w.bindings.lookup id = none ∧ (∃ c, w.files.lookup b.reverse = some (c, id)) ∧ w.DropOk id b stage := hi.locked _ hl
  have hpid : ∀ stage s, some (Section.drop id b stage) = some s → w.alive s.pid := by
    intro stage s hs
    cases hs
    exact ha
  cases stage with
  | readForward =>
    cases hread rfl
    have he : w.entry b.forward = some b.forwardEntry := by
      unfold entry
      rw [hok.2, Option.bind_some, readEntry_text]
    simp only [advanceDrop, read_ok, he]
    rw [if_pos (show b.forwardEntry.owner = b.pid from rfl)]
    refine inv_locked hi (hpid _) ?_ ?_
    · intro s hs
      cases hs
      exact ⟨hrev, hlt, hnone, hfile, hok⟩
    · rintro port ⟨s, hs, hp⟩
      rw [hl] at hs
      cases hs
      exact ⟨_, rfl, hp⟩
  | removeForward =>
    cases hremove rfl
    simp only [advanceDrop, if_true]
    refine inv_remove hi hok.1 ?_ (hpid _) ?_
    · rintro port ⟨s, hs, hp⟩
      rw [hl] at hs
      cases hs
      exact Option.some.inj hp
    · intro s hs
      cases hs
      refine ⟨hrev, hlt, hnone, ?_, trivial⟩
      obtain ⟨c, hc⟩ := hfile
      refine ⟨c, ?_⟩
      change (w.files.erase b.forward).lookup b.reverse = _
      rw [Map.lookup_erase_eq, if_neg (by intro h; cases h), hc]
  | readReverse =>
    have hpass : ∀ port, ¬w.Passing port := not_passing hl rfl
    simp only [advanceDrop]
    cases w.read? ok b.reverse with
    | none => exact inv_unlock hi hpass
    | some e =>
      dsimp only
      split_ifs
      · refine inv_locked hi (hpid _) ?_ fun port hp => absurd hp (hpass port)
        intro s hs
        cases hs
        exact ⟨hrev, hlt, hnone, hfile, trivial⟩
      · exact inv_unlock hi hpass
  | mark port =>
    simp only [advanceDrop]
    split_ifs
    · exact inv_mark hi hl _
    · exact inv_unlock hi (not_passing hl rfl)

theorem step_inv (hi : w.Inv) (a : Act) (ho : w.steady a) : (w.step a).Inv := by
  cases a with
  | spawn pid => exact inv_spawn hi ho
  | crash pid => exact inv_crash hi ho
  | enterBind pid proto guest host shared =>
    simp only [step]
    by_cases h : (w.alive pid && w.locked.isNone) = true
    · rw [if_pos h]
      obtain ⟨halive, hnone⟩ := (Bool.and_eq_true _ _).mp h
      have hl : w.locked = none := Option.isNone_iff_eq_none.mp hnone
      refine inv_locked hi ?_ ?_ fun port hp => absurd hp (not_passing_none hl port)
      · intro s hs
        cases hs
        exact halive
      · intro s hs
        cases hs
        exact ⟨fun id b' hb' => ho hl ⟨id, b'⟩ ((Map.mem_entries ..).mpr hb'), trivial⟩
    · rw [if_neg h]
      exact hi
  | enterDrop id locks =>
    obtain ⟨hlocks, ho⟩ := ho
    cases hlocks
    simp only [step]
    cases hb : w.bindings.lookup id with
    | none => exact hi
    | some b =>
      by_cases h : w.locked.isNone = true
      · have hl : w.locked = none := Option.isNone_iff_eq_none.mp h
        simp only [Bool.not_true, Bool.false_eq_true, if_false]
        rw [if_pos h]
        exact inv_enterDrop hi hl hb (ho hl b hb)
      · simp only [Bool.not_true, Bool.false_eq_true, if_false]
        rw [if_neg h]
        exact hi
  | advance ok until_ =>
    simp only [step]
    cases hl : w.locked with
    | none => exact hi
    | some s =>
      simp only [steady, hl] at ho
      cases s with
      | bind b stage =>
        refine inv_advanceBind hi hl ?_ ?_
        · rintro rfl
          exact ho
        · rintro rfl
          exact ho
      | drop id b stage =>
        refine inv_advanceDrop hi hl ?_ ?_ until_
        · rintro rfl
          exact ho
        · rintro rfl
          exact ho

theorem inv_init : ({} : World).Inv where
  forwards := fun proto guest c id hc => by cases hc
  holders := fun id b hb => by cases hb
  joiners := fun id b hb => by cases hb
  reverses := fun id b hb => by cases hb
  living := fun id b hb => by cases hb
  livingLocked := fun s hs => by cases hs
  fresh := fun id b hb => by cases hb
  locked := fun s hs => by cases hs

/-! ## What follows -/

theorem apart_of (hi : w.Inv) {id id' : ℕ} {b b' : Binding} (h : w.bindings.lookup id = some b) (h' : w.bindings.lookup id' = some b')
    (hne : id ≠ id') (hp : b.port = b'.port) : b.shared ∧ b'.shared := by
  -- the holder of a port that is joined shares it
  have hholder : ∀ {id id' : ℕ} {b b' : Binding}, w.bindings.lookup id = some b → b.holds = false → w.bindings.lookup id' = some b' →
      b.port = b'.port → b.shared ∧ b'.shared := by
    intro id id' b b' h hh h' hp
    obtain ⟨hs, id'', b'', hb'', hh'', hp'', hs''⟩ := hi.joiners id b h hh
    refine ⟨hs, ?_⟩
    cases hh' : b'.holds with
    | false => exact (hi.joiners id' b' h' hh').1
    | true =>
      have hid := holder_unique hi h' hh' hb'' hh'' (hp.symm.trans hp''.symm)
      subst hid
      rw [h'] at hb''
      cases hb''
      exact hs''
  cases hh : b.holds with
  | false => exact hholder h hh h' hp
  | true =>
    cases hh' : b'.holds with
    | false => exact (hholder h' hh' h hp.symm).symm
    | true => exact absurd (holder_unique hi h hh h' hh' hp) hne

theorem lookup_forward (w : World) (b : Binding) (h : w.entry b.forward = some b.forwardEntry) (ha : w.alive b.pid) :
    w.lookup b.proto b.guest = some b.host := by
  unfold lookup
  rw [show File.forward b.proto b.guest = b.forward from rfl, h]
  exact if_pos ha

theorem found_of (hi : w.Inv) {id : ℕ} {b : Binding} (h : w.bindings.lookup id = some b) :
    ∃ id' b', w.bindings.lookup id' = some b' ∧ b'.port = b.port ∧ w.lookup b.proto b.guest = some b'.host := by
  obtain ⟨id', b', h', hh, hp, -⟩ := holder_of hi h
  refine ⟨id', b', h', hp, ?_⟩
  have hl := lookup_forward w b' (entry_of hi h' hh) (hi.living id' b' h')
  rwa [show b'.proto = b.proto from congrArg Prod.fst hp, show b'.guest = b.guest from congrArg Prod.snd hp] at hl

/-- a step that adds a binding is a bind's last -/
theorem refused_of (hi : w.Inv) {a : Act} {id : ℕ} {b : Binding} (hnone : w.bindings.lookup id = none)
    (hsome : (w.step a).bindings.lookup id = some b) (hs : b.shared = false) : w.Unbound b.port := by
  have hsame : (w.step a).bindings = w.bindings → w.Unbound b.port := by
    intro he
    rw [he, hnone] at hsome
    cases hsome
  have herase : ∀ k, (w.bindings.erase k).lookup id ≠ some b := by
    intro k hk
    rw [Map.lookup_erase_eq] at hk
    by_cases he : id = k
    · rw [if_pos he] at hk
      cases hk
    · rw [if_neg he, hnone] at hk
      cases hk
  cases a with
  | spawn pid => exact hsame rfl
  | crash pid =>
    rw [((lookup_crash w pid id b).mp hsome).1] at hnone
    cases hnone
  | enterBind pid proto guest host shared =>
    refine hsame ?_
    simp only [step]
    by_cases h : (w.alive pid && w.locked.isNone) = true
    · rw [if_pos h]
    · rw [if_neg h]
  | enterDrop k locks =>
    simp only [step] at hsome
    split at hsome
    · rw [hnone] at hsome
      cases hsome
    · split at hsome
      · exact absurd hsome (herase k)
      · split at hsome
        · exact absurd hsome (herase k)
        · rw [hnone] at hsome
          cases hsome
  | advance ok until_ =>
    simp only [step] at hsome hsame
    cases hl : w.locked with
    | none => exact hsame (by rw [hl])
    | some s =>
      rw [hl] at hsome hsame
      have hsec := hi.locked s hl
      cases s with
      | drop k b' stage =>
        refine hsame ?_
        cases stage <;> simp only [advanceDrop] <;> repeat' (first | rfl | split)
      | bind b' stage =>
        cases stage with
        | read => exact hsame (by simp only [advanceBind]; repeat' (first | rfl | split))
        | writeForward => exact hsame (by simp only [advanceBind]; repeat' (first | rfl | split))
        | undo => exact hsame (by simp only [advanceBind]; repeat' (first | rfl | split))
        | join =>
          simp only [advanceBind] at hsome
          split_ifs at hsome with hok
          · have hins : (w.bindings.insert w.next { b' with holds := false }).lookup id = some b := hsome
            rw [Map.lookup_insert_eq, hnone] at hins
            split_ifs at hins
            cases hins
            have hsh : b'.shared = true := hsec.2.1
            rw [show b'.shared = false from hs] at hsh
            cases hsh
          · exact hsame (by simp only [advanceBind, hok]; rfl)
        | writeReverse =>
          simp only [advanceBind] at hsome
          split_ifs at hsome with hok
          · have hins : (w.bindings.insert w.next { b' with holds := true }).lookup id = some b := hsome
            rw [Map.lookup_insert_eq, hnone] at hins
            split_ifs at hins
            cases hins
            exact hsec.2.1
          · exact hsame (by simp only [advanceBind, hok]; rfl)

/-- a drop changes its own entries alone -/
theorem own_of (hi : w.Inv) {id : ℕ} {b : Binding} {stage : DropStage} (hl : w.locked = some (.drop id b stage)) (ok : Bool)
    (until_ : UInt64) {f : File} {c : Bytes} {maker : ℕ} (hf : w.files.lookup f = some (c, maker)) (hne : maker ≠ id) :
    (w.step (.advance ok until_)).files.lookup f = some (c, maker) := by
  obtain ⟨-, -, -, ⟨c', hc'⟩, hok⟩ : _ ∧ _ ∧ _ ∧ (∃ c, w.files.lookup b.reverse = some (c, id)) ∧ w.DropOk id b stage := hi.locked _ hl
  simp only [step, hl]
  cases stage with
  | readForward =>
    simp only [advanceDrop]
    split <;> exact hf
  | removeForward =>
    simp only [advanceDrop]
    split_ifs
    · change (w.files.erase b.forward).lookup f = _
      rw [Map.lookup_erase_eq, if_neg, hf]
      rintro rfl
      exact hne (congrArg Prod.snd (Option.some.inj (hf.symm.trans hok.2)))
    · exact hf
  | readReverse =>
    simp only [advanceDrop]
    split
    · split_ifs <;> exact hf
    · exact hf
  | mark port =>
    simp only [advanceDrop]
    split_ifs
    · change (w.files.insert b.reverse _).lookup f = _
      rw [Map.lookup_insert_eq, if_neg, hf]
      rintro rfl
      exact hne (congrArg Prod.snd (Option.some.inj (hf.symm.trans hc')))
    · exact hf

/-- a port no one has is bound -/
theorem free_of (hi : w.Inv) {b : Binding} (hb : b.holds) (hl : w.locked = none) (hfree : w.Unbound b.port) :
    (run step { w with locked := some (.bind b .read) } [.advance true 0, .advance true 0, .advance true 0]).bindings.lookup w.next =
      some b := by
  have hread : step { w with locked := some (.bind b .read) } (.advance true 0) = { w with locked := some (.bind b .writeForward) } := by
    simp only [step, advanceBind, read_ok]
    change (match w.entry b.forward with | some e => _ | none => _) = _
    cases he : w.entry b.forward with
    | none => rfl
    | some e =>
      have hdead : w.alive e.owner = false := by
        refine Bool.eq_false_iff.mpr fun ha => ?_
        obtain ⟨id, b', hb', -, hp, -⟩ := bound_of hi (not_passing_none hl _) he ha
        exact hfree id b' hb' hp
      dsimp only
      rw [hdead]
      rfl
  simp only [run, List.foldl_cons, List.foldl_nil, hread]
  change ((w.bindings.insert w.next { b with holds := true }).lookup w.next) = some b
  rw [AList.lookup_insert, ← hb]

end World

/-- **Ports are kept.** In every run in which no one is left sharing the port of a holder that is gone, a host port is bound once, a dead
owner's pid is not used again, and what binds and drops read, lock and remove can be. -/
theorem ports_kept {w : World} (h : Reach World.step World.steady {} w) : Kept w := by
  have hi : w.Inv := h.invariant World.Inv World.inv_init fun _ a _ ho hs => World.step_inv hs a ho
  refine ⟨?_, ?_, ?_, ?_, ?_⟩
  · exact fun id b id' b' h h' hne hp => World.apart_of hi h h' hne hp
  · exact fun a id b hnone hsome hs => World.refused_of hi hnone hsome hs
  · exact fun id b h => World.found_of hi h
  · exact fun id b stage ok until_ hl f c maker hf hne => World.own_of hi hl ok until_ hf hne
  · intro pid proto guest host shared hl ha hfree
    have henter : w.step (.enterBind pid proto guest host shared) =
        { w with locked := some (.bind ⟨pid, proto, if guest = 0 then host else guest, host, shared, true⟩ .read) } := by
      simp only [World.step]
      rw [if_pos (by rw [ha, hl]; rfl)]
    change (run World.step (w.step (.enterBind pid proto guest host shared)) _).bindings.lookup w.next = _
    rw [henter]
    exact World.free_of hi rfl hl hfree

/-! ## Runs -/

namespace World

/-- a forward entry of a process of this pid -/
def owns (pid : UInt32) : File × Bytes → Bool
  | (.forward .., c) => (readEntry c).any (·.owner = pid)
  | (.reverse .., _) => false

/-- a bind that is joining -/
def joining : Option Section → Option Binding
  | some (.bind b .join) => some b
  | _ => none

theorem unowned_iff (w : World) (pid : UInt32) : (∀ x ∈ w.files.entries, owns pid (x.1, x.2.1) = false) ↔ w.unowned pid := by
  refine forall₂_congr fun x _ => ?_
  obtain ⟨f, c, maker⟩ := x
  cases f with
  | reverse proto host =>
    refine ⟨fun _ proto guest h => ?_, fun _ => rfl⟩
    cases h
  | forward proto guest =>
    change (readEntry c).any (·.owner = pid) = false ↔ ∀ _ _, _ → ∀ e ∈ readEntry c, e.owner ≠ pid
    constructor
    · intro h _ _ _ e he
      rw [show readEntry c = some e from he] at h
      exact of_decide_eq_false h
    · intro h
      cases hr : readEntry c with
      | none => rfl
      | some e => exact decide_eq_false (h proto guest rfl e hr)

theorem joining_iff {l : Option Section} {p : Binding → Prop} :
    (∀ b ∈ joining l, p b) ↔ ∀ s ∈ l, ∀ b, s = .bind b .join → p b := by
  constructor
  · rintro h s hs b rfl
    rw [show l = some (.bind b .join) from hs] at h
    exact h b rfl
  · intro h b hb
    unfold joining at hb
    split at hb
    · cases hb
      exact h _ rfl b rfl
    · cases hb

/-- a read or removal that is not to fail -/
def needed : Option Section → Bool
  | some (.bind _ .read) | some (.bind _ .undo) | some (.drop _ _ .readForward) | some (.drop _ _ .removeForward) => true
  | _ => false

theorem needed_iff (w : World) (ok : Bool) (until_ : UInt64) : (needed w.locked → ok = true) ↔ w.steady (.advance ok until_) := by
  simp only [needed, steady]
  split <;> simp

/-- a port that none of the open bindings has -/
theorem unbound_entries (w : World) (port : Proto × UInt16) (h : ∀ x ∈ w.bindings.entries, x.2.port ≠ port) : w.Unbound port :=
  fun id b hb => h ⟨id, b⟩ ((Map.mem_entries _ _ _).mpr hb)

end World

instance decSteady (w : World) : (a : Act) → Decidable (w.steady a)
  | .spawn pid => decidable_of_iff _ (w.unowned_iff pid)
  | .crash pid =>
    decidable_of_iff
      (∀ x ∈ w.bindings.entries, x.2.pid = pid → x.2.holds →
        (∀ y ∈ w.bindings.entries, y.2.port = x.2.port → y.2.pid = pid) ∧
          ∀ b ∈ World.joining w.locked, b.port = x.2.port → b.pid = pid)
      (forall₄_congr fun _ _ _ _ => and_congr_right' World.joining_iff)
  | .enterBind _ proto _ host _ =>
    inferInstanceAs (Decidable (w.locked = none → ∀ y ∈ w.bindings.entries, y.2.reverse ≠ .reverse proto host))
  | .enterDrop id locks =>
    inferInstanceAs (Decidable (locks ∧ (w.locked = none → ∀ b ∈ w.bindings.lookup id, b.holds → ∀ y ∈ w.bindings.entries,
      y.1 ≠ id → y.2.port ≠ b.port)))
  | .advance ok until_ => decidable_of_iff _ (w.needed_iff ok until_)

/-- a bind's file operations, or a drop's -/
def operations (n : ℕ) : List Act := List.replicate n (.advance true 0)

/-- two processes share a port, the one that joined goes first, and the other crashes; its port is bound again -/
def inTurn : List Act :=
  [.spawn 1, .spawn 2, .enterBind 1 .tcp 80 5000 true] ++ operations 3 ++ [.enterBind 2 .tcp 80 5001 true] ++ operations 2 ++
    [.enterDrop 1 true] ++ operations 2 ++ [.crash 1, .enterBind 2 .tcp 80 5002 false] ++ operations 3

theorem ports_kept_turn : Kept (run World.step {} inTurn) := ports_kept (.run .start inTurn (by decide))

/-- the holder of a shared port is closed, and the one that joined stays open -/
def holderGone : List Act :=
  [.spawn 1, .spawn 2, .enterBind 1 .tcp 80 5000 true] ++ operations 3 ++ [.enterBind 2 .tcp 80 5001 true] ++ operations 2 ++
    [.enterDrop 0 true] ++ operations 4

/-- one host port made reachable under two guest ports, and the first of them closed: up to what is done to the reverse entry -/
def hostTwice : List Act :=
  [.spawn 1, .enterBind 1 .tcp 80 5000 false] ++ operations 3 ++ [.enterBind 1 .tcp 81 5000 false] ++ operations 3 ++
    [.enterDrop 0 true] ++ operations 3

/-- a crash, and a process that comes to have the pid -/
def pidAgain : List Act := [.spawn 1, .spawn 2, .enterBind 1 .tcp 80 5000 false] ++ operations 3 ++ [.crash 1, .spawn 1]

/-- **What goes wrong.** A port whose lookup finds nothing while it is shared, a reverse entry marked by another's drop, and a port that
no binding has and that cannot be bound. -/
theorem ports_lost :
    ¬Kept (run World.step {} holderGone) ∧ ¬Kept (run World.step {} hostTwice) ∧ ¬Kept (run World.step {} pidAgain) := by
  refine ⟨fun h => ?_, fun h => ?_, fun h => ?_⟩
  · obtain ⟨_, _, _, _, hl⟩ := h.found 1 ⟨2, .tcp, 80, 5001, true, false⟩ (by decide)
    rw [show (run World.step {} holderGone).lookup .tcp 80 = none by decide] at hl
    cases hl
  · have hf := h.own 0 ⟨1, .tcp, 80, 5000, false, true⟩ (.mark 81) true 9 (by decide) (.reverse .tcp 5000)
      (Entry.text ⟨81, 1, false, none⟩) 1 (by decide) (by decide)
    exact absurd hf (by decide)
  · have hf := h.free 2 .tcp 80 5001 false (by decide) (by decide)
      (World.unbound_entries _ _ (by decide))
    exact absurd hf (by decide)

end Omnidroid.Loopback
