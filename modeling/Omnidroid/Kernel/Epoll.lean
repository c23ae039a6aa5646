/-
`epoll` (`omni-linux/src/poll.rs`): a set of descriptors, edge-triggered and one-shot entries, and the scans of
`epoll_pwait`. A scan goes through the set under the set's lock, but what it reads of an entry (the readiness, then the
changes counted for its key, then those counted for all) it reads one after another, while changes are made and told:
each read is one step here. The counts are kept as they are; the atomics hold them modulo 2 ^ 32.
- `Kept`: what an entry's edge state says of the looks taken at it. `kept_judge`: a judgement keeps it.
- `Roused`: a disarmed entry has been told nothing since its report, where no count went once around between two looks.
- `delivery`: in every reachable state, what the judgement at hand reports and does not report.
- `delivery_breaks`: what it does beyond that.
-/
import Omnidroid.Errno
import Omnidroid.Lib.FinMap
import Omnidroid.Lib.Run

namespace Omnidroid.Epoll

def ERR : UInt32 := 0x008
def HUP : UInt32 := 0x010
def ONESHOT : UInt32 := 0x40000000
def EDGE : UInt32 := 0x80000000

/-! ## Changes counted -/

/-- the place of a key in the table of changes -/
def edgeSlot (key : ℕ) : ℕ := (key >>> 4 ^^^ key >>> 18 ^^^ key >>> 32) &&& (2 ^ 14 - 1)

/-- what an atomic word holds of a count -/
def word (n : ℕ) : ℕ := n % 2 ^ 32

/-- `edges_of`: both counts as one number to compare -/
def edgesOf (own common : ℕ) : ℕ := word own <<< 32 ||| word common

theorem edgesOf_own {o o' c c' : ℕ} (h : edgesOf o c = edgesOf o' c') : word o = word o' := by
  have hc : word c < 2 ^ 32 := Nat.mod_lt _ (by norm_num)
  have hc' : word c' < 2 ^ 32 := Nat.mod_lt _ (by norm_num)
  rw [edgesOf, edgesOf, ← Nat.shiftLeft_add_eq_or_of_lt hc, ← Nat.shiftLeft_add_eq_or_of_lt hc', Nat.shiftLeft_eq,
    Nat.shiftLeft_eq] at h
  omega

/-- an `EPOLLET` entry's state -/
structure Edge where
  armed : Bool := true
  seen : ℕ := 0
  last : UInt32 := 0
deriving DecidableEq, Repr

/-- whether to report `ready` now -/
def Edge.report (e : Edge) (edges : ℕ) (ready wanted : UInt32) : Edge × Bool :=
  let armed := e.armed || edges ≠ e.seen || ready &&& ~~~e.last ≠ 0
  ({ armed := armed, seen := edges, last := ready }, armed && ready &&& wanted ≠ 0)

/-! ## Entries -/

/-- what a look at an entry reads: the readiness, and the changes counted in its key's slot and for all; history: those of
them that were told for the key itself -/
structure Look where
  ready : UInt32
  told : ℕ
  own : ℕ
  common : ℕ
deriving DecidableEq, Repr

structure Entry where
  file : ℕ
  events : UInt32
  data : UInt64
  edge : Edge := {}
  /-- history: the last look, and the look it was last reported at -/
  look : Option Look := none
  report : Option Look := none
  /-- history: each look since the last report has read the bits reported -/
  same : Bool := true
  /-- history: reported as one-shot -/
  spent : Bool := false
deriving DecidableEq, Repr

def Entry.wanted (e : Entry) : UInt32 := e.events ||| ERR ||| HUP

/-- edge-triggered, where the lever `epoll_et` is on -/
def Entry.Edged (et : Bool) (e : Entry) : Prop := e.events &&& EDGE ≠ 0 ∧ et = true

instance (et : Bool) (e : Entry) : Decidable (e.Edged et) := inferInstanceAs (Decidable (_ ∧ _))

/-- the edge state a look leaves, before any report, and whether it lets the entry be reported -/
def Entry.looked (et : Bool) (e : Entry) (l : Look) : Edge × Bool :=
  if e.Edged et then e.edge.report (edgesOf l.own l.common) l.ready e.wanted else (e.edge, true)

/-- the entry, reported: disarmed, and without its interest if it is one-shot -/
def Entry.reported (e : Entry) (edge : Edge) (l : Look) : Entry :=
  { e with
    edge := if e.events &&& EDGE ≠ 0 then { edge with armed := false } else edge
    events := if e.events &&& ONESHOT ≠ 0 then 0 else e.events
    look := some l, report := some l, same := true, spent := e.spent || e.events &&& ONESHOT ≠ 0 }

/-- the entry, not reported -/
def Entry.passedBy (e : Entry) (edge : Edge) (l : Look) : Entry :=
  { e with edge := edge, look := some l, same := e.same && e.report.all (·.ready = l.ready) }

/-- what a scan does with an entry it looked at, room for an event left or not: the bits reported, if any -/
def Entry.judge (et : Bool) (e : Entry) (l : Look) (room : Bool) : Entry × Option UInt32 :=
  let got := l.ready &&& e.wanted
  let (edge, passes) := e.looked et l
  if passes ∧ got ≠ 0 ∧ room then (e.reported edge l, some got) else (e.passedBy edge l, none)

/-! ## Runs -/

/-- the key of each file, and the lever `epoll_et` -/
structure Config where
  key : ℕ → Option ℕ
  et : Bool

/-- where a scan is with the entry at hand -/
inductive Phase where
  | next
  | ready (ready : UInt32)
  | own (ready : UInt32) (told own : ℕ)
deriving DecidableEq, Repr

structure Scan where
  max : ℕ
  /-- the descriptors to come, the one at hand first -/
  todo : List ℤ
  at_ : Phase := .next
  found : List (UInt32 × UInt64) := []
  /-- history: those gone by -/
  passed : List ℤ := []
deriving DecidableEq, Repr

structure World where
  /-- the changes counted in each slot, and for all; history: those told for each key -/
  slots : ℕ → ℕ := fun _ => 0
  common : ℕ := 0
  told : ℕ → ℕ := fun _ => 0
  /-- each file's readiness, which files there still are, and the process's descriptors -/
  ready : ℕ → UInt32 := fun _ => 0
  live : ℕ → Bool := fun _ => true
  fds : ℤ → Option ℕ := fun _ => none
  interest : Map ℤ Entry := ∅
  scan : Option Scan := none
  /-- history: what the calls that found something answered -/
  answers : List (Except Errno (List (UInt32 × UInt64))) := []

def World.own (w : World) (cfg : Config) (f : ℕ) : ℕ := (cfg.key f).elim 0 fun k => w.slots (edgeSlot k)

def World.toldOf (w : World) (cfg : Config) (f : ℕ) : ℕ := (cfg.key f).elim 0 w.told

def ADD : ℕ := 1
def DEL : ℕ := 2
def MOD : ℕ := 3

/-- `epoll_ctl` under the set's lock: `file` is what the descriptor named, `self` whether it is the set's own, `event` what
was read of the caller's memory -/
def World.ctl (w : World) (op : ℕ) (fd : ℤ) (file : Except Errno ℕ) (self : Bool)
    (event : Except Errno (UInt32 × UInt64)) : Except Errno (Map ℤ Entry) :=
  match file with
  | .error e => .error e
  | .ok f =>
    if self then .error EINVAL
    else if op = DEL then
      if (w.interest.lookup fd).isSome then .ok (w.interest.erase fd) else .error ENOENT
    else if op = ADD ∨ op = MOD then
      match event with
      | .error e => .error e
      | .ok (events, data) =>
        let present := (w.interest.lookup fd).any fun e => w.live e.file && e.file = f
        if op = ADD ∧ present then .error EEXIST
        else if op = MOD ∧ !present then .error ENOENT
        else .ok (w.interest.insert fd { file := f, events := events, data := data })
    else .error EINVAL

inductive Act where
  | change (f : ℕ) (ready : UInt32)
  | notifyKey (key : ℕ)
  | notify
  | install (fd : ℤ) (file : Option ℕ)
  | ended (f : ℕ)
  | ctl (op : ℕ) (fd : ℤ) (file : Except Errno ℕ) (self : Bool) (event : Except Errno (UInt32 × UInt64))
  /-- a scan takes the set's lock -/
  | begin (max : ℤ)
  /-- it reads the readiness of the entry at hand, or goes by it -/
  | look
  | load
  | judge
  /-- it gives the lock back, and the events it found to the caller's memory -/
  | finish (writes : Bool)

/-- the scan, the entry it is at and the descriptors after it -/
def World.atHand (w : World) : Option (Scan × ℤ × List ℤ × Entry) :=
  match w.scan with
  | none => none
  | some s =>
    match s.todo with
    | [] => none
    | fd :: rest => (w.interest.lookup fd).map fun e => (s, fd, rest, e)

/-- the judgement a scan has come to: the entry, what was read of it, whether there is room -/
def World.judging (w : World) : Option (Scan × ℤ × List ℤ × Entry × Look) :=
  match w.atHand with
  | none => none
  | some (s, fd, rest, e) =>
    match s.at_ with
    | .own r t o => some (s, fd, rest, e, { ready := r, told := t, own := o, common := w.common })
    | _ => none

def Scan.room (s : Scan) : Bool := s.found.length < s.max

def Scan.pass (s : Scan) (fd : ℤ) (rest : List ℤ) : Scan :=
  { s with todo := rest, at_ := .next, passed := s.passed ++ [fd] }

def step (cfg : Config) (w : World) : Act → World
  | .change f r => { w with ready := Function.update w.ready f r }
  | .notifyKey k =>
    { w with
      slots := Function.update w.slots (edgeSlot k) (w.slots (edgeSlot k) + 1)
      told := Function.update w.told k (w.told k + 1) }
  | .notify => { w with common := w.common + 1 }
  | .install fd file => { w with fds := Function.update w.fds fd file }
  | .ended f => { w with live := Function.update w.live f false }
  | .ctl op fd file self event =>
    if w.scan.isSome then w
    else match w.ctl op fd file self event with
      | .ok interest => { w with interest := interest }
      | .error _ => w
  | .begin max =>
    if w.scan.isSome then w
    else if max ≤ 0 ∨ 2 ^ 16 < max then { w with answers := w.answers ++ [.error EINVAL] }
    else
      let interest := w.interest.retain fun _ e => if w.live e.file then some e else none
      { w with
        interest := interest
        scan := some { max := max.toNat, todo := interest.keys.insertionSort (· ≤ ·) } }
  | .look =>
    match w.atHand with
    | none => w
    | some (s, fd, rest, e) =>
      if s.at_ ≠ .next then w
      else if w.live e.file ∧ w.fds fd = some e.file then { w with scan := some { s with at_ := .ready (w.ready e.file) } }
      else { w with scan := some (s.pass fd rest) }
  | .load =>
    match w.atHand with
    | none => w
    | some (s, _, _, e) =>
      match s.at_ with
      | .ready r => { w with scan := some { s with at_ := .own r (w.toldOf cfg e.file) (w.own cfg e.file) } }
      | _ => w
  | .judge =>
    match w.judging with
    | none => w
    | some (s, fd, rest, e, l) =>
      let (e', got) := e.judge cfg.et l s.room
      { w with
        interest := w.interest.insert fd e'
        scan := some { s.pass fd rest with found := s.found ++ got.toList.map (·, e.data) } }
  | .finish writes =>
    match w.scan with
    | none => w
    | some s =>
      if s.todo ≠ [] then w
      else if s.found = [] then { w with scan := none }
      else { w with scan := none, answers := w.answers ++ [if writes then .ok s.found else .error EFAULT] }

/-! ## What an entry's edge state says -/

/-- the counts one look read, and those another did later: told for the key at most as often as for its slot -/
structure Look.Before (l l' : Look) : Prop where
  own : l.own ≤ l'.own
  common : l.common ≤ l'.common
  told : l.told ≤ l'.told
  slot : l'.told + l.own ≤ l'.own + l.told

theorem Look.Before.refl (l : Look) : l.Before l := ⟨le_rfl, le_rfl, le_rfl, by omega⟩

theorem Look.Before.trans {a b c : Look} (h : a.Before b) (h' : b.Before c) : a.Before c := by
  obtain ⟨h1, h2, h3, h4⟩ := h
  obtain ⟨h1', h2', h3', h4'⟩ := h'
  exact ⟨by omega, by omega, by omega, by omega⟩

/-- the entry's edge state is what its last look left, and a look that read what was there at the report left it disarmed;
the counts are `now` -/
structure Kept (et : Bool) (e : Entry) (now : Look) : Prop where
  fresh : e.look = none → e.edge.armed = true ∧ e.report = none
  before : ∀ p, e.look = some p → p.Before now
  back : ∀ r, e.report = some r → ∃ p, e.look = some p ∧ r.own ≤ p.own ∧ r.common ≤ p.common
  spent : e.spent = true → e.events = 0
  seen : e.Edged et → ∀ p, e.look = some p → e.edge.seen = edgesOf p.own p.common ∧ e.edge.last = p.ready
  quiet : e.Edged et → ∀ r p, e.report = some r → e.look = some p → e.same = true → p.own = r.own →
    p.common = r.common → e.edge.armed = false ∧ p.ready = r.ready

theorem Kept.mono {et : Bool} {e : Entry} {now now' : Look} (h : Kept et e now) (hn : now.Before now') : Kept et e now' :=
  { h with before := fun p hp => (h.before p hp).trans hn }

theorem kept_new (et : Bool) (f : ℕ) (events : UInt32) (data : UInt64) (now : Look) :
    Kept et { file := f, events := events, data := data } now where
  fresh _ := ⟨rfl, rfl⟩
  before _ hp := by cases hp
  back _ hr := by cases hr
  spent hs := by cases hs
  seen _ _ hp := by cases hp
  quiet _ _ _ hr := by cases hr

section Judge

variable {et : Bool} {e : Entry} {now l : Look} (h : Kept et e now) (hl : ∀ p, e.look = some p → p.Before l)

include h hl

/-- nothing counted and nothing else read since the report: not armed -/
theorem looked_quiet (he : e.Edged et) {r : Look} (hr : e.report = some r) (hs : e.same = true)
    (hready : l.ready = r.ready) (ho : l.own = r.own) (hc : l.common = r.common) : (e.looked et l).1.armed = false := by
  obtain ⟨p, hp, h1, h2⟩ := h.back r hr
  have hb := hl p hp
  have hpo : p.own = r.own := by have := hb.own; omega
  have hpc : p.common = r.common := by have := hb.common; omega
  obtain ⟨ha, hpr⟩ := h.quiet he r p hr hp hs hpo hpc
  obtain ⟨hseen, hlast⟩ := h.seen he p hp
  simp only [Entry.looked, if_pos he, Edge.report, ha, hseen, hlast, hpo, hpc, ho, hc, hready, hpr, Bool.false_or]
  simp

/-- disarmed, the counts did not move, but once around -/
theorem looked_disarmed (he : e.Edged et)
    (hn : e.edge.armed = false → ∃ r p, e.report = some r ∧ e.look = some p ∧ r.told = p.told)
    (hw : ∀ p, e.look = some p → l.own < p.own + 2 ^ 32) (ha : (e.looked et l).1.armed = false) :
    ∃ r, e.report = some r ∧ r.told = l.told := by
  simp only [Entry.looked, if_pos he, Edge.report, Bool.or_eq_false_iff, decide_eq_false_iff_not, not_not] at ha
  obtain ⟨⟨ha, hedges⟩, -⟩ := ha
  obtain ⟨r, p, hr, hp, ht⟩ := hn ha
  have hword := edgesOf_own (hedges.trans (h.seen he p hp).1)
  have hb := hl p hp
  have hlt := hw p hp
  have h1 := hb.own
  have h3 := hb.told
  have h4 := hb.slot
  have heq : l.own = p.own := by
    simp only [word] at hword
    omega
  exact ⟨r, hr, by omega⟩

omit h hl in
theorem looked_seen (he : e.Edged et) :
    (e.looked et l).1.seen = edgesOf l.own l.common ∧ (e.looked et l).1.last = l.ready := by
  rw [Entry.looked, if_pos he]
  exact ⟨rfl, rfl⟩

omit h hl in
theorem looked_passes (he : e.Edged et) :
    (e.looked et l).2 = ((e.looked et l).1.armed && decide (l.ready &&& e.wanted ≠ 0)) := by
  rw [Entry.looked, if_pos he]
  rfl

omit hl in
theorem kept_reported : Kept et (e.reported (e.looked et l).1 l) l where
  fresh hn := by cases hn
  before p hp := by cases hp; exact .refl l
  back r hr := by cases hr; exact ⟨l, rfl, le_rfl, le_rfl⟩
  spent hs := by
    by_cases ho : e.events &&& ONESHOT ≠ 0
    · exact if_pos ho
    · simp only [Entry.reported, ho, decide_false, Bool.or_false] at hs ⊢
      exact h.spent hs
  seen he p hp := by
    cases hp
    by_cases ho : e.events &&& ONESHOT ≠ 0
    · -- one-shot: no longer edge-triggered
      simp [Entry.Edged, Entry.reported, ho] at he
    · simp only [Entry.Edged, Entry.reported, if_neg ho] at he
      simp only [Entry.reported, if_pos he.1]
      exact looked_seen he
  quiet he r p hr hp _ _ _ := by
    cases hr; cases hp
    by_cases ho : e.events &&& ONESHOT ≠ 0
    · simp [Entry.Edged, Entry.reported, ho] at he
    · simp only [Entry.Edged, Entry.reported, if_neg ho] at he
      simp only [Entry.reported, if_pos he.1, and_self]

theorem kept_passedBy : Kept et (e.passedBy (e.looked et l).1 l) l where
  fresh hn := by cases hn
  before p hp := by cases hp; exact .refl l
  back r hr := by
    obtain ⟨p, hp, h1, h2⟩ := h.back r hr
    have hb := hl p hp
    exact ⟨l, rfl, h1.trans hb.own, h2.trans hb.common⟩
  spent := h.spent
  seen he p hp := by cases hp; exact looked_seen he
  quiet he r p hr hp hs ho hc := by
    cases hp
    have hr' : e.report = some r := hr
    simp only [Entry.passedBy, hr', Option.all_some, Bool.and_eq_true, decide_eq_true_eq] at hs
    exact ⟨looked_quiet h hl he hr' hs.1 hs.2.symm ho hc, hs.2.symm⟩

omit h hl in
theorem judge_eq (et : Bool) (e : Entry) (l : Look) (room : Bool) : e.judge et l room =
    if (e.looked et l).2 = true ∧ l.ready &&& e.wanted ≠ 0 ∧ room = true
    then (e.reported (e.looked et l).1 l, some (l.ready &&& e.wanted)) else (e.passedBy (e.looked et l).1 l, none) := rfl

/-- a judged entry, the look its last one -/
theorem kept_judge (room : Bool) : Kept et (e.judge et l room).1 l := by
  rw [judge_eq]
  split_ifs
  · exact kept_reported h
  · exact kept_passedBy h hl

/-! ## The judgement -/

/-- an edge-triggered entry, ready in a wanted bit and with its key told of since its last report, is reported -/
def Heard (et : Bool) (e : Entry) (l : Look) (room : Bool) : Prop :=
  e.events &&& EDGE ≠ 0 → l.ready &&& e.wanted ≠ 0 → (∀ r, e.report = some r → r.told < l.told) → room = true →
    (e.judge et l room).2 = some (l.ready &&& e.wanted)

/-- one with nothing counted for it, and no other bits read, since its last report is not -/
def Quiet (et : Bool) (e : Entry) (l : Look) (room : Bool) : Prop :=
  e.Edged et → ∀ r, e.report = some r → e.same = true → l.ready = r.ready → l.own = r.own → l.common = r.common →
    (e.judge et l room).2 = none

/-- nor is one reported as one-shot, with neither `ERR` nor `HUP` -/
def Spent (et : Bool) (e : Entry) (l : Look) (room : Bool) : Prop :=
  e.spent = true → l.ready &&& (ERR ||| HUP) = 0 → (e.judge et l room).2 = none

/-- what it takes for an entry to be heard: disarmed, it was told nothing since its report up to its last look -/
def Roused (et : Bool) (e : Entry) : Prop :=
  e.Edged et → e.edge.armed = false → ∃ r p, e.report = some r ∧ e.look = some p ∧ r.told = p.told

theorem quiet_judge (room : Bool) : Quiet et e l room := by
  intro he r hr hs hready ho hc
  have ha := looked_quiet h hl he hr hs hready ho hc
  have hp : (e.looked et l).2 = false := by rw [looked_passes he, ha, Bool.false_and]
  rw [judge_eq, if_neg (by simp [hp])]

omit hl in
theorem spent_judge (room : Bool) : Spent et e l room := by
  intro hs hready
  have h0 := h.spent hs
  rw [judge_eq, if_neg]
  rintro ⟨-, hg, -⟩
  rw [Entry.wanted, h0, UInt32.zero_or] at hg
  exact hg hready

theorem heard_judge (hn : Roused et e) (hw : ∀ p, e.look = some p → l.own < p.own + 2 ^ 32) (room : Bool) :
    Heard et e l room := by
  intro hedge hgot ht hroom
  have hp : (e.looked et l).2 = true := by
    by_cases he : e.Edged et
    · by_contra hc
      have ha : (e.looked et l).1.armed = false := by
        rw [looked_passes he, decide_eq_true hgot, Bool.and_true] at hc
        exact Bool.eq_false_iff.2 hc
      obtain ⟨r, hr, htold⟩ := looked_disarmed h hl he (hn he) hw ha
      have := ht r hr
      omega
    · rw [Entry.looked, if_neg he]
  rw [judge_eq, if_pos ⟨hp, hgot, hroom⟩]

theorem roused_judge (hn : Roused et e) (hw : ∀ p, e.look = some p → l.own < p.own + 2 ^ 32) (room : Bool) :
    Roused et (e.judge et l room).1 := by
  rw [judge_eq]
  split_ifs
  · exact fun _ _ => ⟨l, l, rfl, rfl, rfl⟩
  · intro he ha
    obtain ⟨r, hr, ht⟩ := looked_disarmed h hl he (hn he) hw ha
    exact ⟨r, l, hr, rfl, ht⟩

end Judge

/-! ## Every reachable state -/

variable (cfg : Config)

/-- a file's readiness and counts now -/
def World.now (w : World) (f : ℕ) : Look :=
  { ready := w.ready f, told := w.toldOf cfg f, own := w.own cfg f, common := w.common }

variable {cfg}

theorem atHand_some {w : World} {s : Scan} {fd : ℤ} {rest : List ℤ} {e : Entry}
    (h : w.atHand = some (s, fd, rest, e)) :
    w.scan = some s ∧ s.todo = fd :: rest ∧ w.interest.lookup fd = some e := by
  unfold World.atHand at h
  split at h
  · cases h
  · rename_i s' hs
    split at h
    · cases h
    · rename_i fd' rest' ht
      obtain ⟨e', he, heq⟩ := Option.map_eq_some_iff.1 h
      cases heq
      exact ⟨hs, ht, he⟩

theorem judging_some {w : World} {s : Scan} {fd : ℤ} {rest : List ℤ} {e : Entry} {l : Look}
    (h : w.judging = some (s, fd, rest, e, l)) :
    w.atHand = some (s, fd, rest, e) ∧ s.at_ = .own l.ready l.told l.own ∧ l.common = w.common := by
  unfold World.judging at h
  split at h
  · cases h
  · rename_i s' fd' rest' e' hh
    split at h
    · rename_i r t o ha
      cases h
      exact ⟨hh, ha, rfl⟩
    · cases h

theorem ctl_ok {w : World} {op : ℕ} {fd : ℤ} {file : Except Errno ℕ} {self : Bool}
    {event : Except Errno (UInt32 × UInt64)} {m : Map ℤ Entry} (h : w.ctl op fd file self event = .ok m) :
    m = w.interest.erase fd ∨
      ∃ f events data, m = w.interest.insert fd { file := f, events := events, data := data } := by
  unfold World.ctl at h
  split at h
  · cases h
  · split_ifs at h
    · cases h; exact .inl rfl
    · split at h
      · cases h
      · simp only at h
        split_ifs at h
        cases h; exact .inr ⟨_, _, _, rfl⟩

/-- what each entry is told now, for any property of entries: kept by every step, as long as new entries have it and
judged ones keep it -/
theorem step_entries {P : Entry → Prop} {w : World} (hP : ∀ fd e, w.interest.lookup fd = some e → P e)
    (hnew : ∀ f events data, P { file := f, events := events, data := data })
    (hjudge : ∀ s fd rest e l, w.judging = some (s, fd, rest, e, l) → P e → P (e.judge cfg.et l s.room).1) (a : Act) :
    ∀ fd e, (step cfg w a).interest.lookup fd = some e → P e := by
  cases a with
  | change f r => exact hP
  | notifyKey k => exact hP
  | notify => exact hP
  | install fd file => exact hP
  | ended f => exact hP
  | ctl op fd file self event =>
    rw [step]
    split_ifs
    · exact hP
    · split
      · rename_i m hm
        intro fd' e he
        simp only at he
        rcases ctl_ok hm with rfl | ⟨f, events, data, rfl⟩
        · rw [Map.lookup_erase_eq] at he
          split_ifs at he
          exact hP fd' e he
        · rw [Map.lookup_insert_eq] at he
          split_ifs at he
          · cases he; exact hnew f events data
          · exact hP fd' e he
      · exact hP
  | begin max =>
    rw [step]
    split_ifs
    · exact hP
    · exact hP
    · intro fd e he
      simp only [Map.lookup_retain] at he
      obtain ⟨e', he', heq⟩ := Option.bind_eq_some_iff.1 he
      split_ifs at heq
      cases heq; exact hP fd e he'
  | look =>
    rw [step]
    split
    · exact hP
    · split_ifs <;> exact hP
  | load =>
    rw [step]
    split
    · exact hP
    · split <;> exact hP
  | judge =>
    rw [step]
    split
    · exact hP
    · rename_i s fd rest e l hj
      intro fd' e' he
      simp only [Map.lookup_insert_eq] at he
      split_ifs at he
      · cases he
        exact hjudge s fd rest e l hj (hP fd e (atHand_some (judging_some hj).1).2.2)
      · exact hP fd' e' he
  | finish writes =>
    rw [step]
    split
    · exact hP
    · split_ifs <;> exact hP

/-- the counts only go on -/
theorem now_step (w : World) (a : Act) (f : ℕ) : (w.now cfg f).Before ((step cfg w a).now cfg f) := by
  have same : ∀ w' : World, w'.slots = w.slots → w'.told = w.told → w'.common = w.common →
      (w.now cfg f).Before (w'.now cfg f) := fun w' h1 h2 h3 => by
    simp only [World.now, World.own, World.toldOf, h1, h2, h3]
    exact ⟨le_rfl, le_rfl, le_rfl, (Nat.add_comm _ _).le⟩
  cases a with
  | notifyKey k =>
    simp only [step, World.now, World.own, World.toldOf]
    cases hk : cfg.key f with
    | none => exact ⟨le_rfl, le_rfl, le_rfl, le_rfl⟩
    | some k' =>
      by_cases h : k' = k
      · subst h
        exact ⟨by simp, le_rfl, by simp, by simp; omega⟩
      · by_cases hs : edgeSlot k' = edgeSlot k
        · exact ⟨by simp [hs], le_rfl, by simp [h], by simp [h, hs]; omega⟩
        · exact ⟨by simp [hs], le_rfl, by simp [h], by simp [h, hs]; omega⟩
  | notify => exact ⟨le_rfl, Nat.le_succ _, le_rfl, (Nat.add_comm _ _).le⟩
  | change f r => exact same _ rfl rfl rfl
  | install fd file => exact same _ rfl rfl rfl
  | ended f => exact same _ rfl rfl rfl
  | ctl op fd file self event => rw [step]; split_ifs <;> (try split) <;> exact same _ rfl rfl rfl
  | begin max => rw [step]; split_ifs <;> exact same _ rfl rfl rfl
  | look => rw [step]; split <;> (try split_ifs) <;> exact same _ rfl rfl rfl
  | load => rw [step]; split <;> (try split) <;> exact same _ rfl rfl rfl
  | judge => rw [step]; split <;> exact same _ rfl rfl rfl
  | finish writes => rw [step]; split <;> (try split_ifs) <;> exact same _ rfl rfl rfl

/-- a judgement at hand was at hand before, but for the changes counted for all, or the counts have just been read -/
theorem judging_step {w : World} {a : Act} {s : Scan} {fd : ℤ} {rest : List ℤ} {e : Entry} {l : Look}
    (hj : (step cfg w a).judging = some (s, fd, rest, e, l)) :
    w.judging = some (s, fd, rest, e, { l with common := w.common }) ∨
      a = .load ∧ (∃ s', w.atHand = some (s', fd, rest, e)) ∧
        l.told = w.toldOf cfg e.file ∧ l.own = w.own cfg e.file ∧ l.common = w.common := by
  obtain ⟨hh, ha, hc⟩ := judging_some hj
  obtain ⟨hs, ht, he⟩ := atHand_some hh
  -- where neither the scan nor the set changed
  have same : (step cfg w a).scan = w.scan → (step cfg w a).interest = w.interest →
      w.judging = some (s, fd, rest, e, { l with common := w.common }) := fun h1 h2 => by
    have hh' : w.atHand = some (s, fd, rest, e) := by rw [← hh, World.atHand, World.atHand, h1, h2]
    rw [World.judging, hh']
    simp only [ha]
  have unchanged : step cfg w a = w → w.judging = some (s, fd, rest, e, { l with common := w.common }) := fun hw =>
    same (by rw [hw]) (by rw [hw])
  cases a with
  | change f r => exact .inl (same rfl rfl)
  | notifyKey k => exact .inl (same rfl rfl)
  | notify => exact .inl (same rfl rfl)
  | install fd file => exact .inl (same rfl rfl)
  | ended f => exact .inl (same rfl rfl)
  | ctl op fd' file self event =>
    by_cases hsc : w.scan.isSome
    · exact .inl (unchanged (by rw [step, if_pos hsc]))
    · have hw : (step cfg w (.ctl op fd' file self event)).scan = w.scan := by
        rw [step, if_neg hsc]; split <;> rfl
      rw [hw] at hs
      rw [hs] at hsc
      exact absurd rfl hsc
  | begin max =>
    rw [step] at hs same
    split_ifs at hs same with h1 h2
    · exact .inl (same rfl rfl)
    · exact .inl (same rfl rfl)
    · cases hs; cases ha
  | look =>
    cases hh' : w.atHand with
    | none => exact .inl (unchanged (by simp only [step, hh']))
    | some x =>
      obtain ⟨s', fd', rest', e'⟩ := x
      simp only [step, hh'] at hs unchanged
      split_ifs at hs unchanged with h1 h2
      · exact .inl (unchanged rfl)
      · cases hs; cases ha
      · cases hs; cases ha
  | load =>
    cases hh' : w.atHand with
    | none => exact .inl (unchanged (by simp only [step, hh']))
    | some x =>
      obtain ⟨s', fd', rest', e'⟩ := x
      obtain ⟨hs', ht', he'⟩ := atHand_some hh'
      cases hat : s'.at_ with
      | next => exact .inl (unchanged (by simp only [step, hh', hat]))
      | own r t o => exact .inl (unchanged (by simp only [step, hh', hat]))
      | ready r =>
        simp only [step, hh', hat] at hs he hc
        cases hs
        rw [ht'] at ht
        cases ht
        rw [he'] at he
        cases he
        injection ha with _ h1 h2
        exact .inr ⟨rfl, ⟨s', rfl⟩, h1.symm, h2.symm, hc⟩
  | judge =>
    cases hj' : w.judging with
    | none => exact .inl (hj' ▸ unchanged (by simp only [step, hj']))
    | some x =>
      simp only [step, hj'] at hs
      cases hs; cases ha
  | finish writes =>
    cases hs' : w.scan with
    | none => exact .inl (unchanged (by simp only [step, hs']))
    | some s' =>
      simp only [step, hs'] at hs unchanged
      split_ifs at hs unchanged
      exact .inl (unchanged rfl)

/-- a scan that has come to an entry has it behind, or at hand -/
theorem pass_covers {s : Scan} {fd fd' : ℤ} {rest : List ℤ} (ht : s.todo = fd :: rest)
    (h : fd' ∈ s.passed ∨ fd' ∈ s.todo) : fd' ∈ (s.pass fd rest).passed ∨ fd' ∈ (s.pass fd rest).todo := by
  rw [ht] at h
  simp only [Scan.pass, List.mem_append, List.mem_cons] at h ⊢
  tauto

def Covers (w : World) : Prop :=
  ∀ s, w.scan = some s → ∀ fd, (w.interest.lookup fd).isSome → fd ∈ s.passed ∨ fd ∈ s.todo

theorem step_covers {w : World} (h : Covers w) (a : Act) : Covers (step cfg w a) := by
  cases a with
  | ctl op fd file self event =>
    rw [step]
    split_ifs with hs
    · exact h
    · split
      · intro s hs'
        rw [show w.scan = some s from hs'] at hs
        exact absurd rfl hs
      · exact h
  | begin max =>
    rw [step]
    split_ifs
    · exact h
    · exact h
    · intro s hs fd hfd
      cases hs
      refine .inr ?_
      simp only [List.mem_insertionSort]
      exact AList.mem_keys.1 (AList.lookup_isSome.1 hfd)
  | look =>
    rw [step]
    split
    · exact h
    · rename_i s fd rest e hh
      obtain ⟨hs, ht, -⟩ := atHand_some hh
      split_ifs
      · exact h
      · intro s' hs' fd' hfd'
        cases hs'; exact h s hs fd' hfd'
      · intro s' hs' fd' hfd'
        cases hs'; exact pass_covers ht (h s hs fd' hfd')
  | load =>
    rw [step]
    split
    · exact h
    · rename_i s fd rest e hh
      obtain ⟨hs, ht, he⟩ := atHand_some hh
      split
      · intro s' hs' fd' hfd'
        cases hs'; exact h s hs fd' hfd'
      · exact h
  | judge =>
    rw [step]
    split
    · exact h
    · rename_i s fd rest e l hj
      obtain ⟨hs, ht, he⟩ := atHand_some (judging_some hj).1
      intro s' hs' fd' hfd'
      cases hs'
      refine pass_covers ht (h s hs fd' ?_)
      simp only [Map.lookup_insert_eq] at hfd'
      split_ifs at hfd' with hfe
      · rw [hfe, he]; rfl
      · exact hfd'
  | finish writes =>
    rw [step]
    split
    · exact h
    · split_ifs
      · exact h
      all_goals intro s' hs'; cases hs'
  | _ => exact h

structure Sound (cfg : Config) (w : World) : Prop where
  kept : ∀ fd e, w.interest.lookup fd = some e → Kept cfg.et e (w.now cfg e.file)
  /-- what the scan has read of the entry at hand, it read after the look before -/
  hand : ∀ s fd rest e l, w.judging = some (s, fd, rest, e, l) →
    (∀ p, e.look = some p → p.Before l) ∧ l.Before (w.now cfg e.file)

theorem judge_file (et : Bool) (e : Entry) (l : Look) (room : Bool) : (e.judge et l room).1.file = e.file := by
  rw [judge_eq]
  split_ifs <;> rfl

theorem step_sound {w : World} (h : Sound cfg w) (a : Act) : Sound cfg (step cfg w a) := by
  have entries := step_entries (P := fun e => Kept cfg.et e (w.now cfg e.file)) h.kept
    (fun f events data => kept_new _ _ _ _ _)
    (fun s fd rest e l hj he => by
      rw [judge_file]
      exact (kept_judge he (h.hand _ _ _ _ _ hj).1 s.room).mono (h.hand _ _ _ _ _ hj).2) a
  refine ⟨fun fd e he => (entries fd e he).mono (now_step w a e.file), fun s fd rest e l hj => ?_⟩
  have hc := (judging_some hj).2.2
  have hn : (w.now cfg e.file).Before ((step cfg w a).now cfg e.file) := now_step w a e.file
  have hcommon : w.common ≤ (step cfg w a).common := hn.common
  rcases judging_step hj with hj' | ⟨rfl, ⟨s', hh⟩, h1, h2, h3⟩
  · obtain ⟨hb, hl⟩ := h.hand _ _ _ _ _ hj'
    have ht := hl.trans hn
    exact ⟨fun p hp => ⟨(hb p hp).own, by rw [hc]; exact (hb p hp).common.trans hcommon, (hb p hp).told, (hb p hp).slot⟩,
      ht.own, hc.le, ht.told, ht.slot⟩
  · have hk := (h.kept _ _ (atHand_some hh).2.2).before
    have hl : (w.now cfg e.file).Before l := ⟨h2.ge, h3.ge, h1.ge, by
      show l.told + w.own cfg e.file ≤ l.own + w.toldOf cfg e.file
      omega⟩
    have hl' : l.Before (w.now cfg e.file) := ⟨h2.le, h3.le, h1.le, by
      show w.toldOf cfg e.file + l.own ≤ w.own cfg e.file + l.told
      omega⟩
    exact ⟨fun p hp => (hk p hp).trans hl, hl'.trans hn⟩

/-- where a scan reads the changes counted for an entry's key, fewer than 2 ^ 32 were since the last look at it -/
def unwrapped (cfg : Config) (w : World) : Act → Prop
  | .load =>
    match w.atHand with
    | none => True
    | some (_, _, _, e) => ∀ p ∈ e.look, w.own cfg e.file < p.own + 2 ^ 32
  | _ => True

instance (cfg : Config) (w : World) (a : Act) : Decidable (unwrapped cfg w a) := by
  unfold unwrapped
  split
  · split <;> infer_instance
  · infer_instance

structure Awake (cfg : Config) (w : World) : Prop where
  roused : ∀ fd e, w.interest.lookup fd = some e → Roused cfg.et e
  unwrapped : ∀ s fd rest e l, w.judging = some (s, fd, rest, e, l) → ∀ p, e.look = some p → l.own < p.own + 2 ^ 32

theorem step_awake {w : World} (hs : Sound cfg w) (h : Awake cfg w) (a : Act) (ho : unwrapped cfg w a) :
    Awake cfg (step cfg w a) := by
  have roused : ∀ fd e, (step cfg w a).interest.lookup fd = some e → Roused cfg.et e :=
    step_entries h.roused (fun f events data _ ha => by cases ha)
      (fun s fd rest e l hj he => roused_judge (hs.kept _ _ (atHand_some (judging_some hj).1).2.2)
        (hs.hand _ _ _ _ _ hj).1 he (h.unwrapped _ _ _ _ _ hj) s.room) a
  refine ⟨roused, fun s fd rest e l hj p hp => ?_⟩
  rcases judging_step hj with hj' | ⟨rfl, ⟨s', hh⟩, -, h2, -⟩
  · exact h.unwrapped _ _ _ _ _ hj' p hp
  · simp only [unwrapped, hh] at ho
    rw [h2]
    exact ho p hp

theorem sound_empty (cfg : Config) : Sound cfg {} :=
  ⟨fun _ _ he => (by cases he), fun _ _ _ _ _ hj => (by cases hj)⟩

/-- **What a scan reports.** In every run, wherever a scan has looked at an entry and is to judge it:
an edge-triggered entry with nothing counted for it and no other bits read since its last report is not reported, nor is
one reported as one-shot with neither `ERR` nor `HUP`; and a scan has each entry behind it or before it. Where no count
went once around between two looks, an edge-triggered entry that is ready in a wanted bit, with its key told of since its
last report, is reported if there is room. -/
theorem delivery (cfg : Config) :
    (∀ w, Reach (step cfg) anyStep {} w → Covers w ∧ ∀ s fd rest e l, w.judging = some (s, fd, rest, e, l) →
      Quiet cfg.et e l s.room ∧ Spent cfg.et e l s.room) ∧
    ∀ w, Reach (step cfg) (unwrapped cfg) {} w → ∀ s fd rest e l, w.judging = some (s, fd, rest, e, l) →
      Heard cfg.et e l s.room := by
  have sound : ∀ {ok : World → Act → Prop} {w}, Reach (step cfg) ok {} w → Sound cfg w := fun h =>
    h.invariant (Sound cfg) (sound_empty cfg) fun w a _ _ hw => step_sound hw a
  have entry : ∀ {w : World} {s fd rest e l}, w.judging = some (s, fd, rest, e, l) → w.interest.lookup fd = some e :=
    fun hj => (atHand_some (judging_some hj).1).2.2
  refine ⟨fun w h => ⟨?_, fun s fd rest e l hj => ?_⟩, fun w h s fd rest e l hj => ?_⟩
  · have none : Covers {} := fun s hs => by cases hs
    exact h.invariant Covers none fun w a _ _ hw => step_covers hw a
  · have hk := (sound h).kept fd e (entry hj)
    exact ⟨quiet_judge hk ((sound h).hand _ _ _ _ _ hj).1 s.room, spent_judge hk s.room⟩
  · have none : Awake cfg {} := ⟨fun _ _ he => (by cases he), fun _ _ _ _ _ hj => (by cases hj)⟩
    have hw := h.invariant (Awake cfg) none fun w a hr ho hw => step_awake (sound hr) hw a ho
    exact heard_judge ((sound h).kept fd e (entry hj)) ((sound h).hand _ _ _ _ _ hj).1 (hw.roused fd e (entry hj))
      (hw.unwrapped _ _ _ _ _ hj) s.room

/-- file 1 has key 16 -/
def oneFile : Config := { key := fun f => if f = 1 then some 16 else none, et := true }

/-- descriptor 3 is file 1, ready to read, in the set with `events` -/
def addRun (events : UInt32) : List Act :=
  [.install 3 (some 1), .change 1 1, .ctl ADD 3 (.ok 1) false (.ok (events, 7))]

def scanRun : List Act := [.begin 8, .look, .load]

/-- a scan that reports it, `acts`, and another scan up to its judgement -/
def twiceRun (events : UInt32) (acts : List Act) : List Act :=
  addRun events ++ scanRun ++ [.judge, .finish true] ++ acts ++ scanRun

/-- told of after its report, and reported again -/
theorem delivery_again : ∃ e l, (run (step oneFile) {} (twiceRun (EDGE ||| 1) [.notifyKey 16])).judging.map
    (fun j => (j.1.room, j.2.2.2)) = some (true, e, l) ∧ (e.judge true l true).2 = some (l.ready &&& e.wanted) := by
  have hr := Reach.run (.start : Reach (step oneFile) (unwrapped oneFile) {} {})
    (twiceRun (EDGE ||| 1) [.notifyKey 16]) (by decide)
  have h := (delivery oneFile).2 _ hr _ _ _ _ _ rfl
  exact ⟨_, _, rfl, h (by decide) (by decide) (fun r hr => by cases hr; decide) (by decide)⟩

/-! ## What it does beyond that -/

/-- one with its key not told of, and no other bits read, since its last report is not reported -/
def QuietKey (et : Bool) (e : Entry) (l : Look) (room : Bool) : Prop :=
  e.Edged et → ∀ r, e.report = some r → e.same = true → l.ready = r.ready → l.told = r.told →
    (e.judge et l room).2 = none

/-- one reported as one-shot is not reported, whatever it is ready for -/
def SpentAny (et : Bool) (e : Entry) (l : Look) (room : Bool) : Prop := e.spent = true → (e.judge et l room).2 = none

theorem run_notifyKey (cfg : Config) (w : World) (k n : ℕ) : run (step cfg) w (List.replicate n (.notifyKey k)) =
    { w with
      slots := Function.update w.slots (edgeSlot k) (w.slots (edgeSlot k) + n)
      told := Function.update w.told k (w.told k + n) } := by
  induction n generalizing w with
  | zero => simp [run]
  | succ n ih =>
    rw [List.replicate_succ, run, List.foldl_cons]
    have := ih (step cfg w (.notifyKey k))
    rw [run] at this
    rw [this]
    simp only [step, Function.update_idem, Function.update_self, Nat.add_assoc, Nat.add_comm 1]

/-- what the scan of a reachable state may be about to judge -/
def Judged (cfg : Config) (e : Entry) (l : Look) (room : Bool) : Prop :=
  ∃ w, Reach (step cfg) anyStep {} w ∧ ∃ s fd rest, w.judging = some (s, fd, rest, e, l) ∧ s.room = room

/-- what `twiceRun` comes to judge -/
theorem judged_run {e : Entry} {l : Look} (acts : List Act)
    (h : (run (step oneFile) {} acts).judging.map (fun j => (j.1.room, j.2.2.2)) = some (true, e, l)) :
    Judged oneFile e l true := by
  obtain ⟨⟨s, fd, rest, e', l'⟩, hj, heq⟩ := Option.map_eq_some_iff.1 h
  obtain ⟨hroom, he⟩ := Prod.mk.inj heq
  cases he
  exact ⟨_, reach_run _ _ acts, s, fd, rest, hj, hroom⟩

/-- **The claims of change and silence, as broadly as they can be put, fail**: a count that goes once around is missed; a
key that shares its slot rouses the entry; and a one-shot entry hears of `HUP` again. -/
theorem delivery_breaks :
    (¬∀ e l room, Judged oneFile e l room → Heard true e l room) ∧
    (¬∀ e l room, Judged oneFile e l room → QuietKey true e l room) ∧
    ¬∀ e l room, Judged oneFile e l room → SpentAny true e l room := by
  refine ⟨fun h => ?_, fun h => ?_, fun h => ?_⟩
  · have hj : Judged oneFile _ _ true :=
      judged_run (twiceRun (EDGE ||| 1) (List.replicate (2 ^ 32) (.notifyKey 16))) (by
        rw [twiceRun, run, List.foldl_append, List.foldl_append]
        have := run_notifyKey oneFile
        simp only [run] at this
        rw [this]
        rfl)
    have := h _ _ _ hj (by decide) (by decide) (fun r hr => by cases hr; decide) rfl
    revert this
    decide
  · have hj : Judged oneFile _ _ true := judged_run (twiceRun (EDGE ||| 1) [.notifyKey 0x40000]) rfl
    have := h _ _ _ hj (by decide) _ rfl rfl rfl rfl
    revert this
    decide
  · have hj : Judged oneFile _ _ true := judged_run (twiceRun (ONESHOT ||| 1) [.change 1 0x11]) rfl
    have := h _ _ _ hj rfl
    revert this
    decide

end Omnidroid.Epoll
