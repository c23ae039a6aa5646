/-
Socket pairs over whole runs (`omni-linux/src/socket.rs`): sends, receives and closes by any number of threads on the two ends.

- `World.step`: each lock section is a step; a `recvmsg` takes its bytes in one (`receive`) and its descriptors in another
  (`collect`), and what other threads do comes between.
- `pair_delivers`: bytes and messages arrive as they were sent, and each batch of descriptors goes to whoever took its message, in
  every run in which descriptors are taken by calls that can carry them and by one at a time, no empty message has any, no
  receive finds only empty messages on a stream, and what is received can be written.
- `pair_mixes`: a run for each of these.
-/
import Omnidroid.Lib.Run
import Omnidroid.Net.Pair

namespace Omnidroid.Pair

open Bytes

namespace Dir

variable {ρ : Type} (stream : Bool) (d : Dir ρ)

/-- `FIONREAD`: bytes that a receive can take -/
def available : ℕ := if stream then d.queue.flatten.length else (d.queue.headD []).length

/-- a receive into `room` bytes, by a call that can carry descriptors or not; `ok`: what it takes can be written to the guest -/
def receiveBy (other : Bool) (room : ℕ) (carries ok : Bool) : Dir ρ :=
  match d.receive stream other room with
  | none => d
  | some (bytes, d') =>
    { d' with
      takes := d'.takes ++
        [if ok || bytes.isEmpty then
          ⟨room, carries, bytes, d.queue.isEmpty, d.owed stream bytes.length, if carries then none else some []⟩
        else ⟨room, carries, [], d.queue.isEmpty, d.owed stream bytes.length, some []⟩] }

/-- the `i`-th receive, a `recvmsg`, comes to its descriptors; `ok`: they can be inserted, and the headers written -/
def collect (i : ℕ) (ok : Bool) : Dir ρ :=
  match d.takes[i]? with
  | some t =>
    if t.given.isNone then
      { d.rightsTaken.2 with
        takes := d.takes.set i
          (if ok then { t with given := some d.rightsTaken.1 } else { t with bytes := [], given := some [] }) }
    else d
  | none => d

/-- a relay takes the next of it, and the descriptors with it -/
def relay : Dir ρ :=
  match d.take stream with
  | none => d
  | some (bytes, d') =>
    { d'.rightsTaken.2 with
      takes := d'.takes ++ [⟨bytes.length, true, bytes, false, d.owed stream bytes.length, some d'.rightsTaken.1⟩] }

end Dir

structure World (ρ : Type) where
  stream : Bool
  /-- what each end has been sent -/
  dirs : Bool → Dir ρ
  /-- a descriptor of the end is open -/
  openEnd : Bool → Bool

inductive Act (ρ : Type) where
  | send (side : Bool) (bytes : Bytes) (rights : List ρ)
  | receive (side : Bool) (room : ℕ) (carries ok : Bool)
  | collect (side : Bool) (i : ℕ) (ok : Bool)
  | relay (side : Bool)
  /-- the end's last descriptor is closed, no call being under way on it -/
  | close (side : Bool)
deriving DecidableEq

namespace World

variable {ρ : Type}

def new (stream : Bool) : World ρ := { stream, dirs := fun _ => {}, openEnd := fun _ => true }

def put (w : World ρ) (side : Bool) (d : Dir ρ) : World ρ := { w with dirs := Function.update w.dirs side d }

def step (w : World ρ) : Act ρ → World ρ
  | .send side bytes rights =>
    -- the other end closed is `EPIPE`
    if w.openEnd side && w.openEnd !side then w.put (!side) ((w.dirs !side).send bytes rights) else w
  | .receive side room carries ok =>
    if w.openEnd side then w.put side ((w.dirs side).receiveBy w.stream (w.openEnd !side) room carries ok) else w
  | .collect side i ok => if w.openEnd side then w.put side ((w.dirs side).collect i ok) else w
  | .relay side => if w.openEnd side then w.put side ((w.dirs side).relay w.stream) else w
  | .close side =>
    if (w.dirs side).takes.all (·.given.isSome) then { w with openEnd := Function.update w.openEnd side false } else w

end World

/-! ## What is to hold -/

namespace Dir

variable {ρ : Type} (stream : Bool) (d : Dir ρ)

/-- receives that have still to get to their descriptors -/
def pending : List (Take ρ) := d.takes.filter (·.given.isNone)

structure Delivered (other : Bool) : Prop where
  bytes : stream → d.takes.flatMap Take.bytes <+: d.log.flatMap Msg.bytes
  messages : stream = false → ∃ n, List.Forall₂ (fun t m => t.bytes = m.bytes.take t.room) (d.takes.filter (!·.ended)) (d.log.take n)
  /-- end of file is the end -/
  ends : stream → ∀ t ∈ d.takes, t.room ≠ 0 → t.bytes = [] → other = false ∧ d.takes.flatMap Take.bytes = d.log.flatMap Msg.bytes
  /-- a receive hands over the descriptors of the messages it took -/
  handed : ∀ t ∈ d.takes, ∀ given, t.given = some given → given = t.owed
  carried : ∀ t ∈ d.takes, t.carries = false → t.owed = []
  /-- of every message once, and in order -/
  once : d.takes.flatMap Take.owed <+: d.log.flatMap Msg.rights
  /-- none are kept but of messages not taken, and for receives that have still to get to them -/
  kept : d.rights.flatMap (·.2) = d.pending.flatMap Take.owed ++ (d.untaken stream).flatMap (·.2.rights)

/-- taking `n` bytes, or the next message, takes descriptors only with a byte and for a call that can carry them -/
def Clear (n : ℕ) (carries : Bool) : Prop := ∀ x ∈ d.passed stream n, x.2.rights ≠ [] → x.2.bytes ≠ [] ∧ carries

end Dir

namespace World

variable {ρ : Type}

/-- in either direction -/
def Delivers (w : World ρ) : Prop := ∀ side, (w.dirs side).Delivered w.stream (w.openEnd !side)

/-- descriptors go with a byte, to calls that can carry them, one at a time; no receive finds nothing but empty messages on an
open stream; what is received can be written -/
def steady (w : World ρ) : Act ρ → Prop
  | .send side bytes _ => (w.dirs !side).sent + bytes.length < 2 ^ 64
  | .receive side room carries ok =>
    (w.dirs side).Clear w.stream (min room ((w.dirs side).available w.stream)) carries ∧
      (ok ∨ min room ((w.dirs side).available w.stream) = 0) ∧
      (w.stream → room ≠ 0 → (w.dirs side).queue ≠ [] → w.openEnd !side → (w.dirs side).available w.stream ≠ 0)
  | .collect side i ok =>
    ok ∧ ∀ j, j ≠ i → ∀ t, (w.dirs side).takes[j]? = some t → t.given = none → t.owed = []
  | .relay side =>
    (w.dirs side).Clear w.stream ((w.dirs side).available w.stream) true ∧ ∀ t ∈ (w.dirs side).pending, t.owed = []
  | .close _ => True

end World

/-! ## The descriptors -/

namespace Dir

variable {ρ : Type} {stream other : Bool} {d d' : Dir ρ}

/-- the batches among messages -/
def batches (l : List (ℕ × Msg ρ)) : List (ℕ × List ρ) := (l.map fun x => (x.1, x.2.rights)).filter (!·.2.isEmpty)

theorem batches_append (l l' : List (ℕ × Msg ρ)) : batches (l ++ l') = batches l ++ batches l' := by
  unfold batches
  rw [List.map_append, List.filter_append]

theorem batches_flatMap (l : List (ℕ × Msg ρ)) : (batches l).flatMap (·.2) = l.flatMap (·.2.rights) := by
  induction l with
  | nil => rfl
  | cons x l ih =>
    unfold batches at ih ⊢
    rw [List.map_cons, List.flatMap_cons]
    cases h : x.2.rights with
    | nil => rw [List.filter_cons_of_neg (by simp), ih, List.nil_append]
    | cons r rs => rw [List.filter_cons_of_pos (by simp), List.flatMap_cons, ih]

theorem mem_batches {l : List (ℕ × Msg ρ)} {y : ℕ × List ρ} (h : y ∈ batches l) : ∃ x ∈ l, x.1 = y.1 ∧ x.2.rights = y.2 ∧ y.2 ≠ [] := by
  obtain ⟨hm, hne⟩ := List.mem_filter.mp h
  obtain ⟨x, hx, rfl⟩ := List.mem_map.mp hm
  exact ⟨x, hx, rfl, rfl, by simpa using hne⟩

structure RightsInv (stream : Bool) (d : Dir ρ) : Prop where
  waiting : ∀ x ∈ d.untaken stream, d.taken ≤ x.1
  rights : ∃ due, d.rights = due ++ batches (d.untaken stream) ∧ (∀ x ∈ due, x.1 < d.taken) ∧
    due.flatMap (·.2) = d.pending.flatMap Take.owed
  once : d.takes.flatMap Take.owed ++ (d.untaken stream).flatMap (·.2.rights) = d.log.flatMap Msg.rights
  handed : ∀ t ∈ d.takes, ∀ given, t.given = some given → given = t.owed
  carried : ∀ t ∈ d.takes, t.carries = false → t.owed = []

/-- from `d` to `d'` the messages `l` are taken, and nothing else changes but the queue -/
structure Passes (stream : Bool) (d d' : Dir ρ) (l : List (ℕ × Msg ρ)) : Prop where
  log : d'.log = d.log
  rights : d'.rights = d.rights
  takes : d'.takes = d.takes
  grows : d.taken ≤ d'.taken
  untaken : d.untaken stream = l ++ d'.untaken stream
  before : ∀ x ∈ l, x.2.bytes ≠ [] → x.1 < d'.taken
  waiting : ∀ x ∈ d'.untaken stream, d'.taken ≤ x.1

/-- a receive is owed the descriptors of what it passes, if messages that have some are not empty -/
theorem owed_eq {l : List (ℕ × Msg ρ)} (h : ∀ x ∈ l, x.2.rights ≠ [] → x.2.bytes ≠ []) :
    l.flatMap (·.2.due stream) = l.flatMap (·.2.rights) := by
  induction l with
  | nil => rfl
  | cons x l ih =>
    rw [List.flatMap_cons, List.flatMap_cons, ih fun y hy => h y (List.mem_cons_of_mem _ hy)]
    congr 1
    unfold Msg.due
    split_ifs with he
    · by_contra hne
      have hb := h x List.mem_cons_self (Ne.symm hne)
      simp only [Bool.and_eq_true, List.isEmpty_iff] at he
      exact hb he.2
    · rfl

/-- what is due after the messages `l` have been passed: theirs too -/
theorem due_passes {l : List (ℕ × Msg ρ)} {due : List (ℕ × List ρ)} (hp : Passes stream d d' l)
    (hclear : ∀ x ∈ l, x.2.rights ≠ [] → x.2.bytes ≠ []) (hr : d.rights = due ++ batches (d.untaken stream))
    (hdue : ∀ x ∈ due, x.1 < d.taken) :
    d'.rights = (due ++ batches l) ++ batches (d'.untaken stream) ∧ ∀ x ∈ due ++ batches l, x.1 < d'.taken := by
  refine ⟨?_, fun y hy => ?_⟩
  · rw [hp.rights, hr, hp.untaken, batches_append, List.append_assoc]
  · rcases List.mem_append.mp hy with h | h
    · exact (hdue y h).trans_le hp.grows
    · obtain ⟨x, hx, h₁, h₂, hne⟩ := mem_batches h
      rw [← h₁]
      exact hp.before x hx (hclear x hx (by rw [h₂]; exact hne))

/-- the queues after a receive's entry is made -/
theorem rights_receive (hi : d.RightsInv stream) {l : List (ℕ × Msg ρ)} (hp : Passes stream d d' l) {t : Take ρ}
    (hclear : ∀ x ∈ l, x.2.rights ≠ [] → x.2.bytes ≠ [] ∧ t.carries) (ho : t.owed = l.flatMap (·.2.due stream))
    (hg : t.given = if t.carries then none else some []) : RightsInv stream { d' with takes := d'.takes ++ [t] } := by
  have hne : ∀ x ∈ l, x.2.rights ≠ [] → x.2.bytes ≠ [] := fun x hx h => (hclear x hx h).1
  rw [owed_eq hne] at ho
  have hplain : t.carries = false → t.owed = [] := by
    intro hc
    rw [ho, List.flatMap_eq_nil_iff]
    intro x hx
    by_contra h
    rw [hc] at hclear
    exact absurd (hclear x hx h).2 (by decide)
  obtain ⟨due, hr, hdue, hpend⟩ := hi.rights
  obtain ⟨hr', hdue'⟩ := due_passes hp hne hr hdue
  refine ⟨hp.waiting, ⟨due ++ batches l, hr', hdue', ?_⟩, ?_, ?_, ?_⟩
  · change _ = ((d'.takes ++ [t]).filter (·.given.isNone)).flatMap Take.owed
    rw [List.flatMap_append, batches_flatMap, ← ho, hpend, List.filter_append, List.flatMap_append, hp.takes]
    congr 1
    cases hc : t.carries with
    | true =>
      rw [hc, if_pos rfl] at hg
      rw [List.filter_cons_of_pos (by rw [hg]; rfl), List.filter_nil, List.flatMap_singleton]
    | false =>
      rw [hc, if_neg (by decide)] at hg
      rw [List.filter_cons_of_neg (by rw [hg]; simp), List.filter_nil, List.flatMap_nil]
      exact hplain hc
  · change (d'.takes ++ [t]).flatMap Take.owed ++ (d'.untaken stream).flatMap _ = d'.log.flatMap _
    have honce := hi.once
    rw [hp.untaken, List.flatMap_append, ← ho] at honce
    rw [hp.takes, hp.log, List.flatMap_append, List.flatMap_singleton, List.append_assoc]
    exact honce
  · intro u hu given hgiven
    rcases List.mem_append.mp hu with h | h
    · exact hi.handed u (hp.takes ▸ h) given hgiven
    · obtain rfl := List.mem_singleton.mp h
      cases hc : u.carries with
      | true =>
        rw [hg, hc] at hgiven
        cases hgiven
      | false =>
        rw [hg, hc] at hgiven
        rw [hplain hc]
        exact (Option.some.inj hgiven).symm
  · intro u hu hc
    rcases List.mem_append.mp hu with h | h
    · exact hi.carried u (hp.takes ▸ h) hc
    · obtain rfl := List.mem_singleton.mp h
      exact hplain hc

/-- what is due is what a call that comes to its descriptors finds -/
theorem rightsTaken_eq {due rest : List (ℕ × List ρ)} (hr : d.rights = due ++ rest) (hdue : ∀ x ∈ due, x.1 < d.taken)
    (hrest : ∀ x ∈ rest, d.taken ≤ x.1) : d.rightsTaken = (due.flatMap (·.2), { d with rights := rest }) := by
  have hhead : ∀ l : List (ℕ × List ρ), (∀ x ∈ l, d.taken ≤ x.1) →
      l.takeWhile (·.1 < d.taken) = [] ∧ l.dropWhile (·.1 < d.taken) = l := by
    intro l hl
    cases l with
    | nil => exact ⟨rfl, rfl⟩
    | cons x l =>
      have hx : ¬x.1 < d.taken := Nat.not_lt.mpr (hl x List.mem_cons_self)
      exact ⟨List.takeWhile_cons_of_neg (by simpa using hx), List.dropWhile_cons_of_neg (by simpa using hx)⟩
  have hall : ∀ x ∈ due, decide (x.1 < d.taken) = true := fun x hx => decide_eq_true (hdue x hx)
  unfold rightsTaken
  rw [hr, List.takeWhile_append_of_pos hall, List.dropWhile_append_of_pos hall, (hhead rest hrest).1, (hhead rest hrest).2,
    List.append_nil]

theorem batches_waiting (hi : d.RightsInv stream) : ∀ x ∈ batches (d.untaken stream), d.taken ≤ x.1 := by
  intro y hy
  obtain ⟨x, hx, h₁, -⟩ := mem_batches hy
  exact h₁ ▸ hi.waiting x hx

theorem rights_collect (hi : d.RightsInv stream) {i : ℕ} {t : Take ρ} (ht : d.takes[i]? = some t) (hg : t.given = none)
    (hothers : ∀ j, j ≠ i → ∀ u, d.takes[j]? = some u → u.given = none → u.owed = []) :
    RightsInv stream { d.rightsTaken.2 with takes := d.takes.set i { t with given := some d.rightsTaken.1 } } := by
  obtain ⟨due, hr, hdue, hpend⟩ := hi.rights
  have hlt : i < d.takes.length := (List.getElem?_eq_some_iff.mp ht).1
  have hsplit : d.takes = d.takes.take i ++ t :: d.takes.drop (i + 1) := by
    rw [← (List.getElem?_eq_some_iff.mp ht).2, List.cons_getElem_drop_succ, List.take_append_drop]
  -- no one else has anything to come
  have hrest : ∀ l : List (Take ρ), (∀ u ∈ l, u.given = none → u.owed = []) →
      (l.filter (·.given.isNone)).flatMap Take.owed = [] := by
    intro l hl
    rw [List.flatMap_eq_nil_iff]
    intro u hu
    obtain ⟨hm, hn⟩ := List.mem_filter.mp hu
    exact hl u hm (Option.isNone_iff_eq_none.mp hn)
  have hfirst : ((d.takes.take i).filter (·.given.isNone)).flatMap Take.owed = [] := by
    refine hrest _ fun u hu hn => ?_
    obtain ⟨j, hj, hju⟩ := List.mem_take_iff_getElem.mp hu
    exact hothers j (by omega) u (by rw [List.getElem?_eq_getElem (by omega), hju]) hn
  have hlast : ((d.takes.drop (i + 1)).filter (·.given.isNone)).flatMap Take.owed = [] := by
    refine hrest _ fun u hu hn => ?_
    obtain ⟨j, hj, hju⟩ := List.mem_drop_iff_getElem.mp hu
    exact hothers (i + 1 + j) (by omega) u (by rw [List.getElem?_eq_getElem (by omega), hju]) hn
  have howed : due.flatMap (·.2) = t.owed := by
    rw [hpend]
    unfold pending
    rw [hsplit, List.filter_append, List.filter_cons_of_pos (by rw [hg]; rfl), List.flatMap_append, List.flatMap_cons, hfirst, hlast,
      List.nil_append, List.append_nil]
  rw [rightsTaken_eq hr hdue (batches_waiting hi), howed]
  have hset : d.takes.set i { t with given := some t.owed } =
      d.takes.take i ++ { t with given := some t.owed } :: d.takes.drop (i + 1) := List.set_eq_take_cons_drop _ hlt
  refine ⟨hi.waiting, ⟨[], rfl, by simp, ?_⟩, ?_, ?_, ?_⟩
  · change [] = ((d.takes.set i _).filter (·.given.isNone)).flatMap Take.owed
    rw [hset, List.filter_append, List.filter_cons_of_neg (by simp), List.flatMap_append, hfirst, hlast, List.nil_append]
  · change (d.takes.set i _).flatMap Take.owed ++ (d.untaken stream).flatMap _ = d.log.flatMap _
    rw [← hi.once, hset]
    conv_rhs => rw [hsplit]
    simp only [List.flatMap_append, List.flatMap_cons]
  · intro u hu given hgiven
    rcases List.mem_or_eq_of_mem_set hu with h | rfl
    · exact hi.handed u h given hgiven
    · exact (Option.some.inj hgiven).symm
  · intro u hu hc
    rcases List.mem_or_eq_of_mem_set hu with h | rfl
    · exact hi.carried u h hc
    · exact hi.carried t (List.mem_of_getElem? ht) hc

theorem rights_relay (hi : d.RightsInv stream) {l : List (ℕ × Msg ρ)} (hp : Passes stream d d' l) {t : Take ρ}
    (hclear : ∀ x ∈ l, x.2.rights ≠ [] → x.2.bytes ≠ []) (hnone : ∀ u ∈ d.pending, u.owed = [])
    (ho : t.owed = l.flatMap (·.2.due stream)) (hc : t.carries) (hg : t.given = some d'.rightsTaken.1) :
    RightsInv stream { d'.rightsTaken.2 with takes := d'.takes ++ [t] } := by
  rw [owed_eq hclear] at ho
  obtain ⟨due, hr, hdue, hpend⟩ := hi.rights
  obtain ⟨hr', hdue'⟩ := due_passes hp hclear hr hdue
  have hpend' : d.pending.flatMap Take.owed = [] := List.flatMap_eq_nil_iff.mpr hnone
  have hrest : ∀ x ∈ batches (d'.untaken stream), d'.taken ≤ x.1 := by
    intro y hy
    obtain ⟨x, hx, h₁, -⟩ := mem_batches hy
    exact h₁ ▸ hp.waiting x hx
  have htaken := rightsTaken_eq hr' hdue' hrest
  have hgiven : d'.rightsTaken.1 = t.owed := by
    rw [htaken, List.flatMap_append, hpend, hpend', List.nil_append, batches_flatMap, ho]
  rw [htaken]
  refine ⟨hp.waiting, ⟨[], rfl, by simp, ?_⟩, ?_, ?_, ?_⟩
  · change [] = ((d'.takes ++ [t]).filter (·.given.isNone)).flatMap Take.owed
    rw [List.filter_append, List.filter_cons_of_neg (by rw [hg]; simp), List.filter_nil, List.append_nil, hp.takes]
    exact hpend'.symm
  · change (d'.takes ++ [t]).flatMap Take.owed ++ (d'.untaken stream).flatMap _ = d'.log.flatMap _
    have honce := hi.once
    rw [hp.untaken, List.flatMap_append, ← ho] at honce
    rw [hp.takes, hp.log, List.flatMap_append, List.flatMap_singleton, List.append_assoc]
    exact honce
  · intro u hu given hgu
    rcases List.mem_append.mp hu with h | h
    · exact hi.handed u (hp.takes ▸ h) given hgu
    · obtain rfl := List.mem_singleton.mp h
      rw [hg, hgiven] at hgu
      exact (Option.some.inj hgu).symm
  · intro u hu hcu
    rcases List.mem_append.mp hu with h | h
    · exact hi.carried u (hp.takes ▸ h) hcu
    · obtain rfl := List.mem_singleton.mp h
      rw [hc] at hcu
      cases hcu

/-! ## The bytes -/

structure BytesInv (stream other : Bool) (d : Dir ρ) : Prop where
  sent : d.sent = size d.log
  bound : size d.log < 2 ^ 64
  queued : d.taken + d.queue.flatten.length = size d.log
  short : stream = false → d.queue.length ≤ d.log.length
  bytes : stream → d.takes.flatMap Take.bytes ++ d.queue.flatten = d.log.flatMap Msg.bytes
  whole : stream = false → d.queue = (d.log.drop (d.log.length - d.queue.length)).map Msg.bytes
  at_ : stream = false → d.taken = size (d.log.take (d.log.length - d.queue.length))
  messages : stream = false →
    List.Forall₂ (fun t m => t.bytes = m.bytes.take t.room) (d.takes.filter (!·.ended)) (d.log.take (d.log.length - d.queue.length))
  ends : stream → ∀ t ∈ d.takes, t.room ≠ 0 → t.bytes = [] → other = false ∧ d.takes.flatMap Take.bytes = d.log.flatMap Msg.bytes

theorem untaken_send (hb : d.BytesInv stream other) (bytes : Bytes) (rights : List ρ) :
    (d.send bytes rights).untaken stream = d.untaken stream ++ [(d.sent, Msg.mk bytes rights)] := by
  have happend : starts 0 (d.log ++ [Msg.mk bytes rights]) = starts 0 d.log ++ [(d.sent, Msg.mk bytes rights)] := by
    rw [starts_append, hb.sent, Nat.zero_add]
    rfl
  unfold untaken
  cases stream with
  | true =>
    change (starts 0 (d.log ++ [Msg.mk bytes rights])).filter (d.taken ≤ ·.1) = _
    have hle : d.taken ≤ d.sent := by
      have := hb.queued
      have := hb.sent
      omega
    rw [happend, List.filter_append, List.filter_cons_of_pos (by simpa using hle), List.filter_nil]
    rfl
  | false =>
    change (starts 0 (d.log ++ [Msg.mk bytes rights])).drop ((d.log ++ [Msg.mk bytes rights]).length - (d.queue ++ [bytes]).length) = _
    have hshort := hb.short rfl
    have hlen : (d.log ++ [Msg.mk bytes rights]).length - (d.queue ++ [bytes]).length = d.log.length - d.queue.length := by
      rw [List.length_append, List.length_append, List.length_singleton, List.length_singleton]
      omega
    rw [hlen, happend, List.drop_append_of_le_length (by rw [starts_length]; omega)]
    rfl

theorem rights_send (hb : d.BytesInv stream other) (hi : d.RightsInv stream) (bytes : Bytes) (rights : List ρ) :
    RightsInv stream (d.send bytes rights) := by
  obtain ⟨due, hr, hdue, hpend⟩ := hi.rights
  have huntaken := untaken_send hb bytes rights
  refine ⟨?_, ⟨due, ?_, hdue, hpend⟩, ?_, hi.handed, hi.carried⟩
  · intro x hx
    rw [huntaken] at hx
    rcases List.mem_append.mp hx with h | h
    · exact hi.waiting x h
    · obtain rfl := List.mem_singleton.mp h
      have := hb.queued
      have := hb.sent
      change d.taken ≤ d.sent
      omega
  · rw [huntaken, batches_append, ← List.append_assoc, ← hr]
    change (if rights.isEmpty then d.rights else d.rights ++ [(d.sent, rights)]) = _
    cases rights with
    | nil => exact (List.append_nil _).symm
    | cons r rs => rfl
  · change d.takes.flatMap Take.owed ++ _ = (d.log ++ [Msg.mk bytes rights]).flatMap Msg.rights
    rw [huntaken, List.flatMap_append, ← List.append_assoc, hi.once, List.flatMap_append]
    rfl

theorem bytes_send (hb : d.BytesInv stream true) (bytes : Bytes) (rights : List ρ) (hfit : d.sent + bytes.length < 2 ^ 64) :
    BytesInv stream true (d.send bytes rights) := by
  have hsize : size (d.log ++ [Msg.mk bytes rights]) = size d.log + bytes.length := by
    rw [size_append, size_cons]
    rfl
  have hlen : (d.log ++ [Msg.mk bytes rights]).length - (d.queue ++ [bytes]).length = d.log.length - d.queue.length := by
    rw [List.length_append, List.length_append, List.length_singleton, List.length_singleton, Nat.add_sub_add_right]
  have htake : (d.log ++ [Msg.mk bytes rights]).take (d.log.length - d.queue.length) =
      d.log.take (d.log.length - d.queue.length) := List.take_append_of_le_length (Nat.sub_le _ _)
  have hfit' : size d.log + bytes.length < 2 ^ 64 := hb.sent ▸ hfit
  refine ⟨?_, ?_, ?_, fun hs => ?_, fun hs => ?_, fun hs => ?_, fun hs => ?_, fun hs => ?_, fun hs t ht hroom hnil => ?_⟩
  · change (d.sent + bytes.length) % 2 ^ 64 = size (d.log ++ _)
    rw [hsize, Nat.mod_eq_of_lt hfit, hb.sent]
  · change size (d.log ++ _) < _
    rw [hsize]
    exact hfit'
  · change d.taken + (d.queue ++ [bytes]).flatten.length = size (d.log ++ _)
    rw [hsize, List.flatten_append, List.length_append, ← hb.queued, List.flatten_singleton, Nat.add_assoc]
  · change (d.queue ++ [bytes]).length ≤ (d.log ++ _).length
    rw [List.length_append, List.length_append]
    exact Nat.add_le_add_right (hb.short hs) 1
  · change d.takes.flatMap Take.bytes ++ (d.queue ++ [bytes]).flatten = (d.log ++ [Msg.mk bytes rights]).flatMap Msg.bytes
    rw [List.flatten_append, ← List.append_assoc, hb.bytes hs, List.flatMap_append]
    rfl
  · have hdrop : (d.log ++ [Msg.mk bytes rights]).drop (d.log.length - d.queue.length) =
        d.log.drop (d.log.length - d.queue.length) ++ [Msg.mk bytes rights] := List.drop_append_of_le_length (Nat.sub_le _ _)
    change d.queue ++ [bytes] = ((d.log ++ [Msg.mk bytes rights]).drop
      ((d.log ++ [Msg.mk bytes rights]).length - (d.queue ++ [bytes]).length)).map Msg.bytes
    rw [hlen, hdrop, List.map_append, ← hb.whole hs]
    rfl
  · change d.taken = size ((d.log ++ [Msg.mk bytes rights]).take ((d.log ++ [Msg.mk bytes rights]).length - (d.queue ++ [bytes]).length))
    rw [hlen, htake]
    exact hb.at_ hs
  · change List.Forall₂ _ (d.takes.filter (!·.ended))
      ((d.log ++ [Msg.mk bytes rights]).take ((d.log ++ [Msg.mk bytes rights]).length - (d.queue ++ [bytes]).length))
    rw [hlen, htake]
    exact hb.messages hs
  · cases (hb.ends hs t ht hroom hnil).1

/-! ## A receive -/

/-- the position moves on over bytes that are queued -/
theorem taken_stream (hb : d.BytesInv stream other) {n : ℕ} (hn : n ≤ d.queue.flatten.length) :
    (d.taken + n) % 2 ^ 64 = d.taken + n := by
  have := hb.queued
  have := hb.bound
  exact Nat.mod_eq_of_lt (by omega)

theorem passes_stream (hb : d.BytesInv true other) {n : ℕ} (hn : n ≤ d.queue.flatten.length) (q : List Bytes) :
    Passes true d { d with queue := q, taken := (d.taken + n) % 2 ^ 64 } (d.passed true n) := by
  have hmod := taken_stream hb hn
  have huntaken : d.untaken true = d.passed true n ++ (starts 0 d.log).filter (d.taken + n ≤ ·.1) :=
    starts_split d.log 0 (Nat.le_add_right _ _)
  refine ⟨rfl, rfl, rfl, ?_, ?_, fun x hx _ => ?_, fun x hx => ?_⟩
  · change d.taken ≤ (d.taken + n) % 2 ^ 64
    rw [hmod]
    exact Nat.le_add_right _ _
  · change _ = _ ++ (starts 0 d.log).filter ((d.taken + n) % 2 ^ 64 ≤ ·.1)
    rw [hmod]
    exact huntaken
  · change x.1 < (d.taken + n) % 2 ^ 64
    rw [hmod]
    have := (List.mem_filter.mp hx).2
    simpa using this
  · have := (List.mem_filter.mp hx).2
    simpa using this

/-- the first queued message, where it starts -/
theorem untaken_cons (hb : d.BytesInv false other) {msg : Bytes} {q : List Bytes} (hq : d.queue = msg :: q) :
    ∃ rights rest, d.log.drop (d.log.length - d.queue.length) = ⟨msg, rights⟩ :: rest ∧
      d.untaken false = (d.taken, ⟨msg, rights⟩) :: starts (d.taken + msg.length) rest ∧
      d.log.length - q.length = d.log.length - d.queue.length + 1 ∧
      (starts 0 d.log).drop (d.log.length - q.length) = starts (d.taken + msg.length) rest := by
  have hwhole := hb.whole rfl
  have hshort := hb.short rfl
  have hlen : d.queue.length = q.length + 1 := by rw [hq, List.length_cons]
  have hnext : d.log.length - q.length = d.log.length - d.queue.length + 1 := by omega
  cases hdrop : d.log.drop (d.log.length - d.queue.length) with
  | nil =>
    rw [hdrop, hq] at hwhole
    cases hwhole
  | cons m rest =>
    rw [hdrop, hq, List.map_cons] at hwhole
    obtain ⟨bytes, rights⟩ := m
    obtain rfl : msg = bytes := (List.cons.inj hwhole).1
    have hstarts : (starts 0 d.log).drop (d.log.length - d.queue.length) =
        (d.taken, ⟨msg, rights⟩) :: starts (d.taken + msg.length) rest := by
      rw [starts_drop, hdrop, Nat.zero_add, ← hb.at_ rfl]
      rfl
    refine ⟨rights, rest, rfl, hstarts, hnext, ?_⟩
    rw [hnext, ← List.drop_drop, hstarts]
    rfl

/-- the position moves on over the first message -/
theorem taken_message (hb : d.BytesInv stream other) {msg : Bytes} {q : List Bytes} (hq : d.queue = msg :: q) :
    (d.taken + msg.length) % 2 ^ 64 = d.taken + msg.length := by
  refine taken_stream hb ?_
  rw [hq, List.flatten_cons, List.length_append]
  exact Nat.le_add_right _ _

theorem passes_message (hb : d.BytesInv false other) {msg : Bytes} {q : List Bytes} (hq : d.queue = msg :: q) (n : ℕ) :
    Passes false d { d with queue := q, taken := (d.taken + msg.length) % 2 ^ 64 } (d.passed false n) := by
  have hmod := taken_message hb hq
  obtain ⟨rights, rest, -, huntaken, -, hrest⟩ := untaken_cons hb hq
  have hpassed : d.passed false n = [(d.taken, ⟨msg, rights⟩)] := by
    change (d.untaken false).take 1 = _
    rw [huntaken]
    rfl
  refine ⟨rfl, rfl, rfl, ?_, ?_, fun x hx hne => ?_, fun x hx => ?_⟩
  · change d.taken ≤ (d.taken + msg.length) % 2 ^ 64
    rw [hmod]
    exact Nat.le_add_right _ _
  · change _ = _ ++ (starts 0 d.log).drop (d.log.length - q.length)
    rw [hpassed, hrest, huntaken]
    rfl
  · rw [hpassed] at hx
    obtain rfl := List.mem_singleton.mp hx
    change d.taken < (d.taken + msg.length) % 2 ^ 64
    rw [hmod]
    exact Nat.lt_add_of_pos_right (List.length_pos_iff.mpr hne)
  · change x ∈ (starts 0 d.log).drop (d.log.length - q.length) at hx
    change (d.taken + msg.length) % 2 ^ 64 ≤ x.1
    rw [hrest] at hx
    rw [hmod]
    exact starts_le x hx

theorem bytes_stream (hb : d.BytesInv true other) {b : Bytes} {q : List Bytes} (hq : b ++ q.flatten = d.queue.flatten) {t : Take ρ}
    (ht : t.bytes = b) (hend : t.room ≠ 0 → b = [] → other = false ∧ d.queue.flatten = []) (rights : List (ℕ × List ρ)) :
    BytesInv true other
      { d with queue := q, taken := (d.taken + b.length) % 2 ^ 64, rights := rights, takes := d.takes ++ [t] } := by
  have hlen : b.length + q.flatten.length = d.queue.flatten.length := by rw [← hq, List.length_append]
  have hmod : (d.taken + b.length) % 2 ^ 64 = d.taken + b.length := taken_stream hb (by omega)
  have hbytes : (d.takes ++ [t]).flatMap Take.bytes = d.takes.flatMap Take.bytes ++ b := by
    rw [List.flatMap_append, List.flatMap_singleton, ht]
  have hall : d.queue.flatten = [] → (d.takes ++ [t]).flatMap Take.bytes = d.log.flatMap Msg.bytes := by
    intro hnil
    have hlog := hb.bytes rfl
    rw [hnil, List.append_nil] at hlog
    rw [hnil, List.append_eq_nil_iff] at hq
    rw [hbytes, hq.1, List.append_nil, hlog]
  refine ⟨hb.sent, hb.bound, ?_, nofun, fun _ => ?_, nofun, nofun, nofun, ?_⟩
  · change (d.taken + b.length) % 2 ^ 64 + q.flatten.length = size d.log
    have := hb.queued
    rw [hmod]
    omega
  · change (d.takes ++ [t]).flatMap Take.bytes ++ q.flatten = _
    rw [hbytes, List.append_assoc, hq]
    exact hb.bytes rfl
  · intro _ u hu hroom hnil
    change u ∈ d.takes ++ [t] at hu
    change other = false ∧ (d.takes ++ [t]).flatMap Take.bytes = d.log.flatMap Msg.bytes
    rcases List.mem_append.mp hu with h | h
    · obtain ⟨hother, hlog⟩ := hb.ends rfl u h hroom hnil
      refine ⟨hother, hall ?_⟩
      have hsum := hb.bytes rfl
      rw [← hlog] at hsum
      exact List.append_right_eq_self.mp hsum
    · obtain rfl := List.mem_singleton.mp h
      obtain ⟨hother, hq'⟩ := hend hroom (ht ▸ hnil)
      exact ⟨hother, hall hq'⟩

theorem bytes_message (hb : d.BytesInv false other) {msg : Bytes} {q : List Bytes} (hq : d.queue = msg :: q) {t : Take ρ}
    (ht : t.bytes = msg.take t.room) (he : t.ended = false) (rights : List (ℕ × List ρ)) :
    BytesInv false other
      { d with queue := q, taken := (d.taken + msg.length) % 2 ^ 64, rights := rights, takes := d.takes ++ [t] } := by
  obtain ⟨sentWith, rest, hdrop, -, hnext, -⟩ := untaken_cons hb hq
  have htake : d.log.take (d.log.length - q.length) = d.log.take (d.log.length - d.queue.length) ++ [⟨msg, sentWith⟩] := by
    rw [hnext, List.take_add_one, ← List.head?_drop, hdrop]
    rfl
  have hrest : d.log.drop (d.log.length - q.length) = rest := by
    rw [hnext, ← List.drop_drop, hdrop]
    rfl
  refine ⟨hb.sent, hb.bound, ?_, fun _ => ?_, nofun, fun _ => ?_, fun _ => ?_, fun _ => ?_, nofun⟩
  · change (d.taken + msg.length) % 2 ^ 64 + q.flatten.length = _
    rw [taken_message hb hq, ← hb.queued, hq, List.flatten_cons, List.length_append, Nat.add_assoc]
  · have hshort := hb.short rfl
    rw [hq, List.length_cons] at hshort
    exact (Nat.le_succ _).trans hshort
  · change q = (d.log.drop (d.log.length - q.length)).map Msg.bytes
    have hwhole := hb.whole rfl
    rw [hdrop, hq, List.map_cons] at hwhole
    rw [hrest]
    exact (List.cons.inj hwhole).2
  · change (d.taken + msg.length) % 2 ^ 64 = size (d.log.take (d.log.length - q.length))
    rw [taken_message hb hq, htake, size_append, ← hb.at_ rfl, size_cons]
    rfl
  · change List.Forall₂ _ ((d.takes ++ [t]).filter (!·.ended)) (d.log.take (d.log.length - q.length))
    rw [htake, List.filter_append, List.filter_cons_of_pos (by rw [he]; rfl), List.filter_nil]
    exact List.rel_append (hb.messages rfl) (.cons ht .nil)

/-- the end of file -/
theorem bytes_end (hb : d.BytesInv stream other) (hq : d.queue = []) (ho : other = false) {t : Take ρ} (ht : t.bytes = [])
    (he : t.ended) : BytesInv stream other { d with takes := d.takes ++ [t] } := by
  have hbytes : (d.takes ++ [t]).flatMap Take.bytes = d.takes.flatMap Take.bytes := by
    rw [List.flatMap_append, List.flatMap_singleton, ht, List.append_nil]
  have hlog : stream → (d.takes ++ [t]).flatMap Take.bytes = d.log.flatMap Msg.bytes := by
    intro hs
    have h := hb.bytes hs
    rw [hq, List.flatten_nil, List.append_nil] at h
    rw [hbytes, h]
  refine ⟨hb.sent, hb.bound, hb.queued, hb.short, fun hs => ?_, hb.whole, hb.at_, fun hs => ?_, fun hs _ _ _ _ => ⟨ho, hlog hs⟩⟩
  · change (d.takes ++ [t]).flatMap Take.bytes ++ d.queue.flatten = _
    rw [hlog hs, hq, List.flatten_nil, List.append_nil]
  · change List.Forall₂ _ ((d.takes ++ [t]).filter (!·.ended)) _
    rw [List.filter_append, List.filter_cons_of_neg (by rw [he]; decide), List.filter_nil, List.append_nil]
    exact hb.messages hs

/-! ## A step -/

structure Inv (stream other : Bool) (d : Dir ρ) : Prop where
  bytes : d.BytesInv stream other
  rights : d.RightsInv stream

/-- a call that finds nothing takes no message -/
theorem passed_nil (hq : d.queue = []) : d.passed stream 0 = [] := by
  unfold passed
  cases stream with
  | true =>
    rw [if_pos rfl, List.filter_eq_nil_iff]
    intro x hx
    have := (List.mem_filter.mp hx).2
    simpa using this
  | false =>
    unfold untaken
    rw [if_neg (by decide), if_neg (by decide), hq, List.length_nil, Nat.sub_zero, List.drop_of_length_le (starts_length _ _).le,
      List.take_nil]

theorem inv_receive (hi : d.Inv stream other) {room : ℕ} {carries ok : Bool}
    (hclear : d.Clear stream (min room (d.available stream)) carries) (hok : ok ∨ min room (d.available stream) = 0)
    (hempty : stream → room ≠ 0 → d.queue ≠ [] → other → d.available stream ≠ 0) :
    Inv stream other (d.receiveBy stream other room carries ok) := by
  unfold receiveBy receive
  cases hq : d.queue with
  | nil =>
    dsimp only
    cases other with
    | true => exact hi
    | false =>
      rw [if_neg (by decide)]
      dsimp only
      rw [if_pos (by rw [List.isEmpty_nil, Bool.or_true])]
      have hnil : d.passed stream 0 = [] := passed_nil hq
      have hp : Passes stream d d (d.passed stream 0) := by
        rw [hnil]
        exact ⟨rfl, rfl, rfl, le_rfl, rfl, by simp, hi.rights.waiting⟩
      exact ⟨bytes_end hi.bytes hq rfl rfl rfl, rights_receive hi.rights hp (by rw [hnil]; simp) rfl rfl⟩
  | cons msg q =>
    dsimp only
    cases stream with
    | true =>
      rw [if_pos rfl, ← hq]
      dsimp only
      have havail : d.available true = d.queue.flatten.length := rfl
      have hlen : (fill d.queue room).1.length = min room (d.available true) := by rw [fill_length, havail]
      have hwrite : (ok || (fill d.queue room).1.isEmpty) = true := by
        rcases hok with h | h
        · rw [h, Bool.true_or]
        · rw [← hlen, List.length_eq_zero_iff] at h
          rw [h, List.isEmpty_nil, Bool.or_true]
      rw [if_pos hwrite]
      refine ⟨bytes_stream hi.bytes (fill_append _ _) rfl (fun hroom hnil => ?_) d.rights,
        rights_receive hi.rights (passes_stream hi.bytes (fill_short _ _) _) (fun x hx => ?_) rfl rfl⟩
      · rw [hnil, List.length_nil, havail] at hlen
        have hnone : d.queue.flatten = [] := by
          refine List.length_eq_zero_iff.mp ?_
          rcases Nat.min_eq_zero_iff.mp hlen.symm with h | h
          · exact absurd h hroom
          · exact h
        refine ⟨?_, hnone⟩
        by_contra hne
        exact hempty rfl hroom (by rw [hq]; exact List.cons_ne_nil _ _) (Bool.eq_true_of_not_eq_false hne)
          (by rw [havail, hnone, List.length_nil])
      · exact hclear x (hlen ▸ hx)
    | false =>
      rw [if_neg (by decide)]
      dsimp only
      have hlen : (msg.take room).length = min room (d.available false) := by
        rw [List.length_take]
        unfold available
        rw [if_neg (by decide), hq, List.headD_cons]
      have hwrite : (ok || (msg.take room).isEmpty) = true := by
        rcases hok with h | h
        · rw [h, Bool.true_or]
        · rw [← hlen, List.length_eq_zero_iff] at h
          rw [h, List.isEmpty_nil, Bool.or_true]
      rw [if_pos hwrite]
      exact ⟨bytes_message hi.bytes hq rfl rfl d.rights, rights_receive hi.rights (passes_message hi.bytes hq _) hclear rfl rfl⟩

theorem inv_relay (hi : d.Inv stream other) (hclear : d.Clear stream (d.available stream) true) (hnone : ∀ t ∈ d.pending, t.owed = []) :
    Inv stream other (d.relay stream) := by
  have hne : ∀ x ∈ d.passed stream (d.available stream), x.2.rights ≠ [] → x.2.bytes ≠ [] := fun x hx h => (hclear x hx h).1
  unfold relay take
  cases hq : d.queue with
  | nil => exact hi
  | cons msg q =>
    dsimp only
    cases stream with
    | true =>
      rw [if_pos rfl, ← hq]
      dsimp only
      refine ⟨bytes_stream (b := d.queue.flatten) (q := []) hi.bytes (List.append_nil _) rfl (fun hroom hnil => ?_) _,
        rights_relay hi.rights (passes_stream hi.bytes le_rfl []) hne hnone rfl rfl rfl⟩
      · exact absurd (List.length_eq_zero_iff.mpr hnil) hroom
    | false =>
      rw [if_neg (by decide)]
      dsimp only
      refine ⟨bytes_message hi.bytes hq ?_ rfl _, rights_relay hi.rights (passes_message hi.bytes hq _) hne hnone rfl rfl rfl⟩
      exact List.take_length.symm

/-- coming to the descriptors changes nothing about the bytes -/
theorem bytes_collect (hb : d.BytesInv stream other) {i : ℕ} {t u : Take ρ} (ht : d.takes[i]? = some t) (hroom : u.room = t.room)
    (hbytes : u.bytes = t.bytes) (hended : u.ended = t.ended) (rights : List (ℕ × List ρ)) :
    BytesInv stream other { d with rights := rights, takes := d.takes.set i u } := by
  have hlt : i < d.takes.length := (List.getElem?_eq_some_iff.mp ht).1
  have hsplit : d.takes = d.takes.take i ++ t :: d.takes.drop (i + 1) := by
    rw [← (List.getElem?_eq_some_iff.mp ht).2, List.cons_getElem_drop_succ, List.take_append_drop]
  have hset : d.takes.set i u = d.takes.take i ++ u :: d.takes.drop (i + 1) := List.set_eq_take_cons_drop _ hlt
  have hall : (d.takes.set i u).flatMap Take.bytes = d.takes.flatMap Take.bytes := by
    rw [hset]
    conv_rhs => rw [hsplit]
    simp only [List.flatMap_append, List.flatMap_cons, hbytes]
  refine ⟨hb.sent, hb.bound, hb.queued, hb.short, fun hs => ?_, hb.whole, hb.at_, fun hs => ?_, fun hs v hv hvroom hnil => ?_⟩
  · change (d.takes.set i u).flatMap Take.bytes ++ _ = _
    rw [hall]
    exact hb.bytes hs
  · have hview : ((d.takes.set i u).filter (!·.ended)).map (fun t => (t.room, t.bytes)) =
        (d.takes.filter (!·.ended)).map fun t => (t.room, t.bytes) := by
      rw [hset]
      conv_rhs => rw [hsplit]
      rw [List.filter_append, List.filter_append, List.map_append, List.map_append]
      congr 1
      rw [List.filter_cons, List.filter_cons, hended]
      split_ifs
      · rw [List.map_cons, List.map_cons, hroom, hbytes]
      · rfl
    have hm := hb.messages hs
    change List.Forall₂ (fun (t : Take ρ) (m : Msg ρ) => (t.room, t.bytes).2 = m.bytes.take (t.room, t.bytes).1) _ _ at hm
    rw [← List.forall₂_map_left_iff (R := fun (x : ℕ × Bytes) (m : Msg ρ) => x.2 = m.bytes.take x.1), ← hview,
      List.forall₂_map_left_iff] at hm
    exact hm
  · change _ ∧ (d.takes.set i u).flatMap Take.bytes = _
    rw [hall]
    rcases List.mem_or_eq_of_mem_set hv with h | rfl
    · exact hb.ends hs v h hvroom hnil
    · exact hb.ends hs t (List.mem_of_getElem? ht) (hroom ▸ hvroom) (hbytes ▸ hnil)

theorem inv_collect (hi : d.Inv stream other) {i : ℕ} {ok : Bool} (hok : ok)
    (hothers : ∀ j, j ≠ i → ∀ t, d.takes[j]? = some t → t.given = none → t.owed = []) : Inv stream other (d.collect i ok) := by
  unfold collect
  cases ht : d.takes[i]? with
  | none => exact hi
  | some t =>
    dsimp only
    by_cases hg : t.given.isNone
    · rw [if_pos hg, if_pos hok]
      exact ⟨bytes_collect (u := { t with given := some d.rightsTaken.1 }) hi.bytes ht rfl rfl rfl _, rights_collect hi.rights ht (Option.isNone_iff_eq_none.mp hg) hothers⟩
    · rw [if_neg hg]
      exact hi

theorem inv_send (hi : d.Inv stream true) (bytes : Bytes) (rights : List ρ) (hfit : d.sent + bytes.length < 2 ^ 64) :
    Inv stream true (d.send bytes rights) :=
  ⟨bytes_send hi.bytes bytes rights hfit, rights_send hi.bytes hi.rights bytes rights⟩

/-- the other end is closed -/
theorem inv_close (hi : d.Inv stream true) : Inv stream false d := by
  refine ⟨⟨hi.bytes.sent, hi.bytes.bound, hi.bytes.queued, hi.bytes.short, hi.bytes.bytes, hi.bytes.whole, hi.bytes.at_,
    hi.bytes.messages, fun hs t ht hroom hnil => ?_⟩, hi.rights⟩
  cases (hi.bytes.ends hs t ht hroom hnil).1

theorem inv_new (stream other : Bool) : Inv stream other ({} : Dir ρ) := by
  have hnil : ({} : Dir ρ).untaken stream = [] := by cases stream <;> rfl
  refine ⟨⟨rfl, Nat.two_pow_pos 64, rfl, fun _ => le_rfl, fun _ => rfl, fun _ => rfl, fun _ => rfl, fun _ => .nil, ?_⟩,
    ⟨?_, ⟨[], ?_, ?_, rfl⟩, ?_, ?_, ?_⟩⟩
  · exact fun _ t ht => absurd ht List.not_mem_nil
  · rw [hnil]
    exact fun x hx => absurd hx List.not_mem_nil
  · rw [hnil]
    rfl
  · exact fun x hx => absurd hx List.not_mem_nil
  · rw [hnil]
    rfl
  · exact fun t ht => absurd ht List.not_mem_nil
  · exact fun t ht => absurd ht List.not_mem_nil

theorem delivered_of (hi : d.Inv stream other) : d.Delivered stream other := by
  refine ⟨fun hs => ⟨_, hi.bytes.bytes hs⟩, fun hs => ⟨_, hi.bytes.messages hs⟩, hi.bytes.ends, hi.rights.handed, hi.rights.carried,
    ⟨_, hi.rights.once⟩, ?_⟩
  obtain ⟨due, hr, -, hdue⟩ := hi.rights.rights
  rw [hr, List.flatMap_append, hdue, batches_flatMap]

end Dir

namespace World

variable {ρ : Type} {w : World ρ}

def Inv (w : World ρ) : Prop := ∀ side, (w.dirs side).Inv w.stream (w.openEnd !side)

theorem inv_put (hi : w.Inv) {side : Bool} {d : Dir ρ} (hd : d.Inv w.stream (w.openEnd !side)) : (w.put side d).Inv := by
  intro side'
  change (Function.update w.dirs side d side').Inv w.stream (w.openEnd !side')
  by_cases h : side' = side
  · rw [h, Function.update_self]
    exact hd
  · rw [Function.update_of_ne h]
    exact hi side'

theorem step_inv (hi : w.Inv) (a : Act ρ) (ho : w.steady a) : (w.step a).Inv := by
  cases a with
  | send side bytes rights =>
    simp only [step]
    split_ifs with h
    · refine inv_put hi ?_
      have hopen : w.openEnd !!side := by
        rw [Bool.not_not]
        exact (Bool.and_eq_true_iff.mp h).1
      have hd := hi !side
      rw [hopen] at hd ⊢
      exact Dir.inv_send hd bytes rights ho
    · exact hi
  | receive side room carries ok =>
    simp only [step]
    split_ifs
    · exact inv_put hi (Dir.inv_receive (hi side) ho.1 ho.2.1 ho.2.2)
    · exact hi
  | collect side i ok =>
    simp only [step]
    split_ifs
    · exact inv_put hi (Dir.inv_collect (hi side) ho.1 ho.2)
    · exact hi
  | relay side =>
    simp only [step]
    split_ifs
    · exact inv_put hi (Dir.inv_relay (hi side) ho.1 ho.2)
    · exact hi
  | close side =>
    simp only [step]
    split_ifs
    · intro side'
      change (w.dirs side').Inv w.stream (Function.update w.openEnd side false !side')
      by_cases h : (!side') = side
      · rw [h, Function.update_self]
        have hd := hi side'
        cases ho' : w.openEnd !side' with
        | true =>
          rw [ho'] at hd
          exact Dir.inv_close hd
        | false =>
          rw [ho'] at hd
          exact hd
      · rw [Function.update_of_ne h]
        exact hi side'
    · exact hi

end World

/-- **Pairs deliver.** In every run in which descriptors travel with a byte and are taken by calls that can carry them, one at a time, no
receive finds only empty messages on an open stream, and what is received can be written. -/
theorem pair_delivers {ρ : Type} {stream : Bool} {w : World ρ} (h : Reach World.step World.steady (World.new stream) w) : w.Delivers := by
  have hi : w.Inv := h.invariant World.Inv (fun _ => Dir.inv_new _ _) fun _ a _ ho hs => World.step_inv hs a ho
  exact fun side => Dir.delivered_of (hi side)

/-! ## Runs -/

/-- no one but the `i`-th has descriptors to come -/
theorem others_iff {ρ : Type} (takes : List (Take ρ)) (i : ℕ) :
    (∀ x ∈ takes.zipIdx, x.2 ≠ i → x.1.given = none → x.1.owed = []) ↔
      ∀ j, j ≠ i → ∀ t, takes[j]? = some t → t.given = none → t.owed = [] := by
  constructor
  · exact fun h j hj t ht => h (t, j) (List.mem_zipIdx_iff_getElem?.mpr ht) hj
  · exact fun h x hx hne => h x.2 hne x.1 (List.mem_zipIdx_iff_getElem?.mp hx)

section Runs

variable {ρ : Type} [DecidableEq ρ]

instance decClear (stream : Bool) (d : Dir ρ) (n : ℕ) (carries : Bool) : Decidable (d.Clear stream n carries) :=
  inferInstanceAs (Decidable (∀ x ∈ d.passed stream n, x.2.rights ≠ [] → x.2.bytes ≠ [] ∧ carries))

instance decSteady (w : World ρ) : (a : Act ρ) → Decidable (w.steady a)
  | .send side bytes _ => inferInstanceAs (Decidable ((w.dirs !side).sent + bytes.length < 2 ^ 64))
  | .receive side room carries ok =>
    inferInstanceAs (Decidable ((w.dirs side).Clear w.stream (min room ((w.dirs side).available w.stream)) carries ∧
      (ok ∨ min room ((w.dirs side).available w.stream) = 0) ∧
      (w.stream → room ≠ 0 → (w.dirs side).queue ≠ [] → w.openEnd !side → (w.dirs side).available w.stream ≠ 0)))
  | .collect side i ok => decidable_of_iff (ok ∧ _) (and_congr_right' (others_iff (w.dirs side).takes i))
  | .relay side =>
    inferInstanceAs (Decidable ((w.dirs side).Clear w.stream ((w.dirs side).available w.stream) true ∧
      ∀ t ∈ (w.dirs side).pending, t.owed = []))
  | .close _ => .isTrue trivial

end Runs

/-- two messages, one with descriptors, read a part at a time by two threads, until the sender's end is closed -/
def inParts : List (Act ℕ) :=
  [.send false [1, 2] [], .send false [3, 4, 5] [7, 8], .receive true 1 false true, .receive true 2 true true, .collect true 1 true,
    .receive true 9 false true, .send true [6] [9], .relay false, .close false, .receive true 9 true true, .collect true 3 true]

theorem pair_delivers_parts : (run World.step (World.new true) inParts).Delivers :=
  pair_delivers (.run .start inParts (by decide))

/-- a `read` takes the message, and a `recvmsg` comes after it -/
def plainRead : List (Act ℕ) := [.send false [1] [7], .receive true 9 false true, .send false [2] [], .receive true 9 true true, .collect true 1 true]

/-- two threads receive a message each before either comes to its descriptors -/
def twoReceive : List (Act ℕ) :=
  [.send false [1] [7], .receive true 1 true true, .send false [2] [8], .receive true 1 true true, .collect true 1 true]

/-- an empty message with descriptors -/
def emptyRights : List (Act ℕ) := [.send false [] [7], .receive true 9 true true, .collect true 0 true]

/-- an empty message on a stream -/
def emptySend : List (Act ℕ) := [.send false [] [], .receive true 9 false true]

/-- the caller's table is full when the descriptors are inserted -/
def notInserted : List (Act ℕ) := [.send false [1] [7], .receive true 9 true true, .collect true 0 false]

/-- **What goes wrong.** Descriptors that a `read` leaves to the next `recvmsg`, that another receive takes, or that stay behind an empty
message; a stream that ends while it is open; and a message whose descriptors are lost. -/
theorem pair_mixes :
    ¬(run World.step (World.new true) plainRead).Delivers ∧ ¬(run World.step (World.new false) twoReceive).Delivers ∧
      ¬(run World.step (World.new false) emptyRights).Delivers ∧ ¬(run World.step (World.new true) emptySend).Delivers ∧
      ¬(run World.step (World.new false) notInserted).Delivers := by
  refine ⟨fun h => ?_, fun h => ?_, fun h => ?_, fun h => ?_, fun h => ?_⟩
  · exact absurd (h true).carried (by decide)
  · have hg := (h true).handed ⟨1, true, [2], false, [8], some [7, 8]⟩ (by decide) [7, 8] rfl
    cases hg
  · exact absurd (h true).kept (by decide)
  · have he := (h true).ends (by decide) ⟨9, false, [], false, [], some []⟩ (by decide) (by decide) rfl
    exact absurd he.1 (by decide)
  · have hg := (h true).handed ⟨9, true, [], false, [7], some []⟩ (by decide) [] rfl
    cases hg

end Omnidroid.Pair
