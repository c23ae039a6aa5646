/-
The property service's mappings (`attach`, `watch`, `set_inner`, `delete` of `omni-linux/src/props.rs`): a change is made under
the service's lock and then written into every mapping, one at a time, under a lock of its own.

Any number of threads change properties; processes map the areas at any time, unmap them, and end. One step is one hold of the service's
lock or the write of one mapping.
- `shown`: what a mapping is to hold. `Mapping.write` is `kernel_write` of a change.
- `Ordered`: changes reach a mapping in the order they were made. Every run keeps it.
- `World.steady`, `Fresh`: whole mappings, that each write reaches, hold the area as it is, or are about to be written.
- `mappings_follow`: both, over every run. `mappings_stale`: without the condition, not so.
-/
import Mathlib.Data.List.GetD
import Omnidroid.Lib.Run
import Omnidroid.Props.Service

namespace Omnidroid.Props

open Bytes

/-! ## Mappings -/

structure Mapping where
  process : ℕ := 0
  /-- of `properties_serial`, not of the area -/
  serial : Bool := false
  /-- where in the file it begins -/
  offset : ℕ := 0
  memory : Bytes := []
  /-- history: which changes reached it, the last one first; the one it began from too -/
  landed : List ℕ := []

/-- the file that is mapped -/
def image (l : Live) (serial : Bool) : Bytes :=
  if serial then Area.new.bytes l.serial 0 else l.area.bytes l.serial l.capacity

/-- what a mapping of `len` bytes from `offset` on shows of a file; zeros past its end -/
def fit (offset len : ℕ) (b : Bytes) : Bytes := (b.drop offset).take len ++ zeros (len - (b.length - offset))

def shown (l : Live) (m : Mapping) : Bytes := fit m.offset m.memory.length (image l m.serial)

/-- how much of the file a change writes: its header, or up to the end of the data; all of it with `OMNI_PROP_FULL_COPY` -/
def used (fullCopy : Bool) (l : Live) (serial : Bool) : ℕ :=
  if serial then HEADER
  else if fullCopy then (image l serial).length
  else min (HEADER + l.area.data.length) (image l serial).length

/-- `kernel_write` at the mapping's start: what is past its end falls on what is mapped after it -/
def Mapping.write (m : Mapping) (bs : Bytes) (version : ℕ) : Mapping :=
  { m with memory := patch m.memory 0 (bs.take m.memory.length), landed := version :: m.landed }

/-! ## The machine -/

inductive Pc where
  | idle
  /-- about to take the publishing lock, then to make the change, then to write the mappings left -/
  | waits (change : Change)
  | changes (change : Change)
  | copies (version : ℕ) (l : Live) (targets : List ℕ)

structure World where
  fullCopy : Bool
  live : Live
  /-- history: how many changes were made -/
  version : ℕ := 0
  maps : ℕ → Mapping := fun _ => {}
  nextMap : ℕ := 0
  /-- the mappings that changes are written to -/
  mappings : List ℕ := []
  alive : ℕ → Bool := fun _ => true
  /-- whether a mapping is there still; the service is not told -/
  mapped : ℕ → Bool := fun _ => true
  publish : Option ℕ := none
  threads : ℕ → Pc := fun _ => .idle

inductive Act where
  | call (t : ℕ) (op : Op)
  /-- the thread's next step; whether a write of a mapping fails -/
  | move (t : ℕ) (fails : Bool)
  /-- a process maps `len` bytes of a file from `offset` on -/
  | attach (process : ℕ) (serial : Bool) (offset len : ℕ)
  /-- changes are written to a mapping there was, from now on -/
  | watch (process : ℕ) (serial : Bool) (offset : ℕ) (memory : Bytes)
  | unmap (id : ℕ)
  | ends (process : ℕ)

namespace World

def goTo (w : World) (t : ℕ) (pc : Pc) : World := { w with threads := Function.update w.threads t pc }

def targets (w : World) : List ℕ := w.mappings.filter fun id => w.alive (w.maps id).process

/-- the service's lock held for a change: what there is to write, and where -/
def change (w : World) (t : ℕ) (ch : Change) : World :=
  match w.live.apply ch with
  | none => { w with publish := none }.goTo t .idle
  | some live =>
    { w with live, version := w.version + 1, mappings := w.targets }.goTo t (.copies (w.version + 1) live w.targets)

def writeTo (w : World) (version : ℕ) (l : Live) (id : ℕ) : World :=
  let m := w.maps id
  { w with maps := Function.update w.maps id (m.write ((image l m.serial).take (used w.fullCopy l m.serial)) version) }

def move (w : World) (t : ℕ) (fails : Bool) : World :=
  match w.threads t with
  | .idle => w
  | .waits ch => if w.publish = none then { w with publish := some t }.goTo t (.changes ch) else w
  | .changes ch => w.change t ch
  | .copies version l (id :: targets) => (if fails then w else w.writeTo version l id).goTo t (.copies version l targets)
  | .copies _ _ [] => { w with publish := none }.goTo t .idle

def join (w : World) (m : Mapping) : World :=
  { w with
    maps := Function.update w.maps w.nextMap { m with landed := [w.version] }
    nextMap := w.nextMap + 1
    mappings := w.mappings ++ [w.nextMap] }

def step (w : World) : Act → World
  | .call t op =>
    match w.threads t, op.change with
    | .idle, some ch => w.goTo t (.waits ch)
    | _, _ => w
  | .move t fails => w.move t fails
  | .attach process serial offset len => w.join { process, serial, offset, memory := fit offset len (image w.live serial) }
  | .watch process serial offset memory => w.join { process, serial, offset, memory }
  | .unmap id => { w with mapped := Function.update w.mapped id false }
  | .ends process => { w with alive := Function.update w.alive process false }

/-- a mapping there is, of a process that there is -/
def lives (w : World) (id : ℕ) : Bool := w.alive (w.maps id).process && w.mapped id

/-- mappings begin at a file's start, and one that is watched holds what is in the file; a change reaches every mapping
that lives, whole -/
def steady (w : World) : Act → Prop
  | .attach _ _ offset _ => offset = 0
  | .watch _ serial offset memory => offset = 0 ∧ memory = fit 0 memory.length (image w.live serial)
  | .move t fails =>
    match w.threads t with
    | .copies _ l (id :: _) =>
      w.lives id = true →
        fails = false ∧ used w.fullCopy l (w.maps id).serial ≤ (w.maps id).memory.length
    | _ => True
  | _ => True

theorem steady.of_copies {w : World} {t v id : ℕ} {l : Live} {targets : List ℕ} {fails : Bool} (h : w.steady (.move t fails))
    (ht : w.threads t = .copies v l (id :: targets)) (ha : w.lives id = true) :
    fails = false ∧ used w.fullCopy l (w.maps id).serial ≤ (w.maps id).memory.length := by
  simp only [steady, ht] at h
  exact h ha

/-- a property service with a live area, and no mapping of it -/
def init (fullCopy : Bool) (live : Live) : World := { fullCopy, live }

end World

/-! ## The order of changes -/

/-- a thread in it holds the publishing lock -/
def Pc.busy : Pc → Bool
  | .idle | .waits _ => false
  | .changes _ | .copies .. => true

structure Ordered (w : World) : Prop where
  locked : ∀ t, (w.threads t).busy = true → w.publish = some t
  known : ∀ id ∈ w.mappings, id < w.nextMap
  nodup : w.mappings.Nodup
  /-- what is being written is the last change, and where it is still to be written only older ones are -/
  last : ∀ t v l targets, w.threads t = .copies v l targets → v = w.version ∧ l = w.live ∧ targets.Nodup ∧
    ∀ id ∈ targets, id < w.nextMap ∧ ∀ x ∈ (w.maps id).landed, x < v
  landed : ∀ id, (w.maps id).landed.Pairwise (· > ·) ∧ ∀ x ∈ (w.maps id).landed, x ≤ w.version

section Moves

variable {w : World} {t u id : ℕ} {pc : Pc}

theorem goTo_self : (w.goTo t pc).threads t = pc := Function.update_self ..

theorem goTo_other (hu : u ≠ t) : (w.goTo t pc).threads u = w.threads u := Function.update_of_ne hu ..

theorem writeTo_self (v : ℕ) (l : Live) : (w.writeTo v l id).maps id =
    (w.maps id).write ((image l (w.maps id).serial).take (used w.fullCopy l (w.maps id).serial)) v := Function.update_self ..

theorem writeTo_other {id' : ℕ} (hne : id' ≠ id) (v : ℕ) (l : Live) : (w.writeTo v l id).maps id' = w.maps id' :=
  Function.update_of_ne hne ..

theorem join_self (m : Mapping) : (w.join m).maps w.nextMap = { m with landed := [w.version] } := Function.update_self ..

theorem join_other (hne : id ≠ w.nextMap) (m : Mapping) : (w.join m).maps id = w.maps id := Function.update_of_ne hne ..

theorem mem_targets : id ∈ w.targets ↔ id ∈ w.mappings ∧ w.alive (w.maps id).process = true := List.mem_filter

/-- what a thread's step can be -/
theorem move_cases (w : World) (t : ℕ) (fails : Bool) :
    w.move t fails = w ∨
    (∃ ch, w.threads t = .waits ch ∧ w.publish = none ∧ w.move t fails = { w with publish := some t }.goTo t (.changes ch)) ∨
    (∃ ch, w.threads t = .changes ch ∧ w.live.apply ch = none ∧ w.move t fails = { w with publish := none }.goTo t .idle) ∨
    (∃ ch live, w.threads t = .changes ch ∧ w.live.apply ch = some live ∧ w.move t fails =
      { w with live, version := w.version + 1, mappings := w.targets }.goTo t (.copies (w.version + 1) live w.targets)) ∨
    (∃ v l id targets, w.threads t = .copies v l (id :: targets) ∧ fails = true ∧
      w.move t fails = w.goTo t (.copies v l targets)) ∨
    (∃ v l id targets, w.threads t = .copies v l (id :: targets) ∧ fails = false ∧
      w.move t fails = (w.writeTo v l id).goTo t (.copies v l targets)) ∨
    ∃ v l, w.threads t = .copies v l [] ∧ w.move t fails = { w with publish := none }.goTo t .idle := by
  unfold World.move
  cases ht : w.threads t with
  | idle => exact .inl rfl
  | waits ch =>
    simp only
    split
    · next hfree => exact .inr (.inl ⟨ch, rfl, hfree, rfl⟩)
    · exact .inl rfl
  | changes ch =>
    simp only [World.change]
    cases hch : w.live.apply ch with
    | none => exact .inr (.inr (.inl ⟨ch, rfl, hch, rfl⟩))
    | some live => exact .inr (.inr (.inr (.inl ⟨ch, live, rfl, hch, rfl⟩)))
  | copies v l targets =>
    cases targets with
    | nil => exact .inr (.inr (.inr (.inr (.inr (.inr ⟨v, l, rfl, rfl⟩)))))
    | cons id targets =>
      cases fails with
      | true => exact .inr (.inr (.inr (.inr (.inl ⟨v, l, id, targets, rfl, rfl, rfl⟩))))
      | false => exact .inr (.inr (.inr (.inr (.inr (.inl ⟨v, l, id, targets, rfl, rfl, rfl⟩)))))

/-- while the lock is free, or a thread has it, no other one is in a change -/
theorem Ordered.alone (h : Ordered w) (hp : w.publish = none ∨ w.publish = some t) (hu : u ≠ t) : (w.threads u).busy = false := by
  rw [← Bool.not_eq_true]
  intro hb
  have hlock := h.locked u hb
  rcases hp with hp | hp
  · cases hp.symm.trans hlock
  · exact hu (Option.some.inj (hlock.symm.trans hp))

theorem Ordered.lock (h : Ordered w) (ht : (w.threads t).busy = true) : w.publish = none ∨ w.publish = some t := .inr (h.locked t ht)

/-- a step of the thread that has the lock, or takes it: of what the threads are at, only what it goes to matters -/
theorem Ordered.goTo {w' : World} (h : Ordered w) (hp : w.publish = none ∨ w.publish = some t) (hth : w'.threads = w.threads)
    (hbusy : pc.busy = true → w'.publish = some t) (hknown : ∀ id ∈ w'.mappings, id < w'.nextMap) (hnodup : w'.mappings.Nodup)
    (hlast : ∀ v l targets, pc = .copies v l targets → v = w'.version ∧ l = w'.live ∧ targets.Nodup ∧
      ∀ id ∈ targets, id < w'.nextMap ∧ ∀ x ∈ (w'.maps id).landed, x < v)
    (hlanded : ∀ id, (w'.maps id).landed.Pairwise (· > ·) ∧ ∀ x ∈ (w'.maps id).landed, x ≤ w'.version) :
    Ordered (w'.goTo t pc) := by
  have hout : ∀ u, u ≠ t → ((w'.goTo t pc).threads u).busy = false := by
    intro u hu
    rw [goTo_other hu, hth]
    exact h.alone hp hu
  refine ⟨?_, hknown, hnodup, ?_, hlanded⟩
  · intro u hb
    rcases eq_or_ne u t with rfl | hu
    · rw [goTo_self] at hb
      exact hbusy hb
    · rw [hout u hu] at hb
      cases hb
  · intro u v l targets hu
    rcases eq_or_ne u t with rfl | hut
    · rw [goTo_self] at hu
      exact hlast v l targets hu
    · have := hout u hut
      rw [hu] at this
      cases this

theorem Ordered.move (h : Ordered w) (t : ℕ) (fails : Bool) : Ordered (w.move t fails) := by
  rcases move_cases w t fails with he | ⟨ch, -, hfree, he⟩ | ⟨ch, ht, -, he⟩ | ⟨ch, live, ht, -, he⟩ | ⟨v, l, id, targets, ht, -, he⟩ |
    ⟨v, l, id, targets, ht, -, he⟩ | ⟨v, l, ht, he⟩
  · rw [he]
    exact h
  · rw [he]
    exact h.goTo (.inl hfree) rfl (fun _ => rfl) h.known h.nodup nofun h.landed
  · rw [he]
    exact h.goTo (h.lock (by rw [ht]; rfl)) rfl nofun h.known h.nodup nofun h.landed
  · have hlock : w.publish = some t := h.locked t (by rw [ht]; rfl)
    rw [he]
    refine h.goTo (.inr hlock) rfl (fun _ => hlock) ?_ (h.nodup.filter _) ?_ ?_
    · intro id hid
      exact h.known id (mem_targets.mp hid).1
    · rintro v l targets ⟨rfl, rfl, rfl⟩
      refine ⟨rfl, rfl, h.nodup.filter _, ?_⟩
      intro id hid
      exact ⟨h.known id (mem_targets.mp hid).1, fun x hx => Nat.lt_succ_of_le ((h.landed id).2 x hx)⟩
    · intro id
      exact ⟨(h.landed id).1, fun x hx => Nat.le_succ_of_le ((h.landed id).2 x hx)⟩
  · have hlock : w.publish = some t := h.locked t (by rw [ht]; rfl)
    obtain ⟨hv, hl, hnodup, hold⟩ := h.last t v l _ ht
    rw [he]
    refine h.goTo (.inr hlock) rfl (fun _ => hlock) h.known h.nodup ?_ h.landed
    rintro v' l' targets' ⟨rfl, rfl, rfl⟩
    exact ⟨hv, hl, (List.nodup_cons.mp hnodup).2, fun id' hid' => hold id' (List.mem_cons_of_mem id hid')⟩
  · have hlock : w.publish = some t := h.locked t (by rw [ht]; rfl)
    obtain ⟨hv, hl, hnodup, hold⟩ := h.last t v l _ ht
    rw [List.nodup_cons] at hnodup
    rw [he]
    refine h.goTo (.inr hlock) rfl (fun _ => hlock) h.known h.nodup ?_ ?_
    · rintro v' l' targets' ⟨rfl, rfl, rfl⟩
      refine ⟨hv, hl, hnodup.2, ?_⟩
      intro id' hid'
      have hne : id' ≠ id := by
        rintro rfl
        exact hnodup.1 hid'
      rw [writeTo_other hne]
      exact hold id' (List.mem_cons_of_mem id hid')
    · intro id'
      rcases eq_or_ne id' id with rfl | hne
      · rw [writeTo_self]
        refine ⟨List.pairwise_cons.mpr ⟨(hold id' List.mem_cons_self).2, (h.landed id').1⟩, ?_⟩
        intro x hx
        rcases List.mem_cons.mp hx with rfl | hx
        · exact hv.le
        · exact (h.landed id').2 x hx
      · rw [writeTo_other hne]
        exact h.landed id'
  · rw [he]
    exact h.goTo (h.lock (by rw [ht]; rfl)) rfl nofun h.known h.nodup nofun h.landed

theorem Ordered.join (h : Ordered w) (m : Mapping) : Ordered (w.join m) := by
  refine ⟨h.locked, ?_, ?_, ?_, ?_⟩
  · intro id hid
    change id < w.nextMap + 1
    rcases List.mem_append.mp hid with hid | hid
    · exact Nat.lt_succ_of_lt (h.known id hid)
    · exact Nat.lt_succ_of_le (List.mem_singleton.mp hid).le
  · refine List.nodup_append'.mpr ⟨h.nodup, List.nodup_singleton _, ?_⟩
    intro id hid hnew
    have := h.known id hid
    have := List.mem_singleton.mp hnew
    omega
  · intro t v l targets ht
    obtain ⟨hv, hl, hnodup, hold⟩ := h.last t v l targets ht
    refine ⟨hv, hl, hnodup, ?_⟩
    intro id hid
    obtain ⟨hlt, hx⟩ := hold id hid
    rw [join_other hlt.ne]
    exact ⟨Nat.lt_succ_of_lt hlt, hx⟩
  · intro id
    rcases eq_or_ne id w.nextMap with rfl | hne
    · rw [join_self]
      exact ⟨List.pairwise_singleton .., fun x hx => (List.mem_singleton.mp hx).le⟩
    · rw [join_other hne]
      exact h.landed id

theorem Ordered.call (h : Ordered w) (t : ℕ) (ch : Change) : Ordered (w.goTo t (.waits ch)) := by
  refine ⟨?_, h.known, h.nodup, ?_, h.landed⟩
  · intro u hb
    rcases eq_or_ne u t with rfl | hu
    · rw [goTo_self] at hb
      cases hb
    · rw [goTo_other hu] at hb
      exact h.locked u hb
  · intro u v l targets hu
    rcases eq_or_ne u t with rfl | hut
    · rw [goTo_self] at hu
      cases hu
    · rw [goTo_other hut] at hu
      exact h.last u v l targets hu

theorem step_ordered (h : Ordered w) (a : Act) : Ordered (w.step a) := by
  cases a with
  | call t op =>
    simp only [World.step]
    split
    · next ch _ _ => exact h.call t ch
    · exact h
  | move t fails => exact h.move t fails
  | attach process serial offset len => exact h.join _
  | watch process serial offset memory => exact h.join _
  | unmap id => exact ⟨h.locked, h.known, h.nodup, h.last, h.landed⟩
  | ends process => exact ⟨h.locked, h.known, h.nodup, h.last, h.landed⟩

end Moves

theorem ordered_start (fullCopy : Bool) (live : Live) : Ordered (World.init fullCopy live) where
  locked := nofun
  known := nofun
  nodup := List.nodup_nil
  last := nofun
  landed _ := ⟨List.Pairwise.nil, nofun⟩

/-! ## What a mapping holds -/

section Fit

variable {b c : Bytes} {l l' : Live} {m : Mapping} {serial fullCopy : Bool} {i n : ℕ}

theorem eq_of_getD (hl : b.length = c.length) (h : ∀ i, b.getD i 0 = c.getD i 0) : b = c := by
  refine List.ext_getElem hl ?_
  intro i hb hc
  rw [← List.getD_eq_getElem b 0 hb, ← List.getD_eq_getElem c 0 hc]
  exact h i

theorem getD_zeros (n i : ℕ) : (zeros n).getD i 0 = 0 := by
  rcases lt_or_ge i n with hi | hi
  · rw [List.getD_eq_getElem _ _ (by simpa [zeros] using hi)]
    exact List.getElem_replicate ..
  · exact List.getD_eq_default _ _ (by simpa [zeros] using hi)

theorem getD_append_zeros (b : Bytes) (n i : ℕ) : (b ++ zeros n).getD i 0 = b.getD i 0 := by
  rcases lt_or_ge i b.length with hi | hi
  · exact List.getD_append b (zeros n) 0 i hi
  · rw [List.getD_append_right b (zeros n) 0 i hi, getD_zeros, List.getD_eq_default b 0 hi]

theorem length_fit (o n : ℕ) (b : Bytes) : (fit o n b).length = n := by
  simp only [fit, zeros, List.length_append, List.length_take, List.length_drop, List.length_replicate]
  omega

theorem getD_fit (b : Bytes) (hi : i < n) : (fit 0 n b).getD i 0 = b.getD i 0 := by
  unfold fit
  rw [getD_append_zeros, List.drop_zero, List.getD_eq_getElem?_getD, List.getElem?_take, if_pos hi, List.getD_eq_getElem?_getD]

theorem getD_fit_ge (b : Bytes) (hi : n ≤ i) : (fit 0 n b).getD i 0 = 0 :=
  List.getD_eq_default _ _ ((length_fit 0 n b).trans_le hi)

/-- up to where there is anything but zeros in a file -/
def room (l : Live) (serial : Bool) : ℕ := if serial then HEADER else HEADER + l.area.data.length

theorem length_header (a : Area) (serial : ℕ) : (a.head serial).length = HEADER + a.data.length := by
  simp only [Area.head, zeros, HEADER, List.length_append, length_leBytes, List.length_replicate]

theorem length_bytes (a : Area) (serial capacity : ℕ) : HEADER + a.data.length ≤ (a.bytes serial capacity).length := by
  rw [Area.bytes, List.length_append, length_header]
  omega

theorem room_le_image (l : Live) (serial : Bool) : room l serial ≤ (image l serial).length := by
  cases serial
  · exact length_bytes ..
  · exact le_trans (Nat.le_add_right ..) (length_bytes ..)

theorem getD_image (hi : room l serial ≤ i) : (image l serial).getD i 0 = 0 := by
  cases serial with
  | false =>
    change (Area.bytes ..).getD i 0 = 0
    rw [Area.bytes, getD_append_zeros]
    exact List.getD_eq_default _ _ ((length_header ..).trans_le hi)
  | true =>
    change (Area.bytes ..).getD i 0 = 0
    have hlen : (leBytes 4 Area.new.data.length ++ leBytes 4 l.serial ++ leBytes 4 PROP_AREA_MAGIC ++
        leBytes 4 PROP_AREA_VERSION ++ zeros (HEADER - 16)).length ≤ i := by
      refine le_trans (le_of_eq ?_) hi
      simp only [zeros, room, HEADER, List.length_append, length_leBytes, List.length_replicate]
      rfl
    rw [Area.bytes, getD_append_zeros, Area.head, List.getD_append_right _ _ _ _ hlen]
    exact getD_zeros ..

theorem used_le_image (fullCopy : Bool) (l : Live) (serial : Bool) : used fullCopy l serial ≤ (image l serial).length := by
  unfold used
  split
  · next h =>
    subst h
    exact room_le_image l true
  · split
    · exact le_rfl
    · exact min_le_right ..

theorem room_le_used (fullCopy : Bool) (l : Live) (serial : Bool) : room l serial ≤ used fullCopy l serial := by
  cases serial with
  | true => exact le_rfl
  | false =>
    have := room_le_image l false
    cases fullCopy with
    | true => exact this
    | false => exact le_min le_rfl this

/-- nothing but zeros past where a file of the area has its data -/
def Clean (l : Live) (m : Mapping) : Prop := ∀ i, room l m.serial ≤ i → m.memory.getD i 0 = 0

theorem shown_clean (ho : m.offset = 0) (h : m.memory = shown l m) : Clean l m := by
  intro i hi
  rw [h, shown, ho]
  rcases lt_or_ge i m.memory.length with hm | hm
  · rw [getD_fit _ hm, getD_image hi]
  · exact getD_fit_ge _ hm

/-- the area only grows -/
theorem Clean.mono (h : Clean l m) (hle : l.area.data.length ≤ l'.area.data.length) : Clean l' m := by
  intro i hi
  refine h i (le_trans ?_ hi)
  unfold room
  split <;> omega

/-- a write that is not cut short gives a mapping that was clean all of the file -/
theorem write_shown (ho : m.offset = 0) (hc : Clean l m) (hlen : used fullCopy l m.serial ≤ m.memory.length) (v : ℕ) :
    (m.write ((image l m.serial).take (used fullCopy l m.serial)) v).memory =
      shown l (m.write ((image l m.serial).take (used fullCopy l m.serial)) v) := by
  have htake : ((image l m.serial).take (used fullCopy l m.serial)).length = used fullCopy l m.serial :=
    List.length_take_of_le (used_le_image ..)
  have hmem : (m.write ((image l m.serial).take (used fullCopy l m.serial)) v).memory =
      (image l m.serial).take (used fullCopy l m.serial) ++ m.memory.drop (used fullCopy l m.serial) := by
    change patch m.memory 0 (List.take _ _) = _
    rw [List.take_of_length_le (htake.trans_le hlen), patch, List.take_zero, List.nil_append, Nat.zero_add, htake]
  have hlength : (m.write ((image l m.serial).take (used fullCopy l m.serial)) v).memory.length = m.memory.length := by
    rw [hmem, List.length_append, htake, List.length_drop]
    omega
  refine eq_of_getD ?_ ?_
  · rw [shown, length_fit]
  · intro i
    have hshown : (shown l (m.write ((image l m.serial).take (used fullCopy l m.serial)) v)).getD i 0 =
        (fit 0 m.memory.length (image l m.serial)).getD i 0 := by
      rw [shown, hlength]
      change (fit m.offset _ _).getD i 0 = _
      rw [ho]
      rfl
    rw [hshown, hmem]
    rcases lt_or_ge i (used fullCopy l m.serial) with hi | hi
    · rw [List.getD_append _ _ _ _ (hi.trans_eq htake.symm), getD_fit _ (hi.trans_le hlen), List.getD_eq_getElem?_getD,
        List.getElem?_take, if_pos hi, List.getD_eq_getElem?_getD]
    · rw [List.getD_append_right _ _ _ _ (htake.trans_le hi), htake, List.getD_eq_getElem?_getD, List.getElem?_drop,
        ← List.getD_eq_getElem?_getD, Nat.add_sub_of_le hi, hc i ((room_le_used ..).trans hi)]
      rcases lt_or_ge i m.memory.length with hm | hm
      · rw [getD_fit _ hm, getD_image ((room_le_used ..).trans hi)]
      · exact (getD_fit_ge _ hm).symm

end Fit

/-! ## Every change reaches every mapping -/

/-- nothing skipped: from the change a mapping began from on, each one reached it -/
def Unbroken (m : Mapping) : Prop := m.landed.IsChain fun later earlier => later = earlier + 1

/-- what it is to hold, with the last change -/
def World.upToDate (w : World) (id : ℕ) : Prop :=
  (w.maps id).memory = shown w.live (w.maps id) ∧ (w.maps id).landed.head? = some w.version

/-- about to be written by the thread that copies, with all but the last change -/
def World.pending (w : World) (id : ℕ) : Prop :=
  Clean w.live (w.maps id) ∧ (∃ x, (w.maps id).landed.head? = some x ∧ x + 1 = w.version) ∧
    ∃ t v l targets, w.threads t = .copies v l targets ∧ id ∈ targets

structure Fresh (w : World) : Prop where
  /-- no mapping that lives is forgotten -/
  kept : ∀ id < w.nextMap, w.lives id = true → id ∈ w.mappings
  begins : ∀ id ∈ w.mappings, (w.maps id).offset = 0
  unbroken : ∀ id ∈ w.mappings, w.lives id = true → Unbroken (w.maps id)
  current : ∀ id ∈ w.mappings, w.lives id = true → w.upToDate id ∨ w.pending id

section Follow

variable {w : World} {t u id : ℕ} {pc : Pc}

/-- where no thread copies, nothing is pending -/
theorem Fresh.upToDate (h : Fresh w) (hno : ∀ t v l targets, w.threads t = .copies v l targets → targets = [])
    (hid : id ∈ w.mappings) (ha : w.lives id = true) : w.upToDate id := by
  rcases h.current id hid ha with hc | ⟨-, -, t, v, l, targets, ht, hmem⟩
  · exact hc
  · rw [hno t v l targets ht] at hmem
    cases hmem

/-- while the lock is free, or a thread that does not copy has it, no thread copies -/
theorem Ordered.no_copy (h : Ordered w) (hp : w.publish = none ∨ w.publish = some t)
    (ht : ∀ v l targets, w.threads t = .copies v l targets → targets = []) :
    ∀ u v l targets, w.threads u = .copies v l targets → targets = [] := by
  intro u v l targets hu
  rcases eq_or_ne u t with rfl | hut
  · exact ht v l targets hu
  · have := h.alone hp hut
    rw [hu] at this
    cases this

/-- a step that leaves mappings and area as they are, where there is nothing to write -/
theorem Fresh.goTo {w' : World} (h : Fresh w) (hno : ∀ t v l targets, w.threads t = .copies v l targets → targets = [])
    (hsame : w'.live = w.live ∧ w'.version = w.version ∧ w'.maps = w.maps ∧ w'.nextMap = w.nextMap ∧ w'.mappings = w.mappings ∧
      w'.alive = w.alive ∧ w'.mapped = w.mapped) : Fresh (w'.goTo t pc) := by
  obtain ⟨hl, hv, hm, hn, hms, ha, hmd⟩ := hsame
  have hlives : ∀ id, w'.lives id = w.lives id := by
    intro id
    rw [World.lives, ha, hm, hmd, World.lives]
  refine ⟨?_, ?_, ?_, ?_⟩
  · change ∀ id < w'.nextMap, w'.lives id = true → id ∈ w'.mappings
    simp only [hn, hlives, hms]
    exact h.kept
  · change ∀ id ∈ w'.mappings, (w'.maps id).offset = 0
    rw [hms, hm]
    exact h.begins
  · change ∀ id ∈ w'.mappings, w'.lives id = true → Unbroken (w'.maps id)
    simp only [hms, hlives, hm]
    exact h.unbroken
  · change ∀ id ∈ w'.mappings, w'.lives id = true → _
    simp only [hms, hlives]
    intro id hid halive
    left
    change (w'.maps id).memory = shown w'.live (w'.maps id) ∧ (w'.maps id).landed.head? = some w'.version
    rw [hl, hm, hv]
    exact h.upToDate hno hid halive

/-- a change made: every mapping that lives is to be written -/
theorem Fresh.change (h : Fresh w) (hno : ∀ t v l targets, w.threads t = .copies v l targets → targets = []) {ch : Change} {live : Live}
    (hch : w.live.apply ch = some live) :
    Fresh ({ w with live, version := w.version + 1, mappings := w.targets }.goTo t (.copies (w.version + 1) live w.targets)) := by
  refine ⟨?_, ?_, ?_, ?_⟩
  · intro id hid halive
    exact mem_targets.mpr ⟨h.kept id hid halive, (Bool.and_eq_true .. ▸ halive).1⟩
  · intro id hid
    exact h.begins id (mem_targets.mp hid).1
  · intro id hid halive
    exact h.unbroken id (mem_targets.mp hid).1 halive
  · intro id hid halive
    have hmem := (mem_targets.mp hid).1
    obtain ⟨hshown, hhead⟩ := h.upToDate hno hmem halive
    exact .inr ⟨(shown_clean (h.begins id hmem) hshown).mono (Live.apply_length hch), ⟨w.version, hhead, rfl⟩,
      t, _, _, _, goTo_self, hid⟩

/-- the thread that copies has done with a mapping, whether by a write or because it is gone -/
theorem Fresh.copied {w' : World} {v : ℕ} {l : Live} {targets : List ℕ} (h : Fresh w) (ho : Ordered w)
    (ht : w.threads t = .copies v l (id :: targets))
    (hsame : w'.live = w.live ∧ w'.version = w.version ∧ w'.nextMap = w.nextMap ∧ w'.mappings = w.mappings ∧ w'.alive = w.alive ∧
      w'.mapped = w.mapped)
    (hother : ∀ id', id' ≠ id → w'.maps id' = w.maps id')
    (hself : (w'.maps id).process = (w.maps id).process ∧ (w'.maps id).offset = (w.maps id).offset)
    (hid : id ∈ w.mappings → w.lives id = true → Unbroken (w'.maps id) ∧ w'.upToDate id) :
    Fresh (w'.goTo t (.copies v l targets)) := by
  obtain ⟨hl, hv, hn, hms, ha, hmd⟩ := hsame
  have hprocess : ∀ id', (w'.maps id').process = (w.maps id').process := by
    intro id'
    rcases eq_or_ne id' id with rfl | hne
    · exact hself.1
    · rw [hother id' hne]
  have hlives : ∀ id', w'.lives id' = w.lives id' := by
    intro id'
    rw [World.lives, ha, hprocess, hmd, World.lives]
  refine ⟨?_, ?_, ?_, ?_⟩
  · change ∀ id < w'.nextMap, w'.lives id = true → id ∈ w'.mappings
    intro id' hlt halive
    rw [hms]
    rw [hlives] at halive
    exact h.kept id' (hn ▸ hlt) halive
  · change ∀ id ∈ w'.mappings, (w'.maps id).offset = 0
    rw [hms]
    intro id' hid'
    rcases eq_or_ne id' id with rfl | hne
    · rw [hself.2]
      exact h.begins id' hid'
    · rw [hother id' hne]
      exact h.begins id' hid'
  · change ∀ id ∈ w'.mappings, w'.lives id = true → Unbroken (w'.maps id)
    rw [hms]
    intro id' hid' halive
    rw [hlives] at halive
    rcases eq_or_ne id' id with rfl | hne
    · exact (hid hid' halive).1
    · rw [hother id' hne]
      exact h.unbroken id' hid' halive
  · change ∀ id ∈ w'.mappings, w'.lives id = true → _
    rw [hms]
    intro id' hid' halive
    rw [hlives] at halive
    rcases eq_or_ne id' id with rfl | hne
    · exact .inl (hid hid' halive).2
    · rcases h.current id' hid' halive with ⟨hshown, hhead⟩ | ⟨hclean, ⟨x, hx, hxv⟩, u, v', l', targets', hu, hmem⟩
      · left
        change (w'.maps id').memory = shown w'.live (w'.maps id') ∧ (w'.maps id').landed.head? = some w'.version
        rw [hother id' hne, hl, hv]
        exact ⟨hshown, hhead⟩
      · -- only this thread copies, and the mapping is not the one it is done with
        have hut : u = t := by
          have hlock := ho.locked u (by rw [hu]; rfl)
          exact Option.some.inj (hlock.symm.trans (ho.locked t (by rw [ht]; rfl)))
        subst hut
        rw [ht] at hu
        cases hu
        refine .inr ⟨?_, ⟨x, ?_, ?_⟩, u, v, l, targets, goTo_self, (List.mem_cons.mp hmem).resolve_left hne⟩
        · change Clean w'.live (w'.maps id')
          rw [hother id' hne, hl]
          exact hclean
        · change (w'.maps id').landed.head? = some x
          rw [hother id' hne]
          exact hx
        · change x + 1 = w'.version
          rw [hv]
          exact hxv

/-- a whole copy that reaches a mapping makes it what it is to be -/
theorem Fresh.write {v : ℕ} {l : Live} {targets : List ℕ} (h : Fresh w) (ho : Ordered w)
    (ht : w.threads t = .copies v l (id :: targets)) (hid : id ∈ w.mappings) (halive : w.lives id = true)
    (hlen : used w.fullCopy l (w.maps id).serial ≤ (w.maps id).memory.length) :
    Unbroken ((w.writeTo v l id).maps id) ∧ (w.writeTo v l id).upToDate id := by
  obtain ⟨hv, hl, -, hold⟩ := ho.last t v l _ ht
  subst hl
  have holder := (hold id List.mem_cons_self).2
  obtain ⟨hclean, x, hx, hxv⟩ : Clean w.live (w.maps id) ∧ ∃ x, (w.maps id).landed.head? = some x ∧ x + 1 = w.version := by
    rcases h.current id hid halive with ⟨-, hhead⟩ | ⟨hclean, hx, -⟩
    · -- the change is yet to land here
      have hmem : w.version ∈ (w.maps id).landed := List.mem_of_head? hhead
      have := holder w.version hmem
      omega
    · exact ⟨hclean, hx⟩
  refine ⟨?_, ?_, ?_⟩
  · rw [writeTo_self]
    change List.IsChain _ (v :: (w.maps id).landed)
    refine List.isChain_cons.mpr ⟨?_, h.unbroken id hid halive⟩
    intro y hy
    rw [hx] at hy
    have : x = y := Option.some.inj hy
    omega
  · rw [writeTo_self]
    exact write_shown (h.begins id hid) hclean hlen v
  · rw [writeTo_self]
    exact congrArg some hv

theorem Fresh.move (h : Fresh w) (ho : Ordered w) {t : ℕ} {fails : Bool} (hok : w.steady (.move t fails)) :
    Fresh (w.move t fails) := by
  rcases move_cases w t fails with he | ⟨ch, ht, hfree, he⟩ | ⟨ch, ht, -, he⟩ | ⟨ch, live, ht, hch, he⟩ |
    ⟨v, l, id, targets, ht, hf, he⟩ | ⟨v, l, id, targets, ht, hf, he⟩ | ⟨v, l, ht, he⟩
  · rw [he]
    exact h
  · rw [he]
    exact h.goTo (ho.no_copy (.inl hfree) (by rw [ht]; nofun)) ⟨rfl, rfl, rfl, rfl, rfl, rfl, rfl⟩
  · rw [he]
    exact h.goTo (ho.no_copy (ho.lock (by rw [ht]; rfl)) (by rw [ht]; nofun)) ⟨rfl, rfl, rfl, rfl, rfl, rfl, rfl⟩
  · have hbusy : (w.threads t).busy = true := by rw [ht]; rfl
    rw [he]
    exact h.change (ho.no_copy (ho.lock hbusy) (by rw [ht]; nofun)) hch
  · -- a failed write: the process has gone
    have hgone : w.lives id = true → False := by
      intro ha
      have := (hok.of_copies ht ha).1
      rw [hf] at this
      cases this
    rw [he]
    exact h.copied ho ht ⟨rfl, rfl, rfl, rfl, rfl, rfl⟩ (fun _ _ => rfl) ⟨rfl, rfl⟩ fun _ ha => (hgone ha).elim
  · rw [he]
    refine h.copied ho ht ⟨rfl, rfl, rfl, rfl, rfl, rfl⟩ (fun _ hne => writeTo_other hne v l) ?_ ?_
    · rw [writeTo_self]
      exact ⟨rfl, rfl⟩
    · intro hid ha
      exact h.write ho ht hid ha (hok.of_copies ht ha).2
  · have hlock := ho.lock (t := t) (by rw [ht]; rfl)
    rw [he]
    refine h.goTo (ho.no_copy hlock ?_) ⟨rfl, rfl, rfl, rfl, rfl, rfl, rfl⟩
    rw [ht]
    rintro v' l' targets ⟨rfl, rfl, rfl⟩
    rfl

theorem lives_join {m : Mapping} (hne : id ≠ w.nextMap) : (w.join m).lives id = w.lives id := by
  rw [World.lives, join_other hne]
  rfl

/-- a mapping that joins holds the area as it is, and every later change is written to it -/
theorem Fresh.join (h : Fresh w) (ho : Ordered w) {m : Mapping} (hm : m.offset = 0) (hshown : m.memory = shown w.live m) :
    Fresh (w.join m) := by
  have hold : ∀ id ∈ w.mappings, (w.join m).maps id = w.maps id := fun id hid => join_other (ho.known id hid).ne m
  refine ⟨?_, ?_, ?_, ?_⟩
  · intro id hlt halive
    change id ∈ w.mappings ++ [w.nextMap]
    rcases eq_or_ne id w.nextMap with rfl | hne
    · exact List.mem_append_right _ (List.mem_singleton.mpr rfl)
    · rw [lives_join hne] at halive
      have hlt' : id < w.nextMap := lt_of_le_of_ne (Nat.le_of_lt_succ hlt) hne
      exact List.mem_append_left _ (h.kept id hlt' halive)
  · intro id hid
    rcases List.mem_append.mp hid with hid | hid
    · rw [hold id hid]
      exact h.begins id hid
    · rw [List.mem_singleton.mp hid, join_self]
      exact hm
  · intro id hid halive
    rcases List.mem_append.mp hid with hid | hid
    · rw [lives_join (ho.known id hid).ne] at halive
      rw [hold id hid]
      exact h.unbroken id hid halive
    · rw [List.mem_singleton.mp hid, join_self]
      exact List.isChain_singleton _
  · intro id hid halive
    rcases List.mem_append.mp hid with hid | hid
    · rw [lives_join (ho.known id hid).ne] at halive
      unfold World.upToDate World.pending
      rw [hold id hid]
      exact h.current id hid halive
    · left
      unfold World.upToDate
      rw [List.mem_singleton.mp hid, join_self]
      exact ⟨hshown, rfl⟩

theorem Fresh.call (h : Fresh w) (ht : w.threads t = .idle) (ch : Change) : Fresh (w.goTo t (.waits ch)) := by
  refine ⟨h.kept, h.begins, h.unbroken, ?_⟩
  intro id hid halive
  rcases h.current id hid halive with hc | ⟨hclean, hx, u, v, l, targets, hu, hmem⟩
  · exact .inl hc
  · have hut : u ≠ t := by
      rintro rfl
      cases ht.symm.trans hu
    exact .inr ⟨hclean, hx, u, v, l, targets, (goTo_other hut).trans hu, hmem⟩

/-- a process that ends, or a mapping that goes: fewer live -/
theorem Fresh.fewer {w' : World} (h : Fresh w) (hle : ∀ id, w'.lives id = true → w.lives id = true)
    (hsame : w' = { w with alive := w'.alive, mapped := w'.mapped }) : Fresh w' := by
  rw [hsame] at hle ⊢
  exact ⟨fun id hlt ha => h.kept id hlt (hle _ ha), h.begins, fun id hid ha => h.unbroken id hid (hle _ ha),
    fun id hid ha => h.current id hid (hle _ ha)⟩

/-- nothing is made true -/
theorem update_false {f : ℕ → Bool} {i j : ℕ} (h : Function.update f i false j = true) : f j = true := by
  rcases eq_or_ne j i with rfl | hne
  · rw [Function.update_self] at h
    cases h
  · rwa [Function.update_of_ne hne] at h

theorem step_fresh (h : Fresh w) (ho : Ordered w) {a : Act} (hok : w.steady a) : Fresh (w.step a) := by
  cases a with
  | call t op =>
    simp only [World.step]
    split
    · next ch ht _ => exact h.call ht ch
    · exact h
  | move t fails => exact h.move ho hok
  | attach process serial offset len =>
    have hoffset : offset = 0 := hok
    subst hoffset
    refine h.join ho rfl ?_
    rw [shown, length_fit]
  | watch process serial offset memory => exact h.join ho hok.1 (by rw [shown, hok.1]; exact hok.2)
  | unmap id =>
    refine h.fewer (fun id' hl => ?_) rfl
    rw [World.lives, Bool.and_eq_true] at hl ⊢
    exact ⟨hl.1, update_false hl.2⟩
  | ends process =>
    refine h.fewer (fun id' hl => ?_) rfl
    rw [World.lives, Bool.and_eq_true] at hl ⊢
    exact ⟨update_false hl.1, hl.2⟩

end Follow

theorem fresh_start (fullCopy : Bool) (live : Live) : Fresh (World.init fullCopy live) := ⟨nofun, nofun, nofun, nofun⟩

/-- process 0 maps 4096 bytes of the area from `offset` on, and then a property is set -/
def pageRun (offset : ℕ) : List Act :=
  [.attach 0 false offset 4096, .call 0 (.set [97] [98]), .move 0 false, .move 0 false, .move 0 false, .move 0 false]

section Page

variable {l l' : Live}

theorem pageRun_world (h : l.apply (.set [97] [98] false) = some l') (offset : ℕ) :
    (run World.step (World.init false l) (pageRun offset)).publish = none ∧
    (run World.step (World.init false l) (pageRun offset)).live = l' ∧
    (run World.step (World.init false l) (pageRun offset)).nextMap = 1 ∧
    (run World.step (World.init false l) (pageRun offset)).lives 0 = true ∧
    (run World.step (World.init false l) (pageRun offset)).maps 0 =
      Mapping.write { process := 0, offset, memory := fit offset 4096 (image l false), landed := [0] }
        ((image l' false).take (used false l' false)) 1 := by
  have hop : (Op.set [97] [98]).change = some (.set [97] [98] false) := by decide
  simp [run, pageRun, World.step, World.join, World.init, World.move, World.goTo, World.change, World.writeTo, World.targets, World.lives, hop, h]

/-- a change of the area is written from the file's start on, wherever in the file the mapping begins -/
theorem pageRun_stale (h : l.apply (.set [97] [98] false) = some l') (hlen : l'.area.data.length ≤ 2048) :
    ((run World.step (World.init false l) (pageRun 4096)).maps 0).memory ≠
      shown (run World.step (World.init false l) (pageRun 4096)).live ((run World.step (World.init false l) (pageRun 4096)).maps 0) := by
  obtain ⟨-, hlive, -, -, hmaps⟩ := pageRun_world h 4096
  rw [hmaps, hlive]
  intro heq
  -- the file's magic, where the page has zeros
  have hmagic : (image l' false).getD 8 0 = 0x50 := by
    change (Area.bytes ..).getD 8 0 = 0x50
    rw [Area.bytes, getD_append_zeros, Area.head]
    rfl
  have hzero : (image l' false).getD 4104 0 = 0 := by
    refine getD_image ?_
    change 128 + l'.area.data.length ≤ 4104
    omega
  have hused : 8 < used false l' false := (Nat.lt_of_lt_of_le (by decide) (Nat.le_add_right 128 _)).trans_le (room_le_used false l' false)
  have hleft : (patch (fit 4096 4096 (image l false)) 0
      (((image l' false).take (used false l' false)).take (fit 4096 4096 (image l false)).length)).getD 8 0 = 0x50 := by
    have himage := used_le_image false l' false
    rw [patch, List.take_zero, List.nil_append, length_fit, List.getD_append]
    · rw [List.getD_eq_getElem?_getD, List.getElem?_take, if_pos (by omega), List.getElem?_take, if_pos hused,
        ← List.getD_eq_getElem?_getD]
      exact hmagic
    · rw [List.length_take, List.length_take]
      omega
  have hright : ∀ n, 8 < n → (fit 4096 n (image l' false)).getD 8 0 = 0 := by
    intro n hn
    rw [fit, getD_append_zeros, List.getD_eq_getElem?_getD, List.getElem?_take, if_pos hn, List.getElem?_drop,
      ← List.getD_eq_getElem?_getD]
    exact hzero
  have hat := congrArg (fun b : Bytes => b.getD 8 0) heq
  simp only [Mapping.write, shown] at hat
  rw [hleft, hright] at hat
  · cases hat
  · rw [patch, List.take_zero, List.nil_append, List.length_append, List.length_drop, length_fit]
    omega

/-- from the file's start on, a mapping that the data fits in is written whole -/
theorem pageRun_allowed (h : l.apply (.set [97] [98] false) = some l') (hlen : l'.area.data.length ≤ 2048) :
    Allowed World.step World.steady (World.init false l) (pageRun 0) := by
  have hop : (Op.set [97] [98]).change = some (.set [97] [98] false) := by decide
  have hused : used false l' false ≤ 4096 := by
    refine (min_le_left ..).trans ?_
    change 128 + l'.area.data.length ≤ 4096
    omega
  simp [Allowed, pageRun, World.steady, World.step, World.join, World.init, World.move, World.goTo, World.change, World.writeTo,
    World.targets, hop, h, length_fit, hused]

end Page

set_option maxRecDepth 50000 in
theorem build_set : ∃ l', (Live.build []).apply (.set [97] [98] false) = some l' ∧ l'.area.data.length ≤ 2048 := by
  have h : ((Live.build []).apply (.set [97] [98] false)).map (·.area.data.length) = some 236 := by decide
  obtain ⟨l', hl, hlen⟩ := Option.map_eq_some_iff.mp h
  exact ⟨l', hl, by rw [hlen]; decide⟩

end Omnidroid.Props
