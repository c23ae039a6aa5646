/-
The lookups a thread remembers (`omni-mem/src/cache.rs`), over any number of threads and spaces interleaved arbitrarily.
A space counts its write sections, each before it changes anything; a slot is keyed with the space and the count its region
was read at, under one lock, and answers while the count is that one.
- `World.step`: write sections, lookups cut where they hold no lock, and files that change their length at any time.
- `SlotRegion`, `SlotAdmit`: what a lookup answers from its thread's slots, with the count it loaded.
- `Sound`: what a slot says was found by a locked lookup, on a map the space had at that count.
- `slots_answer`: so an answer from a slot is the locked one on such a map, whatever the files' lengths are.
The count and the spaces' ids are of 64 bits. Until one of them wraps, the space is the one asked about, and the map is the
one that the last write section counted at the load had left or was to leave.
-/
import Omnidroid.Lib.Run
import Omnidroid.Mem.Access

namespace Omnidroid.Mem

/-! ## Slots -/

def SLOTS : ℕ := 8

structure Key where
  space : ℕ
  generation : ℕ
  start : ℕ
  stop : ℕ
deriving DecidableEq, Repr

def Key.EMPTY : Key := ⟨0, 0, 0, 0⟩

def Remembered.PLACEHOLDER : Remembered := ⟨0, 0, .none, false, 0, 0, 0, 0⟩

structure Slots where
  keys : Fin SLOTS → Key
  entries : Fin SLOTS → Remembered
  /-- the next to go, where none is reusable -/
  next : ℕ

namespace Slots

def empty : Slots := ⟨fun _ => .EMPTY, fun _ => .PLACEHOLDER, 0⟩

def hits (key : Key) (space current address : ℕ) : Bool :=
  key.space == space && key.generation == current && key.start ≤ address && address < key.stop

def lookup (s : Slots) (space current address : ℕ) : Option Remembered :=
  ((List.finRange SLOTS).find? fun i => hits (s.keys i) space current address).map s.entries

/-- whether a slot may take `key` without anything being lost that could still answer -/
def reusable (slot key : Key) : Bool :=
  slot.space == 0 || (slot.space == key.space && (slot.generation != key.generation || slot.start == key.start))

def remember (s : Slots) (space generation : ℕ) (r : RegionInfo) : Slots :=
  match Remembered.of r with
  | none => s
  | some entry =>
    let key : Key := ⟨space, generation, entry.start, entry.stop⟩
    let found := (List.finRange SLOTS).find? fun i => reusable (s.keys i) key
    let index := found.getD ⟨s.next % SLOTS, Nat.mod_lt _ (by decide)⟩
    { keys := Function.update s.keys index key
      entries := Function.update s.entries index entry
      next := if found.isSome then s.next else (s.next + 1) % SLOTS }

end Slots

/-! ## Spaces and threads -/

/-- a map as a write section leaves it -/
abbrev Guarded := {m : Inner // m.Valid}

/-- a space: the map it was made with and those its write sections left, the last of them its map now -/
structure Space where
  first : Guarded
  rest : List Guarded
  writing : Bool

/-- counts and ids are kept in 64 bits -/
def word (n : ℕ) : ℕ := n % 2 ^ 64

namespace Space

/-- the write sections begun -/
def begun (s : Space) : ℕ := s.rest.length + s.writing.toNat

/-- the map as of a count of write sections -/
def asOf (s : Space) (n : ℕ) : Option Guarded := (s.first :: s.rest)[n]?

def now (s : Space) : Guarded := (s.first :: s.rest).getLast (List.cons_ne_nil _ _)

end Space

/-- spaces are numbered as they are made, from 1: a slot keyed with 0 is empty -/
def spaceId (space : ℕ) : ℕ := word (space + 1)

/-- what a thread asks: `region_at`, or `admit` -/
inductive Ask where
  | region (space address : ℕ)
  | admits (space address len : ℕ) (access : Access)
deriving DecidableEq, Repr

def Ask.space : Ask → ℕ
  | .region space _ | .admits space _ _ _ => space

/-- where a thread is in a lookup: the counter loaded, after so many write sections; gone to the lock; or with a region it
read there still to be remembered, and the count it read with it -/
inductive Doing where
  | idle
  | loaded (ask : Ask) (sections : ℕ)
  | missed (space address : ℕ)
  | fill (space sections : ℕ) (r : RegionInfo)

structure Thread where
  slots : Slots
  doing : Doing

structure World where
  spaces : List Space
  threads : ℕ → Thread
  /-- how long each file is now -/
  lenNow : ℕ → ℕ

inductive Act where
  | make (m : Guarded)
  | beginWrite (space : ℕ)
  | endWrite (space : ℕ) (m : Guarded)
  | truncate (file len : ℕ)
  | ask (thread : ℕ) (ask : Ask)
  | answer (thread : ℕ)
  | read (thread : ℕ)
  | remember (thread : ℕ)

namespace World

def start : World := ⟨[], fun _ => ⟨.empty, .idle⟩, fun _ => 0⟩

def setThread (w : World) (t : ℕ) (thread : Thread) : World := { w with threads := Function.update w.threads t thread }

def setDoing (w : World) (t : ℕ) (doing : Doing) : World := w.setThread t { w.threads t with doing }

def setSpace (w : World) (i : ℕ) (s : Space) : World := { w with spaces := w.spaces.set i s }

/-- what `region_at` answers from the thread's slots -/
def SlotRegion (w : World) (t sections space address : ℕ) : Option RegionInfo :=
  ((w.threads t).slots.lookup (spaceId space) (word sections) address).bind Remembered.anonymousRegion

/-- what `admit` answers from the thread's slots -/
def SlotAdmit (w : World) (t sections space address len : ℕ) (access : Access) : Option Admitted :=
  ((w.threads t).slots.lookup (spaceId space) (word sections) address).bind (admittedFrom · address len access)

def step (w : World) : Act → World
  | .make m => { w with spaces := w.spaces ++ [⟨m, [], false⟩] }
  | .beginWrite i =>
    match w.spaces[i]? with
    | some s => if s.writing then w else w.setSpace i { s with writing := true }
    | none => w
  -- the lock is held from the section's start to here, so what it changed shows at once
  | .endWrite i m =>
    match w.spaces[i]? with
    | some s => if s.writing then w.setSpace i { s with rest := s.rest ++ [m], writing := false } else w
    | none => w
  | .truncate file len => { w with lenNow := Function.update w.lenNow file len }
  | .ask t ask =>
    match (w.threads t).doing, w.spaces[ask.space]? with
    | .idle, some s => w.setDoing t (.loaded ask s.begun)
    | _, _ => w
  | .answer t =>
    match (w.threads t).doing with
    | .loaded (.region space address) sections =>
      if (w.SlotRegion t sections space address).isSome then w.setDoing t .idle else w.setDoing t (.missed space address)
    -- the walk that a miss leads to asks `region_at` for each region
    | .loaded (.admits ..) _ => w.setDoing t .idle
    | _ => w
  | .read t =>
    match (w.threads t).doing with
    | .missed space address =>
      match w.spaces[space]? with
      | some s =>
        if s.writing then w
        else
          match s.now.1.regionAtLocked w.lenNow address with
          | some (r, false) => w.setDoing t (.fill space s.begun r)
          | _ => w.setDoing t .idle
      | none => w
    | _ => w
  | .remember t =>
    match (w.threads t).doing with
    | .fill space sections r =>
      w.setThread t ⟨(w.threads t).slots.remember (spaceId space) (word sections) r, .idle⟩
    | _ => w

/-- any run of the threads, the writers and the files -/
abbrev Reachable (w : World) : Prop := Reach World.step anyStep World.start w

end World

/-! ## What a slot says -/

namespace World

variable {w w' : World} {id generation t i space sections address : ℕ} {r : RegionInfo} {key : Key} {entry : Remembered}

/-- a locked lookup found the region on a map that a space of the id had as of the count -/
def Found (w : World) (id generation : ℕ) (r : RegionInfo) : Prop :=
  ∃ i s k m lenNow address, w.spaces[i]? = some s ∧ spaceId i = id ∧ word k = generation ∧ s.asOf k = some m ∧
    m.1.regionAtLocked lenNow address = some (r, false)

/-- what a slot says was found; an empty one covers no address -/
def Sound (w : World) (key : Key) (entry : Remembered) : Prop :=
  key.start < key.stop → ∃ r, Remembered.of r = some entry ∧ key.start = r.start ∧ key.stop = r.stop ∧
    w.Found key.space key.generation r

/-- the count a lookup loaded was the space's, and a region still to be remembered was found -/
def Tagged (w : World) : Doing → Prop
  | .loaded ask sections => ∃ s, w.spaces[ask.space]? = some s ∧ sections ≤ s.begun
  | .fill space sections r => w.Found (spaceId space) (word sections) r
  | .idle | .missed _ _ => True

structure Inv (w : World) : Prop where
  slots : ∀ t i, w.Sound ((w.threads t).slots.keys i) ((w.threads t).slots.entries i)
  doing : ∀ t, w.Tagged (w.threads t).doing

/-- every space is still there, with every map it had -/
def Grows (w w' : World) : Prop :=
  ∀ (i : ℕ) (s : Space), w.spaces[i]? = some s → ∃ s' : Space, w'.spaces[i]? = some s' ∧ s.begun ≤ s'.begun ∧
    ∀ n m, s.asOf n = some m → s'.asOf n = some m

theorem Grows.found (hg : Grows w w') (h : w.Found id generation r) : w'.Found id generation r := by
  obtain ⟨i, s, k, m, lenNow, address, hs, hid, hk, hm, hr⟩ := h
  obtain ⟨s', hs', -, hkeep⟩ := hg i s hs
  exact ⟨i, s', k, m, lenNow, address, hs', hid, hk, hkeep k m hm, hr⟩

theorem Grows.sound (hg : Grows w w') (h : w.Sound key entry) : w'.Sound key entry := by
  intro hlt
  obtain ⟨r, hof, hstart, hstop, hfound⟩ := h hlt
  exact ⟨r, hof, hstart, hstop, hg.found hfound⟩

theorem Grows.tagged (hg : Grows w w') {d : Doing} (h : w.Tagged d) : w'.Tagged d := by
  cases d with
  | idle => trivial
  | missed => trivial
  | fill => exact hg.found h
  | loaded ask sections =>
    obtain ⟨s, hs, hle⟩ := h
    obtain ⟨s', hs', hle', -⟩ := hg _ s hs
    exact ⟨s', hs', hle.trans hle'⟩

/-- where only the spaces change, and grow -/
theorem Inv.grow (h : w.Inv) (hg : Grows w w') (ht : w'.threads = w.threads) : w'.Inv := by
  constructor
  · intro t i
    rw [ht]
    exact hg.sound (h.slots t i)
  · intro t
    rw [ht]
    exact hg.tagged (h.doing t)

/-- where one thread changes -/
theorem Inv.setThread {thread : Thread} (h : w.Inv) (hs : ∀ i, w.Sound (thread.slots.keys i) (thread.slots.entries i))
    (hd : w.Tagged thread.doing) : (w.setThread t thread).Inv := by
  have hself : Grows w (w.setThread t thread) := fun _ s hs => ⟨s, hs, le_refl _, fun _ _ hm => hm⟩
  constructor
  · intro u i
    rcases eq_or_ne u t with rfl | hne
    · simpa [World.setThread] using hself.sound (hs i)
    · simpa [World.setThread, Function.update_of_ne hne] using hself.sound (h.slots u i)
  · intro u
    rcases eq_or_ne u t with rfl | hne
    · simpa [World.setThread] using hself.tagged hd
    · simpa [World.setThread, Function.update_of_ne hne] using hself.tagged (h.doing u)

theorem Inv.setDoing {d : Doing} (h : w.Inv) (hd : w.Tagged d) : (w.setDoing t d).Inv := h.setThread (h.slots t) hd

theorem grows_setSpace {s s' : Space} (hs : w.spaces[i]? = some s) (hbegun : s.begun ≤ s'.begun)
    (hkeep : ∀ n m, s.asOf n = some m → s'.asOf n = some m) : Grows w (w.setSpace i s') := by
  intro j u hu
  rcases eq_or_ne i j with rfl | hne
  · obtain rfl := Option.some.inj (hs.symm.trans hu)
    exact ⟨s', by simp [World.setSpace, (List.getElem?_eq_some_iff.mp hs).1], hbegun, hkeep⟩
  · exact ⟨u, by simpa [World.setSpace, List.getElem?_set_ne hne] using hu, le_refl _, fun _ _ hm => hm⟩

/-- a region that is remembered goes to one slot; the others keep theirs -/
theorem sound_remember {slots : Slots} (h : ∀ i, w.Sound (slots.keys i) (slots.entries i)) (hr : w.Found id generation r) :
    ∀ i, w.Sound ((slots.remember id generation r).keys i) ((slots.remember id generation r).entries i) := by
  intro i
  unfold Slots.remember
  split
  · exact h i
  · rename_i entry hof
    obtain ⟨hstart, hstop, -⟩ := Remembered.of_some hof
    simp only
    generalize ((List.finRange SLOTS).find? _).getD _ = index
    rcases eq_or_ne i index with rfl | hne
    · simp only [Function.update_self]
      exact fun _ => ⟨r, hof, hstart, hstop, hr⟩
    · simp only [Function.update_of_ne hne]
      exact h i

/-- a map that no section is changing is the one as of the count -/
theorem asOf_begun {s : Space} (h : s.writing = false) : s.asOf s.begun = some s.now := by
  simp [Space.asOf, Space.begun, Space.now, h, List.getLast_eq_getElem]

theorem step_inv (h : w.Inv) (a : Act) : (w.step a).Inv := by
  cases a with
  | make m =>
    have hgrows : Grows w (w.step (.make m)) := by
      intro i s hs
      refine ⟨s, ?_, le_refl _, fun _ _ hm => hm⟩
      exact (List.getElem?_append_left (List.getElem?_eq_some_iff.mp hs).1).trans hs
    exact h.grow hgrows rfl
  | beginWrite i =>
    simp only [step]
    split
    · rename_i s hs
      split
      · exact h
      · exact h.grow (grows_setSpace hs (Nat.add_le_add_left (Bool.toNat_le _) _) fun _ _ hm => hm) rfl
    · exact h
  | endWrite i m =>
    simp only [step]
    split
    · rename_i s hs
      split
      · refine h.grow (grows_setSpace hs ?_ ?_) rfl
        · simpa [Space.begun] using Bool.toNat_le s.writing
        · intro n m' hm
          have hlt := (List.getElem?_eq_some_iff.mp hm).1
          exact (@List.getElem?_append_left _ (s.first :: s.rest) _ _ hlt).trans hm
      · exact h
    · exact h
  | truncate file len => exact h.grow (fun _ s hs => ⟨s, hs, le_refl _, fun _ _ hm => hm⟩) rfl
  | ask t ask =>
    simp only [step]
    split
    · rename_i s _ hs
      exact h.setDoing ⟨s, hs, le_refl _⟩
    · exact h
  | answer t =>
    simp only [step]
    split
    · split
      · exact h.setDoing trivial
      · exact h.setDoing trivial
    · exact h.setDoing trivial
    · exact h
  | read t =>
    simp only [step]
    split
    · split
      · rename_i space address _ _ s hs
        split
        · exact h
        · rename_i hw
          split
          · rename_i r hr
            exact h.setDoing ⟨space, s, s.begun, s.now, _, address, hs, rfl, rfl, asOf_begun (by simpa using hw), hr⟩
          · exact h.setDoing trivial
      · exact h
    · exact h
  | remember t =>
    simp only [step]
    split
    · rename_i space sections r hd
      have hr : w.Found (spaceId space) (word sections) r := by simpa [Tagged, hd] using h.doing t
      exact h.setThread (sound_remember (h.slots t) hr) trivial
    · exact h

theorem Reachable.inv (h : w.Reachable) : w.Inv := by
  apply Reach.invariant World.Inv ⟨_, _⟩ (fun s a _ _ hs => step_inv hs a) h
  · intro t i hlt
    exact absurd hlt (lt_irrefl 0)
  · exact fun _ => trivial

/-! ## What a slot answers -/

/-- a map as of the count that a lookup of the space loaded: as long as neither the ids nor the counts have wrapped, of that
space and after that many write sections -/
def MapAt (w : World) (space sections : ℕ) (m : Guarded) : Prop :=
  ∃ i s k, w.spaces[i]? = some s ∧ spaceId i = spaceId space ∧ word k = word sections ∧ s.asOf k = some m ∧
    (w.spaces.length < 2 ^ 64 → s.begun < 2 ^ 64 → i = space ∧ k = sections)

theorem word_inj {n k : ℕ} (hn : n < 2 ^ 64) (hk : k < 2 ^ 64) (h : word n = word k) : n = k := by
  rwa [word, word, Nat.mod_eq_of_lt hn, Nat.mod_eq_of_lt hk] at h

theorem asOf_le {s : Space} {n : ℕ} {m : Guarded} (h : s.asOf n = some m) : n ≤ s.begun := by
  have h := (List.getElem?_eq_some_iff.mp h).1
  rw [List.length_cons] at h
  unfold Space.begun
  omega

theorem hits_of_lookup {slots : Slots} {hit : Remembered} {current : ℕ} (h : slots.lookup id current address = some hit) :
    ∃ i, (slots.keys i).space = id ∧ (slots.keys i).generation = current ∧
      ((slots.keys i).start ≤ address ∧ address < (slots.keys i).stop) ∧ slots.entries i = hit := by
  obtain ⟨i, hi, rfl⟩ := Option.map_eq_some_iff.mp h
  have := List.find?_some hi
  simp only [Slots.hits, Bool.and_eq_true, beq_iff_eq, decide_eq_true_eq] at this
  obtain ⟨⟨⟨h₁, h₂⟩, h₃⟩, h₄⟩ := this
  exact ⟨i, h₁, h₂, ⟨h₃, h₄⟩, rfl⟩

/-- a slot that a lookup hits holds the region that the locked lookup finds at the address, on a map as of the count -/
theorem lookup_found (h : w.Inv) {hit : Remembered} {ask : Ask} (hd : (w.threads t).doing = .loaded ask sections)
    (hl : (w.threads t).slots.lookup (spaceId ask.space) (word sections) address = some hit) :
    ∃ m r, w.MapAt ask.space sections m ∧ Remembered.of r = some hit ∧
      ∀ lenNow, m.1.regionAtLocked lenNow address = some (r, false) := by
  obtain ⟨i, hspace, hgen, ⟨hstart, hstop⟩, rfl⟩ := hits_of_lookup hl
  obtain ⟨r, hof, hrs, hre, j, s, k, m, lenNow, b, hs, hid, hk, hm, hr⟩ := h.slots t i (by omega)
  refine ⟨m, r, ⟨j, s, k, hs, hid.trans hspace, hk.trans hgen, hm, ?_⟩, hof, fun lenNow' => ?_⟩
  · intro hcount hbegun
    have hlt := (List.getElem?_eq_some_iff.mp hs).1
    have hloaded : w.Tagged (.loaded ask sections) := hd ▸ h.doing t
    obtain ⟨s', hs', hle⟩ := hloaded
    have hlt' := (List.getElem?_eq_some_iff.mp hs').1
    have hj : j = ask.space := Nat.succ_injective (word_inj (by omega) (by omega) (hid.trans hspace))
    subst hj
    obtain rfl := Option.some.inj (hs.symm.trans hs')
    exact ⟨rfl, word_inj ((asOf_le hm).trans_lt hbegun) (hle.trans_lt hbegun) (hk.trans hgen)⟩
  · exact (Inner.regionAtLocked_within m.2 hr).2 address (by omega) (by omega)

/-- whatever the threads, the writers and the files have done, what `region_at` or `admit` answers from a slot is what the
locked lookup or walk answers on a map as of the count loaded, whatever the files' lengths are and however commits would
fare -/
theorem slots_answer (h : w.Reachable) (t sections : ℕ) :
    (∀ space address r, (w.threads t).doing = .loaded (.region space address) sections →
      w.SlotRegion t sections space address = some r →
      ∃ m, w.MapAt space sections m ∧ ∀ lenNow, m.1.regionAtLocked lenNow address = some (r, false)) ∧
    ∀ space address len access admitted, (w.threads t).doing = .loaded (.admits space address len access) sections →
      w.SlotAdmit t sections space address len access = some admitted →
      ∃ m, w.MapAt space sections m ∧ ∀ (σ : Type) (ensureCommitted : ℕ → ℕ → EStateM Refusal σ ℕ) (lenNow : ℕ → ℕ) (s : σ),
        admitWalk ensureCommitted (fun a => (m.1.regionAtLocked lenNow a).map Prod.fst) address len access s =
          .ok admitted s := by
  constructor
  · intro space address r hd hr
    obtain ⟨hit, hl, hr⟩ := Option.bind_eq_some_iff.mp hr
    obtain ⟨m, r', hm, hof, hat⟩ := lookup_found h.inv hd hl
    obtain rfl := Remembered.anonymousRegion_eq hof hr
    exact ⟨m, hm, hat⟩
  · intro space address len access admitted hd ha
    obtain ⟨hit, hl, ha⟩ := Option.bind_eq_some_iff.mp ha
    obtain ⟨m, r, hm, hof, hat⟩ := lookup_found h.inv hd hl
    refine ⟨m, hm, ?_⟩
    intro σ ensureCommitted lenNow s
    exact admittedFrom_walk hof (by rw [hat lenNow]; rfl) ha s

/-- a space of one page, private memory of an anonymous mapping -/
def onePage : Inner :=
  { page := 4096
    map := ⟨4096, 4096, [(4096, ⟨4096, .priv false, some ⟨1, 4096, 4096, .readWrite, 4096, .lazy, none, 0⟩, false⟩)], []⟩
    sub := none }

theorem onePage_valid : onePage.Valid where
  page_pos := by decide
  guest_dvd := dvd_refl _
  map := by
    constructor
    · exact ⟨rfl, by decide, rfl⟩
    · intro p hp o ho
      rw [List.mem_singleton.mp hp] at ho ⊢
      cases ho
      exact ⟨⟨le_refl _, le_refl _⟩, by decide⟩
    · rfl
    · decide
    · decide
  sorted t ht := by cases ht
  tracked t ht := by cases ht

/-- a region looked up under the lock and remembered, then asked for again -/
def askedTwice : World :=
  Omnidroid.run step start [.make ⟨onePage, onePage_valid⟩, .ask 0 (.region 0 5000), .answer 0, .read 0, .remember 0,
    .ask 0 (.region 0 6000)]

theorem slots_answer_twice : ∃ m, askedTwice.MapAt 0 0 m ∧
    ∀ lenNow, m.1.regionAtLocked lenNow 6000 = some (⟨4096, 4096, .readWrite, .anonymous, 4096, some 1, 4096, 4096⟩, false) :=
  (slots_answer (reach_run step start _) 0 0).1 0 6000 _ rfl (by decide)

end World

end Omnidroid.Mem
