/-
Shared-memory regions (`omni-linux/src/shm.rs`): the host view of a graphics buffer, and the pins that are to keep it.
One step is what a thread does under one lock, or with one atomic word: the view's lock, the recorded length and the
count of pins are each their own. The bytes themselves, and the file they are in, are left out; a view is known by its
number, and a pin by the view it was computed from.
- `Stays`: every pinned view is the view there is.
- `pins_stay`: it is, in a run where no pin falls into a resize, no resize to the length there is and no sequential growth
  into a pin.
- `pins_lost`: one run for each of these that loses a pinned view.
-/
import Omnidroid.Lib.FinMap
import Omnidroid.Lib.Run

namespace Omnidroid.Shm

/-! ## Regions -/

/-- a host view of a region's whole file -/
structure View where
  id : ℕ
  size : ℕ
  /-- the region's length when it was made -/
  len : ℕ
deriving DecidableEq, Repr

/-- what `with_view` is called for -/
inductive Use where
  | pin (offset len : ℕ)
  | read (offset n : ℕ)
  | write (offset n : ℕ)
  | bytes (offset len : ℕ)
  | cas (offset : ℕ)
  /-- the read of a compare-and-swap that the view does not reach -/
  | casRead (offset : ℕ)
deriving DecidableEq, Repr

/-- what a thread is about to do -/
inductive Stage where
  /-- `with_view`: look at the view under its read lock -/
  | start (u : Use)
  /-- `with_view`: make the view under its write lock -/
  | slow (u : Use)
  /-- `bytes`: borrow the view, its read lock kept -/
  | borrow (offset len : ℕ)
  /-- `write_at`: compare its end with the length -/
  | writing (offset n : ℕ)
  /-- `set_len`: look at the pins; a write goes on after it -/
  | setLen (len : ℕ) (u : Option Use)
  /-- `set_len`: drop the view under its write lock, and set the length -/
  | resize (len : ℕ) (u : Option Use)
  /-- `write_seq`: compare where it ended with the length -/
  | seq (end_ : ℕ)
  /-- `write_seq`: store its end as the length -/
  | storing (end_ : ℕ)
deriving DecidableEq, Repr

structure Config where
  page : ℕ
  viewsOn : Bool

structure World where
  len : ℕ := 0
  graphics : Bool := false
  view : Option View := none
  nextId : ℕ := 0
  pinned : UInt32 := 0
  /-- the read locks kept by borrowed bytes -/
  guards : ℕ := 0
  ops : Map ℕ Stage := ∅
  /-- history: the pins answered and not undone, each by the view its address is in -/
  pins : List ℕ := []

def World.at_ (w : World) (t : ℕ) (s : Stage) : World := { w with ops := w.ops.insert t s }
def World.over (w : World) (t : ℕ) : World := { w with ops := w.ops.erase t }

/-- how the host answers: a view can be mapped, the file's length set, a word read is the one expected -/
structure Host where
  maps : Bool
  sets : Bool
  same : Bool

def roundUp (n page : ℕ) : ℕ := (n + page - 1) / page * page

/-- what is done of the view, if there is one -/
def World.use (w : World) (t : ℕ) (h : Host) : Use → Option View → World
  | .pin offset len, some v =>
    if offset + roundUp len 4096 ≤ v.size then { w.over t with pinned := w.pinned + 1, pins := v.id :: w.pins }
    else w.over t
  | .bytes offset len, some _ => w.at_ t (.borrow offset len)
  | .cas offset, some v => if offset + 8 ≤ v.size then w.over t else w.at_ t (.start (.casRead offset))
  | .cas offset, none => w.at_ t (.start (.casRead offset))
  | .casRead offset, _ => if h.same then w.at_ t (.writing offset 8) else w.over t
  | _, _ => w.over t

/-- the view `with_view` goes on with under the write lock: the one of this length, or a new one -/
def World.remapped (cfg : Config) (w : World) (h : Host) : World :=
  if w.view.all fun v => v.len ≠ w.len then
    { w with
      view := if h.maps then some { id := w.nextId, size := roundUp w.len cfg.page, len := w.len } else none
      nextId := w.nextId + 1 }
  else w

/-- the view of this length -/
def World.fitting (w : World) : Option View := w.view.filter fun v => v.len = w.len

/-- a thread's next step; one that waits for the write lock leaves all as it is -/
def World.go (cfg : Config) (w : World) (t : ℕ) (h : Host) : Stage → World
  | .start u =>
    if !w.graphics || !cfg.viewsOn then w.use t h u none
    else match w.fitting with
      | some v => w.use t h u (some v)
      | none => w.at_ t (.slow u)
  | .slow u => if w.guards > 0 then w else (w.remapped cfg h).use t h u (w.remapped cfg h).view
  | .borrow offset _ =>
    match w.fitting with
    | some v => if offset ≤ v.len then { w.over t with guards := w.guards + 1 } else w.over t
    | none => w.over t
  | .writing offset n =>
    if offset + n > w.len then w.at_ t (.setLen (offset + n) (some (.write offset n)))
    else w.at_ t (.start (.write offset n))
  | .setLen len u =>
    if len > 2 ^ 34 then w.over t
    else if w.pinned > 0 ∧ len ≠ w.len then w.over t
    else w.at_ t (.resize len u)
  | .resize len u =>
    if w.guards > 0 then w
    else if h.sets then
      match u with
      | some u => { w.at_ t (.start u) with view := none, len := len }
      | none => { w.over t with view := none, len := len }
    else { w.over t with view := none }
  | .seq end_ => if end_ > w.len then w.at_ t (.storing end_) else w.over t
  | .storing end_ => { w.over t with len := end_ }

inductive Call where
  | pinView (offset len : ℕ)
  | setLen (len : ℕ)
  | readAt (offset n : ℕ)
  | writeAt (offset n : ℕ)
  /-- its file part done: where it ended -/
  | writeSeq (end_ : ℕ)
  | bytes (offset len : ℕ)
  | casU64 (offset : ℕ)
deriving DecidableEq, Repr

def Call.stage : Call → Option Stage
  | .pinView offset len => some (.start (.pin offset len))
  | .setLen len => some (.setLen len none)
  | .readAt offset n => some (.start (.read offset n))
  | .writeAt offset n => some (.writing offset n)
  | .writeSeq end_ => some (.seq end_)
  | .bytes offset len => some (.start (.bytes offset len))
  | .casU64 offset => if offset % 8 ≠ 0 then none else some (.start (.cas offset))

inductive Act where
  | asGraphicsBuffer
  | call (t : ℕ) (c : Call)
  | go (t : ℕ) (h : Host)
  /-- undo one of the pins there are -/
  | unpinView (i : ℕ)
  /-- borrowed bytes are let go -/
  | dropBytes

def step (cfg : Config) (w : World) : Act → World
  | .asGraphicsBuffer => { w with graphics := true }
  | .call t c =>
    if (w.ops.lookup t).isSome then w
    else match c.stage with
      | some s => w.at_ t s
      | none => w
  | .go t h =>
    match w.ops.lookup t with
    | some s => w.go cfg t h s
    | none => w
  | .unpinView i =>
    if i < w.pins.length then { w with pinned := w.pinned - 1, pins := w.pins.eraseIdx i } else w
  | .dropBytes => { w with guards := w.guards - 1 }

/-! ## Pins -/

/-- no pinned view was unmapped or replaced -/
def Stays (w : World) : Prop := ∀ id ∈ w.pins, ∃ v, w.view = some v ∧ v.id = id

def Stage.isResize : Stage → Bool
  | .resize _ _ => true
  | _ => false

/-- a `set_len` has looked at the pins, and not yet taken the view's lock -/
def World.resizing (w : World) : Bool := w.ops.entries.any fun e => e.2.isResize

/-- a resize looks at the pins while there are some: not to the length there is. A pin looks at the view: no resize is
past its own look, and pins are fewer than 2 ^ 32. A sequential write stores a new length: nothing is pinned. -/
def steady (w : World) : Act → Prop
  | .go t _ =>
    match w.ops.lookup t with
    | some (.setLen len _) => w.pins ≠ [] → len ≠ w.len
    | some (.start (.pin _ _)) | some (.slow (.pin _ _)) => w.resizing = false ∧ w.pins.length + 1 < 2 ^ 32
    | some (.storing _) => w.pins = []
    | _ => True
  | _ => True

instance (w : World) (a : Act) : Decidable (steady w a) := by
  unfold steady
  split
  · split <;> infer_instance
  · infer_instance

theorem resizing_false {w : World} : w.resizing = false ↔ ∀ t s, w.ops.lookup t = some s → s.isResize = false := by
  rw [World.resizing, List.any_eq_false]
  constructor
  · intro h t s hs
    simpa using h ⟨t, s⟩ ((Map.mem_entries _ _ _).2 hs)
  · intro h e he
    simpa using h e.1 e.2 ((Map.mem_entries _ _ _).1 he)

/-- the count is right, each pinned view is there and of the region's length, and no resize is about to drop it -/
structure Pinned (w : World) : Prop where
  count : w.pinned.toNat = w.pins.length
  few : w.pins.length < 2 ^ 32
  stays : ∀ id ∈ w.pins, ∃ v, w.view = some v ∧ v.id = id ∧ v.len = w.len
  apart : w.pins ≠ [] → w.resizing = false

/-- nothing pinned -/
theorem pinned_none {w : World} (hp : w.pins = []) (hc : w.pinned.toNat = 0) : Pinned w where
  count := by rw [hp, hc]; rfl
  few := by rw [hp]; exact Nat.two_pow_pos 32
  stays id hid := by rw [hp] at hid; cases hid
  apart hne := absurd hp hne

theorem Pinned.count_nil {w : World} (h : Pinned w) (hp : w.pins = []) : w.pinned.toNat = 0 := by
  rw [h.count, hp]; rfl

theorem resizing_at {w : World} (h : w.resizing = false) (t : ℕ) {s : Stage} (hs : s.isResize = false) :
    (w.at_ t s).resizing = false := by
  rw [resizing_false] at h ⊢
  intro t' s' hl
  rw [World.at_, Map.lookup_insert_eq] at hl
  split_ifs at hl
  · cases hl; exact hs
  · exact h t' s' hl

theorem resizing_over {w : World} (h : w.resizing = false) (t : ℕ) : (w.over t).resizing = false := by
  rw [resizing_false] at h ⊢
  intro t' s' hl
  rw [World.over, Map.lookup_erase_eq] at hl
  split_ifs at hl
  exact h t' s' hl

/-- a step that leaves the view, the length and the pins alone, and comes to no resize -/
theorem Pinned.at_ {w : World} (h : Pinned w) (t : ℕ) {s : Stage} (hs : s.isResize = false) : Pinned (w.at_ t s) :=
  ⟨h.count, h.few, h.stays, fun hp => resizing_at (h.apart hp) t hs⟩

theorem Pinned.over {w : World} (h : Pinned w) (t : ℕ) : Pinned (w.over t) :=
  ⟨h.count, h.few, h.stays, fun hp => resizing_over (h.apart hp) t⟩

/-- a new pin, of the view there is, where no resize is under way -/
theorem pinned_pin {w : World} (h : Pinned w) (t : ℕ) {v : View} (hv : w.view = some v) (hl : v.len = w.len)
    (hr : w.resizing = false) (hf : w.pins.length + 1 < 2 ^ 32) :
    Pinned { w.over t with pinned := w.pinned + 1, pins := v.id :: w.pins } where
  count := by
    have := h.count
    have h1 : (1 : UInt32).toNat = 1 := rfl
    simp only [UInt32.toNat_add, h1, List.length_cons]
    omega
  few := by simpa using hf
  stays id hid := by
    rcases List.mem_cons.1 hid with rfl | hid
    · exact ⟨v, hv, rfl, hl⟩
    · exact h.stays id hid
  apart _ := resizing_over hr t

/-- a use of the view that is not a pin, or a pin of the view there is -/
theorem pinned_use {w : World} (h : Pinned w) (t : ℕ) (host : Host) {u : Use} {v : Option View}
    (hv : ∀ v', v = some v' → w.view = some v' ∧ v'.len = w.len)
    (hpin : ∀ o n, u = .pin o n → w.resizing = false ∧ w.pins.length + 1 < 2 ^ 32) : Pinned (w.use t host u v) := by
  unfold World.use
  split
  · rename_i offset len v'
    obtain ⟨hview, hlen⟩ := hv v' rfl
    obtain ⟨hr, hf⟩ := hpin _ _ rfl
    split_ifs
    · exact pinned_pin h t hview hlen hr hf
    · exact h.over t
  · exact h.at_ t rfl
  · split_ifs
    · exact h.over t
    · exact h.at_ t rfl
  · exact h.at_ t rfl
  · split_ifs
    · exact h.at_ t rfl
    · exact h.over t
  · exact h.over t

theorem fitting_some {w : World} {v : View} (h : w.fitting = some v) : w.view = some v ∧ v.len = w.len := by
  obtain ⟨hv, hl⟩ := Option.filter_eq_some_iff.1 h
  exact ⟨hv, of_decide_eq_true hl⟩

/-- with pins there is no call for a new view: theirs fits -/
theorem pinned_remapped {w : World} (h : Pinned w) (cfg : Config) (host : Host) :
    Pinned (w.remapped cfg host) ∧ (w.remapped cfg host).resizing = w.resizing ∧
      (w.remapped cfg host).pins = w.pins ∧
      ∀ v, (w.remapped cfg host).view = some v → v.len = (w.remapped cfg host).len := by
  unfold World.remapped
  by_cases hm : w.view.all (fun v => v.len ≠ w.len) = true
  · have hp : w.pins = [] := by
      rw [List.eq_nil_iff_forall_not_mem]
      intro id hid
      obtain ⟨v, hv, -, hl⟩ := h.stays id hid
      rw [hv] at hm
      exact absurd hl (by simpa using hm)
    rw [if_pos hm]
    refine ⟨pinned_none hp (h.count_nil hp), rfl, rfl, fun v hv => ?_⟩
    simp only at hv
    cases hmap : host.maps <;> simp only [hmap, Bool.false_eq_true, if_false, if_true] at hv <;> cases hv
    rfl
  · rw [if_neg hm]
    refine ⟨h, rfl, rfl, fun v hv => ?_⟩
    rw [hv] at hm
    simpa using hm

theorem go_pinned {cfg : Config} {w : World} (h : Pinned w) (t : ℕ) (host : Host) {s : Stage}
    (hs : w.ops.lookup t = some s) (ho : steady w (.go t host)) : Pinned (w.go cfg t host s) := by
  simp only [steady, hs] at ho
  unfold World.go
  cases s with
  | start u =>
    have hpin : ∀ o n, u = .pin o n → w.resizing = false ∧ w.pins.length + 1 < 2 ^ 32 := by
      rintro o n rfl; exact ho
    simp only
    split_ifs
    · exact pinned_use h t host (fun _ hv => by cases hv) hpin
    · split
      · rename_i v hv
        exact pinned_use h t host (fun v' hv' => by cases hv'; exact fitting_some hv) hpin
      · exact h.at_ t rfl
  | slow u =>
    have hpin : ∀ o n, u = .pin o n → w.resizing = false ∧ w.pins.length + 1 < 2 ^ 32 := by
      rintro o n rfl; exact ho
    simp only
    split_ifs
    · exact h
    · obtain ⟨hw, hr, hp, hv⟩ := pinned_remapped h cfg host
      exact pinned_use hw t host (fun v hv' => ⟨hv', hv v hv'⟩) (fun o n hu => by rw [hr, hp]; exact hpin o n hu)
  | borrow offset len =>
    simp only
    split
    · split_ifs
      · exact ⟨h.count, h.few, h.stays, fun hp => resizing_over (h.apart hp) t⟩
      · exact h.over t
    · exact h.over t
  | writing offset n =>
    simp only
    split_ifs
    · exact h.at_ t rfl
    · exact h.at_ t rfl
  | setLen len u =>
    simp only
    split_ifs with h1 h2
    · exact h.over t
    · exact h.over t
    · -- past its look at the pins: there are none
      have hp : w.pins = [] := by
        by_contra hne
        refine h2 ⟨?_, ho hne⟩
        have := h.count
        have hpos := List.length_pos_iff.2 hne
        exact UInt32.lt_iff_toNat_lt.2 (by simpa using (by omega : 0 < w.pinned.toNat))
      exact pinned_none hp (h.count_nil hp)
  | resize len u =>
    have hp : w.pins = [] := by
      by_contra hne
      have := resizing_false.1 (h.apart hne) t _ hs
      cases this
    simp only
    split_ifs
    · exact h
    · split <;> exact pinned_none hp (h.count_nil hp)
    · exact pinned_none hp (h.count_nil hp)
  | seq end_ =>
    simp only
    split_ifs
    · exact h.at_ t rfl
    · exact h.over t
  | storing end_ =>
    have hp : w.pins = [] := ho
    exact pinned_none hp (h.count_nil hp)

theorem step_pinned {cfg : Config} {w : World} (h : Pinned w) (a : Act) (ho : steady w a) : Pinned (step cfg w a) := by
  cases a with
  | asGraphicsBuffer => exact ⟨h.count, h.few, h.stays, h.apart⟩
  | call t c =>
    rw [step]
    split_ifs
    · exact h
    · split
      · rename_i s hs
        refine h.at_ t ?_
        cases c <;> simp only [Call.stage] at hs <;> (try split_ifs at hs) <;> cases hs <;> rfl
      · exact h
  | go t host =>
    rw [step]
    split
    · rename_i s hs; exact go_pinned h t host hs ho
    · exact h
  | unpinView i =>
    rw [step]
    split_ifs with hi
    · have hc := h.count
      have hf := h.few
      have h1 : (1 : UInt32).toNat = 1 := rfl
      have hle : (1 : UInt32) ≤ w.pinned := UInt32.le_iff_toNat_le.2 (by rw [h1]; omega)
      refine ⟨?_, ?_, fun id hid => h.stays id (List.mem_of_mem_eraseIdx hid), fun hne => h.apart fun he => ?_⟩
      · rw [UInt32.toNat_sub_of_le _ _ hle, List.length_eraseIdx_of_lt hi, h1]; omega
      · simp only [List.length_eraseIdx_of_lt hi]; omega
      · rw [he] at hi; cases hi
    · exact h
  | dropBytes => exact ⟨h.count, h.few, h.stays, h.apart⟩

instance (w : World) : Decidable (Stays w) :=
  decidable_of_iff (∀ id ∈ w.pins, w.view.any (·.id = id) = true) <| by
    simp only [Stays, Option.any_eq_true, decide_eq_true_eq]

/-- **A pinned view stays put**, in every run of a region of any length in which no pin falls between a resize's look at
the pins and its drop of the view, no resize looks at pins with the length there is, and no sequential write stores its
end while there are pins. -/
theorem pins_stay (cfg : Config) (len : ℕ) (w : World) (h : Reach (step cfg) steady { len := len } w) : Stays w := by
  have hw : Pinned w := h.invariant Pinned (pinned_none rfl rfl) fun s a _ ho hs => step_pinned hs a ho
  intro id hid
  obtain ⟨v, hv, hi, -⟩ := hw.stays id hid
  exact ⟨v, hv, hi⟩

def smallPages : Config := { page := 4096, viewsOn := true }

def willing : Host := { maps := true, sets := true, same := true }

/-- thread 1 pins the first page: the first look finds no view -/
def pinRun : List Act := [.call 1 (.pinView 0 4096), .go 1 willing, .go 1 willing]

theorem pins_stay_refused :
    Stays (run (step smallPages) { len := 4096 }
      ([.asGraphicsBuffer] ++ pinRun ++ [.call 2 (.setLen 8192), .go 2 willing, .call 2 (.readAt 0 8), .go 2 willing])) :=
  pins_stay smallPages 4096 _ (.run .start _ (by decide))

/-- a resize to the length there is, with a pin -/
def sameLengthRun : List Act := [.asGraphicsBuffer] ++ pinRun ++ [.call 2 (.setLen 4096), .go 2 willing, .go 2 willing]

/-- a pin between a resize's look at the pins and its drop of the view -/
def racedRun : List Act :=
  [.asGraphicsBuffer, .call 2 (.setLen 8192), .go 2 willing] ++ pinRun ++ [.go 2 willing]

/-- a sequential write grows the region, and the next read maps it anew -/
def grownRun : List Act :=
  [.asGraphicsBuffer] ++ pinRun ++ [.call 2 (.writeSeq 8192), .go 2 willing, .go 2 willing, .call 2 (.readAt 0 8),
    .go 2 willing, .go 2 willing]

/-- **Each of the three loses a pinned view.** -/
theorem pins_lost :
    ¬Stays (run (step smallPages) { len := 4096 } sameLengthRun) ∧
    ¬Stays (run (step smallPages) { len := 4096 } racedRun) ∧
    ¬Stays (run (step smallPages) { len := 4096 } grownRun) := by
  decide

end Omnidroid.Shm
