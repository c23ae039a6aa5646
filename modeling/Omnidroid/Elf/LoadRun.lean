/-
A load beside other threads: the machine of `load` (`omni-elf/src/loader/mod.rs`) on a space that others map into and unmap
from between any two of its calls.
- `World.step`: one call, of the loader or of another thread, each whole; any call of the loader may be refused, having
  changed any part of its range. The machine stops when the load returns.
- `Settled`: what a returned load leaves.
- `load_settles`: so it is in every run that keeps others' calls out of the reserved span and carries out its release, for
  an object without an empty relro range inside a piece.
- `hole_taken`: the release takes a mapping that another thread placed in the span between two calls.
-/
import Omnidroid.Elf.Load
import Omnidroid.Lib.Run

namespace Omnidroid.Elf

open Mm (Protection)

/-! ## The machine -/

/-- whose a mapping is -/
inductive Owner where
  | loader | other
deriving DecidableEq, Repr

structure Cell where
  owner : Owner
  prot : Protection
deriving DecidableEq, Repr

/-- how the space answers a call of the loader -/
structure Answer where
  /-- where it finds room for a reservation -/
  room : ℕ
  /-- why it refuses the call -/
  refused : Option LoadError
  /-- the addresses of its range that a refused call has changed -/
  changed : ℕ → Bool

structure Running where
  plan : LoadPlan
  reserved : ℕ
  todo : List Call
  open_ : Option OpenWindow
  /-- the error to return, once the open window is closed -/
  failed : Option LoadError

inductive Phase where
  | start
  | running (r : Running)
  | releasing (plan : LoadPlan) (reserved : ℕ) (e : LoadError)
  | failed (e : LoadError)
  | loaded (obj : LoadedObject)

namespace Phase

def returned : Phase → Bool
  | .failed _ | .loaded _ => true
  | _ => false

/-- the error a load has returned -/
def error : Phase → Option LoadError
  | .failed e => some e
  | _ => none

theorem eq_failed {p : Phase} {e : LoadError} (h : p.error = some e) : p = .failed e := by
  cases p <;> cases h
  rfl

/-- what is reserved, until the load returns -/
def span : Phase → Option (ℕ × ℕ)
  | .running r => some (r.reserved, r.reserved + r.plan.span)
  | .releasing plan reserved _ => some (reserved, reserved + plan.span)
  | _ => none

end Phase

structure World where
  /-- what is mapped, by address -/
  cell : ℕ → Option Cell
  /-- what other threads have mapped and not unmapped themselves, and its protection -/
  theirs : ℕ → Option Protection
  phase : Phase

inductive Act where
  | load (a : Answer)
  | map (start len : ℕ) (prot : Protection)
  | unmap (start len : ℕ)

namespace Op

/-- what the space refuses it for before it asks the host -/
def refusal (cell : ℕ → Option Cell) : Op → Option LoadError
  | .unmap start len => if len = 0 then some (.mem "unmap" start len) else none
  | .map start len _ =>
    if len = 0 ∨ ((List.range' start len).any fun x => (cell x).isSome) then some (.mem "map" start len) else none
  | .protect start len _ =>
    if len = 0 ∨ ((List.range' start len).any fun x => (cell x).isNone) then some (.mem "protect" start len) else none

/-- what it makes of an address of its range -/
def made (c : Option Cell) : Op → Option Cell
  | .unmap _ _ => none
  | .map _ _ prot => some ⟨.loader, prot⟩
  | .protect _ _ prot => c.map fun c => { c with prot := prot }

end Op

namespace World

/-- a call of the loader -/
def perform (w : World) (a : Answer) (o : Op) : World × Option LoadError :=
  match o.refusal w.cell with
  | some e => (w, some e)
  | none =>
    ({ w with cell := fun x =>
        if Within o.start o.len x ∧ (a.refused = none ∨ a.changed x = true) then o.made (w.cell x) else w.cell x },
      a.refused)

def go (w : World) (r : Running) : World := { w with phase := .running r }

/-- the load has failed: an open window is closed, and the span released -/
def fail (w : World) (r : Running) (e : LoadError) : World :=
  match r.open_ with
  | some _ => w.go { r with todo := [.close], failed := some (r.failed.getD e) }
  | none => { w with phase := .releasing r.plan r.reserved (r.failed.getD e) }

/-- the answer to a call that touches no mapping -/
def work (w : World) (a : Answer) (r next : Running) : World :=
  match a.refused with
  | some e => w.fail r e
  | none => w.go next

/-- a call on the mappings, and what the load goes on with -/
def call (w : World) (a : Answer) (o : Op) (r next : Running) : World :=
  match w.perform a o with
  | (w, some e) => w.fail r e
  | (w, none) => w.go next

/-- `Relocator::close`, and what the load goes on with -/
def close (w : World) (a : Answer) (r : Running) (cs : List Call) : World :=
  match r.open_ with
  | none => w.go { r with todo := cs }
  | some win =>
    let next := { r with todo := cs, open_ := none }
    match win.restore with
    | none => w.go next
    | some prot => w.call a (.protect win.start (win.end_ - win.start) prot) { r with open_ := none } next

/-- `Relocator::open_window` -/
def openWindow (w : World) (a : Answer) (r : Running) (R : Relocator) (rel : Rela) (target end_ : ℕ) : World :=
  match R.rangeFor target end_ rel with
  | .error e => w.fail r e
  | .ok range =>
    match R.windowFor range target end_ rel with
    | .error e => w.fail r e
    | .ok (start, stop) =>
      if range.protection.isWritable then w.work a r { r with open_ := some ⟨start, stop, none⟩ }
      else w.call a (.protect start (stop - start) .readWrite) r { r with open_ := some ⟨start, stop, some range.protection⟩ }

/-- one step of `Relocator::feed`: a close, an open, or what is written in the open window -/
def feed (w : World) (a : Answer) (r : Running) (R : Relocator) (rel : Rela) (cs : List Call) : World :=
  match storeSize rel.r_type with
  | none => if rel.r_type = R_AARCH64_NONE then w.go { r with todo := cs } else w.fail r (unsupported rel)
  | some size =>
    match R.targetRange rel size with
    | .error e => w.fail r e
    | .ok (target, end_) =>
      if r.open_.any fun (win : OpenWindow) => decide (win.start ≤ target ∧ end_ ≤ win.end_) then w.work a r { r with todo := cs }
      else if r.open_.isSome then w.close a r r.todo
      else w.openWindow a r R rel target end_

def run (w : World) (job : Job) (a : Answer) (r : Running) : World :=
  match r.todo with
  | [] =>
    match r.failed with
    | some e => { w with phase := .releasing r.plan r.reserved e }
    | none => { w with phase := .loaded (loadedObject job r.plan r.reserved) }
  | .op o :: cs => w.call a o r { r with todo := cs }
  | .work :: cs => w.work a r { r with todo := cs }
  | .refuse e :: _ => w.fail r e
  | .feed R rel :: cs => w.feed a r R rel cs
  | .close :: cs => w.close a r cs

/-- nothing is mapped there -/
def free (w : World) (start len : ℕ) : Bool := (List.range' start len).all fun x => (w.cell x).isNone

/-- the checks, and the span reserved -/
def reserve (w : World) (job : Job) (a : Answer) : World :=
  match job.start with
  | .error e => { w with phase := .failed e }
  | .ok plan =>
    if plan.span = 0 then { w with phase := .failed (.mem "map_anonymous" 0 0) }
    else
      match a.refused with
      | some e => { w with phase := .failed e }
      | none =>
        -- an answer that the space cannot give changes nothing
        if w.free a.room plan.span ∧ a.room % plan.baseAlign = 0 ∧ a.room + plan.span < 2 ^ 64 then
          { w with
            cell := fun x => if Within a.room plan.span x then some ⟨.loader, .none⟩ else w.cell x
            phase := .running ⟨plan, a.room, script job plan a.room, none, none⟩ }
        else w

/-- one call; none once the load has returned -/
def step (job : Job) (w : World) (act : Act) : World :=
  match act, w.phase with
  | _, .failed _ | _, .loaded _ => w
  | .load a, .start => w.reserve job a
  | .load a, .running r => w.run job a r
  | .load a, .releasing plan reserved e => { (w.perform a (.unmap reserved plan.span)).1 with phase := .failed e }
  | .map start len prot, _ =>
    if w.free start len then
      { w with
        cell := fun x => if Within start len x then some ⟨.other, prot⟩ else w.cell x
        theirs := fun x => if Within start len x then some prot else w.theirs x }
    else w
  | .unmap start len, _ =>
    { w with
      cell := fun x => if Within start len x then none else w.cell x
      theirs := fun x => if Within start len x then none else w.theirs x }

/-- before the load: what other threads have mapped -/
def init (theirs : ℕ → Option Protection) : World := ⟨fun x => (theirs x).map (⟨.other, ·⟩), theirs, .start⟩

/-- the step is none of another thread in the reserved span, and no refusal of the release -/
def undisturbed (w : World) : Act → Bool
  | .load a =>
    match w.phase with
    | .releasing _ _ _ => a.refused.isNone
    | _ => true
  | .map start len _ | .unmap start len =>
    match w.phase.span with
    | some (lo, hi) => start + len ≤ lo || hi ≤ start
    | none => true

end World

/-! ## What a load leaves -/

/-- An object in memory: its ranges tile its pieces, each protected as it says; a segment's pages are the loader's, protected
as the segment is, but not writable where relro is sealed; and the rest of the image is the loader's and inaccessible. -/
structure Loaded (job : Job) (plan : LoadPlan) (cell : ℕ → Option Cell) (obj : LoadedObject) : Prop where
  placed : obj.start = obj.base + plan.imageStart ∧ obj.end_ = obj.start + plan.span
  ranges : RangesTile plan obj.base obj.relro obj.ranges
  rests : ∀ r ∈ obj.ranges, ∀ x, r.start ≤ x → x < r.end_ → cell x = some ⟨.loader, r.rest⟩
  segments : ∀ q ∈ LoadPlan.loads job.elf.segments, ∀ x, q.2.pages job.page x →
    ∃ prot, restProtection q.1 q.2.p_flags = .ok prot ∧ cell (obj.base + x) =
      some ⟨.loader, if job.sealRelro && job.relroTouches x then sealedProtection prot else prot⟩
  holes : ∀ x, plan.imageStart ≤ x → x < plan.imageEnd →
    (∀ s ∈ job.elf.segments, s.isLoad = true → ¬s.pages job.page x) → cell (obj.base + x) = some ⟨.loader, .none⟩

/-- what a load that has returned leaves -/
structure Settled (job : Job) (w : World) : Prop where
  /-- what other threads mapped and have not unmapped, and nothing else -/
  failed : ∀ e, w.phase = .failed e → ∀ x, w.cell x = (w.theirs x).map (⟨.other, ·⟩)
  loaded : ∀ obj, w.phase = .loaded obj → ∃ plan, job.start = .ok plan ∧ Loaded job plan w.cell obj

namespace World

variable {w : World} {job : Job} {r next : Running} {a : Answer} {lo hi : ℕ}

/-! ## One call -/

/-- other threads have what they mapped, which is outside the span; what is mapped in it is the loader's -/
def Safe (w : World) (lo hi : ℕ) : Prop :=
  ∀ x, if lo ≤ x ∧ x < hi then w.theirs x = none ∧ ∀ c ∈ w.cell x, c.owner = .loader
    else w.cell x = (w.theirs x).map (⟨.other, ·⟩)

/-- the span's protections -/
def view (w : World) (lo hi : ℕ) : ℕ → Option Protection :=
  fun x => if lo ≤ x ∧ x < hi then (w.cell x).map Cell.prot else none

theorem made_owner {o : Op} {c : Option Cell} (h : ∀ d ∈ c, d.owner = .loader) : ∀ d ∈ o.made c, d.owner = .loader := by
  intro d hd
  cases o with
  | unmap start len => cases hd
  | map start len prot =>
    cases hd
    rfl
  | protect start len prot =>
    obtain ⟨d', hd', rfl⟩ := Option.mem_map.mp hd
    exact h d' hd'

/-- an address of a call's range that the space does not refuse -/
theorem made_prot {o : Op} {cell : ℕ → Option Cell} (h : o.refusal cell = none) {x : ℕ} (hx : Within o.start o.len x) :
    (o.made (cell x)).map Cell.prot = o.result := by
  cases o with
  | unmap start len => rfl
  | map start len prot => rfl
  | protect start len prot =>
    simp only [Op.refusal] at h
    split at h
    · cases h
    rename_i hall
    have hsome : (cell x).isNone = false := by
      by_contra hnone
      apply hall
      refine .inr (List.any_eq_true.mpr ⟨x, List.mem_range'_1.mpr hx, ?_⟩)
      simpa using hnone
    cases hc : cell x with
    | none =>
      rw [hc] at hsome
      cases hsome
    | some c => rfl

theorem perform_spec {o : Op} (hs : w.Safe lo hi) (hlo : lo ≤ o.start) (hhi : o.start + o.len ≤ hi) :
    (w.perform a o).1.Safe lo hi ∧ ((w.perform a o).2 = none →
      (w.perform a o).1.view lo hi = put (w.view lo hi) o.start o.len o.result) := by
  rw [perform]
  cases href : o.refusal w.cell with
  | some e => exact ⟨hs, fun h => by cases h⟩
  | none =>
    constructor
    · intro x
      have hx := hs x
      dsimp only
      by_cases hin : lo ≤ x ∧ x < hi
      · rw [if_pos hin] at hx ⊢
        refine ⟨hx.1, ?_⟩
        split
        · exact made_owner hx.2
        · exact hx.2
      · rw [if_neg hin] at hx ⊢
        rw [if_neg]
        · exact hx
        · rintro ⟨hwithin, -⟩
          simp only [Within] at hwithin
          omega
    · intro hok
      have hok : a.refused = none := hok
      funext x
      simp only [view, put, hok, true_or, and_true]
      by_cases hx : Within o.start o.len x
      · rw [if_pos hx, if_pos hx, if_pos (by simp only [Within] at hx; omega)]
        exact made_prot href hx
      · rw [if_neg hx, if_neg hx]

/-! ## The load's own steps -/

/-- the span a load runs in is reserved for it, and its open window lies in it -/
structure Owns (w : World) (job : Job) (r : Running) : Prop where
  reserved : Reserved job r.plan r.reserved
  pos : 0 < r.plan.span
  safe : w.Safe r.reserved (r.reserved + r.plan.span)
  window : ∀ win ∈ r.open_, r.reserved ≤ win.start ∧ win.start ≤ win.end_ ∧ win.end_ ≤ r.reserved + r.plan.span

/-- what the span comes to when the load succeeds -/
def Done (job : Job) (r : Running) (v : ℕ → Option Protection) : Prop :=
  r.plan.imageStart ≤ r.reserved ∧
    relroRegion job r.plan (r.reserved - r.plan.imageStart) = .ok (loadedObject job r.plan r.reserved).relro ∧
    Mapped r.plan r.reserved (fun p => finalProtection p (loadedObject job r.plan r.reserved).relro) v

structure Runs (w : World) (job : Job) (r : Running) : Prop extends w.Owns job r where
  leads : Leads r.reserved (r.reserved + r.plan.span) (fun v => r.failed = none → Done job r v) r.todo r.open_
    (w.view r.reserved (r.reserved + r.plan.span))

/-- what holds in every state of an undisturbed run -/
def Inv (job : Job) (w : World) : Prop :=
  match w.phase with
  | .start => w.Safe 0 0
  | .running r => w.Runs job r
  | .releasing plan reserved _ => 0 < plan.span ∧ w.Safe reserved (reserved + plan.span)
  | .failed _ => ∀ x, w.cell x = (w.theirs x).map (⟨.other, ·⟩)
  | .loaded obj => ∃ plan, job.start = .ok plan ∧ Loaded job plan w.cell obj

theorem go_inv (h : w.Runs job next) : Inv job (w.go next) := ⟨⟨h.reserved, h.pos, h.safe, h.window⟩, h.leads⟩

theorem fail_inv (h : w.Owns job r) (e : LoadError) : Inv job (w.fail r e) := by
  rw [fail]
  cases hopen : r.open_ with
  | none => exact ⟨h.pos, h.safe⟩
  | some win =>
    apply go_inv
    refine ⟨⟨h.reserved, h.pos, h.safe, ?_⟩, rfl, fun hnone => by cases hnone⟩
    simp only [← hopen]
    exact h.window

theorem work_inv (h : w.Owns job r) (hnext : w.Runs job next) : Inv job (w.work a r next) := by
  rw [work]
  cases a.refused with
  | some e => exact fail_inv h e
  | none => exact go_inv hnext

theorem call_inv {o : Op} (h : w.Owns job r) (hlo : r.reserved ≤ o.start)
    (hhi : o.start + o.len ≤ r.reserved + r.plan.span)
    (hnext : ∀ w' : World, w'.Safe r.reserved (r.reserved + r.plan.span) →
      w'.view r.reserved (r.reserved + r.plan.span) =
        put (w.view r.reserved (r.reserved + r.plan.span)) o.start o.len o.result → w'.Runs job next) :
    Inv job (w.call a o r next) := by
  obtain ⟨hsafe, hview⟩ := perform_spec (a := a) h.safe hlo hhi
  rw [call]
  generalize w.perform a o = out at *
  obtain ⟨w', refused⟩ := out
  cases refused with
  | some e => exact fail_inv ⟨h.reserved, h.pos, hsafe, h.window⟩ e
  | none => exact go_inv (hnext w' hsafe (hview rfl))

theorem close_inv {cs : List Call} (h : w.Owns job r)
    (hleads : Leads r.reserved (r.reserved + r.plan.span) (fun v => r.failed = none → Done job r v) cs none
      (closed r.open_ (w.view r.reserved (r.reserved + r.plan.span)))) : Inv job (w.close a r cs) := by
  rw [close]
  cases hopen : r.open_ with
  | none =>
    apply go_inv
    rw [hopen] at hleads
    exact ⟨⟨h.reserved, h.pos, h.safe, by simp⟩, hleads⟩
  | some win =>
    obtain ⟨start, stop, restore⟩ := win
    rw [hopen] at hleads
    have hwin := h.window _ hopen
    cases restore with
    | none => exact go_inv ⟨⟨h.reserved, h.pos, h.safe, by simp⟩, hleads⟩
    | some prot =>
      simp only at hwin ⊢
      refine call_inv (r := { r with open_ := none }) ⟨h.reserved, h.pos, h.safe, by simp⟩ hwin.1 ?_ ?_
      · show start + (stop - start) ≤ _
        simp only
        omega
      · intro w' hsafe hview
        refine ⟨⟨h.reserved, h.pos, hsafe, by simp⟩, ?_⟩
        simp only at hview ⊢
        rw [hview]
        exact hleads

theorem openWindow_inv {R : Relocator} {rel : Rela} {target end_ : ℕ} {cs : List Call} (h : w.Owns job r)
    (htodo : r.todo = .feed R rel :: cs) (hle : target ≤ end_)
    (hleads : Leads r.reserved (r.reserved + r.plan.span) (fun v => r.failed = none → Done job r v) r.todo none
      (w.view r.reserved (r.reserved + r.plan.span))) : Inv job (w.openWindow a r R rel target end_) := by
  rw [openWindow]
  cases hrange : R.rangeFor target end_ rel with
  | error e => exact fail_inv h e
  | ok m =>
    obtain ⟨hm, hstart, hlt⟩ := Relocator.rangeFor_ok hrange
    cases hwindow : R.windowFor m target end_ rel with
    | error e =>
      simp only
      rw [hwindow]
      exact fail_inv h e
    | ok out =>
      obtain ⟨start, stop⟩ := out
      rw [htodo] at hleads
      obtain ⟨hshown, hnext⟩ := hleads
      obtain ⟨-, -, hfrom, hbefore, hafter, hto⟩ :=
        Relocator.windowFor_ok (hshown.aligned m hm) (hshown.bounded m hm) hstart hwindow
      obtain ⟨hlo, hhi⟩ := hshown.inside m hm
      simp only
      rw [hwindow]
      simp only
      split
      · apply work_inv h
        refine ⟨⟨h.reserved, h.pos, h.safe, ?_⟩, ?_⟩
        · rintro win ⟨⟩
          exact ⟨by simp only; omega, by simp only; omega, by simp only; omega⟩
        · simp only [htodo]
          exact ⟨hshown, hnext⟩
      · apply call_inv h (by simp only [Op.start]; omega) (by simp only [Op.start, Op.len]; omega)
        intro w' hsafe hview
        refine ⟨⟨h.reserved, h.pos, hsafe, ?_⟩, ?_⟩
        · rintro win ⟨⟩
          exact ⟨by simp only; omega, by simp only; omega, by simp only; omega⟩
        · -- the pages had one protection, which the window's close puts back
          have hback : closed (some ⟨start, stop, some m.protection⟩) (w'.view r.reserved (r.reserved + r.plan.span)) =
              w.view r.reserved (r.reserved + r.plan.span) := by
            rw [hview]
            refine (put_put _ _ _ _ _).trans (put_same ?_)
            intro x hx
            simp only [Within] at hx
            exact hshown.shown m hm x (by omega) (by omega)
          simp only [htodo, Leads]
          rw [hback]
          exact ⟨hshown, hnext⟩

theorem feed_inv {R : Relocator} {rel : Rela} {cs : List Call} (h : w.Runs job r) (htodo : r.todo = .feed R rel :: cs) :
    Inv job (w.feed a r R rel cs) := by
  have hown := h.toOwns
  have hleads := h.leads
  rw [htodo] at hleads
  obtain ⟨hshown, hnext⟩ := hleads
  have hskip : w.Runs job { r with todo := cs } := ⟨⟨h.reserved, h.pos, h.safe, h.window⟩, hnext _ _ rfl⟩
  rw [feed]
  split
  · split
    · exact go_inv hskip
    · exact fail_inv hown _
  · split
    · exact fail_inv hown _
    case h_2 size hsize target end_ htarget =>
      split
      · exact work_inv hown hskip
      split
      · apply close_inv hown
        rw [htodo]
        exact ⟨hshown, hnext⟩
      case isFalse hclosed =>
        have hopen : r.open_ = none := by simpa using hclosed
        have hle : target ≤ end_ := by
          obtain ⟨-, rfl⟩ := Relocator.targetRange_ok htarget
          omega
        rw [hopen] at hshown hnext
        apply openWindow_inv hown htodo hle
        rw [htodo]
        exact ⟨hshown, hnext⟩

/-- a load that ends well leaves its object -/
theorem loaded_of_done (h : w.Owns job r) (hsome : job.SealsSome r.plan)
    (hdone : Done job r (w.view r.reserved (r.reserved + r.plan.span))) :
    Loaded job r.plan w.cell (loadedObject job r.plan r.reserved) := by
  obtain ⟨hle, hrelro, hmapped⟩ := hdone
  have hbuilt := Job.start_ok h.reserved.start
  have hranges := loadedRanges_tile h.reserved hsome hrelro
  have hspan := hbuilt.span
  have hbase : (loadedObject job r.plan r.reserved).base = r.reserved - r.plan.imageStart := rfl
  -- what the view says of an address of the span, the space has there for the loader
  have hcell : ∀ x prot, r.reserved ≤ x → x < r.reserved + r.plan.span →
      w.view r.reserved (r.reserved + r.plan.span) x = some prot → w.cell x = some ⟨.loader, prot⟩ := by
    intro x prot hx hx' hview
    have hsafe := h.safe x
    rw [if_pos ⟨hx, hx'⟩] at hsafe
    rw [view, if_pos ⟨hx, hx'⟩] at hview
    obtain ⟨c, hc, rfl⟩ := Option.map_eq_some_iff.mp hview
    have howner := hsafe.2 c hc
    rw [hc]
    cases c with
    | mk owner prot =>
      cases howner
      rfl
  have hpiece : ∀ p ∈ r.plan.pieces, ∀ x, p.at (loadedObject job r.plan r.reserved).base x →
      w.cell x = some ⟨.loader, finalProtection p (loadedObject job r.plan r.reserved).relro x⟩ := by
    intro p hp x hx
    have hin := h.reserved.piece hle hp
    have hbounds := hx
    rw [hbase] at hbounds
    simp only [Piece.at, Within] at hbounds
    exact hcell x _ (by omega) (by omega) (hmapped.pieces p hp x hx)
  refine ⟨⟨?_, rfl⟩, hranges, ?_, ?_, ?_⟩
  · show r.reserved = r.reserved - r.plan.imageStart + r.plan.imageStart
    omega
  · intro m hm x hx hx'
    obtain ⟨p, hp, -, hlo, hhi, hrest⟩ := hranges.part m hm
    rw [← hrest x hx hx']
    exact hpiece p hp x ⟨hlo.trans hx, hx'.trans_le hhi⟩
  · intro q hq x hx
    obtain ⟨hs, hl⟩ := mem_loads.mp ⟨q.1, hq⟩
    obtain ⟨p, hp, hin⟩ := (hbuilt.cover x).mpr ⟨q.2, hs, hl, hx⟩
    obtain ⟨-, hprot⟩ := hbuilt.rest q hq p hp x hin hx
    refine ⟨p.rest, hprot, ?_⟩
    simp only [Piece.has] at hin
    rw [hpiece p hp (_ + x) (by simp only [Piece.at, Within]; omega), hbase, finalProtection_biased hrelro]
  · intro x hx hx' hno
    have hout : ∀ p ∈ r.plan.pieces, ¬p.has x := by
      intro p hp hin
      obtain ⟨s, hs, hl, hpage⟩ := (hbuilt.cover x).mp ⟨p, hp, hin⟩
      exact hno s hs hl hpage
    rw [hbase]
    refine hcell _ _ (by omega) (by omega) (hmapped.holes _ (by omega) (by omega) ?_)
    intro p hp hin
    simp only [Piece.at, Within] at hin
    exact hout p hp ⟨by omega, by omega⟩

/-- one step of a load that runs -/
theorem run_inv (hsome : ∀ plan, job.start = .ok plan → job.SealsSome plan) (h : w.Runs job r) : Inv job (w.run job a r) := by
  have hown := h.toOwns
  have hleads := h.leads
  rw [run]
  split
  case h_1 htodo =>
    rw [htodo] at hleads
    obtain ⟨-, hpost⟩ := hleads
    cases hfailed : r.failed with
    | some e => exact ⟨h.pos, h.safe⟩
    | none =>
      have hloaded := loaded_of_done hown (hsome _ h.reserved.start) (hpost hfailed)
      exact ⟨r.plan, h.reserved.start, hloaded⟩
  case h_2 o cs htodo =>
    rw [htodo] at hleads
    obtain ⟨hlo, hhi, hnext⟩ := hleads
    apply call_inv hown hlo hhi
    intro w' hsafe hview
    refine ⟨⟨h.reserved, h.pos, hsafe, h.window⟩, ?_⟩
    simp only [hview]
    exact hnext
  case h_3 cs htodo =>
    rw [htodo] at hleads
    exact work_inv hown ⟨⟨h.reserved, h.pos, h.safe, h.window⟩, hleads⟩
  case h_4 => exact fail_inv hown _
  case h_5 R rel cs htodo => exact feed_inv h htodo
  case h_6 cs htodo =>
    rw [htodo] at hleads
    exact close_inv hown hleads

theorem reserve_inv (hsome : ∀ plan, job.start = .ok plan → job.SealsSome plan) (hphase : w.phase = .start) (h : w.Safe 0 0) :
    Inv job (w.reserve job a) := by
  have hsettled : ∀ e, Inv job { w with phase := .failed e } := by
    intro e x
    have hx := h x
    rw [if_neg (by omega)] at hx
    exact hx
  rw [reserve]
  split
  · exact hsettled _
  case h_2 plan hstart =>
    split
    · exact hsettled _
    case isFalse hspan =>
      split
      · exact hsettled _
      split
      case isTrue hroom =>
        obtain ⟨hfree, halign, hbound⟩ := hroom
        have hreserved : Reserved job plan a.room := ⟨hstart, Nat.dvd_of_mod_eq_zero halign, hbound⟩
        refine ⟨⟨hreserved, Nat.pos_of_ne_zero hspan, ?_, by simp⟩, ?_⟩
        · intro x
          have hx := h x
          rw [if_neg (by omega)] at hx
          dsimp only
          by_cases hin : a.room ≤ x ∧ x < a.room + plan.span
          · have hnone : w.cell x = none := by
              have := List.all_eq_true.mp hfree x (List.mem_range'_1.mpr hin)
              simpa using this
            rw [hnone] at hx
            rw [if_pos hin, if_pos (show Within a.room plan.span x from hin)]
            refine ⟨Option.map_eq_none_iff.mp hx.symm, ?_⟩
            rintro c ⟨⟩
            rfl
          · rw [if_neg hin, if_neg (show ¬Within a.room plan.span x from hin)]
            exact hx
        · refine (leads_script hreserved (hsome plan hstart) ?_).mono fun v hv _ => hv
          intro x hx hx'
          simp only [view]
          rw [if_pos ⟨hx, hx'⟩, if_pos ⟨hx, hx'⟩]
          rfl
      · rw [Inv, hphase]
        exact h

/-! ## Runs -/

/-- another thread's call outside the span -/
theorem Safe.beside {w' : World} {start len : ℕ} (h : w.Safe lo hi) (hout : hi ≤ lo ∨ start + len ≤ lo ∨ hi ≤ start)
    (hcell : ∀ x, ¬Within start len x → w'.cell x = w.cell x ∧ w'.theirs x = w.theirs x)
    (hin : ∀ x, Within start len x → w'.cell x = (w'.theirs x).map (⟨.other, ·⟩)) :
    w'.Safe lo hi ∧ w'.view lo hi = w.view lo hi := by
  have hspan : ∀ x, lo ≤ x ∧ x < hi → ¬Within start len x := by
    rintro x hx ⟨hx', hx''⟩
    omega
  constructor
  · intro x
    have hx := h x
    by_cases hwithin : Within start len x
    · rw [if_neg fun hx' => hspan x hx' hwithin]
      exact hin x hwithin
    · rw [(hcell x hwithin).1, (hcell x hwithin).2]
      exact hx
  · funext x
    simp only [view]
    split
    case isTrue hx => rw [(hcell x (hspan x hx)).1]
    case isFalse => rfl

/-- another thread's call, outside the span that is reserved -/
theorem beside_inv {w' : World} {start len : ℕ} (h : Inv job w) (hreturned : w.phase.returned = false)
    (hphase : w'.phase = w.phase) (hout : ∀ span ∈ w.phase.span, start + len ≤ span.1 ∨ span.2 ≤ start)
    (hcell : ∀ x, ¬Within start len x → w'.cell x = w.cell x ∧ w'.theirs x = w.theirs x)
    (hin : ∀ x, Within start len x → w'.cell x = (w'.theirs x).map (⟨.other, ·⟩)) : Inv job w' := by
  rw [Inv] at h ⊢
  rw [hphase]
  cases hw : w.phase with
  | start =>
    rw [hw] at h
    exact (Safe.beside h (.inl (le_refl 0)) hcell hin).1
  | running r =>
    rw [hw] at h hout
    obtain ⟨hsafe, hview⟩ := Safe.beside h.safe (.inr (hout _ rfl)) hcell hin
    refine ⟨⟨h.reserved, h.pos, hsafe, h.window⟩, ?_⟩
    rw [hview]
    exact h.leads
  | releasing plan reserved e =>
    rw [hw] at h hout
    exact ⟨h.1, (Safe.beside h.2 (.inr (hout _ rfl)) hcell hin).1⟩
  | failed e =>
    rw [hw] at hreturned
    cases hreturned
  | loaded obj =>
    rw [hw] at hreturned
    cases hreturned

/-- the release, carried out -/
theorem release_inv {plan : LoadPlan} {reserved : ℕ} {e : LoadError} (hpos : 0 < plan.span)
    (h : w.Safe reserved (reserved + plan.span)) (hok : a.refused = none) :
    Inv job { (w.perform a (.unmap reserved plan.span)).1 with phase := .failed e } := by
  intro x
  have hx := h x
  have href : (Op.unmap reserved plan.span).refusal w.cell = none := if_neg (by omega)
  simp only [perform, href, hok, true_or, and_true, Op.made, Op.start, Op.len]
  by_cases hin : reserved ≤ x ∧ x < reserved + plan.span
  · rw [if_pos hin] at hx
    rw [if_pos (show Within reserved plan.span x from hin), hx.1]
    rfl
  · rw [if_neg hin] at hx
    rw [if_neg (show ¬Within reserved plan.span x from hin)]
    exact hx

theorem outside_of_undisturbed {start len : ℕ} {b : Bool}
    (h : (match w.phase.span with
      | some (lo, hi) => decide (start + len ≤ lo) || decide (hi ≤ start)
      | none => true) = b) (hb : b = true) : ∀ span ∈ w.phase.span, start + len ≤ span.1 ∨ span.2 ≤ start := by
  rintro ⟨lo, hi⟩ hspan
  rw [hspan] at h
  rw [hb] at h
  simpa using h

theorem step_inv {act : Act} (hsome : ∀ plan, job.start = .ok plan → job.SealsSome plan) (h : Inv job w)
    (hact : w.undisturbed act = true) : Inv job (w.step job act) := by
  cases hret : w.phase.returned with
  | true =>
    have hstop : w.step job act = w := by
      cases hw : w.phase with
      | failed e => simp only [step, hw]
      | loaded obj => simp only [step, hw]
      | _ =>
        rw [hw] at hret
        cases hret
    rw [hstop]
    exact h
  | false =>
    cases act with
    | load a =>
      rw [Inv] at h
      cases hw : w.phase with
      | start =>
        rw [hw] at h
        simp only [step, hw]
        exact reserve_inv hsome hw h
      | running r =>
        rw [hw] at h
        simp only [step, hw]
        exact run_inv hsome h
      | releasing plan reserved e =>
        rw [hw] at h
        simp only [undisturbed, hw, Option.isNone_iff_eq_none] at hact
        simp only [step, hw]
        exact release_inv h.1 h.2 hact
      | failed e =>
        rw [hw] at hret
        cases hret
      | loaded obj =>
        rw [hw] at hret
        cases hret
    | map start len prot =>
      have hstep : w.step job (.map start len prot) = if w.free start len then
          { w with
            cell := fun x => if Within start len x then some ⟨.other, prot⟩ else w.cell x
            theirs := fun x => if Within start len x then some prot else w.theirs x }
          else w := by
        cases hw : w.phase with
        | failed e =>
          rw [hw] at hret
          cases hret
        | loaded obj =>
          rw [hw] at hret
          cases hret
        | _ => simp only [step, hw]
      rw [hstep]
      split
      · refine beside_inv h hret rfl (outside_of_undisturbed rfl hact) ?_ ?_
        · intro x hx
          exact ⟨if_neg hx, if_neg hx⟩
        · intro x hx
          simp only [if_pos hx]
          rfl
      · exact h
    | unmap start len =>
      have hstep : w.step job (.unmap start len) =
          { w with
            cell := fun x => if Within start len x then none else w.cell x
            theirs := fun x => if Within start len x then none else w.theirs x } := by
        cases hw : w.phase with
        | failed e =>
          rw [hw] at hret
          cases hret
        | loaded obj =>
          rw [hw] at hret
          cases hret
        | _ => simp only [step, hw]
      rw [hstep]
      refine beside_inv h hret rfl (outside_of_undisturbed rfl hact) ?_ ?_
      · intro x hx
        exact ⟨if_neg hx, if_neg hx⟩
      · intro x hx
        simp only [if_pos hx]
        rfl

end World

/-- In every run of a load in which no other thread maps or unmaps in the span while it is reserved and the release is
carried out, for an object whose relro is not an empty range inside a piece: a load that returns leaves what it should. -/
theorem load_settles (job : Job) (theirs : ℕ → Option Protection) (w : World)
    (hsome : ∀ plan, job.start = .ok plan → job.SealsSome plan)
    (h : Reach (World.step job) (fun w act => w.undisturbed act = true) (World.init theirs) w) : Settled job w := by
  have hinv : World.Inv job w := by
    apply h.invariant (World.Inv job)
    · intro x
      rw [if_neg (by omega)]
      rfl
    · intro s act _ hact hs
      exact World.step_inv hsome hs hact
  rw [World.Inv] at hinv
  constructor
  · intro e hw
    rw [hw] at hinv
    exact hinv
  · intro obj hw
    rw [hw] at hinv
    exact hinv

/-- a page of data -/
def smallJob : Job where
  elf := ⟨List.replicate 100 7, [⟨PT_LOAD, PF_R ||| PF_W, 0, 0x10000, 100, 100, 4096⟩],
    ⟨0x10000, 0x10064, 100, 100, 4096, 1⟩, ⟨none, none, none, none, none, none, none⟩⟩
  backing := 100
  shift := 12
  sealRelro := true
  maxAnonymousBytes := 0x10000
  relocationWindow := 4096
  bindings := []
  passes := []
  valid := rfl

def allowed : Answer := ⟨0x200000, none, fun _ => false⟩

def loading : List Act := List.replicate 9 (.load allowed)

/-- no refusal of the release among them -/
theorem loading_undisturbed (w : World) : ∀ act ∈ loading, w.undisturbed act = true := by
  intro act hact
  cases List.eq_of_mem_replicate hact
  simp only [World.undisturbed]
  split <;> rfl

set_option maxRecDepth 50000 in
theorem load_settles_small :
    Settled smallJob (run (World.step smallJob) (World.init fun _ => none) loading) ∧
      (run (World.step smallJob) (World.init fun _ => none) loading).phase.returned = true := by
  have hsome : ∀ plan, smallJob.start = .ok plan → smallJob.SealsSome plan := by
    intro plan _ seg hseg
    have hnone : smallJob.elf.relro = none := rfl
    rw [hnone] at hseg
    cases hseg
  have hallowed := @allowed_of_forall _ _ (World.step smallJob) _ _ loading_undisturbed (World.init fun _ => none)
  exact ⟨load_settles smallJob (fun _ => none) _ hsome (Reach.run .start loading hallowed), by decide⟩

/-- the span is reserved and its piece unmapped; another thread maps a page there; the piece's map fails, and the release -/
def intrusion : List Act := [.load allowed, .load allowed, .map 0x200000 4096 .read, .load allowed, .load allowed]

set_option maxRecDepth 50000 in
/-- the load fails and takes the other thread's page with it -/
theorem hole_taken :
    ¬Settled smallJob (run (World.step smallJob) (World.init fun _ => none) intrusion) := by
  have hrun : (run (World.step smallJob) (World.init fun _ => none) intrusion).phase.error =
        some (.mem "map" 0x200000 4096) ∧
      (run (World.step smallJob) (World.init fun _ => none) intrusion).theirs 0x200000 = some .read ∧
      (run (World.step smallJob) (World.init fun _ => none) intrusion).cell 0x200000 = none := by
    decide
  obtain ⟨hfailed, htheirs, hcell⟩ := hrun
  intro h
  have h := h.failed _ (Phase.eq_failed hfailed) 0x200000
  rw [htheirs, hcell] at h
  cases h

end Omnidroid.Elf
