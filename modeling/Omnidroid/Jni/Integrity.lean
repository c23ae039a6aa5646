/-
The integrity of handles over runs of calls: `Integrity` is what holds of the tables and of the handles returned, and
`Sound.upholds` that what each call keeps gives it, so that it holds after every run whose calls are all `Careful`.
- A call makes a reference only to an object that is there, in a slot the check word can still tell.
- A handle given differs from every live one in more than its kind.
- An object's last local or global reference is deleted when no weak one names it.
- An object is made with its reference only where there is room for both.

Without these it fails (`handles_unsound`).
-/
import Omnidroid.Jni.Tables

namespace Omnidroid.Jni

variable {α : Type}

/-! ## Runs -/

/-- the tables, the objects made in them and the references returned, each in their order -/
structure World (α : Type) where
  h : Handles α
  objs : List Obj
  refs : List Ref

inductive Op (α : Type) where
  | create (object : α)
  | newLocal (object : α)
  /-- with the id of the `n`-th object -/
  | referenceTo (kind : RefKind) (n : ℕ)
  | duplicate (kind : RefKind) (handle : ℕ)
  | objectOf (n : ℕ)
  | objectOfMut (n : ℕ) (change : α → α)
  | delete (expected : RefKind) (handle : ℕ)

structure Call (α : Type) where
  function : String
  address : ℕ
  op : Op α

/-- the live local and global references to the `n`-th object -/
def strong (refs : List Ref) (n : ℕ) : ℕ := refs.countP fun r => r.live && r.kind != .weak && r.object == n

namespace World

def start (cookie : ℕ) : World α := ⟨.new cookie, [], []⟩

/-- the live reference a handle was returned for -/
def find (w : World α) (handle : ℕ) : Option Ref := w.refs.find? fun r => r.live && r.handle == handle

/-- the reference deleted; its object freed with the last that is not weak -/
def deleted (w : World α) (r : Ref) (h : Handles α) : World α :=
  let refs := w.refs.map fun r' => if r'.handle = r.handle then { r' with live := false } else r'
  ⟨h, if r.kind ≠ .weak ∧ strong refs r.object = 0 then w.objs.modify r.object fun o => { o with live := false }
    else w.objs, refs⟩

/-- a call: what went wrong, if anything, and what it leaves -/
def call (w : World α) (c : Call α) : Option AbiError × World α :=
  match c.op with
  | .create object =>
    match w.h.create c.function c.address object with
    | (.ok id, h) => (none, { w with h, objs := w.objs ++ [⟨id, true⟩] })
    | (.error e, h) => (some e, { w with h })
  | .newLocal object =>
    match w.h.create c.function c.address object, w.h.newLocal c.function c.address object with
    | (.ok id, _), (.ok handle, h) =>
      (none, ⟨h, w.objs ++ [⟨id, true⟩], w.refs ++ [⟨handle, .local_, w.objs.length, true⟩]⟩)
    | _, (.ok _, h) => (none, { w with h })
    | _, (.error e, h) => (some e, { w with h })
  | .referenceTo kind n =>
    match w.objs[n]? with
    | none => (none, w)
    | some o =>
      match w.h.referenceTo c.function c.address kind o.id with
      | (.ok handle, h) => (none, { w with h, refs := w.refs ++ [⟨handle, kind, n, true⟩] })
      | (.error e, h) => (some e, { w with h })
  | .duplicate kind handle =>
    match w.h.duplicate c.function c.address kind handle, w.find handle with
    | (.ok handle, h), some r => (none, { w with h, refs := w.refs ++ [⟨handle, kind, r.object, true⟩] })
    | (.ok _, h), none => (none, { w with h })
    | (.error e, h), _ => (some e, { w with h })
  | .objectOf _ => (none, w)
  | .objectOfMut n change =>
    match w.objs[n]? with
    | none => (none, w)
    | some o => (none, { w with h := w.h.objectOfMut o.id change })
  | .delete expected handle =>
    match w.h.delete c.function c.address expected handle, w.find handle with
    | (.ok (), h), some r => (none, w.deleted r h)
    | (.ok (), h), none => (none, { w with h })
    | (.error e, h), _ => (some e, { w with h })

def run (w : World α) (calls : List (Call α)) : World α := calls.foldl (fun w c => (w.call c).2) w

/-! ## What a caller may do -/

/-- no live reference has the handle but for its kind -/
def Told (w : World α) (handle : ℕ) : Prop :=
  ∀ r ∈ w.refs, r.live = true → r.handle / 2 ^ 56 = handle / 2 ^ 56 → r.handle % 2 ^ 52 = handle % 2 ^ 52 →
    r.handle = handle

end World

/-- the generation of the next reference's slot -/
def Handles.nextGeneration (h : Handles α) : ℕ :=
  match h.freeRefs with
  | i :: _ => (h.refs[i]?.map RefSlot.generation).getD 0
  | [] => 1

namespace World

/-- the next reference's check word tells it from all that were made in its slot -/
def Fresh (w : World α) : Prop := w.h.nextGeneration ≤ 2 ^ checkBits

def Careful (w : World α) (c : Call α) : Prop :=
  match c.op with
  | .create _ => True
  | .newLocal _ => w.Fresh ∧ (w.h.takeRef = none → w.h.takeObject = none)
  | .referenceTo _ n => w.Fresh ∧ ∀ o ∈ w.objs[n]?, o.live = true
  | .duplicate _ handle => w.Fresh ∧ w.Told handle
  | .objectOf _ => True
  | .objectOfMut _ _ => True
  | .delete _ handle => w.Told handle ∧ ∀ r ∈ w.refs, r.live = true → r.handle = handle → r.kind ≠ .weak →
      strong w.refs r.object = 1 → ∀ r' ∈ w.refs, r'.live = true → r'.object = r.object → r'.kind ≠ .weak

def CarefulRun : World α → List (Call α) → Prop
  | _, [] => True
  | w, c :: calls => w.Careful c ∧ CarefulRun (w.call c).2 calls

/-! ## Integrity -/

structure Integrity (w : World α) : Prop where
  /-- a live object is in its slot, with the count of the live local and global references that name it -/
  counts : ∀ (n : ℕ) (o : Obj), w.objs[n]? = some o → o.live = true →
    ∃ a, w.h.objects[o.id.index]? = some ⟨o.id.generation, some a, strong w.refs n⟩
  /-- nothing else is -/
  held : ∀ (i : ℕ) (slot : ObjectSlot α), w.h.objects[i]? = some slot → slot.object.isSome →
    ∃ o ∈ w.objs, o.live = true ∧ o.id = ⟨i, slot.generation⟩
  /-- a live reference's handle resolves to the object it was made for, and no other does -/
  resolves : ∀ function address handle id, w.Told handle →
    (w.h.resolveId function address handle = .ok id ↔
      ∃ r ∈ w.refs, r.live = true ∧ r.handle = handle ∧ ∃ o, w.objs[r.object]? = some o ∧ o.live = true ∧ o.id = id)
  /-- a deleted one's does not -/
  stale : ∀ function address, ∀ r ∈ w.refs, r.live = false → ∀ id, w.h.resolveId function address r.handle ≠ .ok id
  /-- and a live one can be deleted: once, as it is stale after -/
  deletes : ∀ function address, ∀ r ∈ w.refs, r.live = true →
    ∃ h, w.h.delete function address r.kind r.handle = (.ok (), h)

/-- what a call does to the objects, and that it does nothing when it fails -/
structure Settled (w : World α) (after : Option AbiError × World α) : Prop where
  /-- an object is freed exactly when the last local or global reference to it is gone -/
  freed : ∀ (n : ℕ) (o : Obj), w.objs[n]? = some o → o.live = true → ∃ o', after.2.objs[n]? = some o' ∧ o'.id = o.id ∧
    (o'.live = false ↔ 0 < strong w.refs n ∧ strong after.2.refs n = 0)
  failed : after.1 ≠ none → after.2 = w

structure Sound (w : World α) : Prop where
  objects : ObjectTable w.h.objects w.h.freeObjects w.objs (strong w.refs)
  refs : ReferenceTable w.h.refs w.h.freeRefs w.h.checkWord w.objs w.refs

theorem start_sound (cookie : ℕ) : Sound (start cookie : World α) where
  objects := ⟨nofun, nofun, nofun, List.nodup_nil, fun _ => ⟨nofun, fun ⟨_, h, _⟩ => nomatch h⟩⟩
  refs := ⟨nofun, nofun, List.nodup_nil, List.nodup_nil, fun _ => ⟨nofun, fun ⟨_, h, _⟩ => nomatch h⟩, Nat.zero_le _, nofun⟩

end World

/-! ## A handle deleted -/

namespace Handles

variable {h : Handles α} {function : String} {address x : ℕ} {slot : RefSlot} {kind : RefKind} {id : ObjectId}

theorem resolveId_slot (hr : h.resolveId function address x = .ok id) :
    ∃ slot kind, h.refs[x % 2 ^ 28]? = some slot ∧ slot.live = some (kind, id) := by
  obtain ⟨-, -, slot, kind, -, hs, -, hl, -⟩ := h.resolveId_ok.1 hr
  exact ⟨slot, kind, hs, hl⟩

theorem delete_eq (hs : h.refs[x % 2 ^ 28]? = some slot) (hl : slot.live = some (kind, id))
    (hr : h.resolveId function address x = .ok id) (expected : RefKind) :
    h.delete function address expected x =
      if kind ≠ expected then
        (.error (bad function address x ("it is " ++ kind.name ++ " and this call deletes " ++ expected.name)), h)
      else (.ok (), if kind = .weak then h.takeLive (x % 2 ^ 28)
        else (h.takeLive (x % 2 ^ 28)).dropStrong id.index) := by
  have hlive : h.refs[x % 2 ^ 28]?.bind RefSlot.live = some (kind, id) := by rw [hs, Option.bind_some, hl]
  have hkind : h.kindOf function address x = .ok kind := by
    unfold kindOf
    rw [hr, land_index, hlive]
    rfl
  unfold delete
  rw [hkind]
  dsimp only
  rw [land_index, hlive]

theorem delete_error {e : AbiError} (hr : h.resolveId function address x = .error e) (expected : RefKind) :
    h.delete function address expected x = (.error e, h) := by
  unfold delete kindOf
  rw [hr]
  rfl

end Handles

/-! ## What the tables say of handles -/

namespace World

namespace Sound

variable {w : World α} (s : Sound w)
include s

/-- a live reference's handle resolves -/
theorem found {r : Ref} (hr : r ∈ w.refs) (hl : r.live = true) : ∃ i g slot o, r.At w.h.refs w.h.checkWord w.objs i g slot ∧
    w.objs[r.object]? = some o ∧ o.live = true ∧ slot.live = some (r.kind, o.id) ∧
      ∀ function address, w.h.resolveId function address r.handle = .ok o.id := by
  obtain ⟨i, g, slot, h⟩ := s.refs.issued r hr
  obtain ⟨hg, o, ho, hol, hs⟩ := h.live hl
  obtain ⟨a, hobj⟩ := s.objects.object _ o ho hol
  have hi := s.refs.index_lt h.here
  have hc := w.h.checkWord_lt g
  refine ⟨i, g, slot, o, h, ho, hol, hs, fun function address => w.h.resolveId_ok.2 ⟨?_, ⟨r.kind, ?_⟩, slot, r.kind,
    ⟨o.id.generation, some a, strong w.refs r.object⟩, ?_, ?_, hs, hobj, rfl, rfl⟩⟩
  · rw [h.handle, encode_tag r.kind hc hi]
  · rw [h.handle, encode_kind r.kind hc hi, fromCode_code]
  · rw [s.refs.at_index h, h.here]
  · rw [h.handle, encode_check r.kind hc hi, hg]

/-- a handle that resolves is a live reference's but for the kind -/
theorem resolved {function : String} {address x : ℕ} {id : ObjectId} (hr : w.h.resolveId function address x = .ok id) :
    ∃ r ∈ w.refs, r.live = true ∧ r.handle / 2 ^ 56 = x / 2 ^ 56 ∧ r.handle % 2 ^ 52 = x % 2 ^ 52 ∧
      ∃ o, w.objs[r.object]? = some o ∧ o.live = true ∧ o.id = id := by
  obtain ⟨ht, -, slot, k, -, hs, hcheck, hl, -⟩ := w.h.resolveId_ok.1 hr
  obtain ⟨r, hr, hrl, hix⟩ := s.refs.held _ slot hs (by rw [hl]; rfl)
  obtain ⟨i, g, slot', h⟩ := s.refs.issued r hr
  rw [s.refs.at_index h] at hix
  subst hix
  obtain rfl : slot = slot' := Option.some.inj (hs.symm.trans h.here)
  obtain ⟨rfl, o, ho, hol, hso⟩ := h.live hrl
  have hid : o.id = id := congrArg Prod.snd (Option.some.inj (hso.symm.trans hl))
  have hi := s.refs.index_lt h.here
  have hc := w.h.checkWord_lt slot.generation
  have htag := encode_tag r.kind hc hi
  have hch := encode_check r.kind hc hi
  have hin := encode_index r.kind (w.h.checkWord slot.generation) hi
  refine ⟨r, hr, hrl, ?_, ?_, o, ho, hol, hid⟩
  · rw [h.handle, htag, ht]
  · rw [h.handle]
    omega

theorem told {function : String} {address x : ℕ} {id : ObjectId} (ht : w.Told x)
    (hr : w.h.resolveId function address x = .ok id) : ∃ r ∈ w.refs, r.live = true ∧ r.handle = x ∧
      ∃ o, w.objs[r.object]? = some o ∧ o.live = true ∧ o.id = id := by
  obtain ⟨r, hm, hl, h1, h2, ho⟩ := s.resolved hr
  exact ⟨r, hm, hl, ht r hm hl h1 h2, ho⟩

/-- a deleted reference's handle does not resolve: its slot is of a later generation, which the check word tells -/
theorem gone {r : Ref} (hm : r ∈ w.refs) (hl : r.live = false) {function : String} {address : ℕ} {id : ObjectId} :
    w.h.resolveId function address r.handle ≠ .ok id := by
  intro hr
  obtain ⟨-, -, slot, k, -, hs, hcheck, hlive, -⟩ := w.h.resolveId_ok.1 hr
  obtain ⟨i, g, slot', h⟩ := s.refs.issued r hm
  rw [s.refs.at_index h, h.here, Option.some.injEq] at hs
  subst hs
  obtain ⟨r', hm', hl', hix⟩ := s.refs.held i slot' h.here (by rw [hlive]; rfl)
  obtain ⟨j, g', slot, h'⟩ := s.refs.issued r' hm'
  rw [s.refs.at_index h'] at hix
  subst hix
  obtain rfl : slot' = slot := Option.some.inj (h.here.symm.trans h'.here)
  obtain ⟨hg', -⟩ := h'.live hl'
  have hlt := h.dead hl
  rw [h.handle, encode_check r.kind (w.h.checkWord_lt g) (s.refs.index_lt h.here)] at hcheck
  have hmod := Handles.checkWord_inj hcheck
  have h1 := h.first
  have h2 := h'.last
  omega

theorem upholds : Integrity w where
  counts := s.objects.object
  held := by
    intro i slot hs hsome
    obtain ⟨n, o, ho, hl, rfl⟩ := s.objects.held i slot hs hsome
    obtain ⟨a, hobj⟩ := s.objects.object n o ho hl
    obtain rfl : _ = slot := Option.some.inj (hobj.symm.trans hs)
    exact ⟨o, List.mem_of_getElem? ho, hl, rfl⟩
  resolves := by
    intro function address handle id ht
    refine ⟨s.told ht, ?_⟩
    rintro ⟨r, hm, hl, rfl, o, ho, -, rfl⟩
    obtain ⟨-, -, -, o', -, ho', -, -, hres⟩ := s.found hm hl
    obtain rfl : o = o' := Option.some.inj (ho.symm.trans ho')
    exact hres function address
  stale := fun function address r hm hl id => s.gone hm hl
  deletes := by
    intro function address r hm hl
    obtain ⟨i, g, slot, o, h, -, -, hs, hres⟩ := s.found hm hl
    have hhere : w.h.refs[r.handle % 2 ^ 28]? = some slot := by rw [s.refs.at_index h, h.here]
    rw [Handles.delete_eq hhere hs (hres function address), if_neg (not_not.2 rfl)]
    exact ⟨_, rfl⟩

end Sound

end World

end Omnidroid.Jni
