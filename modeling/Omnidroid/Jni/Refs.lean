/-
The handles given to a guest for its objects (`omni-android/src/jni/refs.rs`): two tables with their free lists, one of
objects and one of references to them, each slot with a generation, and handles of a tag, a kind, a check word (24 bits
of the reference slot's generation mixed with a cookie) and the slot's index.

An object's contents are a parameter: none of this looks into them. Handles are numbers; one of over 64 bits has the
wrong tag. What goes wrong keeps the caller's function name and address, the handle and the reason.
-/
import Mathlib.Data.Nat.Bitwise
import Mathlib.Data.List.Basic

namespace Omnidroid.Jni

def refTag : ℕ := 0xa5

def checkBits : ℕ := 24

def checkMask : ℕ := 2 ^ checkBits - 1

def maxReferences : ℕ := 65536

def maxObjects : ℕ := 65536

inductive RefKind where
  | local_
  | global
  | weak
deriving DecidableEq, Repr

namespace RefKind

def code : RefKind → ℕ
  | local_ => 1
  | global => 2
  | weak => 3

def fromCode : ℕ → Option RefKind
  | 1 => some local_
  | 2 => some global
  | 3 => some weak
  | _ => none

def name : RefKind → String
  | local_ => "a local reference"
  | global => "a global reference"
  | weak => "a weak global reference"

end RefKind

structure ObjectId where
  index : ℕ
  generation : ℕ
deriving DecidableEq, Repr

structure ObjectSlot (α : Type) where
  generation : ℕ
  object : Option α
  /-- the references to it that are not weak -/
  strong : ℕ

structure RefSlot where
  generation : ℕ
  live : Option (RefKind × ObjectId)

/-- the tables; a free list is a stack, its top first -/
structure Handles (α : Type) where
  objects : List (ObjectSlot α)
  freeObjects : List ℕ
  refs : List RefSlot
  freeRefs : List ℕ
  cookie : ℕ
  peakRefs : ℕ

inductive AbiError where
  | jniRefused (function : String) (address : ℕ) (detail : String)
  | jniBadHandle (function : String) (address : ℕ) (kind : String) (handle : ℕ) (why : String)
deriving DecidableEq, Repr

/-- what a call that takes the tables mutably leaves -/
abbrev Outcome (α β : Type) := Except AbiError β × Handles α

namespace Handles

variable {α : Type}

/-- `new` -/
def new (cookie : ℕ) : Handles α := ⟨[], [], [], [], cookie &&& checkMask, 0⟩

/-- `live_references` -/
def liveReferences (h : Handles α) : ℕ := h.refs.countP fun slot => slot.live.isSome

/-- `check_word` -/
def checkWord (h : Handles α) (generation : ℕ) : ℕ := (generation ^^^ h.cookie) &&& checkMask

section

variable (function : String) (address : ℕ)

def objectsFull : AbiError := .jniRefused function address
  ("this instance already holds 65536 live Java objects, which is the cap; a guest that keeps creating them without " ++
    "deleting the references gets this refusal rather than an unbounded host allocation")

def referencesFull : AbiError :=
  .jniRefused function address "this instance already holds 65536 live JNI references, which is the cap"

/-- the slot of the next object: the top free one, or a new one -/
def takeObject (h : Handles α) : Option (ℕ × Handles α) :=
  match h.freeObjects with
  | index :: rest => some (index, { h with freeObjects := rest })
  | [] =>
    if maxObjects ≤ h.objects.length then none
    else some (h.objects.length, { h with objects := h.objects ++ [⟨1, none, 0⟩] })

/-- `insert_object` -/
def insertObject (object : α) (h : Handles α) : Outcome α ObjectId :=
  match h.takeObject with
  | none => (.error (objectsFull function address), h)
  | some (index, h) =>
    (.ok ⟨index, (h.objects[index]?.map ObjectSlot.generation).getD 0⟩,
      { h with objects := h.objects.modify index fun slot => { slot with object := some object, strong := 0 } })

/-- `create` -/
def create (object : α) (h : Handles α) : Outcome α ObjectId := h.insertObject function address object

/-- the slot of the next reference -/
def takeRef (h : Handles α) : Option (ℕ × Handles α) :=
  match h.freeRefs with
  | index :: rest => some (index, { h with freeRefs := rest })
  | [] =>
    if maxReferences ≤ h.refs.length then none
    else some (h.refs.length, { h with refs := h.refs ++ [⟨1, none⟩] })

/-- `reference_to`; the object's slot is not looked at -/
def referenceTo (kind : RefKind) (id : ObjectId) (h : Handles α) : Outcome α ℕ :=
  match h.takeRef with
  | none => (.error (referencesFull function address), h)
  | some (index, h) =>
    let generation := (h.refs[index]?.map RefSlot.generation).getD 0
    let h := { h with refs := h.refs.modify index fun slot => { slot with live := some (kind, id) } }
    let h := if kind = .weak then h
      else { h with objects := h.objects.modify id.index fun slot => { slot with strong := slot.strong + 1 } }
    (.ok ((refTag <<< 56) ||| (kind.code <<< 52) ||| (h.checkWord generation <<< 28) ||| index),
      { h with peakRefs := max h.peakRefs h.liveReferences })

/-- `new_local` -/
def newLocal (object : α) (h : Handles α) : Outcome α ℕ :=
  match h.create function address object with
  | (.ok id, h) => h.referenceTo function address .local_ id
  | (.error e, h) => (.error e, h)

def bad (handle : ℕ) (why : String) : AbiError := .jniBadHandle function address "jobject" handle why

/-- `resolve_id` -/
def resolveId (h : Handles α) (handle : ℕ) : Except AbiError ObjectId :=
  let bad := bad function address handle
  if handle = 0 then .error (bad "it is null, and this call has no defined behaviour for a null object")
  else if handle >>> 56 ≠ refTag then
    .error (bad "its top byte is not the reference tag, so it was never issued by this instance")
  else if (RefKind.fromCode ((handle >>> 52) &&& 0xf)).isNone then
    .error (bad "its kind field is not one of local, global or weak")
  else
    match h.refs[handle &&& 0xfffffff]? with
    | none => .error (bad "its index is past the end of the reference table")
    | some slot =>
      if (handle >>> 28) &&& checkMask ≠ h.checkWord slot.generation then
        .error (bad ("its check word does not match that slot's generation: the reference was deleted " ++
          "and the slot reused, or the value was not issued by this instance"))
      else
        match slot.live with
        | none => .error (bad "that reference slot is free: the reference has been deleted")
        | some (_, id) =>
          match h.objects[id.index]? with
          | none => .error (bad "its object slot is past the end of the object table")
          | some object =>
            if object.generation ≠ id.generation ∨ object.object.isNone then
              .error (bad "the object it names has been freed")
            else .ok id

/-- `duplicate` -/
def duplicate (kind : RefKind) (handle : ℕ) (h : Handles α) : Outcome α ℕ :=
  match h.resolveId function address handle with
  | .ok id => h.referenceTo function address kind id
  | .error e => (.error e, h)

/-- `kind_of`: the kind in the slot -/
def kindOf (h : Handles α) (handle : ℕ) : Except AbiError RefKind :=
  (h.resolveId function address handle).map fun _ =>
    (((h.refs[handle &&& 0xfffffff]?).bind RefSlot.live).map Prod.fst).getD .local_

/-- `object_of` -/
def objectOf (h : Handles α) (id : ObjectId) : Option α :=
  h.objects[id.index]?.bind fun slot => if slot.generation ≠ id.generation then none else slot.object

/-- what `object_of_mut`'s caller does to the object it gets -/
def objectOfMut (id : ObjectId) (change : α → α) (h : Handles α) : Handles α :=
  { h with
    objects := h.objects.modify id.index fun slot =>
      if slot.generation ≠ id.generation then slot else { slot with object := slot.object.map change } }

/-- the reference's slot emptied -/
def takeLive (h : Handles α) (index : ℕ) : Handles α :=
  { h with
    refs := h.refs.modify index fun slot => ⟨(slot.generation + 1) % 2 ^ 32, none⟩
    freeRefs := index :: h.freeRefs }

/-- one reference fewer that is not weak: the last frees the object -/
def dropStrong (h : Handles α) (index : ℕ) : Handles α :=
  match h.objects[index]? with
  | none => h
  | some slot =>
    if slot.strong - 1 = 0 then
      { h with
        objects := h.objects.set index ⟨(slot.generation + 1) % 2 ^ 32, none, 0⟩
        freeObjects := index :: h.freeObjects }
    else { h with objects := h.objects.set index { slot with strong := slot.strong - 1 } }

/-- `delete` -/
def delete (expected : RefKind) (handle : ℕ) (h : Handles α) : Outcome α Unit :=
  match h.kindOf function address handle with
  | .error e => (.error e, h)
  | .ok actual =>
    if actual ≠ expected then
      (.error (bad function address handle
        ("it is " ++ actual.name ++ " and this call deletes " ++ expected.name)), h)
    else
      let index := handle &&& 0xfffffff
      match (h.refs[index]?).bind RefSlot.live with
      | none => (.ok (), h)
      | some (kind, id) =>
        let h := h.takeLive index
        (.ok (), if kind = .weak then h else h.dropStrong id.index)

end

end Handles

end Omnidroid.Jni
