/-
The property service (`PropertyService` of `omni-linux/src/props.rs`): a prop area, where each name's `prop_info` in it is, and
what `set`, `set_forced` and `delete` do to them under its lock.
- `Live.setInner`, `Live.delete`: a change of the area; `Live.apply_length` says that it never shrinks.
-/
import Omnidroid.Lib.FinMap
import Omnidroid.Lib.Text
import Omnidroid.Props.Area

namespace Omnidroid.Props

open Bytes Text

def PROP_SUCCESS : ℕ := 0
def PROP_ERROR_READ_ONLY_PROPERTY : ℕ := 0x0b
def PROP_ERROR_INVALID_NAME : ℕ := 0x10
def PROP_ERROR_INVALID_VALUE : ℕ := 0x14

/-- "ro." -/
def RO : Bytes := [114, 111, 46]

/-- "ctl." -/
def CTL : Bytes := [99, 116, 108, 46]

def hasWhitespace (name : Bytes) : Bool := name.tails.any fun t => whitespace.any (·.isPrefixOf t)

def isRo (name : Bytes) : Bool := RO.isPrefixOf name

structure Live where
  area : Area
  /-- name to the place of its `prop_info` -/
  info : Map Bytes ℕ
  serial : ℕ
  capacity : ℕ

namespace Live

/-- `PropertyService::build_from`, with the properties that the view leaves -/
def build (props : List (Bytes × Bytes)) : Live :=
  let (area, info) := props.foldl
    (fun (s : Area × Map Bytes ℕ) p => ((s.1.add p.1 p.2).1, s.2.insert p.1 (s.1.add p.1 p.2).2)) (Area.new, ∅)
  { area, info, serial := 0, capacity := (HEADER + area.data.length + 2 ^ 20 + AREA_UNIT - 1) / AREA_UNIT * AREA_UNIT }

/-- a `prop_info`'s serial after a change in place: its value's length, and the count of changes, even and not long -/
def nextSerial (old length : ℕ) : ℕ := length * 2 ^ 24 + ((old + 2) % 2 ^ 32 &&& 0x00fefffe)

/-- a short value over what the `prop_info` held -/
def rewrite (a : Area) (at_ : ℕ) (value : Bytes) : Area :=
  let old := a.u32At at_
  ((a.write (at_ + 4) (zeros PROP_VALUE_MAX)).write (at_ + 4) value).setU32 at_ (nextSerial old value.length)

/-- the room that an addition is taken to need -/
def full (l : Live) (value : Bytes) : Bool := l.capacity < HEADER + l.area.data.length + 512 + value.length

def added (l : Live) (name value : Bytes) : Live × ℕ :=
  ({ l with
      area := (l.area.add name value).1
      info := l.info.insert name (l.area.add name value).2
      serial := (l.serial + 1) % 2 ^ 32 },
    (l.area.add name value).2)

/-- `set_inner`: the new state, and the place of the `prop_info` that changed -/
def setInner (l : Live) (name value : Bytes) (force : Bool) : Except ℕ (Live × ℕ) :=
  match l.info.lookup name with
  | some at_ =>
    if isRo name ∧ force = false then .error PROP_ERROR_READ_ONLY_PROPERTY
    else if PROP_VALUE_MAX ≤ value.length then
      if l.full value then .error PROP_ERROR_INVALID_VALUE else .ok (l.added name value)
    else .ok ({ l with area := rewrite l.area at_ value, serial := (l.serial + 1) % 2 ^ 32 }, at_)
  | none => if l.full value then .error PROP_ERROR_INVALID_VALUE else .ok (l.added name value)

/-- `delete`, of a name there is -/
def delete (l : Live) (name : Bytes) : Option Live :=
  match l.info.lookup name with
  | none => none
  | some at_ =>
    some { l with
      area := (l.area.write (at_ + 4) (zeros PROP_VALUE_MAX)).setU32 at_ (nextSerial (l.area.u32At at_) 0)
      info := l.info.erase name
      serial := (l.serial + 1) % 2 ^ 32 }

end Live

/-- `set`'s checks; control messages are not properties -/
inductive Admitted where
  | control
  | refused (code : ℕ)
  | property

def admitted (name value : Bytes) : Admitted :=
  if CTL.isPrefixOf name then .control
  else if name = [] ∨ 256 ≤ name.length ∨ hasWhitespace name then .refused PROP_ERROR_INVALID_NAME
  else if PROP_VALUE_MAX ≤ value.length ∧ ¬isRo name then .refused PROP_ERROR_INVALID_VALUE
  else .property

/-- a request to the service -/
inductive Op where
  | set (name value : Bytes)
  | setForced (name value : Bytes)
  | delete (name : Bytes)
deriving DecidableEq

/-- what a request asks to be changed, if it comes to that -/
inductive Change where
  | set (name value : Bytes) (force : Bool)
  | delete (name : Bytes)
deriving DecidableEq

def Op.change : Op → Option Change
  | .set name value =>
    match admitted name value with
    | .property => some (.set name value false)
    | _ => none
  | .setForced name value => some (.set name value true)
  | .delete name => some (.delete name)

/-- what the change makes of the state, if it is made -/
def Live.apply (l : Live) : Change → Option Live
  | .set name value force => ((l.setInner name value force).toOption).map (·.1)
  | .delete name => l.delete name

/-! ## The area never shrinks -/

theorem length_le_patch (b : Bytes) (o : ℕ) (bs : Bytes) : b.length ≤ (patch b o bs).length := by
  simp only [patch, List.length_append, List.length_take, List.length_drop]
  omega

namespace Area

variable (a : Area)

theorem length_setU32 (at_ value : ℕ) : a.data.length ≤ (a.setU32 at_ value).data.length := length_le_patch ..

theorem length_write (at_ : ℕ) (bs : Bytes) : a.data.length ≤ (a.write at_ bs).data.length := length_le_patch ..

theorem length_allocate (size : ℕ) : (a.allocate size).data.length = a.data.length + align4 size := by
  simp [allocate, zeros]

theorem length_newBt (name : Bytes) : a.data.length ≤ (a.newBt name).data.length :=
  calc a.data.length ≤ (a.allocate (PROP_BT + name.length + 1)).data.length := by rw [length_allocate]; omega
    _ ≤ _ := length_setU32 ..
    _ ≤ _ := length_write ..

theorem length_child (parent : ℕ) (name : Bytes) : a.data.length ≤ (a.child parent name).1.data.length := by
  unfold child
  split
  · exact le_rfl
  · exact (a.length_newBt name).trans (length_setU32 ..)

theorem length_children (ps : List Bytes) (current : ℕ) : a.data.length ≤ (a.children current ps).1.data.length := by
  induction ps generalizing a current with
  | nil => exact le_rfl
  | cons part ps ih => exact (a.length_child current part).trans (ih ..)

theorem length_newInfo (name value : Bytes) : a.data.length ≤ (a.newInfo name value).data.length := by
  have hinfo : a.data.length ≤ ((a.allocate (PROP_INFO + name.length + 1)).write (a.data.length + PROP_INFO) name).data.length := by
    refine le_trans ?_ (length_write ..)
    rw [length_allocate]
    omega
  unfold newInfo
  simp only
  split
  · exact hinfo.trans ((length_setU32 ..).trans (length_write ..))
  · refine hinfo.trans (le_trans ?_ ((length_setU32 ..).trans ((length_write ..).trans (length_setU32 ..))))
    refine le_trans ?_ (length_write ..)
    rw [length_allocate]
    omega

theorem length_add (name value : Bytes) : a.data.length ≤ (a.add name value).1.data.length :=
  calc a.data.length ≤ (a.children 0 (parts name)).1.data.length := length_children ..
    _ ≤ _ := length_newInfo ..
    _ ≤ _ := length_setU32 ..

end Area

namespace Live

variable {l l' : Live} {name value : Bytes} {force : Bool}

/-- `prop_info` `at_` given a short value -/
def rewritten (l : Live) (at_ : ℕ) (value : Bytes) : Live :=
  { l with area := rewrite l.area at_ value, serial := (l.serial + 1) % 2 ^ 32 }

/-- what a set does, if it does anything: a record added where there is room, or the one there is rewritten -/
theorem setInner_cases {r : Live × ℕ} (h : l.setInner name value force = .ok r) :
    (r = l.added name value ∧ l.full value = false ∧ (l.info.lookup name = none ∨ PROP_VALUE_MAX ≤ value.length)) ∨
      ∃ at_, l.info.lookup name = some at_ ∧ value.length < PROP_VALUE_MAX ∧ r = (l.rewritten at_ value, at_) := by
  unfold setInner at h
  cases hl : l.info.lookup name with
  | some at_ =>
    rw [hl] at h
    simp only at h
    split at h
    · cases h
    · split at h
      · rename_i hlong
        split at h
        · cases h
        · rename_i hroom
          cases h
          exact .inl ⟨rfl, by simpa using hroom, .inr hlong⟩
      · rename_i hshort
        cases h
        exact .inr ⟨at_, rfl, by omega, rfl⟩
  | none =>
    rw [hl] at h
    simp only at h
    split at h
    · cases h
    · rename_i hroom
      cases h
      exact .inl ⟨rfl, by simpa using hroom, .inl rfl⟩

theorem apply_set (h : l.apply (.set name value force) = some l') : ∃ at_, l.setInner name value force = .ok (l', at_) := by
  unfold apply at h
  cases hs : l.setInner name value force with
  | error e =>
    simp only [hs] at h
    cases h
  | ok r =>
    simp only [hs] at h
    cases h
    exact ⟨r.2, rfl⟩

theorem apply_length {change : Change} (h : l.apply change = some l') : l.area.data.length ≤ l'.area.data.length := by
  cases change with
  | set name value force =>
    obtain ⟨at_, hs⟩ := apply_set h
    rcases setInner_cases hs with ⟨hr, -⟩ | ⟨at', -, -, hr⟩
    · cases hr
      exact Area.length_add ..
    · cases hr
      exact (Area.length_write ..).trans ((Area.length_write ..).trans (Area.length_setU32 ..))
  | delete name =>
    change l.delete name = some l' at h
    unfold delete at h
    cases hl : l.info.lookup name with
    | none =>
      rw [hl] at h
      cases h
    | some at_ =>
      rw [hl] at h
      cases h
      exact (Area.length_write ..).trans (Area.length_setU32 ..)

end Live

end Omnidroid.Props
