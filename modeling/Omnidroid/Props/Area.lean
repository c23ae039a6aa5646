/-
A prop area (`Area` of `omni-linux/src/props.rs`): the bytes after the header that bionic's `prop_area` has, in which a name's
dotted parts are a path of trie nodes.

- `Area.child`, `Area.add`: a level's binary tree is searched from a slot on; where the search ends with an empty slot the
  node is made there. Names and values are their UTF-8 bytes.
- `Area.bytes`: the area as a process maps it.
-/
import Omnidroid.Lib.Bytes

namespace Omnidroid.Props

open Bytes

def PROP_AREA_MAGIC : ℕ := 0x504f5250
def PROP_AREA_VERSION : ℕ := 0xfc6ed0ab
def HEADER : ℕ := 128
def PROP_BT : ℕ := 20
def PROP_VALUE_MAX : ℕ := 92
def PROP_INFO : ℕ := 4 + PROP_VALUE_MAX
def AREA_UNIT : ℕ := 128 * 2 ^ 10
def LONG_FLAG : ℕ := 2 ^ 16

/-- the byte after a `prop_info`'s value at which a long value's place is -/
def LONG_OFFSET : ℕ := 56

/-- "Must use __system_property_read_callback() to read" -/
def LONG_LEGACY_ERROR : Bytes :=
  [77, 117, 115, 116, 32, 117, 115, 101, 32, 95, 95, 115, 121, 115, 116, 101, 109, 95, 112, 114, 111, 112, 101, 114, 116, 121,
    95, 114, 101, 97, 100, 95, 99, 97, 108, 108, 98, 97, 99, 107, 40, 41, 32, 116, 111, 32, 114, 101, 97, 100]

/-- a `prop_bt`'s fields: its name's length, its `prop_info`, the level's nodes before and after it, and the next level -/
def PROP : ℕ := 4
def LEFT : ℕ := 8
def RIGHT : ℕ := 12
def CHILDREN : ℕ := 16

def align4 (n : ℕ) : ℕ := (n + 3) / 4 * 4

def zeros (n : ℕ) : Bytes := List.replicate n 0

/-- bionic's `cmp_prop_name`: the shorter name first, then the bytes -/
def cmpPropName (a b : Bytes) : Ordering := (compare a.length b.length).then (List.compareLex compare a b)

/-- what `split('.')` gives -/
def parts : Bytes → List Bytes
  | [] => [[]]
  | b :: bs =>
    if b = 46 then [] :: parts bs
    else
      match parts bs with
      | [] => [[b]]
      | p :: ps => (b :: p) :: ps

/-- everything after the header -/
structure Area where
  data : Bytes
deriving DecidableEq

/-- where a search ends: at the node of that name, or at the slot that would hold it -/
inductive Place where
  | node (at_ : ℕ)
  | empty (slot : ℕ)
deriving DecidableEq, Repr

namespace Area

/-- the root `prop_bt`, and the dirty-backup area -/
def new : Area := ⟨zeros (PROP_BT + align4 PROP_VALUE_MAX)⟩

def u32At (a : Area) (at_ : ℕ) : ℕ := leNat (slice a.data at_ 4)

def setU32 (a : Area) (at_ value : ℕ) : Area := ⟨patch a.data at_ (leBytes 4 value)⟩

def write (a : Area) (at_ : ℕ) (bs : Bytes) : Area := ⟨patch a.data at_ bs⟩

/-- the next `size` bytes, zeros; they begin where the data ended -/
def allocate (a : Area) (size : ℕ) : Area := ⟨a.data ++ zeros (align4 size)⟩

def newBt (a : Area) (name : Bytes) : Area :=
  let at_ := a.data.length
  ((a.allocate (PROP_BT + name.length + 1)).setU32 at_ name.length).write (at_ + PROP_BT) name

def btName (a : Area) (at_ : ℕ) : Bytes := slice a.data (at_ + PROP_BT) (a.u32At at_)

/-- a level searched from a slot on; nodes are made after those that lead to them, so that `fuel` is never used up -/
def seek (a : Area) (name : Bytes) : (fuel slot : ℕ) → Place
  | 0, slot => .empty slot
  | fuel + 1, slot =>
    let node := a.u32At slot
    if node = 0 then .empty slot
    else
      match cmpPropName name (a.btName node) with
      | .eq => .node node
      | .lt => a.seek name fuel (node + LEFT)
      | .gt => a.seek name fuel (node + RIGHT)

/-- the child of `parent` of that name, made if there is none -/
def child (a : Area) (parent : ℕ) (name : Bytes) : Area × ℕ :=
  match a.seek name a.data.length (parent + CHILDREN) with
  | .node at_ => (a, at_)
  | .empty slot => ((a.newBt name).setU32 slot a.data.length, a.data.length)

def children (a : Area) (current : ℕ) : List Bytes → Area × ℕ
  | [] => (a, current)
  | part :: ps => (a.child current part).1.children (a.child current part).2 ps

/-- a `prop_info` at the end of the data, with a short value in it or a long one after it -/
def newInfo (a : Area) (name value : Bytes) : Area :=
  let info := a.data.length
  let a := (a.allocate (PROP_INFO + name.length + 1)).write (info + PROP_INFO) name
  if value.length < PROP_VALUE_MAX then (a.setU32 info (value.length * 2 ^ 24)).write (info + 4) value
  else
    let long := a.data.length
    let a := (a.allocate (value.length + 1)).write long value
    let a := a.setU32 info (LONG_LEGACY_ERROR.length * 2 ^ 24 + LONG_FLAG)
    (a.write (info + 4) LONG_LEGACY_ERROR).setU32 (info + 4 + LONG_OFFSET) (long - info)

/-- a property added: the new area, and where its `prop_info` is -/
def add (a : Area) (name value : Bytes) : Area × ℕ :=
  let (a, current) := a.children 0 (parts name)
  let info := a.data.length
  ((a.newInfo name value).setU32 (current + PROP) info, info)

/-! ## As it is mapped -/

/-- the header (`bytes_used`, `serial`, magic, version) and the data -/
def head (a : Area) (serial : ℕ) : Bytes :=
  leBytes 4 a.data.length ++ leBytes 4 serial ++ leBytes 4 PROP_AREA_MAGIC ++ leBytes 4 PROP_AREA_VERSION ++ zeros (HEADER - 16) ++
    a.data

def mappedLen (a : Area) (capacity : ℕ) : ℕ :=
  max (max ((HEADER + a.data.length + AREA_UNIT - 1) / AREA_UNIT) 1 * AREA_UNIT) capacity

def bytes (a : Area) (serial capacity : ℕ) : Bytes := a.head serial ++ zeros (a.mappedLen capacity - (a.head serial).length)

end Area

end Omnidroid.Props
