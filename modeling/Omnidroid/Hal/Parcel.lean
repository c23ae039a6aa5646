/-
AIDL parcels as a host HAL reads and writes them (`omni-linux/src/hal/parcel.rs`): the reader's and the writer's
operations, and the values a parcel is made of. `f32` and `f64`, a status and an interface token are left out. Machine
words are bit vectors; a position is a number, which a slice's length keeps from overflowing.
- `Value`: what is written, and `Shape`: what is read. `Writer.write` and `Reader.read` go through the operations.
- `reread`: a parcel read again, with the objects its writer recorded.
-/
import Omnidroid.Lib.Bytes
import Omnidroid.Lib.Utf16

namespace Omnidroid.Hal

open Bytes

def TYPE_FD : ℕ := 0x66642a85
def TYPE_BINDER : ℕ := 0x73622a85
def TYPE_WEAK_BINDER : ℕ := 0x77622a85
def TYPE_HANDLE : ℕ := 0x73682a85
def TYPE_WEAK_HANDLE : ℕ := 0x77682a85
def OBJECT_SIZE : ℕ := 24
def MAX_DEPTH : ℕ := 64

structure Malformed where
  what : String
deriving DecidableEq, Repr

/-- up to the next multiple of 4 -/
def align4 (n : ℕ) : ℕ := (n + 3) / 4 * 4

/-- `chunks_exact` -/
def chunks (size : ℕ) (b : Bytes) : List Bytes := (List.range (b.length / size)).map fun i => slice b (i * size) size

/-! ## Reading -/

structure Reader (F : Type) where
  data : Bytes
  pos : ℕ := 0
  /-- where the parcel's objects are, as the transaction listed them -/
  offsets : List ℕ := []
  /-- the files of the transaction, in object order -/
  fds : List F := []
  depth : ℕ := 0

namespace Reader

variable {F : Type}

def remaining (r : Reader F) : ℕ := r.data.length - r.pos

def take (r : Reader F) (n : ℕ) : Except Malformed (Bytes × Reader F) :=
  match get? r.data r.pos n with
  | some b => .ok (b, { r with pos := r.pos + n })
  | none => .error ⟨"reads past the end"⟩

def align (r : Reader F) : Reader F := { r with pos := align4 r.pos }

def i32 (r : Reader F) : Except Malformed (BitVec 32 × Reader F) := do
  let (b, r) ← r.take 4
  return (BitVec.ofNat 32 (leNat b), r)

def i64 (r : Reader F) : Except Malformed (BitVec 64 × Reader F) := do
  let (b, r) ← r.take 8
  return (BitVec.ofNat 64 (leNat b), r)

def i8 (r : Reader F) : Except Malformed (BitVec 8 × Reader F) := do
  let (v, r) ← r.i32
  return (v.setWidth 8, r)

def bool (r : Reader F) : Except Malformed (Bool × Reader F) := do
  let (v, r) ← r.i32
  return (v ≠ 0, r)

def char16 (r : Reader F) : Except Malformed (BitVec 16 × Reader F) := do
  let (v, r) ← r.i32
  return (v.setWidth 16, r)

/-- `usize::try_from` of an `i32` -/
def asLen (v : BitVec 32) (what : String) : Except Malformed ℕ :=
  if v.toNat < 2 ^ 31 then .ok v.toNat else .error ⟨what⟩

def string16 (r : Reader F) : Except Malformed (Option (List Char) × Reader F) := do
  let (v, r) ← r.i32
  if v = -1 then return (none, r)
  let len ← asLen v "negative string length"
  let (b, r) ← r.take (len * 2 + 2)
  let units := (chunks 2 (b.take (len * 2))).map fun c => BitVec.ofNat 16 (leNat c)
  return (some (Utf16.decode units), r.align)

def arrayLen (r : Reader F) (minBytes : ℕ) : Except Malformed (Option ℕ × Reader F) := do
  let (v, r) ← r.i32
  if v = -1 then return (none, r)
  let len ← asLen v "negative array length"
  if len * max minBytes 1 > r.remaining then .error ⟨"array longer than the parcel"⟩
  else return (some len, r)

def byteArray (r : Reader F) : Except Malformed (Option Bytes × Reader F) := do
  let (len, r) ← r.arrayLen 1
  match len with
  | none => return (none, r)
  | some len =>
    let (b, r) ← r.take len
    return (some b, r.align)

def arrayOf {α : Type} (r : Reader F) (size : ℕ) (f : Bytes → α) : Except Malformed (Option (List α) × Reader F) := do
  let (len, r) ← r.arrayLen size
  match len with
  | none => return (none, r)
  | some len =>
    let (b, r) ← r.take (len * size)
    return (some ((chunks size b).map f), r)

def i32Array (r : Reader F) : Except Malformed (Option (List (BitVec 32)) × Reader F) := r.arrayOf 4 fun b => BitVec.ofNat 32 (leNat b)
def i64Array (r : Reader F) : Except Malformed (Option (List (BitVec 64)) × Reader F) := r.arrayOf 8 fun b => BitVec.ofNat 64 (leNat b)
def boolArray (r : Reader F) : Except Malformed (Option (List Bool) × Reader F) := r.arrayOf 4 fun b => BitVec.ofNat 32 (leNat b) ≠ 0
def char16Array (r : Reader F) : Except Malformed (Option (List (BitVec 16)) × Reader F) :=
  r.arrayOf 4 fun b => (BitVec.ofNat 32 (leNat b)).setWidth 16

def marker (r : Reader F) : Except Malformed (Bool × Reader F) := do
  let (v, r) ← r.i32
  return (v ≠ 0, r)

def enter (r : Reader F) : Except Malformed (Reader F) :=
  if r.depth + 1 > MAX_DEPTH then .error ⟨"parcelables nested too deep"⟩ else .ok { r with depth := r.depth + 1 }

def parcelableBody (r : Reader F) : Except Malformed (ℕ × Reader F) := do
  let start := r.pos
  let (v, r) ← r.i32
  let size ← asLen v "negative parcelable size"
  if size < 4 then .error ⟨"parcelable size below its header"⟩
  else if start + size > r.data.length then .error ⟨"parcelable past the end"⟩
  else
    let r ← r.enter
    return (start + size, r)

def parcelableStart (r : Reader F) : Except Malformed (ℕ × Reader F) := do
  let (v, r) ← r.i32
  if v ≠ 1 then .error ⟨"a null parcelable"⟩ else r.parcelableBody

def parcelableEnd (r : Reader F) (end_ : ℕ) : Except Malformed (Reader F) :=
  if r.pos > end_ then .error ⟨"fields past the parcelable's size"⟩
  else .ok { r with pos := end_, depth := r.depth - 1 }

/-- the `flat_binder_object` at the position: where it is, its type, its value -/
def object (r : Reader F) : Except Malformed ((ℕ × ℕ × ℕ) × Reader F) := do
  let at_ := r.pos
  let (b, r) ← r.take OBJECT_SIZE
  return ((at_, leNat (slice b 0 4), leNat (slice b 8 8)), r)

def listed (r : Reader F) (at_ : ℕ) : Bool := r.offsets.contains at_

def typeAt (r : Reader F) (at_ : ℕ) : Option ℕ := (get? r.data at_ 4).map leNat

def fdObject (r : Reader F) : Except Malformed (F × Reader F) := do
  let ((at_, kind, _), r) ← r.object
  if kind ≠ TYPE_FD then .error ⟨"not a file descriptor object"⟩
  else if !r.listed at_ then .error ⟨"a file descriptor the transaction did not list"⟩
  else
    let index := ((r.offsets.takeWhile (· ≠ at_)).filter fun o => r.typeAt o = some TYPE_FD).length
    match r.fds[index]? with
    | some f => return (f, r)
    | none => .error ⟨"a file descriptor the transaction did not carry"⟩

def file (r : Reader F) : Except Malformed (Option F × Reader F) := do
  let (present, r) ← r.marker
  if !present then return (none, r)
  let (comm, r) ← r.i32
  let (f, r) ← r.fdObject
  if comm ≠ 0 then
    let (_, r) ← r.fdObject
    return (some f, r)
  else return (some f, r)

/-- the handle a strong binder object holds -/
def handleOf (r : Reader F) (at_ kind value : ℕ) : Except Malformed (Option (BitVec 32)) :=
  if kind ∈ [TYPE_BINDER, TYPE_WEAK_BINDER] ∧ value = 0 then .ok none
  else if kind ∈ [TYPE_HANDLE, TYPE_WEAK_HANDLE] then
    if r.listed at_ then .ok (some (BitVec.ofNat 32 value)) else .error ⟨"a binder the transaction did not list"⟩
  else .error ⟨"not a binder the host holds a handle to"⟩

def binder (r : Reader F) : Except Malformed (Option (BitVec 32) × Reader F) := do
  let ((at_, kind, value), r) ← r.object
  let handle ← r.handleOf at_ kind value
  let (_, r) ← r.i32
  return (handle, r)

end Reader

/-! ## Writing -/

structure Writer (F : Type) where
  data : Bytes := []
  /-- the files and where their objects are; where the binders' are -/
  fds : List (ℕ × F) := []
  binders : List ℕ := []

namespace Writer

variable {F : Type}

def extend (w : Writer F) (b : Bytes) : Writer F := { w with data := w.data ++ b }

def i32 (w : Writer F) (v : BitVec 32) : Writer F := w.extend (leBytes 4 v.toNat)
def i64 (w : Writer F) (v : BitVec 64) : Writer F := w.extend (leBytes 8 v.toNat)
def i8 (w : Writer F) (v : BitVec 8) : Writer F := w.i32 (v.signExtend 32)
def bool (w : Writer F) (v : Bool) : Writer F := w.i32 (if v then 1 else 0)
def char16 (w : Writer F) (v : BitVec 16) : Writer F := w.i32 (v.setWidth 32)

def unit (w : Writer F) (u : BitVec 16) : Writer F := w.extend (leBytes 2 u.toNat)

/-- `as i32` of a length -/
def asI32 (n : ℕ) : BitVec 32 := BitVec.ofNat 32 n

def pad (w : Writer F) : Writer F := w.extend (List.replicate (align4 w.data.length - w.data.length) 0)

def string16 (w : Writer F) (s : List Char) : Writer F :=
  let units := Utf16.encode s
  let w := w.i32 (asI32 units.length)
  ((units ++ [0]).foldl unit w).pad

def null (w : Writer F) : Writer F := w.i32 (-1)

def byteArray (w : Writer F) (v : Bytes) : Writer F := ((w.i32 (asI32 v.length)).extend v).pad

def i32Array (w : Writer F) (v : List (BitVec 32)) : Writer F := v.foldl i32 (w.i32 (asI32 v.length))
def i64Array (w : Writer F) (v : List (BitVec 64)) : Writer F := v.foldl i64 (w.i32 (asI32 v.length))
def boolArray (w : Writer F) (v : List Bool) : Writer F := v.foldl bool (w.i32 (asI32 v.length))
def char16Array (w : Writer F) (v : List (BitVec 16)) : Writer F := v.foldl char16 (w.i32 (asI32 v.length))

def marker (w : Writer F) (present : Bool) : Writer F := w.i32 (if present then 1 else 0)

/-- a size placeholder; where it is -/
def parcelableBodyStart (w : Writer F) : Writer F × ℕ := (w.i32 0, w.data.length)

def parcelableStart (w : Writer F) : Writer F × ℕ := (w.i32 1).parcelableBodyStart

def parcelableEnd (w : Writer F) (at_ : ℕ) : Writer F :=
  { w with data := patch w.data at_ (leBytes 4 (asI32 (w.data.length - at_)).toNat) }

def file (w : Writer F) (f : F) : Writer F :=
  let w := (w.i32 1).i32 0
  let at_ := w.data.length
  let w := w.extend (leBytes 4 TYPE_FD ++ leBytes 4 0x7f ++ leBytes 8 (2 ^ 64 - 1) ++ leBytes 8 1)
  { w with fds := w.fds ++ [(at_, f)] }

def nullableFile (w : Writer F) : Option F → Writer F
  | some f => w.file f
  | none => w.i32 0

def handle (w : Writer F) (h stability : BitVec 32) : Writer F :=
  let at_ := w.data.length
  let w := w.extend (leBytes 4 TYPE_HANDLE ++ leBytes 4 0 ++ leBytes 8 h.toNat ++ leBytes 8 0)
  let w := w.i32 stability
  { w with binders := w.binders ++ [at_] }

def nullBinder (w : Writer F) : Writer F :=
  (w.extend (leBytes 4 TYPE_BINDER ++ leBytes 4 0 ++ leBytes 8 0 ++ leBytes 8 0)).i32 0

/-- the offsets recorded, in increasing order -/
def offsets (w : Writer F) : List ℕ := (w.fds.map (·.1) ++ w.binders).insertionSort (· ≤ ·)

end Writer

/-! ## Values -/

/-- what is written to a parcel; a text, an array, a file and a binder may be null. A parcelable comes with its marker, a
body after one of its own. -/
inductive Value (F : Type) where
  | i32 (v : BitVec 32)
  | i64 (v : BitVec 64)
  | i8 (v : BitVec 8)
  | bool (v : Bool)
  | char16 (v : BitVec 16)
  | string (s : Option (List Char))
  | bytes (v : Option Bytes)
  | i32s (v : Option (List (BitVec 32)))
  | i64s (v : Option (List (BitVec 64)))
  | bools (v : Option (List Bool))
  | char16s (v : Option (List (BitVec 16)))
  | marker (present : Bool)
  | parcelable (fields : List (Value F))
  | body (fields : List (Value F))
  | file (f : Option F)
  | handle (h : BitVec 32) (stability : BitVec 32)
  | nullBinder

/-- what is read from one; the reader of a binder is told which it is by the parcel -/
inductive Shape where
  | i32 | i64 | i8 | bool | char16 | string | bytes | i32s | i64s | bools | char16s | marker
  | parcelable (fields : List Shape)
  | body (fields : List Shape)
  | file
  /-- a reader drops the stability: it is given here -/
  | binder (stability : BitVec 32)

variable {F : Type}

mutual

/-- the read that matches a value -/
def Value.shape : Value F → Shape
  | .i32 _ => .i32
  | .i64 _ => .i64
  | .i8 _ => .i8
  | .bool _ => .bool
  | .char16 _ => .char16
  | .string _ => .string
  | .bytes _ => .bytes
  | .i32s _ => .i32s
  | .i64s _ => .i64s
  | .bools _ => .bools
  | .char16s _ => .char16s
  | .marker _ => .marker
  | .parcelable fields => .parcelable (shapes fields)
  | .body fields => .body (shapes fields)
  | .file _ => .file
  | .handle _ stability => .binder stability
  | .nullBinder => .binder 0

def shapes : List (Value F) → List Shape
  | [] => []
  | v :: vs => v.shape :: shapes vs

end

/-- a text or an array, or null in its place -/
def Writer.orNull {α : Type} (w : Writer F) (write : Writer F → α → Writer F) : Option α → Writer F
  | some v => write w v
  | none => w.null

mutual

def Writer.write (w : Writer F) : Value F → Writer F
  | .i32 v => w.i32 v
  | .i64 v => w.i64 v
  | .i8 v => w.i8 v
  | .bool v => w.bool v
  | .char16 v => w.char16 v
  | .string s => w.orNull Writer.string16 s
  | .bytes v => w.orNull Writer.byteArray v
  | .i32s v => w.orNull Writer.i32Array v
  | .i64s v => w.orNull Writer.i64Array v
  | .bools v => w.orNull Writer.boolArray v
  | .char16s v => w.orNull Writer.char16Array v
  | .marker present => w.marker present
  | .parcelable fields => (w.parcelableStart.1.writeAll fields).parcelableEnd w.parcelableStart.2
  | .body fields => (w.parcelableBodyStart.1.writeAll fields).parcelableEnd w.parcelableBodyStart.2
  | .file f => w.nullableFile f
  | .handle h stability => w.handle h stability
  | .nullBinder => w.nullBinder

def Writer.writeAll (w : Writer F) : List (Value F) → Writer F
  | [] => w
  | v :: vs => (w.write v).writeAll vs

end

/-- what an operation read, as a value -/
def asValue {α : Type} (f : α → Value F) (x : Except Malformed (α × Reader F)) : Except Malformed (Value F × Reader F) :=
  x.map fun (a, r) => (f a, r)

mutual

def Reader.read (r : Reader F) : Shape → Except Malformed (Value F × Reader F)
  | .i32 => asValue .i32 r.i32
  | .i64 => asValue .i64 r.i64
  | .i8 => asValue .i8 r.i8
  | .bool => asValue .bool r.bool
  | .char16 => asValue .char16 r.char16
  | .string => asValue .string r.string16
  | .bytes => asValue .bytes r.byteArray
  | .i32s => asValue .i32s r.i32Array
  | .i64s => asValue .i64s r.i64Array
  | .bools => asValue .bools r.boolArray
  | .char16s => asValue .char16s r.char16Array
  | .marker => asValue .marker r.marker
  | .parcelable fields => do
    let (end_, r) ← r.parcelableStart
    let (vs, r) ← r.readAll fields
    let r ← r.parcelableEnd end_
    return (.parcelable vs, r)
  | .body fields => do
    let (end_, r) ← r.parcelableBody
    let (vs, r) ← r.readAll fields
    let r ← r.parcelableEnd end_
    return (.body vs, r)
  | .file => asValue .file r.file
  | .binder stability => asValue (fun h => h.elim .nullBinder fun h => .handle h stability) r.binder

def Reader.readAll (r : Reader F) : List Shape → Except Malformed (List (Value F) × Reader F)
  | [] => .ok ([], r)
  | s :: ss => do
    let (v, r) ← r.read s
    let (vs, r) ← r.readAll ss
    return (v :: vs, r)

end

/-- a parcel of these values -/
def written (vs : List (Value F)) : Writer F := Writer.writeAll {} vs

/-- `Reader::with_objects` of what a writer wrote and recorded -/
def Writer.reader (w : Writer F) : Reader F := { data := w.data, offsets := w.offsets, fds := w.fds.map (·.2) }

/-- the values written, read again by the reads that match them -/
def reread (vs : List (Value F)) : Except Malformed (List (Value F) × Reader F) :=
  (written vs).reader.readAll (shapes vs)

/-- they come back, and nothing is left -/
def RoundTrips (vs : List (Value F)) : Prop := ∃ r, reread vs = .ok (vs, r) ∧ r.remaining = 0

end Omnidroid.Hal
