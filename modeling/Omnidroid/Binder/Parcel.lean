/-
Parcels: the objects at a sender's offsets translated for the receiver (`translate_ref`, `translate_refs`,
`translate_objects`), the receive area and its allocator (`Area`), and the delivered buffer as it is written into it
(`place`, `fill`).

What the guest's memory and descriptor tables answer is an argument (`SendEnv`, `PlaceEnv`), arbitrary at each use.
-/
import Omnidroid.Binder.State

namespace Omnidroid.Binder

open Bytes

/-! ## Words in a parcel -/

def u32At (b : Bytes) (o : ℕ) : UInt32 := UInt32.ofNat (leNat (slice b o 4))

def u64At (b : Bytes) (o : ℕ) : UInt64 := UInt64.ofNat (leNat (slice b o 8))

def le32 (v : UInt32) : Bytes := leBytes 4 v.toNat

def le64 (v : UInt64) : Bytes := leBytes 8 v.toNat

/-- `v as i32` -/
def asI32 (v : UInt32) : ℤ := if v.toNat < 2 ^ 31 then v.toNat else (v.toNat : ℤ) - 2 ^ 32

/-- `v as u32` -/
def asU32 (v : ℤ) : UInt32 := UInt32.ofNat (v % 2 ^ 32).toNat

/-- `(n + 7) & !7` -/
def pad8 (n : ℕ) : ℕ := (n + 7) / 8 * 8

def isLocalKind (k : UInt32) : Bool := k = typeBinder || k = typeWeakBinder

def isHandleKind (k : UInt32) : Bool := k = typeHandle || k = typeWeakHandle

/-! ## Binders and handles -/

/-- a translated object: (type, binder or handle, cookie) -/
structure Ref where
  kind : UInt32
  value : UInt64
  cookie : UInt64
deriving DecidableEq, Repr

/-- the sender's own object: a handle for its node, made in the target's table -/
def State.exportLocal (s : State) (sender : Thread) (target : ProcId) (kind flags : UInt32) (ptr cookie : UInt64)
    (pins : List NodeId) : State × List NodeId × Option Ref :=
  let (s, node) := s.localNode sender.1 ptr cookie flags
  let s := s.pin node
  if target = sender.1 then (s, pins ++ [node], none) else
  let (s, h) := s.handleFor target node (some sender)
  (s, pins ++ [node], some ⟨if kind = typeBinder then typeHandle else typeWeakHandle, h.toUInt64, 0⟩)

/-- a handle of the sender's: the target's own object, or a handle in its table. The code panics on a node that is not
there; `EINVAL` stands for it, and no run meets it -/
def State.forwardHandle (s : State) (sender : Thread) (target : ProcId) (kind handle : UInt32) (pins : List NodeId) :
    State × List NodeId × Except Errno Ref :=
  match s.nodeForHandle sender.1 handle with
  | none => (s, pins, .error .EINVAL)
  | some node =>
    let s := s.pin node
    match s.nodes.lookup node with
    | none => (s, pins ++ [node], .error .EINVAL)
    | some n =>
      if n.owner = target then
        (s, pins ++ [node], .ok ⟨if kind = typeHandle then typeBinder else typeWeakBinder, n.ptr, n.cookie⟩)
      else
        let (s, h) := s.handleFor target node (some sender)
        (s, pins ++ [node], .ok ⟨kind, h.toUInt64, 0⟩)

/-- a binder or handle object as the target receives it, `none` when it arrives unchanged; its node is pinned -/
def State.translateRef (s : State) (sender : Thread) (target : ProcId) (obj : Bytes) (pins : List NodeId) :
    State × List NodeId × Except Errno (Option Ref) :=
  let kind := u32At obj 0
  if isLocalKind kind then
    match s.exportLocal sender target kind (u32At obj 4) (u64At obj 8) (u64At obj 16) pins with
    | (s, pins, r) => (s, pins, .ok r)
  else if isHandleKind kind then
    match s.forwardHandle sender target kind (u64At obj 8).toUInt32 pins with
    | (s, pins, r) => (s, pins, r.map some)
  else (s, pins, .error .EINVAL)

/-- a translated object written at `off`; its flags stay the sender's -/
def rewriteRef (data : Bytes) (off : ℕ) (r : Ref) : Bytes :=
  patch (patch (patch data off (le32 r.kind)) (off + 8) (le64 r.value)) (off + 16) (le64 r.cookie)

/-- the host's own objects: binders and handles only. On an error none is held -/
def State.translateRefs (s : State) (sender : Thread) (target : ProcId) :
    Bytes → List ℕ → List NodeId → State × Except Errno (Bytes × List NodeId)
  | data, [], pins => (s, .ok (data, pins))
  | data, off :: offs, pins =>
    match get? data off 24 with
    | none => (s.unpin pins, .error .EINVAL)
    | some obj =>
      match s.translateRef sender target obj pins with
      | (s, pins, .error e) => (s.unpin pins, .error e)
      | (s, pins, .ok none) => s.translateRefs sender target data offs pins
      | (s, pins, .ok (some r)) => s.translateRefs sender target (rewriteRef data off r) offs pins

/-! ## All objects of a guest's parcel -/

/-- what the sender's process answers while its parcel is taken -/
structure SendEnv where
  /-- `mem.read` -/
  read : ℕ → ℕ → Except Errno Bytes
  /-- `fds.get` -/
  fd : ℤ → Except Errno FileId
  pid : ℤ
  euid : UInt32
  /-- `RELAYOUT_DEDUPE` -/
  dedupe : Bool
  /-- a host thread could be had for a host service's call -/
  spawned : Except Errno Unit

/-- the objects of a parcel as they are gathered -/
structure Objects where
  fds : List (ℕ × FileId) := []
  sg : List SgBuffer := []
  fda : List (ℕ × ℕ × List FileId) := []
  /-- which `sg` entry each object index is (buffer objects only) -/
  sgOfObject : Map ℕ ℕ := ∅

structure Translation where
  st : State
  data : Bytes
  pins : List NodeId := []
  objs : Objects := {}

/-- the files of an fd array, its `i`-th descriptor and `n` in all still to look up -/
def fdaFiles (env : SendEnv) (parent : Bytes) (parentOffset : ℕ) : ℕ → ℕ → Except Errno (List FileId)
  | _, 0 => .ok []
  | i, n + 1 =>
    match get? parent ((parentOffset + i * 4) % 2 ^ 64) 4 with
    | none => .error .EINVAL
    | some b => do
      let file ← env.fd (asI32 (u32At b 0))
      let files ← fdaFiles env parent parentOffset (i + 1) n
      return file :: files

/-- a buffer object: its bytes are read, its parent looked up -/
def translatePtr (env : SendEnv) (index off : ℕ) (obj : Bytes) (o : Objects) : Except Errno Objects := do
  let (flags, buffer, length) := (u32At obj 4, (u64At obj 8).toNat, (u64At obj 16).toNat)
  if length > 2 ^ 20 then throw .EINVAL
  let bytes ← env.read buffer length
  let parent ← if flags &&& bufferFlagHasParent != 0 then
      match o.sgOfObject.lookup (u64At obj 24).toNat with
      | none => throw .EINVAL
      | some sg => pure (some (sg, (u64At obj 32).toNat))
    else pure none
  return { o with
    sg := o.sg ++ [⟨off, bytes, parent⟩], sgOfObject := o.sgOfObject.insert index o.sg.length }

/-- an fd array: its descriptors are looked up in its parent's bytes -/
def translateFda (env : SendEnv) (obj : Bytes) (o : Objects) : Except Errno Objects := do
  let (num, parentIndex, parentOffset) := ((u64At obj 8).toNat, (u64At obj 16).toNat, (u64At obj 24).toNat)
  match o.sgOfObject.lookup parentIndex with
  | none => throw .EINVAL
  | some sg =>
    let files ← fdaFiles env ((o.sg[sg]?).elim [] (·.bytes)) parentOffset 0 num
    return { o with fda := o.fda ++ [(sg, parentOffset, files)] }

/-- a binder or handle at `off` of a parcel: rewritten in place -/
def translateFlat (sender : Thread) (target : ProcId) (off : ℕ) (obj : Bytes) (x : Translation) :
    Translation × Except Errno Unit :=
  match x.st.translateRef sender target obj x.pins with
  | (s, pins, .error e) => ({ x with st := s, pins := pins }, .error e)
  | (s, pins, .ok none) => ({ x with st := s, pins := pins }, .ok ())
  | (s, pins, .ok (some r)) => ({ x with st := s, pins := pins, data := rewriteRef x.data off r }, .ok ())

/-- an object that names no node: only gathered -/
def translateOther (env : SendEnv) (kind : UInt32) (index off : ℕ) (data : Bytes) (o : Objects) :
    Except Errno Objects :=
  if kind = typePtr then
    match get? data off 40 with
    | none => .error .EINVAL
    | some obj => translatePtr env index off obj o
  else if kind = typeFda then
    match get? data off 32 with
    | none => .error .EINVAL
    | some obj => translateFda env obj o
  else if kind = typeFd then
    match get? data off 24 with
    | none => .error .EINVAL
    | some obj => do
      let file ← env.fd (asI32 (u64At obj 8).toUInt32)
      return { o with fds := o.fds ++ [(off, file)] }
  else .error .EINVAL

/-- the object at `off`, the `index`-th of the parcel -/
def translateObject (env : SendEnv) (sender : Thread) (target : ProcId) (index off : ℕ) (x : Translation) :
    Translation × Except Errno Unit :=
  match get? x.data off 4 with
  | none => (x, .error .EINVAL)
  | some k =>
    if isLocalKind (u32At k 0) || isHandleKind (u32At k 0) then
      match get? x.data off 24 with
      | none => (x, .error .EINVAL)
      | some obj => translateFlat sender target off obj x
    else
      match translateOther env (u32At k 0) index off x.data x.objs with
      | .error e => (x, .error e)
      | .ok o => ({ x with objs := o }, .ok ())

/-- the objects at `offs`, one after another, each in the data the earlier ones left -/
def translateObjects (env : SendEnv) (sender : Thread) (target : ProcId) :
    ℕ → List UInt64 → Translation → Translation × Except Errno Unit
  | _, [], x => (x, .ok ())
  | index, off :: offs, x =>
    match translateObject env sender target index off.toNat x with
    | (x, .error e) => (x, .error e)
    | (x, .ok ()) => translateObjects env sender target (index + 1) offs x

/-! ## The receive area -/

/-- the `mmap`'d receive area: the buffers in use, (offset, length), by offset -/
structure Area where
  base : ℕ := 0
  size : ℕ := 0
  used : List (ℕ × ℕ) := []
deriving DecidableEq, Repr

/-- the first gap of `len` bytes from `at_` on -/
def findGap (len : ℕ) : ℕ → List (ℕ × ℕ) → ℕ
  | at_, [] => at_
  | at_, (off, l) :: rest => if len ≤ off - at_ then at_ else findGap len (off + l) rest

def insertUsed (off len : ℕ) : List (ℕ × ℕ) → List (ℕ × ℕ)
  | [] => [(off, len)]
  | (o, l) :: rest =>
    if off < o then (off, len) :: (o, l) :: rest
    else if off = o then (off, len) :: rest
    else (o, l) :: insertUsed off len rest

def Area.alloc (a : Area) (len : ℕ) : Option (ℕ × Area) :=
  let len := pad8 (max len 8)
  let at_ := findGap len 0 a.used
  if a.size < at_ + len then none else some (a.base + at_, { a with used := insertUsed at_ len a.used })

def Area.free (a : Area) (addr : ℕ) : Area :=
  if a.base ≤ addr then { a with used := a.used.filter (·.1 ≠ addr - a.base) } else a

/-! ## The delivered buffer -/

/-- what the receiver's process answers while a buffer is filled -/
structure PlaceEnv where
  /-- `fds.insert`, the n-th of this delivery -/
  insert : ℕ → Except Errno ℤ
  /-- `mem.write` of the buffer -/
  write : Except Errno Unit

def Txn.dataLen (t : Txn) : ℕ := pad8 t.data.length
def Txn.offsetsLen (t : Txn) : ℕ := t.offsets.length * 8
def Txn.sgLen (t : Txn) : ℕ := (t.sg.map fun b => pad8 b.bytes.length).sum
def Txn.secLen (t : Txn) : ℕ := if t.secctx && !t.reply then secctxLabel.length else 0
def Txn.placeLen (t : Txn) : ℕ := t.dataLen + t.offsetsLen + t.sgLen + t.secLen

/-- the addresses of the scatter-gather buffers, laid out from `cursor` -/
def sgAt (cursor : ℕ) : List SgBuffer → List ℕ
  | [] => []
  | b :: bs => cursor :: sgAt (cursor + pad8 b.bytes.length) bs

/-- the descriptors at `fds` are installed and their numbers written into their objects -/
def installFds (env : PlaceEnv) : List (ℕ × FileId) → Bytes → List ℤ → Bytes × List ℤ × Except Errno Unit
  | [], data, fds => (data, fds, .ok ())
  | (off, _) :: rest, data, fds =>
    match env.insert fds.length with
    | .error e => (data, fds, .error e)
    | .ok fd => installFds env rest (patch data (off + 8) (le32 (asU32 fd))) (fds ++ [fd])

/-- each buffer object points at its copy -/
def patchSg : List (SgBuffer × ℕ) → Bytes → Bytes
  | [], data => data
  | (b, at_) :: rest, data => patchSg rest (patch data (b.objOff + 8) (le64 (UInt64.ofNat at_)))

/-- `slot` written into the `parent`-th buffer at `at_`, when it lies inside it -/
def patchSlot (bufs : List Bytes) (parent at_ : ℕ) (slot : Bytes) : List Bytes :=
  bufs.modify parent fun b => if at_ + slot.length ≤ b.length then patch b at_ slot else b

/-- a child's address goes into its parent's copy -/
def patchParents : List (SgBuffer × ℕ) → List Bytes → List Bytes
  | [], bufs => bufs
  | (b, at_) :: rest, bufs =>
    patchParents rest (match b.parent with
      | some (parent, o) => patchSlot bufs parent o (le64 (UInt64.ofNat at_))
      | none => bufs)

/-- the descriptors of one fd array, the `i`-th first -/
def installFda (env : PlaceEnv) (parent at_ : ℕ) :
    ℕ → List FileId → List Bytes → List ℤ → List Bytes × List ℤ × Except Errno Unit
  | _, [], bufs, fds => (bufs, fds, .ok ())
  | i, _ :: files, bufs, fds =>
    match env.insert fds.length with
    | .error e => (bufs, fds, .error e)
    | .ok fd =>
      installFda env parent at_ (i + 1) files
        (patchSlot bufs parent ((at_ + i * 4) % 2 ^ 64) (le32 (asU32 fd))) (fds ++ [fd])

def installFdas (env : PlaceEnv) :
    List (ℕ × ℕ × List FileId) → List Bytes → List ℤ → List Bytes × List ℤ × Except Errno Unit
  | [], bufs, fds => (bufs, fds, .ok ())
  | (parent, at_, files) :: rest, bufs, fds =>
    match installFda env parent at_ 0 files bufs fds with
    | (bufs, fds, .error e) => (bufs, fds, .error e)
    | (bufs, fds, .ok ()) => installFdas env rest bufs fds

def padTo (n : ℕ) (b : Bytes) : Bytes := b ++ List.replicate (n - b.length) 0

/-- what `fill` leaves: the patched data, the descriptors installed so far, and the bytes of the buffer or an error -/
structure Filled where
  data : Bytes
  fds : List ℤ
  result : Except Errno Bytes

/-- `txn`'s descriptors installed and its bytes laid out for `buf` -/
def fill (env : PlaceEnv) (txn : Txn) (buf : ℕ) : Filled :=
  match installFds env txn.fds txn.data [] with
  | (data, fds, .error e) => ⟨data, fds, .error e⟩
  | (data, fds, .ok ()) =>
    let placed := txn.sg.zip (sgAt (buf + txn.dataLen + txn.offsetsLen) txn.sg)
    let data := patchSg placed data
    match installFdas env txn.fda (patchParents placed (txn.sg.map (·.bytes))) fds with
    | (_, fds, .error e) => ⟨data, fds, .error e⟩
    | (bufs, fds, .ok ()) =>
      let bytes := padTo txn.dataLen data ++ (txn.offsets.map le64).flatten ++
        (bufs.map fun b => padTo (pad8 b.length) b).flatten ++ if txn.secLen > 0 then secctxLabel else []
      match env.write with
      | .error e => ⟨data, fds, .error e⟩
      | .ok () => ⟨data, fds, .ok bytes⟩

/-- the return for a transaction placed at `buf`, and its `binder_transaction_data` -/
def Txn.cmd (t : Txn) : UInt32 :=
  if t.reply then brReply else if t.secLen > 0 then brTransactionSecCtx else brTransaction

def Txn.trBytes (t : Txn) (buf : ℕ) : Bytes :=
  le64 t.targetPtr ++ le64 t.targetCookie ++ le32 t.code ++ le32 t.flags ++ le32 (asU32 t.senderPid) ++
    le32 t.senderEuid ++ leBytes 8 t.data.length ++ leBytes 8 t.offsetsLen ++ leBytes 8 buf ++
    leBytes 8 (buf + t.dataLen) ++
    if t.reply then [] else if t.secLen > 0 then leBytes 8 (buf + t.dataLen + t.offsetsLen + t.sgLen) else []

/-! ## Relayouts -/

/-- whether a parcel's objects include a file descriptor or an array of them -/
def hasFds (data : Bytes) (offsets : List UInt64) : Bool :=
  offsets.any fun off => (get? data off.toNat 4).any fun t => u32At t 0 = typeFd || u32At t 0 = typeFda

/-- the UTF-16 units of a `String16` at `o`, when it is all there -/
def readString16 (b : Bytes) (o : ℕ) : Option (List ℕ) := do
  let len ← get? b o 4
  if (u32At len 0).toNat ≥ 2 ^ 31 then none
  let n := (u32At len 0).toNat
  let units ← get? b (o + 4) (n * 2)
  return (List.range n).map fun i => leNat (slice units (i * 2) 2)

/-- `android.view.IWindowSession` -/
def windowSession : List ℕ :=
  [97, 110, 100, 114, 111, 105, 100, 46, 118, 105, 101, 119, 46, 73, 87, 105, 110, 100, 111, 119, 83, 101, 115, 115,
    105, 111, 110]

/-- whether a oneway is a window relayout the same as the last one from `sender` to `node`, which is remembered -/
def State.repeatedRelayout (s : State) (sender : ProcId) (node : NodeId) (code : UInt32) (data : Bytes)
    (fds dedupe : Bool) : State × Bool :=
  if code != 7 || fds || data.length < 64 || !dedupe then (s, false)
  else if readString16 data 12 != some windowSession then (s, false)
  else
    let key := patch data (data.length - 8) [0, 0, 0, 0]
    ({ s with relayouts := s.relayouts.insert (sender, node) key }, s.relayouts.lookup (sender, node) = some key)

end Omnidroid.Binder
