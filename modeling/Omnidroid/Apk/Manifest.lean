/-
Reading a binary `AndroidManifest.xml` (`omni-apk/src/manifest.rs`): chunks, the string pool, elements and their attributes, and the two
readers of them.

- `Stop`: an error of the document, or a panic. Sums are of natural numbers and every read tells whether its end is below 2^64, so that
  a sum that wraps is a panic where it is read with.
- `Parse`: what a part of the reading comes to, and how many turns of the loops over attributes it took.
- `turn`: a turn of the loop over the chunks, which `AppManifest::parse` and `LaunchInfo::parse` share but for what they do with an
  element.
-/
import Omnidroid.Lib.Bytes
import Omnidroid.Lib.Lines
import Omnidroid.Lib.Loop
import Omnidroid.Lib.Utf16
import Omnidroid.Lib.Utf8

namespace Omnidroid.Apk.Manifest

/-! ## Constants -/

def RES_STRING_POOL_TYPE : UInt16 := 0x0001
def RES_XML_TYPE : UInt16 := 0x0003
def RES_XML_START_ELEMENT_TYPE : UInt16 := 0x0102
def RES_XML_END_ELEMENT_TYPE : UInt16 := 0x0103
def RES_XML_RESOURCE_MAP_TYPE : UInt16 := 0x0180
def UTF8_FLAG : UInt32 := 0x100
def NO_INDEX : UInt32 := 0xFFFFFFFF
def TYPE_REFERENCE : UInt8 := 0x01
def TYPE_STRING : UInt8 := 0x03
def TYPE_INT_DEC : UInt8 := 0x10
def TYPE_INT_HEX : UInt8 := 0x11
def TYPE_INT_BOOLEAN : UInt8 := 0x12
def ATTR_NAME : UInt32 := 0x01010003
def ATTR_ENABLED : UInt32 := 0x0101000e
def ATTR_VALUE : UInt32 := 0x01010024
def ATTR_VERSION_CODE : UInt32 := 0x0101021b
def ATTR_VERSION_NAME : UInt32 := 0x0101021c

abbrev Text := List Char

def MANIFEST : Text := ['m', 'a', 'n', 'i', 'f', 'e', 's', 't']
def PACKAGE : Text := ['p', 'a', 'c', 'k', 'a', 'g', 'e']
def VERSION_NAME : Text := ['v', 'e', 'r', 's', 'i', 'o', 'n', 'N', 'a', 'm', 'e']
def VERSION_CODE : Text := ['v', 'e', 'r', 's', 'i', 'o', 'n', 'C', 'o', 'd', 'e']
def SPLIT : Text := ['s', 'p', 'l', 'i', 't']
def ACTIVITY : Text := ['a', 'c', 't', 'i', 'v', 'i', 't', 'y']
def ACTIVITY_ALIAS : Text := ACTIVITY ++ ['-', 'a', 'l', 'i', 'a', 's']
def META_DATA : Text := ['m', 'e', 't', 'a', '-', 'd', 'a', 't', 'a']
def SERVICE : Text := ['s', 'e', 'r', 'v', 'i', 'c', 'e']
def RECEIVER : Text := ['r', 'e', 'c', 'e', 'i', 'v', 'e', 'r']
def PROVIDER : Text := ['p', 'r', 'o', 'v', 'i', 'd', 'e', 'r']
def INTENT_FILTER : Text := ['i', 'n', 't', 'e', 'n', 't', '-', 'f', 'i', 'l', 't', 'e', 'r']
def ACTION : Text := ['a', 'c', 't', 'i', 'o', 'n']
def CATEGORY : Text := ['c', 'a', 't', 'e', 'g', 'o', 'r', 'y']
def NAME : Text := ['n', 'a', 'm', 'e']
def ENABLED : Text := ['e', 'n', 'a', 'b', 'l', 'e', 'd']
def VALUE : Text := ['v', 'a', 'l', 'u', 'e']
/-- "android.app.lib_name" -/
def LIB_NAME_META : Text :=
  ['a', 'n', 'd', 'r', 'o', 'i', 'd', '.', 'a', 'p', 'p', '.', 'l', 'i', 'b', '_', 'n', 'a', 'm', 'e']
/-- "android.intent.action.MAIN", "android.intent.category.LAUNCHER" -/
def ACTION_MAIN : Text :=
  ['a', 'n', 'd', 'r', 'o', 'i', 'd', '.', 'i', 'n', 't', 'e', 'n', 't', '.'] ++ ACTION ++ ['.', 'M', 'A', 'I', 'N']
def CATEGORY_LAUNCHER : Text :=
  ['a', 'n', 'd', 'r', 'o', 'i', 'd', '.', 'i', 'n', 't', 'e', 'n', 't', '.'] ++ CATEGORY ++ ['.', 'L', 'A', 'U', 'N', 'C', 'H', 'E', 'R']

/-! ## Reads -/

/-- the details of `ApkError::Manifest` -/
inductive Bad
  | notBinaryXml (kind : UInt16)
  | pastDocument (at_ : ℕ)
  | elementBeforePool
  | noElement
  | notManifest (element : Text)
  | attributeSize (size : UInt16)
  | attributePastElement
  | reference (name : Text) (data : UInt32)
  | notString (name : Text) (type : UInt8)
  | versionCodeNotInteger
  | noPackage
  | noVersionName
  | noVersionCode
  | notInPool (index count : UInt32)
  | stringPastPool
  | notUtf8 (index : UInt32)
  | notUtf16 (index : UInt32)
  | readPastEnd (at_ : ℕ)
deriving DecidableEq

/-- how reading ends without a result; a panic is an index past a slice's end, or a sum that wraps -/
inductive Stop
  | bad (detail : Bad)
  | panic
deriving DecidableEq

/-- `get(at..at + n)` -/
def getAt (bytes : Bytes) (a n : ℕ) (detail : Bad) : Except Stop Bytes :=
  if 2 ^ 64 ≤ a + n then .error .panic
  else
    match Bytes.get? bytes a n with
    | some b => .ok b
    | none => .error (.bad detail)

/-- `bytes[at..at + n]` -/
def cut (bytes : Bytes) (a n : ℕ) : Except Stop Bytes :=
  match Bytes.get? bytes a n with
  | some b => .ok b
  | none => .error .panic

def byteAt (bytes : Bytes) (a : ℕ) (detail : Bad) : Except Stop UInt8 := do
  let b ← getAt bytes a 1 detail
  .ok (b.headD 0)

def u16At (bytes : Bytes) (a : ℕ) : Except Stop UInt16 := do
  let b ← getAt bytes a 2 (.readPastEnd a)
  .ok (UInt16.ofNat (Bytes.leNat b))

def u32At (bytes : Bytes) (a : ℕ) : Except Stop UInt32 := do
  let b ← getAt bytes a 4 (.readPastEnd a)
  .ok (UInt32.ofNat (Bytes.leNat b))

structure ChunkHeader where
  kind : UInt16
  header : UInt16
  size : UInt32
deriving DecidableEq

def chunkHeader (bytes : Bytes) (a : ℕ) : Except Stop ChunkHeader := do
  let kind ← u16At bytes a
  let header ← u16At bytes (a + 2)
  let size ← u32At bytes (a + 4)
  .ok ⟨kind, header, size⟩

/-- `resource_ids.get(index * 4..index * 4 + 4)` -/
def resourceId (ids : Bytes) (index : UInt32) : Except Stop (Option UInt32) :=
  match getAt ids (index.toNat * 4) 4 .noElement with
  | .ok b => .ok (some (UInt32.ofNat (Bytes.leNat b)))
  | .error .panic => .error .panic
  | .error (.bad _) => .ok none

/-- `str::parse`; a text that is not ASCII is no number -/
def parseU32 (t : Text) : Option UInt32 :=
  if t.all fun c => c.toNat < 128 then Lines.parseU32 10 (t.map fun c => UInt8.ofNat c.toNat) else none

/-! ## Strings -/

structure StringPool where
  chunk : Bytes
  count : UInt32
  utf8 : Bool
  stringsStart : UInt32
  offsetsAt : UInt16

def StringPool.new (chunk : Bytes) : Except Stop StringPool := do
  let count ← u32At chunk 8
  let flags ← u32At chunk 16
  let stringsStart ← u32At chunk 20
  let offsetsAt ← u16At chunk 2
  .ok ⟨chunk, count, flags &&& UTF8_FLAG ≠ 0, stringsStart, offsetsAt⟩

/-- a length, and what is after it -/
structure Length where
  len : ℕ
  after : ℕ

/-- one byte, or two with the high bit set -/
def utf8Length (chunk : Bytes) (a : ℕ) : Except Stop Length := do
  let first ← byteAt chunk a .stringPastPool
  if first &&& 0x80 = 0 then .ok ⟨first.toNat, a + 1⟩
  else
    let second ← byteAt chunk (a + 1) .stringPastPool
    .ok ⟨(first &&& 0x7f).toNat <<< 8 ||| second.toNat, a + 2⟩

def utf16Length (chunk : Bytes) (a : ℕ) : Except Stop Length := do
  let first ← u16At chunk a
  if first &&& 0x8000 = 0 then .ok ⟨first.toNat, a + 2⟩
  else
    let second ← u16At chunk (a + 2)
    .ok ⟨(first &&& 0x7fff).toNat <<< 16 ||| second.toNat, a + 4⟩

/-- `chunks_exact(2)` -/
def units : Bytes → List Utf16.Unit16
  | a :: b :: rest => BitVec.ofNat 16 (Bytes.leNat [a, b]) :: units rest
  | _ => []

def StringPool.get (p : StringPool) (index : UInt32) : Except Stop Text :=
  if p.count ≤ index then .error (.bad (.notInPool index p.count))
  else do
    let offset ← u32At p.chunk (p.offsetsAt.toNat + index.toNat * 4)
    let a := p.stringsStart.toNat + offset.toNat
    if p.utf8 then
      -- two lengths: UTF-16 units, then bytes
      let u ← utf8Length p.chunk a
      let l ← utf8Length p.chunk u.after
      let bytes ← getAt p.chunk l.after l.len .stringPastPool
      match Utf8.strict bytes with
      | some t => .ok t
      | none => .error (.bad (.notUtf8 index))
    else
      let l ← utf16Length p.chunk a
      let bytes ← getAt p.chunk l.after (l.len * 2) .stringPastPool
      match Utf16.strict (units bytes) with
      | some t => .ok t
      | none => .error (.bad (.notUtf16 index))

/-! ## What is read, and its turns -/

/-- what a part of the reading comes to, and the turns of its loops -/
structure Parse (α : Type) where
  out : Except Stop α
  turns : ℕ

instance : Monad Parse where
  pure a := ⟨.ok a, 0⟩
  bind p f :=
    match p.out with
    | .error e => ⟨.error e, p.turns⟩
    | .ok a => ⟨(f a).out, p.turns + (f a).turns⟩

instance : MonadLift (Except Stop) Parse where
  monadLift x := ⟨x, 0⟩

/-- `for i in 0..count`, with `return` on the right -/
def forRange {σ ρ : Type} (body : ℕ → σ → Except Stop (σ ⊕ ρ)) : (count i : ℕ) → σ → Parse (σ ⊕ ρ)
  | 0, _, s => ⟨.ok (.inl s), 0⟩
  | count + 1, i, s =>
    match body i s with
    | .error e => ⟨.error e, 1⟩
    | .ok (.inr r) => ⟨.ok (.inr r), 1⟩
    | .ok (.inl s) =>
      let rest := forRange body count (i + 1) s
      ⟨rest.out, rest.turns + 1⟩

/-! ## Elements -/

structure Element where
  name : Text
  chunk : Bytes
  strings : StringPool
  resourceIds : Bytes
  first : ℕ
  size : ℕ
  count : ℕ

def Element.new (chunk : Bytes) (header : UInt16) (strings : StringPool) (resourceIds : Bytes) : Except Stop Element := do
  let ext := header.toNat
  let index ← u32At chunk (ext + 4)
  let name ← strings.get index
  let size ← u16At chunk (ext + 10)
  if size.toNat < 20 then .error (.bad (.attributeSize size))
  else
    let start ← u16At chunk (ext + 8)
    let count ← u16At chunk (ext + 12)
    .ok ⟨name, chunk, strings, resourceIds, ext + start.toNat, size.toNat, count.toNat⟩

/-- an attribute's raw string index, type and data -/
structure Attribute where
  raw : UInt32
  dataType : UInt8
  data : UInt32

/-- `is_ok_and` -/
def isOkAnd (x : Except Stop Text) (name : Text) : Except Stop Bool :=
  match x with
  | .ok n => .ok (n = name)
  | .error .panic => .error .panic
  | .error (.bad _) => .ok false

/-- whether an attribute has the resource id, or else the name -/
def Element.isNamed (e : Element) (name : Text) (id : Option UInt32) (nameIndex : UInt32) (rid : Option UInt32) : Except Stop Bool :=
  if id.isSome ∧ rid = id then .ok true else isOkAnd (e.strings.get nameIndex) name

/-- the attribute at one index, if it is the one looked for -/
def Element.findTurn (e : Element) (name : Text) (id : Option UInt32) (i : ℕ) (_ : Unit) : Except Stop (Unit ⊕ Attribute) := do
  let a := e.first + i * e.size
  let nameIndex ← u32At e.chunk (a + 4)
  let rid ← resourceId e.resourceIds nameIndex
  let named ← e.isNamed name id nameIndex rid
  if named then
    let raw ← u32At e.chunk (a + 8)
    let dataType ← byteAt e.chunk (a + 15) .attributePastElement
    let data ← u32At e.chunk (a + 16)
    .ok (.inr ⟨raw, dataType, data⟩)
  else .ok (.inl ())

def Element.find (e : Element) (name : Text) (id : Option UInt32) : Parse (Option Attribute) := do
  let found ← forRange (e.findTurn name id) e.count 0 ()
  pure (found.elim (fun _ => none) some)

/-- what `string` makes of the attribute it finds -/
def Element.stringOf (e : Element) : Option Attribute → Except Stop (Option Text)
  | none => .ok none
  | some a =>
    if a.raw = NO_INDEX then
      if a.dataType = TYPE_STRING then (e.strings.get a.data).map some else .ok none
    else (e.strings.get a.raw).map some

def Element.string (e : Element) (name : Text) (id : Option UInt32) : Parse (Option Text) := do
  let found ← e.find name id
  e.stringOf found

def Element.intOf (e : Element) : Option Attribute → Except Stop (Option UInt32)
  | none => .ok none
  | some a =>
    if a.dataType = TYPE_INT_DEC ∨ a.dataType = TYPE_INT_HEX then .ok (some a.data)
    else if a.raw ≠ NO_INDEX then (e.strings.get a.raw).map parseU32
    else .ok none

def Element.int (e : Element) (name : Text) (id : UInt32) : Parse (Option UInt32) := do
  let found ← e.find name (some id)
  e.intOf found

def Element.boolean (e : Element) (name : Text) (id : UInt32) : Parse (Option Bool) := do
  let found ← e.find name (some id)
  pure (found.bind fun a => if a.dataType = TYPE_INT_BOOLEAN then some (a.data ≠ 0) else none)

/-! ## The loop over the chunks -/

/-- where the loop is, and what a reader keeps -/
structure Walk (σ : Type) where
  at_ : ℕ
  strings : Option StringPool
  resourceIds : Bytes
  kept : σ

/-- what a reader does with an element's start, with its end if it looks at ends, and after the last chunk -/
structure Reader (σ ρ : Type) where
  start : (chunk : Bytes) → (header : UInt16) → StringPool → Bytes → σ → Parse (σ ⊕ ρ)
  ends : Option ((chunk : Bytes) → (header : UInt16) → StringPool → σ → Except Stop σ)
  finish : σ → Except Stop ρ

section
variable {σ ρ : Type} (axml : Bytes) (r : Reader σ ρ)

/-- what is done with chunks of a kind that is none of the first three -/
def Reader.endsOf (kind : UInt16) : Option ((chunk : Bytes) → (header : UInt16) → StringPool → σ → Except Stop σ) :=
  if kind = RES_XML_END_ELEMENT_TYPE then r.ends else none

/-- what is done with a chunk, before the loop goes on after it -/
def Reader.chunk (w : Walk σ) (h : ChunkHeader) (chunk : Bytes) : Parse (Walk σ ⊕ ρ) :=
  let next : Walk σ := { w with at_ := w.at_ + h.size.toNat }
  if h.kind = RES_STRING_POOL_TYPE then do
    let pool ← StringPool.new chunk
    pure (.inl { next with strings := some pool })
  else if h.kind = RES_XML_RESOURCE_MAP_TYPE then do
    let ids ← cut chunk h.header.toNat (chunk.length - h.header.toNat)
    pure (.inl { next with resourceIds := ids })
  else if h.kind = RES_XML_START_ELEMENT_TYPE then
    match w.strings with
    | none => ⟨.error (.bad .elementBeforePool), 0⟩
    | some strings => do
      let out ← r.start chunk h.header strings w.resourceIds w.kept
      pure (out.map (fun kept => { next with kept }) id)
  else
    match r.endsOf h.kind with
    | none => pure (.inl next)
    | some ends =>
      match w.strings with
      | none => ⟨.error (.bad .elementBeforePool), 0⟩
      | some strings => do
        let kept ← ends chunk h.header strings w.kept
        pure (.inl { next with kept })

/-- the loop's body -/
def Reader.body (end_ : ℕ) (w : Walk σ) : Parse (Walk σ ⊕ ρ) := do
  let h ← chunkHeader axml w.at_
  if h.size.toNat < h.header.toNat ∨ end_ < w.at_ + h.size.toNat then ⟨.error (.bad (.pastDocument w.at_)), 0⟩
  else
    let chunk ← cut axml w.at_ h.size.toNat
    r.chunk w h chunk

def goesOn : Except Stop (Walk σ ⊕ ρ) → Walk σ ⊕ Except Stop ρ
  | .error e => .inr (.error e)
  | .ok (.inr x) => .inr (.ok x)
  | .ok (.inl w) => .inl w

/-- a turn of the loop, or its end -/
def Reader.turn (end_ : ℕ) (w : Walk σ) : (Walk σ ⊕ Except Stop ρ) × ℕ :=
  if 2 ^ 64 ≤ w.at_ + 8 then (.inr (.error .panic), 0)
  else if end_ < w.at_ + 8 then (.inr (r.finish w.kept), 0)
  else (goesOn (r.body axml end_ w).out, (r.body axml end_ w).turns + 1)

/-- the document's end, and where the loop starts -/
def begins (kept : σ) : Except Stop (ℕ × Walk σ) := do
  let h ← chunkHeader axml 0
  if h.kind ≠ RES_XML_TYPE then .error (.bad (.notBinaryXml h.kind))
  else .ok (min h.size.toNat axml.length, ⟨h.header.toNat, none, [], kept⟩)

/-- what `n` turns come to -/
def Reader.parse (kept : σ) (n : ℕ) : Option (Except Stop ρ × ℕ) :=
  match begins axml kept with
  | .error e => some (.error e, 0)
  | .ok start => Loop.run (r.turn axml start.1) n start.2

end

/-! ## AppManifest -/

structure AppManifest where
  package : Text
  versionName : Text
  versionCode : UInt32
deriving DecidableEq

structure Root where
  package : Option Text := none
  versionName : Option Text := none
  versionCode : Option UInt32 := none

/-- an attribute's text, for the attributes that must have one -/
def rootText (strings : StringPool) (name : Text) (a : Attribute) : Except Stop Text :=
  if a.raw = NO_INDEX then
    if a.dataType = TYPE_STRING then strings.get a.data
    else if a.dataType = TYPE_REFERENCE then .error (.bad (.reference name a.data))
    else .error (.bad (.notString name a.dataType))
  else strings.get a.raw

def rootTurn (chunk : Bytes) (strings : StringPool) (resourceIds : Bytes) (first size i : ℕ) (root : Root) :
    Except Stop (Root ⊕ Empty) := do
  let a := first + i * size
  let nameIndex ← u32At chunk (a + 4)
  let raw ← u32At chunk (a + 8)
  let dataType ← byteAt chunk (a + 15) .attributePastElement
  let data ← u32At chunk (a + 16)
  let name ← strings.get nameIndex
  let id ← resourceId resourceIds nameIndex
  let text := rootText strings name ⟨raw, dataType, data⟩
  if name = PACKAGE then
    let t ← text
    .ok (.inl { root with package := some t })
  else if name = VERSION_NAME ∨ id = some ATTR_VERSION_NAME then
    let t ← text
    .ok (.inl { root with versionName := some t })
  else if name = VERSION_CODE ∨ id = some ATTR_VERSION_CODE then
    if dataType = TYPE_INT_DEC ∨ dataType = TYPE_INT_HEX then .ok (.inl { root with versionCode := some data })
    else
      let t ← text
      match parseU32 t with
      | some n => .ok (.inl { root with versionCode := some n })
      | none => .error (.bad .versionCodeNotInteger)
  else .ok (.inl root)

def Root.made (root : Root) : Except Stop AppManifest :=
  match root.package, root.versionName, root.versionCode with
  | none, _, _ => .error (.bad .noPackage)
  | some _, none, _ => .error (.bad .noVersionName)
  | some _, some _, none => .error (.bad .noVersionCode)
  | some package, some versionName, some versionCode => .ok ⟨package, versionName, versionCode⟩

def rootElement (chunk : Bytes) (header : UInt16) (strings : StringPool) (resourceIds : Bytes) : Parse AppManifest := do
  let ext := header.toNat
  let index ← u32At chunk (ext + 4)
  let element ← strings.get index
  if element ≠ MANIFEST then ⟨.error (.bad (.notManifest element)), 0⟩
  else
    let start ← u16At chunk (ext + 8)
    let size ← u16At chunk (ext + 10)
    let count ← u16At chunk (ext + 12)
    if size.toNat < 20 then ⟨.error (.bad (.attributeSize size)), 0⟩
    else
      let root ← forRange (rootTurn chunk strings resourceIds (ext + start.toNat) size.toNat) count.toNat 0 {}
      (root.elim id fun never => nomatch never).made

/-- the first element is the root -/
def AppManifest.reader : Reader Unit AppManifest where
  start chunk header strings resourceIds _ := do
    let m ← rootElement chunk header strings resourceIds
    pure (.inr m)
  ends := none
  finish _ := .error (.bad .noElement)

/-! ## LaunchInfo -/

structure LaunchInfo where
  package : Text
  versionCode : Option UInt32
  split : Option Text
  launcher : Option Text
  nativeLib : Option Text
deriving DecidableEq

/-- what the walk keeps; `component` is the one being read, with whether it is enabled -/
structure Launch where
  package : Option Text := none
  versionCode : Option UInt32 := none
  split : Option Text := none
  launcher : Option Text := none
  launcherLib : Option Text := none
  appLib : Option Text := none
  componentLib : Option Text := none
  isLauncher : Bool := false
  otherComponent : Bool := false
  firstLib : Option Text := none
  component : Option (Text × Bool) := none
  main : Bool := false
  category : Bool := false

def isComponent (name : Text) : Prop := name = ACTIVITY ∨ name = ACTIVITY_ALIAS

instance (name : Text) : Decidable (isComponent name) := inferInstanceAs (Decidable (_ ∨ _))

def isOther (name : Text) : Prop := name = SERVICE ∨ name = RECEIVER ∨ name = PROVIDER

instance (name : Text) : Decidable (isOther name) := inferInstanceAs (Decidable (_ ∨ _))

/-- a library's name: the component's, or the application's -/
def Launch.libName (s : Launch) (value : Option Text) : Launch :=
  if s.component.isSome then { s with firstLib := if s.firstLib.isNone then value else s.firstLib, componentLib := value }
  else if s.appLib.isNone ∧ s.otherComponent = false then { s with appLib := value }
  else s

def Launch.startElement (s : Launch) (e : Element) : Parse Launch :=
  if e.name = MANIFEST ∧ s.package = none then do
    let package ← e.string PACKAGE none
    let versionCode ← e.int VERSION_CODE ATTR_VERSION_CODE
    let split ← e.string SPLIT none
    pure { s with package, versionCode, split := split.filter (· ≠ []) }
  else if isComponent e.name then do
    let name ← e.string NAME (some ATTR_NAME)
    let enabled ← e.boolean ENABLED ATTR_ENABLED
    pure { s with component := some (name.getD [], enabled.getD true), componentLib := none, isLauncher := false }
  else if e.name = META_DATA then do
    let name ← e.string NAME (some ATTR_NAME)
    if name = some LIB_NAME_META then
      let value ← e.string VALUE (some ATTR_VALUE)
      pure (s.libName (value.filter (· ≠ [])))
    else pure s
  else if isOther e.name then pure { s with otherComponent := true }
  else if e.name = INTENT_FILTER then pure { s with main := false, category := false }
  else if e.name = ACTION then do
    let name ← e.string NAME (some ATTR_NAME)
    pure { s with main := s.main || name = some ACTION_MAIN }
  else if e.name = CATEGORY then do
    let name ← e.string NAME (some ATTR_NAME)
    pure { s with category := s.category || name = some CATEGORY_LAUNCHER }
  else pure s

def Launch.endElement (s : Launch) (name : Text) : Launch :=
  if name = INTENT_FILTER ∧ s.main = true ∧ s.category = true ∧ s.launcher = none then
    match s.component with
    | some (cls, true) => { s with launcher := some cls, isLauncher := true }
    | _ => s
  else if isOther name then { s with otherComponent := false }
  else if isComponent name then
    { s with
      launcherLib := if s.isLauncher then s.componentLib else s.launcherLib
      componentLib := if s.isLauncher then none else s.componentLib
      component := none
      isLauncher := false }
  else s

/-- a class name as the manifest may give it: `.Main` and `Main` are in the package -/
def whole (package c : Text) : Text :=
  if c.head? = some '.' then package ++ c else if '.' ∉ c then package ++ '.' :: c else c

def Launch.made (s : Launch) : Except Stop LaunchInfo :=
  match s.package with
  | none => .error (.bad .noPackage)
  | some package =>
    .ok ⟨package, s.versionCode, s.split, (s.launcher.filter (· ≠ [])).map (whole package),
      s.launcherLib.or (s.appLib.or s.firstLib)⟩

def LaunchInfo.reader : Reader Launch LaunchInfo where
  start chunk header strings resourceIds s := do
    let e ← Element.new chunk header strings resourceIds
    let s ← s.startElement e
    pure (.inl s)
  ends := some fun chunk header strings s => do
    let index ← u32At chunk (header.toNat + 4)
    let name ← strings.get index
    .ok (s.endElement name)
  finish := Launch.made

end Omnidroid.Apk.Manifest
