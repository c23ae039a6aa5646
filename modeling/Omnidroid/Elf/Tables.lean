/-
The relocation tables of an object (`omni-elf/src/dynamic.rs`, `reloc.rs`, the relocations of `lib.rs`), and the order the
loader applies them in (`load_into` in `loader/mod.rs`): the packed blob streamed, then every other table, the PLT's last.
- `Dynamic.parse`: the table tags, paired.
- `ElfImage.relocations`, `unpackedRelocations`: the tables, with the packed ones or without.
- `ElfImage.decodePackedWith`: the packed blob, for the stream.
- `ElfImage.relocate`: the loader's order, over what it does with one relocation and with one table.
- `relocations_streamed`: what is applied is what the object declares, unless it has both packed tags and the second's blob
  has relocations; then those are never applied (`second_blob_skipped`).
-/
import Omnidroid.Elf.Aps2
import Omnidroid.Elf.Image

namespace Omnidroid.Elf

/-! ## The dynamic section -/

structure DynEntry where
  tag : ℤ
  val : ℕ

structure DynTable where
  vaddr : ℕ
  size : ℕ
  entsize : Option ℕ
deriving DecidableEq, Repr

/-- the relocation tables the dynamic section declares -/
structure Dynamic where
  jmprel : Option DynTable
  pltrel : Option ℕ
  rela : Option DynTable
  rel : Option DynTable
  relr : Option DynTable
  androidRela : Option DynTable
  androidRel : Option DynTable

def DT_PLTRELSZ : ℤ := 2
def DT_HASH : ℤ := 4
def DT_STRTAB : ℤ := 5
def DT_SYMTAB : ℤ := 6
def DT_RELA : ℤ := 7
def DT_RELASZ : ℤ := 8
def DT_RELAENT : ℤ := 9
def DT_REL : ℤ := 17
def DT_RELSZ : ℤ := 18
def DT_RELENT : ℤ := 19
def DT_PLTREL : ℤ := 20
def DT_JMPREL : ℤ := 23
def DT_RELRSZ : ℤ := 35
def DT_RELR : ℤ := 36
def DT_RELRENT : ℤ := 37
def DT_ANDROID_REL : ℤ := 0x6000000f
def DT_ANDROID_RELSZ : ℤ := 0x60000010
def DT_ANDROID_RELA : ℤ := 0x60000011
def DT_ANDROID_RELASZ : ℤ := 0x60000012
def DT_ANDROID_RELR : ℤ := 0x6fffe000
def DT_ANDROID_RELRSZ : ℤ := 0x6fffe001
def DT_ANDROID_RELRENT : ℤ := 0x6fffe003
def DT_GNU_HASH : ℤ := 0x6ffffef5

namespace Dynamic

/-- the tags that must be unique -/
def uniqueTags : List (ℤ × String) :=
  [(DT_STRTAB, "DT_STRTAB"), (DT_SYMTAB, "DT_SYMTAB"), (DT_HASH, "DT_HASH"), (DT_GNU_HASH, "DT_GNU_HASH"),
    (DT_RELA, "DT_RELA"), (DT_ANDROID_RELA, "DT_ANDROID_RELA"), (DT_ANDROID_REL, "DT_ANDROID_REL"),
    (DT_JMPREL, "DT_JMPREL")]

def count (entries : List DynEntry) (tag : ℤ) : ℕ := entries.countP fun e => e.tag == tag

def get (entries : List DynEntry) (tag : ℤ) : Option ℕ := (entries.find? fun e => e.tag == tag).map DynEntry.val

/-- a table by the tags of its address, its size and its entries' size -/
def table (entries : List DynEntry) (tag size : ℤ) (entsize : Option ℤ) : Option DynTable :=
  (get entries tag).map fun vaddr => ⟨vaddr, (get entries size).getD 0, entsize.bind (get entries)⟩

/-- the entries before the array's `DT_NULL` -/
def parse (entries : List DynEntry) : Except ElfError Dynamic :=
  match uniqueTags.find? fun t => 1 < count entries t.1 with
  | some (tag, name) => .error (.duplicateDynamicTag name (count entries tag))
  | none => .ok {
      jmprel := table entries DT_JMPREL DT_PLTRELSZ none
      -- the last one stands
      pltrel := get entries.reverse DT_PLTREL
      rela := table entries DT_RELA DT_RELASZ (some DT_RELAENT)
      rel := table entries DT_REL DT_RELSZ (some DT_RELENT)
      relr := (table entries DT_RELR DT_RELRSZ (some DT_RELRENT)).or
        (table entries DT_ANDROID_RELR DT_ANDROID_RELRSZ (some DT_ANDROID_RELRENT))
      androidRela := table entries DT_ANDROID_RELA DT_ANDROID_RELASZ none
      androidRel := table entries DT_ANDROID_REL DT_ANDROID_RELSZ none }

end Dynamic

/-! ## A table's entries -/

inductive RelocEncoding where
  | rela | rel | relr | androidPackedRela | androidPackedRel
deriving DecidableEq, Repr

def RelocEncoding.implicitAddend : RelocEncoding → Bool
  | .rel | .relr | .androidPackedRel => true
  | .rela | .androidPackedRela => false

structure RelocationTable where
  tag : String
  encoding : RelocEncoding
  vaddr : ℕ
  size : ℕ
  relocations : List Rela
  packed : Option Aps2Summary
deriving DecidableEq, Repr

def RelocationTable.implicitAddend (t : RelocationTable) : Bool := t.encoding.implicitAddend

structure Relocations where
  general : List RelocationTable
  plt : Option RelocationTable
deriving DecidableEq, Repr

/-- a read of `u64`, within the view -/
def viewU64 (what : String) (view : Bytes) (offset : ℕ) : Except ElfError UInt64 :=
  match view.get? offset 8 with
  | some bs => .ok (UInt64.ofNat (Bytes.leNat bs))
  | none => .error (.outOfBounds what offset 8 (view.length - min offset view.length))

def SIZEOF_RELA : ℕ := 24
def SIZEOF_REL : ℕ := 16
def R_AARCH64_RELATIVE : UInt64 := 1027

def parseRela (view : Bytes) (at_ : ℕ) : Except ElfError Rela := do
  let r_offset ← viewU64 "r_offset" view at_
  let r_info ← viewU64 "r_info" view (at_ + 8)
  let r_addend ← viewU64 "r_addend" view (at_ + 16)
  pure ⟨r_offset, r_info, r_addend.toInt64⟩

def parseRel (view : Bytes) (at_ : ℕ) : Except ElfError Rela := do
  let r_offset ← viewU64 "r_offset" view at_
  let r_info ← viewU64 "r_info" view (at_ + 8)
  pure ⟨r_offset, r_info, 0⟩

section Parse

-- whether a vector of relocations of so many bytes can be had
variable (fits : ℕ → Bool)

def tryReserve (count : ℕ) : Except ElfError Unit :=
  if fits (count * SIZEOF_RELA) then .ok () else .error (.allocationFailed (min (count * SIZEOF_RELA) (2 ^ 64 - 1)))

/-- an entry size, where one is declared, and a whole number of entries -/
def checkEntries (what : String) (size : ℕ) (entsize : Option ℕ) (expected : ℕ) : Except ElfError Unit :=
  match entsize with
  | some actual =>
    if actual ≠ expected then .error (.badEntrySize what actual expected)
    else if size % expected ≠ 0 then .error (.unalignedTableSize what size expected)
    else .ok ()
  | none => if size % expected ≠ 0 then .error (.unalignedTableSize what size expected) else .ok ()

def parsePlain (view : Bytes) (size : ℕ) (entsize : Option ℕ) (expected : ℕ) (what : String)
    (parseOne : Bytes → ℕ → Except ElfError Rela) : Except ElfError (List Rela) := do
  checkEntries what size entsize expected
  tryReserve fits (size / expected)
  (List.range (size / expected)).mapM fun i => parseOne view (i * expected)

def parseRelaTable (view : Bytes) (size : ℕ) (entsize : Option ℕ) : Except ElfError (List Rela) :=
  parsePlain fits view size entsize SIZEOF_RELA "DT_RELA" parseRela

def parseRelTable (view : Bytes) (size : ℕ) (entsize : Option ℕ) : Except ElfError (List Rela) :=
  parsePlain fits view size entsize SIZEOF_REL "DT_REL" parseRel

/-- how many of the low `n` bits are set -/
def countOnes (w : UInt64) (n : ℕ) : ℕ := (List.range n).countP fun i => w >>> UInt64.ofNat i &&& 1 != 0

/-- the targets of a bitmap over the words from `offset` on -/
def bitmapTargets (bits offset : UInt64) : List UInt64 :=
  if _h : bits = 0 then []
  else (if bits &&& 1 ≠ 0 then [offset] else []) ++ bitmapTargets (bits >>> 1) (offset + 8)
termination_by bits.toNat
decreasing_by
  have hne : bits.toNat ≠ 0 := by
    intro h
    exact _h (UInt64.toNat_inj.mp h)
  rw [UInt64.toNat_shiftRight, Nat.shiftRight_eq_div_pow]
  exact Nat.div_lt_self (Nat.pos_of_ne_zero hne) (by decide)

/-- the targets of a `DT_RELR` table's words, the next one's own address after `where_` -/
def relrTargets : List UInt64 → UInt64 → List UInt64
  | [], _ => []
  | entry :: entries, where_ =>
    -- an even word is an address, an odd one the bitmap of the 63 words after the last address
    if entry &&& 1 = 0 then entry :: relrTargets entries (entry + 8)
    else bitmapTargets (entry >>> 1) where_ ++ relrTargets entries (where_ + 63 * 8)

def parseRelrTable (view : Bytes) (size : ℕ) (entsize : Option ℕ) (limits : Aps2Limits) : Except ElfError (List Rela) := do
  checkEntries "DT_RELR" size entsize 8
  let entries ← (List.range (size / 8)).mapM fun i => viewU64 "DT_RELR entry" view (i * 8)
  let count := entries.foldl
    (fun n (entry : UInt64) => saturatingAdd n (if entry &&& 1 = 0 then 1 else countOnes (entry >>> 1) 64)) 0
  if limits.maxRelocations < count then throw (.relocationCountExceedsLimit "DT_RELR" count limits.maxRelocations)
  else
    tryReserve fits count
    pure ((relrTargets entries 0).map fun r_offset => ⟨r_offset, R_AARCH64_RELATIVE &&& 0xffffffff, 0⟩)

/-- `aps2::decode`'s sink: one more relocation, where the vector can grow -/
def push (r : Rela) : EStateM ElfError (List Rela) Unit := fun rs =>
  if fits ((rs.length + 1) * SIZEOF_RELA) then .ok () (rs ++ [r])
  else .error (.allocationFailed ((rs.length + 1) * SIZEOF_RELA)) rs

/-- `aps2::decode` -/
def decode (blob : Bytes) (format : PackedFormat) (limits : Aps2Limits) : Except ElfError (List Rela × Aps2Summary) :=
  match decodeWith (push fits) blob format limits [] with
  | .ok summary relocations => .ok (relocations, summary)
  | .error e _ => .error e

end Parse

/-! ## The image -/

/-- the fewest bytes a relocation writes -/
def MIN_RELOCATION_FOOTPRINT : ℕ := 2
def MAX_RELOCATIONS : ℕ := 64 * 1024 * 1024

/-- `Aps2Limits::for_image` -/
def Aps2Limits.forImage (image : LoadImage) : Aps2Limits :=
  ⟨min (image.mappedBytes / MIN_RELOCATION_FOOTPRINT) MAX_RELOCATIONS, image.span⟩

structure ElfImage where
  data : Bytes
  segments : List Segment
  loadImage : LoadImage
  dynamic : Dynamic

namespace ElfImage

/-- what of a parse the tables go by -/
def parse (data : Bytes) (segments : List Segment) (entries : List DynEntry) : Except ElfError ElfImage := do
  let loadImage ← LoadImage.validate segments data.length
  let dynamic ← Dynamic.parse entries
  pure ⟨data, segments, loadImage, dynamic⟩

def loadSegments (elf : ElfImage) : List Segment := elf.segments.filter Segment.isLoad

def aps2Limits (elf : ElfImage) : Aps2Limits := .forImage elf.loadImage

def vaddrToOffset (elf : ElfImage) (vaddr : ℕ) : Option ℕ :=
  (elf.loadSegments.find? fun s => s.p_vaddr ≤ vaddr && vaddr < saturatingAdd s.p_vaddr s.p_filesz).map fun s =>
    s.p_offset + (vaddr - s.p_vaddr)

def sliceAtVaddr (elf : ElfImage) (what : String) (vaddr len : ℕ) : Except ElfError Bytes :=
  if !elf.loadSegments.any fun s => s.fileContainsVaddr vaddr len then
    .error (.unmappedVaddrRange vaddr (saturatingAdd vaddr len) len)
  else
    match elf.vaddrToOffset vaddr with
    | none => .error (.unmappedVaddr vaddr)
    | some off =>
      match elf.data.get? off len with
      | some bs => .ok bs
      | none => .error (.outOfBounds what off len (elf.data.length - min off elf.data.length))

section Relocations

variable (fits : ℕ → Bool) (elf : ElfImage)

def decodePacked (tag : String) (encoding : RelocEncoding) (t : DynTable) (format : PackedFormat) :
    Except ElfError RelocationTable := do
  let blob ← elf.sliceAtVaddr tag t.vaddr t.size
  let (relocations, summary) ← decode fits blob format elf.aps2Limits
  pure ⟨tag, encoding, t.vaddr, t.size, relocations, some summary⟩

/-- a plain table, its bytes read as `parse` reads them -/
def plain (tag : String) (encoding : RelocEncoding) (parse : Bytes → Except ElfError (List Rela)) (t : DynTable) :
    Except ElfError RelocationTable := do
  let view ← elf.sliceAtVaddr tag t.vaddr t.size
  let relocations ← parse view
  pure ⟨tag, encoding, t.vaddr, t.size, relocations, none⟩

def pltTable (t : DynTable) : Except ElfError RelocationTable :=
  match elf.dynamic.pltrel with
  | none => .error (.missingDynamicTag "DT_PLTREL")
  | some pltrel => do
    let view ← elf.sliceAtVaddr "DT_JMPREL" t.vaddr t.size
    if (pltrel : ℤ) = DT_RELA then
      pure ⟨"DT_JMPREL", .rela, t.vaddr, t.size, ← parseRelaTable fits view t.size none, none⟩
    else if (pltrel : ℤ) = DT_REL then
      pure ⟨"DT_JMPREL", .rel, t.vaddr, t.size, ← parseRelTable fits view t.size none, none⟩
    else throw (.badPltRel pltrel)

/-- what `table` makes of an optional tag -/
def optional (table : DynTable → Except ElfError RelocationTable) :
    Option DynTable → Except ElfError (Option RelocationTable)
  | none => .ok none
  | some t => do pure (some (← table t))

def relocationTables (packed : Bool) : Except ElfError Relocations := do
  let d := elf.dynamic
  let androidRela ← optional (fun t => elf.decodePacked fits "DT_ANDROID_RELA" .androidPackedRela t .rela)
    (d.androidRela.filter fun _ => packed)
  let androidRel ← optional (fun t => elf.decodePacked fits "DT_ANDROID_REL" .androidPackedRel t .rel)
    (d.androidRel.filter fun _ => packed)
  let rela ← optional (fun t => elf.plain "DT_RELA" .rela (fun v => parseRelaTable fits v t.size t.entsize) t) d.rela
  let rel ← optional (fun t => elf.plain "DT_REL" .rel (fun v => parseRelTable fits v t.size t.entsize) t) d.rel
  let relr ← optional
    (fun t => elf.plain "DT_RELR" .relr (fun v => parseRelrTable fits v t.size t.entsize elf.aps2Limits) t) d.relr
  let plt ← optional (elf.pltTable fits) d.jmprel
  pure ⟨androidRela.toList ++ androidRel.toList ++ rela.toList ++ rel.toList ++ relr.toList, plt⟩

def relocations : Except ElfError Relocations := elf.relocationTables fits true

def unpackedRelocations : Except ElfError Relocations := elf.relocationTables fits false

def packedHasImplicitAddend : Option Bool :=
  if elf.dynamic.androidRela.isSome then some RelocEncoding.androidPackedRela.implicitAddend
  else if elf.dynamic.androidRel.isSome then some RelocEncoding.androidPackedRel.implicitAddend
  else none

end Relocations

section Stream

variable {σ : Type} (elf : ElfImage)

/-- one packed blob, for the stream -/
def decodeTable (sink : Rela → EStateM ElfError σ Unit) (tag : String) (t : DynTable) (format : PackedFormat) :
    EStateM ElfError σ (Option Aps2Summary) := fun s =>
  match elf.sliceAtVaddr tag t.vaddr t.size with
  | .error e => .error e s
  | .ok blob =>
    match decodeWith sink blob format elf.aps2Limits s with
    | .ok summary s => .ok (some summary) s
    | .error e s => .error e s

def decodePackedWith (sink : Rela → EStateM ElfError σ Unit) : EStateM ElfError σ (Option Aps2Summary) :=
  match elf.dynamic.androidRela, elf.dynamic.androidRel with
  | some t, _ => elf.decodeTable sink "DT_ANDROID_RELA" t .rela
  | none, some t => elf.decodeTable sink "DT_ANDROID_REL" t .rel
  | none, none => pure none

/-- the packed blob streamed, and the window it leaves open closed -/
def stream (feed : Rela → Bool → EStateM ElfError σ Unit) (close : EStateM ElfError σ Unit) : EStateM ElfError σ Unit :=
  match elf.packedHasImplicitAddend with
  | some implicit => do
    let _ ← elf.decodePackedWith fun r => feed r implicit
    close
  | none => pure ()

/-- the loader's relocate step -/
def relocate (feed : Rela → Bool → EStateM ElfError σ Unit) (close : EStateM ElfError σ Unit)
    (applyTable : RelocationTable → EStateM ElfError σ Unit) (tables : Relocations) : EStateM ElfError σ Unit := do
  elf.stream feed close
  tables.general.forM applyTable
  tables.plt.toList.forM applyTable

end Stream

end ElfImage

/-! ## What is declared and what is applied -/

/-- each relocation with whether its addend is the one at its target -/
def RelocationTable.each (t : RelocationTable) : List (Rela × Bool) := t.relocations.map fun r => (r, t.implicitAddend)

def Relocations.each (r : Relocations) : List (Rela × Bool) := (r.general ++ r.plt.toList).flatMap RelocationTable.each

/-- one more relocation applied -/
def note (r : Rela) (implicit : Bool) : EStateM ElfError (List (Rela × Bool)) Unit := fun s => .ok () (s ++ [(r, implicit)])

def noteTable (t : RelocationTable) : EStateM ElfError (List (Rela × Bool)) Unit := fun s => .ok () (s ++ t.each)

/-- what the loader applies, in its order -/
def ElfImage.applied (fits : ℕ → Bool) (elf : ElfImage) : Except ElfError (List (Rela × Bool)) := do
  let tables ← elf.unpackedRelocations fits
  match elf.relocate note (pure ()) noteTable tables [] with
  | .ok () s => .ok s
  | .error e _ => .error e

/-- the object has one packed tag at most, or the second one's blob declares no relocation -/
def ElfImage.OneStream (elf : ElfImage) : Prop :=
  ∀ t t', elf.dynamic.androidRela = some t → elf.dynamic.androidRel = some t' →
    ∀ blob, elf.sliceAtVaddr "DT_ANDROID_REL" t'.vaddr t'.size = .ok blob → declaredCount blob = 0

theorem forM_noteTable (tables : List RelocationTable) (s : List (Rela × Bool)) :
    tables.forM noteTable s = .ok () (s ++ tables.flatMap RelocationTable.each) := by
  induction tables generalizing s with
  | nil => simp [pure, EStateM.pure]
  | cons t tables ih =>
    refine bind_ok.mpr ⟨(), s ++ t.each, rfl, ?_⟩
    rw [List.flatMap_cons, ← List.append_assoc]
    exact ih _

section Stream

variable {fits : ℕ → Bool} {elf : ElfImage}

/-- a blob that decodes into a vector streams into any list, and it has as many relocations as it declares -/
theorem decode_streams {blob : Bytes} {format : PackedFormat} {limits : Aps2Limits} {rs : List Rela} {summary : Aps2Summary}
    (h : decode fits blob format limits = .ok (rs, summary)) :
    rs.length = declaredCount blob ∧ ∀ implicit s,
      decodeWith (fun r => note r implicit) blob format limits s = .ok summary (s ++ rs.map fun r => (r, implicit)) := by
  have hpush : decodeWith (push fits) blob format limits [] = .ok summary rs := by
    simp only [decode] at h
    cases hd : decodeWith (push fits) blob format limits [] with
    | ok out s =>
      rw [hd] at h
      cases h
      rfl
    | error e s =>
      rw [hd] at h
      cases h
  constructor
  · have hfollow : ∀ r, Follows (fun (s : List Rela) (t : Unit × List Rela) => t.2 = s) (push fits r)
        (noted (fun _ => pure ()) r) := by
      rintro r s ⟨u, t⟩ a s' rfl hp
      simp only [push] at hp
      split at hp
      · cases hp
        exact ⟨((), t ++ [r]), rfl, rfl⟩
      · cases hp
    obtain ⟨⟨u, calls⟩, hrun, rfl⟩ := follows_decodeWith hfollow blob format limits [] ((), []) summary rs rfl hpush
    obtain ⟨hdeclared, hlen, -⟩ := decodeWith_ok hrun
    exact hlen.trans hdeclared
  · intro implicit base
    have hfollow : ∀ r, Follows (fun (s : List Rela) (t : List (Rela × Bool)) => t = base ++ s.map fun r => (r, implicit))
        (push fits r) (note r implicit) := by
      rintro r s t a s' rfl hp
      simp only [push] at hp
      split at hp
      · cases hp
        exact ⟨_, rfl, by simp⟩
      · cases hp
    obtain ⟨t, hrun, rfl⟩ := follows_decodeWith hfollow blob format limits [] base summary rs (by simp) hpush
    exact hrun

theorem decodePacked_ok {tag : String} {encoding : RelocEncoding} {t : DynTable} {format : PackedFormat}
    {out : RelocationTable} (h : elf.decodePacked fits tag encoding t format = .ok out) :
    out.encoding = encoding ∧ ∃ blob summary, elf.sliceAtVaddr tag t.vaddr t.size = .ok blob ∧
      decode fits blob format elf.aps2Limits = .ok (out.relocations, summary) := by
  obtain ⟨blob, hblob, h⟩ := except_bind_ok.mp h
  obtain ⟨⟨relocations, summary⟩, hdecode, h⟩ := except_bind_ok.mp h
  cases h
  exact ⟨rfl, blob, summary, hblob, hdecode⟩

/-- with the packed tables and without: the others are the same, and the same PLT's -/
theorem relocationTables_ok {rels : Relocations} (h : elf.relocations fits = .ok rels) :
    ∃ a b rest, ElfImage.optional (fun t => elf.decodePacked fits "DT_ANDROID_RELA" .androidPackedRela t .rela)
        elf.dynamic.androidRela = .ok a ∧
      ElfImage.optional (fun t => elf.decodePacked fits "DT_ANDROID_REL" .androidPackedRel t .rel)
        elf.dynamic.androidRel = .ok b ∧
      rels.general = a.toList ++ b.toList ++ rest ∧ elf.unpackedRelocations fits = .ok ⟨rest, rels.plt⟩ := by
  have hall : ∀ o : Option DynTable, o.filter (fun _ => true) = o := by
    intro o
    cases o <;> rfl
  have hnone : ∀ o : Option DynTable, o.filter (fun _ => false) = none := by
    intro o
    cases o <;> rfl
  simp only [ElfImage.relocations, ElfImage.relocationTables, hall, except_bind_ok] at h
  obtain ⟨a, ha, b, hb, rela, hrela, rel, hrel, relr, hrelr, plt, hplt, h⟩ := h
  cases h
  refine ⟨a, b, rela.toList ++ rel.toList ++ relr.toList, ha, hb, by simp, ?_⟩
  simp only [ElfImage.unpackedRelocations, ElfImage.relocationTables, hnone, except_bind_ok]
  exact ⟨none, rfl, none, rfl, rela, hrela, rel, hrel, relr, hrelr, plt, hplt, by simp; rfl⟩

theorem optional_ok {table : DynTable → Except ElfError RelocationTable} {o : Option DynTable} {r : Option RelocationTable}
    (h : ElfImage.optional table o = .ok r) :
    o = none ∧ r = none ∨ ∃ t out, o = some t ∧ table t = .ok out ∧ r = some out := by
  cases o with
  | none =>
    cases h
    exact .inl ⟨rfl, rfl⟩
  | some t =>
    obtain ⟨out, hout, h⟩ := except_bind_ok.mp h
    cases h
    exact .inr ⟨t, out, rfl, hout, rfl⟩

/-- the loader applies the packed table the stream takes, and then every table that is not packed -/
theorem applied_eq {rest : List RelocationTable} {plt : Option RelocationTable} (taken : List (Rela × Bool))
    (htables : elf.unpackedRelocations fits = .ok ⟨rest, plt⟩)
    (htaken : match elf.packedHasImplicitAddend with
      | some implicit => ∃ summary, elf.decodePackedWith (fun r => note r implicit) [] = .ok summary taken
      | none => taken = []) :
    elf.applied fits = .ok (taken ++ (rest ++ plt.toList).flatMap RelocationTable.each) := by
  have hrun : elf.relocate note (pure ()) noteTable ⟨rest, plt⟩ [] =
      .ok () (taken ++ (rest ++ plt.toList).flatMap RelocationTable.each) := by
    have hrest : (rest.forM noteTable >>= fun _ => plt.toList.forM noteTable : EStateM ElfError _ Unit) taken =
        .ok () (taken ++ (rest ++ plt.toList).flatMap RelocationTable.each) := by
      refine bind_ok.mpr ⟨(), _, forM_noteTable rest taken, ?_⟩
      rw [forM_noteTable, List.flatMap_append, List.append_assoc]
    have hstream : elf.stream note (pure ()) [] = .ok () taken := by
      rw [ElfImage.stream]
      cases hp : elf.packedHasImplicitAddend with
      | none =>
        rw [hp] at htaken
        rw [htaken]
        rfl
      | some implicit =>
        rw [hp] at htaken
        obtain ⟨summary, hrun⟩ := htaken
        exact bind_ok.mpr ⟨summary, taken, hrun, rfl⟩
    exact bind_ok.mpr ⟨(), taken, hstream, hrest⟩
  rw [ElfImage.applied, htables]
  simp only [bind, Except.bind, hrun]

end Stream

/-- the stream of a packed table that decodes hands on what the table has -/
theorem streamed_each {tag : String} {encoding : RelocEncoding} {t : DynTable} {format : PackedFormat} {fits : ℕ → Bool}
    {elf : ElfImage} {out : RelocationTable} (h : elf.decodePacked fits tag encoding t format = .ok out)
    (hstream : ∀ sink : Rela → EStateM ElfError (List (Rela × Bool)) Unit, elf.decodePackedWith sink =
      elf.decodeTable sink tag t format) :
    ∃ summary, elf.decodePackedWith (fun r => note r encoding.implicitAddend) [] = .ok summary out.each := by
  obtain ⟨hencoding, blob, summary, hblob, hdecode⟩ := decodePacked_ok h
  refine ⟨some summary, ?_⟩
  rw [hstream, ElfImage.decodeTable, hblob]
  simp only [(decode_streams hdecode).2, List.nil_append, RelocationTable.each, RelocationTable.implicitAddend, hencoding]

/-- what the loader applies of an image whose tables all parse is what the image declares, each relocation with the flag of
the table it came from, exactly where the image has one stream -/
theorem relocations_streamed (fits : ℕ → Bool) (elf : ElfImage) (rels : Relocations) (h : elf.relocations fits = .ok rels) :
    ∃ applied, elf.applied fits = .ok applied ∧ (applied = rels.each ↔ elf.OneStream) := by
  obtain ⟨a, b, rest, ha, hb, hgeneral, hunpacked⟩ := relocationTables_ok h
  have hrels : rels.each = (a.toList ++ b.toList).flatMap RelocationTable.each ++
      (rest ++ rels.plt.toList).flatMap RelocationTable.each := by
    simp only [Relocations.each, hgeneral, List.flatMap_append, List.append_assoc]
  rw [hrels]
  rcases optional_ok ha with ⟨hnoRela, rfl⟩ | ⟨t, out, hrela, hout, rfl⟩
  · have hone : elf.OneStream := by
      intro t t' ht
      rw [hnoRela] at ht
      cases ht
    rcases optional_ok hb with ⟨hnoRel, rfl⟩ | ⟨t', out', hrel, hout', rfl⟩
    · have hpacked : elf.packedHasImplicitAddend = none := by simp [ElfImage.packedHasImplicitAddend, hnoRela, hnoRel]
      refine ⟨_, applied_eq [] hunpacked (by rw [hpacked]), iff_of_true ?_ hone⟩
      rfl
    · have hpacked : elf.packedHasImplicitAddend = some true := by
        simp [ElfImage.packedHasImplicitAddend, hnoRela, hrel, RelocEncoding.implicitAddend]
      have hstream := streamed_each hout' (by
        intro sink
        simp only [ElfImage.decodePackedWith, hnoRela, hrel])
      refine ⟨_, applied_eq out'.each hunpacked (by rw [hpacked]; exact hstream), iff_of_true ?_ hone⟩
      simp
  · have hpacked : elf.packedHasImplicitAddend = some false := by
      simp [ElfImage.packedHasImplicitAddend, hrela, RelocEncoding.implicitAddend]
    have hstream := streamed_each hout (by
      intro sink
      simp only [ElfImage.decodePackedWith, hrela])
    refine ⟨_, applied_eq out.each hunpacked (by rw [hpacked]; exact hstream), ?_⟩
    rcases optional_ok hb with ⟨hnoRel, rfl⟩ | ⟨t', out', hrel, hout', rfl⟩
    · apply iff_of_true
      · simp
      · intro t t' _ ht'
        rw [hnoRel] at ht'
        cases ht'
    · obtain ⟨-, blob, summary, hblob, hdecode⟩ := decodePacked_ok hout'
      have hcount := (decode_streams hdecode).1
      have hskipped : out.each ++ (rest ++ rels.plt.toList).flatMap RelocationTable.each =
          ([out] ++ [out']).flatMap RelocationTable.each ++ (rest ++ rels.plt.toList).flatMap RelocationTable.each ↔
          out'.relocations = [] := by
        simp [RelocationTable.each]
      apply hskipped.trans
      constructor
      · intro hnone t₁ t₂ _ ht₂ blob₂ hblob₂
        obtain rfl : t' = t₂ := Option.some.inj (hrel.symm.trans ht₂)
        obtain rfl : blob = blob₂ := Except.ok.inj (hblob.symm.trans hblob₂)
        rw [← hcount, hnone, List.length_nil]
      · intro hone
        exact List.eq_nil_of_length_eq_zero (hcount.trans (hone t t' hrela hrel blob hblob))

/-- a blob of one relative relocation, `delta` after nought -/
def oneRelative (delta : UInt8) : Bytes := [0x41, 0x50, 0x53, 0x32, 1, 0, 1, 0, delta, 0x83, 0x08]

/-- an object with a blob under each packed tag -/
def bothPacked : Except ElfError ElfImage :=
  ElfImage.parse (oneRelative 8 ++ oneRelative 16) [⟨PT_LOAD, 4, 0, 0, 22, 22, 1⟩]
    [⟨DT_ANDROID_RELA, 0⟩, ⟨DT_ANDROID_RELASZ, 11⟩, ⟨DT_ANDROID_REL, 11⟩, ⟨DT_ANDROID_RELSZ, 11⟩]

/-- both blobs parse, and only the first one's relocation is applied -/
theorem second_blob_skipped :
    (bothPacked >>= fun elf => elf.relocations fun _ => true).toOption.map Relocations.each =
      some [(⟨8, R_AARCH64_RELATIVE, 0⟩, false), (⟨16, R_AARCH64_RELATIVE, 0⟩, true)] ∧
    (bothPacked >>= ElfImage.applied fun _ => true).toOption = some [(⟨8, R_AARCH64_RELATIVE, 0⟩, false)] := by
  with_unfolding_all decide

/-- an object with the one packed tag, the one that leaves addends at their targets -/
def onePacked : ElfImage :=
  ⟨oneRelative 8, [⟨PT_LOAD, 4, 0, 0, 11, 11, 1⟩], ⟨0, 11, 11, 11, 1, 1⟩, ⟨none, none, none, none, none, none, some ⟨0, 11, none⟩⟩⟩

def onePackedTables : Relocations :=
  ⟨[⟨"DT_ANDROID_REL", .androidPackedRel, 0, 11, [⟨8, R_AARCH64_RELATIVE, 0⟩],
    some ⟨1, 1, 11, 11, 1, 0, 0⟩⟩], none⟩

theorem relocations_streamed_one :
    ∃ applied, onePacked.applied (fun _ => true) = .ok applied ∧
      (applied = onePackedTables.each ↔ onePacked.OneStream) := by
  apply relocations_streamed (fun _ => true) onePacked onePackedTables
  have h : (onePacked.relocations fun _ => true).toOption = some onePackedTables := by with_unfolding_all decide
  cases hr : onePacked.relocations fun _ => true with
  | ok rels =>
    rw [hr] at h
    exact congrArg Except.ok (Option.some.inj h)
  | error e =>
    rw [hr] at h
    cases h

end Omnidroid.Elf
