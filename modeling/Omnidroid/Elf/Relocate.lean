/-
Applying relocations in windows (`omni-elf/src/loader/relocate.rs`): a window of an image is made writable, the relocations
that land in it are applied, and its protection is put back. What the sweep counts is left out.
- `Relocator.feed`, `applyTable`, `sweep`: one relocation, one table, and the loader's whole pass with its last `close`.
- `plain`: the same relocations one after another, every byte writable.
- `feed_ok`: one step keeps what `Kept` says of the protections, and changes the bytes as the plain step does.
- `windowed_is_plain`: a sweep whose tables have no relocation followed by one less than eight bytes below it is the plain
  one; `inverted_reordered` is a table that has, and is applied the other way round.
The host may refuse a commit or a protect (`LoadHost`).
-/
import Omnidroid.Elf.Tables
import Omnidroid.Lib.Sorting
import Omnidroid.Mm.Space
import Mathlib.Data.List.TakeWhile

namespace Omnidroid.Elf

open Mm (Protection)

/-! ## Relocations and symbols -/

def R_AARCH64_NONE : UInt64 := 0
def R_AARCH64_ABS64 : UInt64 := 257
def R_AARCH64_ABS32 : UInt64 := 258
def R_AARCH64_ABS16 : UInt64 := 259
def R_AARCH64_PREL64 : UInt64 := 260
def R_AARCH64_PREL32 : UInt64 := 261
def R_AARCH64_PREL16 : UInt64 := 262
def R_AARCH64_COPY : UInt64 := 1024
def R_AARCH64_GLOB_DAT : UInt64 := 1025
def R_AARCH64_JUMP_SLOT : UInt64 := 1026
def R_AARCH64_TLS_DTPREL64 : UInt64 := 1028
def R_AARCH64_TLS_DTPMOD64 : UInt64 := 1029
def R_AARCH64_TLS_TPREL64 : UInt64 := 1030
def R_AARCH64_TLSDESC : UInt64 := 1031
def R_AARCH64_IRELATIVE : UInt64 := 1032

def relocationNames : List (UInt64 × String) :=
  [(R_AARCH64_NONE, "R_AARCH64_NONE"), (R_AARCH64_ABS64, "R_AARCH64_ABS64"), (R_AARCH64_ABS32, "R_AARCH64_ABS32"),
    (R_AARCH64_ABS16, "R_AARCH64_ABS16"), (R_AARCH64_PREL64, "R_AARCH64_PREL64"), (R_AARCH64_PREL32, "R_AARCH64_PREL32"),
    (R_AARCH64_PREL16, "R_AARCH64_PREL16"), (R_AARCH64_COPY, "R_AARCH64_COPY"), (R_AARCH64_GLOB_DAT, "R_AARCH64_GLOB_DAT"),
    (R_AARCH64_JUMP_SLOT, "R_AARCH64_JUMP_SLOT"), (R_AARCH64_RELATIVE, "R_AARCH64_RELATIVE"),
    (R_AARCH64_TLS_DTPREL64, "R_AARCH64_TLS_DTPREL64"), (R_AARCH64_TLS_DTPMOD64, "R_AARCH64_TLS_DTPMOD64"),
    (R_AARCH64_TLS_TPREL64, "R_AARCH64_TLS_TPREL64"), (R_AARCH64_TLSDESC, "R_AARCH64_TLSDESC"),
    (R_AARCH64_IRELATIVE, "R_AARCH64_IRELATIVE")]

def typeName (ty : UInt64) : String := (relocationNames.lookup ty).getD "unknown"

inductive SymbolBinding where
  | null
  | value (v : UInt64)
  | unresolved
  | ifunc
deriving DecidableEq, Repr

def unsupported (r : Rela) : LoadError :=
  let ty := r.r_type
  .unsupportedRelocation ty (typeName ty) r.r_offset.toNat
    (if ty = R_AARCH64_IRELATIVE then
      "STT_GNU_IFUNC resolvers need the CPU backend; D9 measured that no library in the APK has one"
    else if ty ∈ [R_AARCH64_TLS_DTPREL64, R_AARCH64_TLS_DTPMOD64, R_AARCH64_TLS_TPREL64, R_AARCH64_TLSDESC] then
      "ELF thread-local storage is deliberately not implemented: the APK has no PT_TLS and no STT_TLS symbol anywhere (D9, D13)"
    else if ty = R_AARCH64_COPY then
      "R_AARCH64_COPY is an executable-only relocation and cannot appear in a shared object"
    else if ty ∈ [R_AARCH64_ABS32, R_AARCH64_ABS16, R_AARCH64_PREL64, R_AARCH64_PREL32, R_AARCH64_PREL16] then
      "a static relocation type that a dynamic linker never applies"
    else "not a dynamic relocation type this loader implements")

def storeSize (ty : UInt64) : Option ℕ :=
  if ty ∈ [R_AARCH64_RELATIVE, R_AARCH64_GLOB_DAT, R_AARCH64_JUMP_SLOT, R_AARCH64_ABS64] then some 8 else none

/-- what a relocation that stores stores -/
def relocatedValue (base : ℕ) (bindings : List SymbolBinding) (r : Rela) (addend : UInt64) : Except LoadError UInt64 :=
  let ty := r.r_type
  if ty = R_AARCH64_RELATIVE then .ok (UInt64.ofNat base + addend)
  else if ty ∈ [R_AARCH64_GLOB_DAT, R_AARCH64_JUMP_SLOT, R_AARCH64_ABS64] then
    let index := r.r_sym.toNat
    if index = 0 then .error (.relocationWithoutSymbol ty (typeName ty) r.r_offset.toNat)
    else
      match bindings[index]? with
      | some (.value v) => .ok (v + addend)
      | some .unresolved => .ok 0
      | some .ifunc => .error (.ifuncUnsupported ("symbol index " ++ toString index))
      | some .null | none => .error (.elf (.symbolIndexOutOfBounds index (bindings.length % 2 ^ 32)))
  else .error (unsupported r)

/-! ## Memory -/

/-- bytes and protections by address, and how many calls the host has had -/
structure Memory where
  bytes : ℕ → UInt8
  prot : ℕ → Protection
  turn : ℕ

/-- how the space answers, call by call -/
structure LoadHost where
  /-- the range lies in the space -/
  contains : ℕ → ℕ → Bool
  commits : ℕ → ℕ → ℕ → Bool
  /-- how much of a range a protect changes before it is refused; all of it where it is not -/
  protects : ℕ → ℕ → ℕ → Protection → ℕ

def readU64 (bytes : ℕ → UInt8) (a : ℕ) : UInt64 :=
  UInt64.ofNat (Bytes.leNat ((List.range 8).map fun i => bytes (a + i)))

def writeU64 (bytes : ℕ → UInt8) (a : ℕ) (v : UInt64) : ℕ → UInt8 := fun x =>
  if a ≤ x ∧ x < a + 8 then UInt8.ofNat (v.toNat / 256 ^ (x - a) % 256) else bytes x

/-! ## The sweep -/

/-- a mapped piece of the image as it is protected now -/
structure LiveRange where
  start : ℕ
  end_ : ℕ
  protection : Protection
  anonymous : Bool
deriving DecidableEq, Repr

structure OpenWindow where
  start : ℕ
  end_ : ℕ
  /-- none where the range was writable already -/
  restore : Option Protection
deriving DecidableEq, Repr

structure Relocator where
  base : ℕ
  /-- ascending and apart -/
  ranges : List LiveRange
  bindings : List SymbolBinding
  window : ℕ
  page : ℕ
  page_pos : 0 < page
  window_pos : 0 < window
  page_dvd : page ∣ window

structure Sweep where
  mem : Memory
  open_ : Option OpenWindow

namespace Relocator

/-- `Relocator::new`, over pages of a positive size -/
def new (base : ℕ) (ranges : List LiveRange) (bindings : List SymbolBinding) (window page : ℕ) (hpage : 0 < page) :
    Except LoadError Relocator :=
  if h : window = 0 ∨ window % page ≠ 0 then
    .error (.invalidWindow window "the relocation window must be a non-zero multiple of the page size")
  else .ok ⟨base, ranges, bindings, window, page, hpage, by omega, Nat.dvd_of_mod_eq_zero (by tauto)⟩

variable (R : Relocator) (H : LoadHost)

/-- `GuestSpace::protect`: from a page's start, in whole pages -/
def protect (start len : ℕ) (prot : Protection) : EStateM LoadError Sweep Unit := fun s =>
  let whole := roundUp R.page len
  let got := H.protects s.mem.turn start whole prot
  let changed (n : ℕ) : Sweep := { s with mem := { s.mem with
    prot := fun x => if start ≤ x ∧ x < start + n then prot else s.mem.prot x, turn := s.mem.turn + 1 } }
  if start % R.page ≠ 0 then .error (.mem "protect" start len) s
  else if whole ≤ got then .ok () (changed whole)
  else .error (.mem "protect" start len) (changed got)

/-- a window in anonymous memory is committed first -/
def ensureCommitted (range : LiveRange) (start len : ℕ) : EStateM LoadError Sweep Unit := fun s =>
  if !range.anonymous then .ok () s
  else if H.commits s.mem.turn start len then .ok () { s with mem := { s.mem with turn := s.mem.turn + 1 } }
  else .error (.mem "ensure_committed" start len) { s with mem := { s.mem with turn := s.mem.turn + 1 } }

def close : EStateM LoadError Sweep Unit := fun s =>
  match s.open_ with
  | none => .ok () s
  | some w =>
    let s := { s with open_ := none }
    match w.restore with
    | none => .ok () s
    | some restore => R.protect H w.start (w.end_ - w.start) restore s

/-- the biased target of a relocation, and its end -/
def targetRange (r : Rela) (size : ℕ) : Except LoadError (ℕ × ℕ) :=
  match checkedAdd R.base r.r_offset.toNat with
  | none => .error (.addressOverflow "relocation target" R.base r.r_offset.toNat)
  | some target =>
    match checkedAdd target size with
    | none => .error (.addressOverflow "relocation target end" R.base r.r_offset.toNat)
    | some end_ => .ok (target, end_)

/-- the range the target starts in -/
def rangeFor (target end_ : ℕ) (r : Rela) : Except LoadError LiveRange :=
  match ((R.ranges.takeWhile fun m => m.start ≤ target).getLast?).filter fun m => target < m.end_ with
  | some m => .ok m
  | none => .error (.relocationTargetUnmapped r.r_type (typeName r.r_type) r.r_offset.toNat target end_)

/-- where the window of a target starts and ends; the page's size is a power of two -/
def windowFor (range : LiveRange) (target end_ : ℕ) (r : Rela) : Except LoadError (ℕ × ℕ) :=
  let start := target / R.page * R.page
  let stop := min (saturatingAdd start R.window) range.end_
  if end_ ≤ stop then .ok (start, stop)
  else if 2 ^ 64 ≤ roundUp R.page end_ then
    .error (.addressOverflow "relocation window end" R.base r.r_offset.toNat)
  else
    let stop := min (roundUp R.page end_) range.end_
    if stop < end_ then
      .error (.relocationTargetSpansRanges r.r_type r.r_offset.toNat target end_ range.end_)
    else .ok (start, stop)

def raise {α : Type} (x : Except LoadError α) : EStateM LoadError Sweep α := fun s =>
  match x with
  | .ok a => .ok a s
  | .error e => .error e s

/-- the window made writable, where the range is not: what its close will put back -/
def makeWritable (range : LiveRange) (start len : ℕ) : EStateM LoadError Sweep (Option Protection) :=
  if range.protection.isWritable then pure none
  else do
    R.protect H start len .readWrite
    pure (some range.protection)

def openWindow (r : Rela) (target end_ : ℕ) : EStateM LoadError Sweep Unit := do
  let range ← raise (R.rangeFor target end_ r)
  let (start, stop) ← raise (R.windowFor range target end_ r)
  ensureCommitted H range start (stop - start)
  let restore ← R.makeWritable H range start (stop - start)
  modify fun s => { s with open_ := some ⟨start, stop, restore⟩ }

/-- the window that is open has the target, or a new one is opened -/
def reach (r : Rela) (target end_ : ℕ) : EStateM LoadError Sweep Unit := fun s =>
  if s.open_.any fun w => decide (w.start ≤ target ∧ end_ ≤ w.end_) then .ok () s
  else (do R.close H; R.openWindow H r target end_ : EStateM LoadError Sweep Unit) s

def applyOne (r : Rela) (target size : ℕ) (implicit : Bool) : EStateM LoadError Sweep Unit := fun s =>
  if !H.contains target size then .error (.mem "ptr" target size) s
  else if implicit && !(List.range 8).all fun i => (s.mem.prot (target + i)).isReadable then .error (.fault target) s
  else
    let addend := if implicit then readU64 s.mem.bytes target else r.r_addend.toUInt64
    match relocatedValue R.base R.bindings r addend with
    | .error e => .error e s
    | .ok value =>
      if !(List.range 8).all fun i => (s.mem.prot (target + i)).isWritable then .error (.fault target) s
      else .ok () { s with mem := { s.mem with bytes := writeU64 s.mem.bytes target value } }

def feed (r : Rela) (implicit : Bool) : EStateM LoadError Sweep Unit :=
  match storeSize r.r_type with
  | none => if r.r_type = R_AARCH64_NONE then pure () else throw (unsupported r)
  | some size => do
    let (target, end_) ← raise (R.targetRange r size)
    R.reach H r target end_
    R.applyOne H r target size implicit

/-- relocations fed one after another -/
def feedAll (implicit : Bool) : List Rela → EStateM LoadError Sweep Unit
  | [] => pure ()
  | r :: rs => do
    R.feed H r implicit
    feedAll implicit rs

/-- `sort_by_key` on the target, stable -/
def sorted (rs : List Rela) : List Rela := rs.insertionSort fun r r' => r.r_offset.toNat ≤ r'.r_offset.toNat

def applyTable (t : RelocationTable) : EStateM LoadError Sweep Unit := do
  R.feedAll H t.implicitAddend (sorted t.relocations)
  R.close H

/-- one part of the loader's pass: what a decoder streams, with its own error after it if it fails, or a table -/
inductive Pass where
  | stream (relocations : List Rela) (implicit : Bool) (fails : Option ElfError)
  | table (t : RelocationTable)

def apply : Pass → EStateM LoadError Sweep Unit
  | .stream rs implicit fails => do
    R.feedAll H implicit rs
    match fails with
    | some e => throw (.elf e)
    | none => R.close H
  | .table t => R.applyTable H t

def applyAll : List Pass → EStateM LoadError Sweep Unit
  | [] => pure ()
  | p :: ps => do
    R.apply H p
    applyAll ps

/-- the loader's pass: the open window is closed on the way out, whatever happened -/
def sweep (passes : List Pass) : EStateM LoadError Sweep Unit := fun s =>
  match R.applyAll H passes s with
  | .ok () s => R.close H s
  | .error e s =>
    match R.close H s with
    | .ok () s => .error e s
    | .error _ s => .error e s

end Relocator

/-! ## Plain relocation -/

/-- one relocation, everything writable -/
def plainOne (base : ℕ) (bindings : List SymbolBinding) (bytes : ℕ → UInt8) : Rela × Bool → Option (ℕ → UInt8)
  | (r, implicit) =>
    if r.r_type = R_AARCH64_NONE then some bytes
    else
      let target := base + r.r_offset.toNat
      let addend := if implicit then readU64 bytes target else r.r_addend.toUInt64
      match relocatedValue base bindings r addend with
      | .ok value => some (writeU64 bytes target value)
      | .error _ => none

/-- one after another -/
def plain (base : ℕ) (bindings : List SymbolBinding) (rs : List (Rela × Bool)) (bytes : ℕ → UInt8) :
    Option (ℕ → UInt8) :=
  rs.foldlM (plainOne base bindings) bytes

/-- the relocations of a pass, in the order of the file -/
def Relocator.Pass.each : Relocator.Pass → List (Rela × Bool)
  | .stream rs implicit _ => rs.map fun r => (r, implicit)
  | .table t => t.each

/-! ## One relocation -/

theorem plain_cons {base : ℕ} {bindings : List SymbolBinding} {p : Rela × Bool} {ps : List (Rela × Bool)}
    {bytes bytes₁ : ℕ → UInt8} (h : plainOne base bindings bytes p = some bytes₁) :
    plain base bindings (p :: ps) bytes = plain base bindings ps bytes₁ := by
  rw [plain, List.foldlM_cons, h]
  rfl

theorem plain_append {base : ℕ} {bindings : List SymbolBinding} {ps qs : List (Rela × Bool)} {bytes bytes₁ : ℕ → UInt8}
    (h : plain base bindings ps bytes = some bytes₁) :
    plain base bindings (ps ++ qs) bytes = plain base bindings qs bytes₁ := by
  rw [plain, List.foldlM_append]
  rw [plain] at h
  rw [h]
  rfl

/-- the host carries out a protect whole; one that makes pages writable it may also refuse whole -/
def LoadHost.Atomic (H : LoadHost) : Prop :=
  ∀ turn start len prot, len ≤ H.protects turn start len prot ∨ prot = .readWrite ∧ H.protects turn start len prot = 0

namespace Relocator

variable {R : Relocator} {H : LoadHost} {s s' : Sweep} {prot₀ : ℕ → Protection}

/-- the ranges are whole pages of the address space, each protected as it says -/
structure Live (R : Relocator) (prot : ℕ → Protection) : Prop where
  aligned : ∀ m ∈ R.ranges, R.page ∣ m.start ∧ R.page ∣ m.end_
  bounded : ∀ m ∈ R.ranges, m.end_ < 2 ^ 64
  shown : ∀ m ∈ R.ranges, ∀ x, m.start ≤ x → x < m.end_ → prot x = m.protection

/-- in a window -/
def OpenWindow.has (w : OpenWindow) (x : ℕ) : Prop := w.start ≤ x ∧ x < w.end_

instance (w : OpenWindow) (x : ℕ) : Decidable (OpenWindow.has w x) := inferInstanceAs (Decidable (_ ∧ _))

/-- an open window that will be put back as it was: it lies in pages that were all writable, or all protected as its
`restore` says -/
structure Held (R : Relocator) (prot₀ : ℕ → Protection) (prot : ℕ → Protection) (w : OpenWindow) : Prop where
  start_dvd : R.page ∣ w.start
  end_dvd : R.page ∣ w.end_
  le : w.start ≤ w.end_
  back : match w.restore with
    | none => prot = prot₀ ∧ ∀ x, OpenWindow.has w x → (prot₀ x).isWritable = true
    | some p => p ≠ .readWrite ∧ (∀ x, OpenWindow.has w x → prot₀ x = p) ∧
        ∀ x, prot x = if OpenWindow.has w x then .readWrite else prot₀ x

/-- the protections are `prot₀`, but for the open window's -/
def Kept (R : Relocator) (prot₀ : ℕ → Protection) (s : Sweep) : Prop :=
  match s.open_ with
  | none => s.mem.prot = prot₀
  | some w => R.Held prot₀ s.mem.prot w

theorem Held.writable {prot : ℕ → Protection} {w : OpenWindow} (h : R.Held prot₀ prot w) {x : ℕ} (hx : OpenWindow.has w x) :
    (prot x).isWritable = true := by
  have hback := h.back
  cases hr : w.restore with
  | none =>
    rw [hr] at hback
    rw [hback.1]
    exact hback.2 x hx
  | some p =>
    rw [hr] at hback
    rw [hback.2.2 x, if_pos hx]
    rfl

theorem protect_spec (hH : H.Atomic) {start len : ℕ} (prot : Protection) (hs : R.page ∣ start) (hl : R.page ∣ len) :
    match R.protect H start len prot s with
    | .ok () s' => s'.open_ = s.open_ ∧ s'.mem.bytes = s.mem.bytes ∧
        ∀ x, s'.mem.prot x = if start ≤ x ∧ x < start + len then prot else s.mem.prot x
    | .error e s' => prot = .readWrite ∧ e = .mem "protect" start len ∧ s'.open_ = s.open_ ∧
        s'.mem.bytes = s.mem.bytes ∧ s'.mem.prot = s.mem.prot := by
  have hwhole : roundUp R.page len = len := roundUp_of_dvd R.page_pos hl
  simp only [protect, Nat.mod_eq_zero_of_dvd hs, hwhole, ne_eq, not_true_eq_false, if_false]
  rcases hH s.mem.turn start len prot with h | ⟨rfl, h⟩
  · rw [if_pos h]
    exact ⟨rfl, rfl, fun x => rfl⟩
  · rcases Nat.eq_zero_or_pos len with hzero | hpos
    · rw [if_pos (by omega)]
      exact ⟨rfl, rfl, fun x => rfl⟩
    · rw [if_neg (by omega)]
      refine ⟨rfl, rfl, rfl, rfl, ?_⟩
      funext x
      rw [h]
      apply if_neg
      omega

theorem close_spec (hH : H.Atomic) (h : R.Kept prot₀ s) :
    ∃ s', R.close H s = .ok () s' ∧ s'.open_ = none ∧ s'.mem.prot = prot₀ ∧ s'.mem.bytes = s.mem.bytes := by
  rw [close]
  cases ho : s.open_ with
  | none =>
    rw [Kept, ho] at h
    exact ⟨s, rfl, ho, h, rfl⟩
  | some w =>
    rw [Kept, ho] at h
    have hback := h.back
    cases hr : w.restore with
    | none =>
      rw [hr] at hback
      simp only [hr]
      exact ⟨_, rfl, rfl, hback.1, rfl⟩
    | some p =>
      rw [hr] at hback
      obtain ⟨hp, hwas, hnow⟩ := hback
      simp only [hr]
      have hlen : R.page ∣ w.end_ - w.start := Nat.dvd_sub h.end_dvd h.start_dvd
      have hspec := protect_spec (s := { s with open_ := none }) hH p h.start_dvd hlen
      cases hrun : R.protect H w.start (w.end_ - w.start) p { s with open_ := none } with
      | error e s' =>
        rw [hrun] at hspec
        exact absurd hspec.1 hp
      | ok u s' =>
        rw [hrun] at hspec
        obtain ⟨hopen, hbytes, hprot⟩ := hspec
        refine ⟨s', rfl, hopen, ?_, hbytes⟩
        funext x
        rw [hprot x, hnow x]
        have hle := h.le
        by_cases hx : OpenWindow.has w x
        · rw [if_pos hx, hwas x hx]
          apply if_pos
          unfold OpenWindow.has at hx
          omega
        · rw [if_neg hx]
          apply if_neg
          unfold OpenWindow.has at hx
          omega

theorem rangeFor_ok {target end_ : ℕ} {r : Rela} {m : LiveRange} (h : R.rangeFor target end_ r = .ok m) :
    m ∈ R.ranges ∧ m.start ≤ target ∧ target < m.end_ := by
  simp only [rangeFor] at h
  split at h
  case h_1 m' hm =>
    cases h
    obtain ⟨hlast, hlt⟩ := Option.filter_eq_some_iff.mp hm
    have hmem := List.mem_of_getLast? hlast
    have hle := List.mem_takeWhile_imp hmem
    refine ⟨(List.takeWhile_sublist _).subset hmem, ?_, ?_⟩
    · simpa using hle
    · simpa using hlt
  case h_2 => cases h

theorem windowFor_ok {m : LiveRange} {target end_ a b : ℕ} {r : Rela} (hm : R.page ∣ m.start ∧ R.page ∣ m.end_)
    (hbound : m.end_ < 2 ^ 64) (hin : m.start ≤ target) (h : R.windowFor m target end_ r = .ok (a, b)) :
    R.page ∣ a ∧ R.page ∣ b ∧ m.start ≤ a ∧ a ≤ target ∧ end_ ≤ b ∧ b ≤ m.end_ := by
  have hstart : R.page ∣ target / R.page * R.page := Dvd.intro_left _ rfl
  have hle : target / R.page * R.page ≤ target := Nat.div_mul_le_self _ _
  have hfrom : m.start ≤ target / R.page * R.page := by
    obtain ⟨k, hk⟩ := hm.1
    rw [hk, Nat.mul_comm]
    apply Nat.mul_le_mul_right
    rw [Nat.le_div_iff_mul_le R.page_pos, Nat.mul_comm, ← hk]
    exact hin
  simp only [windowFor] at h
  split at h
  case isTrue hend =>
    cases h
    refine ⟨hstart, ?_, hfrom, hle, hend, Nat.min_le_right _ _⟩
    rcases Nat.lt_or_ge (target / R.page * R.page + R.window) m.end_ with hlt | hge
    · have hsum : min (saturatingAdd (target / R.page * R.page) R.window) m.end_ = target / R.page * R.page + R.window := by
        unfold saturatingAdd
        omega
      rw [hsum]
      exact Nat.dvd_add hstart R.page_dvd
    · have hsum : min (saturatingAdd (target / R.page * R.page) R.window) m.end_ = m.end_ := by
        unfold saturatingAdd
        omega
      rw [hsum]
      exact hm.2
  case isFalse hend =>
    split at h
    · cases h
    split at h
    · cases h
    case isFalse hspan =>
      cases h
      refine ⟨hstart, ?_, hfrom, hle, by omega, Nat.min_le_right _ _⟩
      rcases Nat.le_total (roundUp R.page end_) m.end_ with hlt | hge
      · rw [Nat.min_eq_left hlt]
        exact dvd_roundUp _ _
      · rw [Nat.min_eq_right hge]
        exact hm.2

/-- an error the loader reports, not an access that stops it -/
def Reported (e : LoadError) : Prop := ∀ a, e ≠ .fault a

theorem rangeFor_error {target end_ : ℕ} {r : Rela} {e : LoadError} (h : R.rangeFor target end_ r = .error e) :
    Reported e := by
  simp only [rangeFor] at h
  split at h <;> cases h
  intro a ha
  cases ha

theorem windowFor_error {m : LiveRange} {target end_ : ℕ} {r : Rela} {e : LoadError}
    (h : R.windowFor m target end_ r = .error e) : Reported e := by
  simp only [windowFor] at h
  split at h
  · cases h
  split at h
  · cases h
    intro a ha
    cases ha
  split at h
  · cases h
    intro a ha
    cases ha
  · cases h

theorem raise_ok {α : Type} {x : Except LoadError α} {a : α} (h : raise x s = .ok a s') : x = .ok a ∧ s = s' := by
  cases x with
  | ok b =>
    cases h
    exact ⟨rfl, rfl⟩
  | error e => cases h

theorem raise_error {α : Type} {x : Except LoadError α} {e : LoadError} (h : raise x s = .error e s') :
    x = .error e ∧ s = s' := by
  cases x with
  | ok b => cases h
  | error e =>
    cases h
    exact ⟨rfl, rfl⟩

/-- only the host's count of calls has moved -/
def Idle (s s' : Sweep) : Prop := s'.open_ = s.open_ ∧ s'.mem.bytes = s.mem.bytes ∧ s'.mem.prot = s.mem.prot

theorem ensureCommitted_ok {m : LiveRange} {a n : ℕ} (h : ensureCommitted H m a n s = .ok () s') : Idle s s' := by
  simp only [ensureCommitted] at h
  split at h
  · cases h
    exact ⟨rfl, rfl, rfl⟩
  split at h
  · cases h
    exact ⟨rfl, rfl, rfl⟩
  · cases h

theorem ensureCommitted_error {m : LiveRange} {a n : ℕ} {e : LoadError} (h : ensureCommitted H m a n s = .error e s') :
    Idle s s' ∧ Reported e := by
  simp only [ensureCommitted] at h
  split at h
  · cases h
  split at h
  · cases h
  · cases h
    refine ⟨⟨rfl, rfl, rfl⟩, ?_⟩
    intro a ha
    cases ha

/-- the window of a range, once it is writable -/
theorem makeWritable_ok (hH : H.Atomic) {m : LiveRange} {a b : ℕ} {restore : Option Protection} (ha : R.page ∣ a)
    (hb : R.page ∣ b) (hab : a ≤ b) (hshown : ∀ x, a ≤ x → x < b → prot₀ x = m.protection) (hp : s.mem.prot = prot₀)
    (h : R.makeWritable H m a (b - a) s = .ok restore s') :
    s'.mem.bytes = s.mem.bytes ∧ R.Held prot₀ s'.mem.prot ⟨a, b, restore⟩ := by
  rw [makeWritable] at h
  split at h
  case isTrue hw =>
    obtain ⟨rfl, rfl⟩ := pure_ok.mp h
    refine ⟨rfl, ha, hb, hab, hp, ?_⟩
    rintro x ⟨hx, hx'⟩
    rw [hshown x hx hx']
    exact hw
  case isFalse hw =>
    obtain ⟨_, s₁, hrun, h⟩ := bind_ok.mp h
    obtain ⟨rfl, rfl⟩ := pure_ok.mp h
    have hspec := protect_spec (s := s) hH .readWrite ha (Nat.dvd_sub hb ha)
    rw [hrun] at hspec
    obtain ⟨-, hbytes, hprot⟩ := hspec
    refine ⟨hbytes, ha, hb, hab, ?_, ?_, ?_⟩
    · rintro hrw
      rw [hrw] at hw
      exact hw rfl
    · rintro x ⟨hx, hx'⟩
      exact hshown x hx hx'
    · intro x
      rw [hprot x, hp]
      have hiff : OpenWindow.has ⟨a, b, some m.protection⟩ x ↔ a ≤ x ∧ x < a + (b - a) := by
        simp only [OpenWindow.has]
        omega
      simp only [hiff]

theorem makeWritable_error (hH : H.Atomic) {m : LiveRange} {a n : ℕ} {e : LoadError} (ha : R.page ∣ a) (hn : R.page ∣ n)
    (h : R.makeWritable H m a n s = .error e s') : Idle s s' ∧ Reported e := by
  rw [makeWritable] at h
  split at h
  case isTrue => exact absurd h pure_error
  case isFalse =>
    rcases bind_error.mp h with h | ⟨_, s₁, -, h⟩
    · have hspec := protect_spec (s := s) hH .readWrite ha hn
      rw [h] at hspec
      obtain ⟨-, rfl, hidle⟩ := hspec
      refine ⟨hidle, ?_⟩
      intro a ha
      cases ha
    · exact absurd h pure_error

theorem openWindow_ok (hH : H.Atomic) (hlive : R.Live prot₀) {r : Rela} {target end_ : ℕ} (hp : s.mem.prot = prot₀)
    (ht : target ≤ end_) (h : R.openWindow H r target end_ s = .ok () s') :
    R.Kept prot₀ s' ∧ s'.mem.bytes = s.mem.bytes ∧ ∃ w, s'.open_ = some w ∧ w.start ≤ target ∧ end_ ≤ w.end_ := by
  obtain ⟨m, s₁, hrun, h⟩ := bind_ok.mp h
  obtain ⟨hrange, rfl⟩ := raise_ok hrun
  obtain ⟨⟨a, b⟩, s₁, hrun', h⟩ := bind_ok.mp h
  obtain ⟨hwindow, rfl⟩ := raise_ok hrun'
  obtain ⟨hm, hfrom, hto⟩ := rangeFor_ok hrange
  obtain ⟨ha, hb, hma, hat, heb, hbm⟩ := windowFor_ok (hlive.aligned m hm) (hlive.bounded m hm) hfrom hwindow
  obtain ⟨_, s₁, hcommit, h⟩ := bind_ok.mp h
  obtain ⟨-, hbytes, hprot⟩ := ensureCommitted_ok hcommit
  obtain ⟨restore, s₂, hraise, h⟩ := bind_ok.mp h
  have hshown : ∀ x, a ≤ x → x < b → prot₀ x = m.protection := by
    intro x hx hx'
    exact hlive.shown m hm x (hma.trans hx) (lt_of_lt_of_le hx' hbm)
  obtain ⟨hbytes₂, hheld⟩ := makeWritable_ok hH ha hb (hat.trans (ht.trans heb)) hshown (hprot.trans hp) hraise
  cases h
  exact ⟨hheld, hbytes₂.trans hbytes, _, rfl, hat, heb⟩

theorem openWindow_error (hH : H.Atomic) (hlive : R.Live prot₀) {r : Rela} {target end_ : ℕ} {e : LoadError}
    (ho : s.open_ = none) (hp : s.mem.prot = prot₀) (h : R.openWindow H r target end_ s = .error e s') :
    R.Kept prot₀ s' ∧ s'.mem.bytes = s.mem.bytes ∧ Reported e := by
  have hidle : ∀ {t : Sweep}, Idle s t → R.Kept prot₀ t ∧ t.mem.bytes = s.mem.bytes := by
    rintro t ⟨hopen, hbytes, hprot⟩
    rw [Kept, hopen, ho]
    exact ⟨hprot.trans hp, hbytes⟩
  rcases bind_error.mp h with h | ⟨m, s₁, hrun, h⟩
  · obtain ⟨hrange, rfl⟩ := raise_error h
    exact ⟨(hidle ⟨rfl, rfl, rfl⟩).1, rfl, rangeFor_error hrange⟩
  obtain ⟨hrange, rfl⟩ := raise_ok hrun
  rcases bind_error.mp h with h | ⟨⟨a, b⟩, s₁, hrun', h⟩
  · obtain ⟨hwindow, rfl⟩ := raise_error h
    exact ⟨(hidle ⟨rfl, rfl, rfl⟩).1, rfl, windowFor_error hwindow⟩
  obtain ⟨hwindow, rfl⟩ := raise_ok hrun'
  obtain ⟨hm, hfrom, hto⟩ := rangeFor_ok hrange
  obtain ⟨ha, hb, -⟩ := windowFor_ok (hlive.aligned m hm) (hlive.bounded m hm) hfrom hwindow
  rcases bind_error.mp h with h | ⟨_, s₁, hcommit, h⟩
  · obtain ⟨hi, hrep⟩ := ensureCommitted_error h
    exact ⟨(hidle hi).1, (hidle hi).2, hrep⟩
  obtain ⟨hopen, hbytes, hprot⟩ := ensureCommitted_ok hcommit
  rcases bind_error.mp h with h | ⟨restore, s₂, -, h⟩
  · obtain ⟨⟨hopen', hbytes', hprot'⟩, hrep⟩ := makeWritable_error hH ha (Nat.dvd_sub hb ha) h
    have hi := hidle ⟨hopen'.trans hopen, hbytes'.trans hbytes, hprot'.trans hprot⟩
    exact ⟨hi.1, hi.2, hrep⟩
  · cases h

/-- the open window covers the range -/
def Covers (s : Sweep) (target end_ : ℕ) : Prop := ∃ w, s.open_ = some w ∧ w.start ≤ target ∧ end_ ≤ w.end_

theorem reach_ok (hH : H.Atomic) (hlive : R.Live prot₀) {r : Rela} {target end_ : ℕ} (hk : R.Kept prot₀ s)
    (ht : target ≤ end_) (h : R.reach H r target end_ s = .ok () s') :
    R.Kept prot₀ s' ∧ s'.mem.bytes = s.mem.bytes ∧ Covers s' target end_ := by
  rw [reach] at h
  split at h
  case isTrue hin =>
    cases h
    obtain ⟨w, ho, hw⟩ := Option.any_eq_true _ _ |>.mp hin
    exact ⟨hk, rfl, w, ho, of_decide_eq_true hw⟩
  case isFalse =>
    obtain ⟨_, s₁, hrun, h⟩ := bind_ok.mp h
    obtain ⟨s₂, hclose, ho, hp, hbytes⟩ := close_spec hH hk
    obtain rfl : s₂ = s₁ := by simpa [hclose] using hrun
    obtain ⟨hk', hbytes', hcovers⟩ := openWindow_ok hH hlive hp ht h
    exact ⟨hk', hbytes'.trans hbytes, hcovers⟩

theorem reach_error (hH : H.Atomic) (hlive : R.Live prot₀) {r : Rela} {target end_ : ℕ} {e : LoadError}
    (hk : R.Kept prot₀ s) (h : R.reach H r target end_ s = .error e s') :
    R.Kept prot₀ s' ∧ s'.mem.bytes = s.mem.bytes ∧ Reported e := by
  rw [reach] at h
  split at h
  case isTrue => cases h
  case isFalse =>
    obtain ⟨s₂, hclose, ho, hp, hbytes⟩ := close_spec hH hk
    rcases bind_error.mp h with h | ⟨_, s₁, hrun, h⟩
    · rw [hclose] at h
      cases h
    · obtain rfl : s₂ = s₁ := by simpa [hclose] using hrun
      obtain ⟨hk', hbytes', hrep⟩ := openWindow_error hH hlive ho hp h
      exact ⟨hk', hbytes'.trans hbytes, hrep⟩

theorem relocatedValue_error {base : ℕ} {bindings : List SymbolBinding} {r : Rela} {addend : UInt64} {e : LoadError}
    (h : relocatedValue base bindings r addend = .error e) : Reported e := by
  simp only [relocatedValue] at h
  repeat' split at h
  all_goals cases h
  all_goals
    intro a ha
    cases ha

theorem isReadable_of_isWritable {p : Protection} (h : p.isWritable = true) : p.isReadable = true := by
  cases p <;> first | rfl | cases h

theorem applyOne_ok {r : Rela} {size : ℕ} {implicit : Bool} (hty : r.r_type ≠ R_AARCH64_NONE) (hk : R.Kept prot₀ s)
    (h : R.applyOne H r (R.base + r.r_offset.toNat) size implicit s = .ok () s') :
    R.Kept prot₀ s' ∧ plainOne R.base R.bindings s.mem.bytes (r, implicit) = some s'.mem.bytes := by
  simp only [applyOne] at h
  split at h
  · cases h
  split at h
  · cases h
  split at h
  · cases h
  case h_2 value hvalue =>
    split at h
    · cases h
    · cases h
      refine ⟨hk, ?_⟩
      simp only [plainOne, if_neg hty, hvalue]

theorem applyOne_error {r : Rela} {target : ℕ} {implicit : Bool} {e : LoadError} (hk : R.Kept prot₀ s)
    (hc : Covers s target (target + 8)) (h : R.applyOne H r target 8 implicit s = .error e s') :
    s' = s ∧ Reported e := by
  obtain ⟨w, ho, hw, hw'⟩ := hc
  rw [Kept, ho] at hk
  have hwritable : ((List.range 8).all fun i => (s.mem.prot (target + i)).isWritable) = true := by
    rw [List.all_eq_true]
    intro i hi
    have hi := List.mem_range.mp hi
    apply hk.writable
    constructor <;> omega
  have hreadable : ((List.range 8).all fun i => (s.mem.prot (target + i)).isReadable) = true := by
    rw [List.all_eq_true] at hwritable ⊢
    intro i hi
    exact isReadable_of_isWritable (hwritable i hi)
  simp only [applyOne, hwritable, hreadable, Bool.not_true, Bool.and_false, Bool.false_eq_true, if_false] at h
  split at h
  · cases h
    refine ⟨rfl, ?_⟩
    intro a ha
    cases ha
  split at h
  case h_1 e' he =>
    cases h
    exact ⟨rfl, relocatedValue_error he⟩
  case h_2 => cases h

theorem storeSize_some {ty : UInt64} {size : ℕ} (h : storeSize ty = some size) : size = 8 ∧ ty ≠ R_AARCH64_NONE := by
  rw [storeSize] at h
  split at h
  case isTrue hmem =>
    cases h
    refine ⟨rfl, ?_⟩
    rintro rfl
    exact absurd hmem (by decide)
  case isFalse => cases h

theorem targetRange_ok {r : Rela} {size target end_ : ℕ} (h : R.targetRange r size = .ok (target, end_)) :
    target = R.base + r.r_offset.toNat ∧ end_ = target + size := by
  simp only [targetRange, checkedAdd] at h
  split at h
  · cases h
  case h_2 t ht =>
    split at ht
    case isFalse => cases ht
    cases ht
    split at h
    · cases h
    case h_2 e he =>
      split at he
      case isFalse => cases he
      cases he
      cases h
      exact ⟨rfl, rfl⟩

theorem targetRange_error {r : Rela} {size : ℕ} {e : LoadError} (h : R.targetRange r size = .error e) : Reported e := by
  simp only [targetRange] at h
  repeat' split at h
  all_goals cases h
  all_goals
    intro a ha
    cases ha

/-- a relocation fed is the relocation made, and the protections are kept -/
theorem feed_ok (hH : H.Atomic) (hlive : R.Live prot₀) {r : Rela} {implicit : Bool} (hk : R.Kept prot₀ s)
    (h : R.feed H r implicit s = .ok () s') :
    R.Kept prot₀ s' ∧ plainOne R.base R.bindings s.mem.bytes (r, implicit) = some s'.mem.bytes := by
  rw [feed] at h
  cases hsize : storeSize r.r_type with
  | none =>
    rw [hsize] at h
    simp only at h
    split at h
    case isTrue hnone =>
      obtain ⟨-, rfl⟩ := pure_ok.mp h
      exact ⟨hk, by rw [plainOne, if_pos hnone]⟩
    case isFalse => exact absurd h throw_ok
  | some size =>
    rw [hsize] at h
    obtain ⟨rfl, hty⟩ := storeSize_some hsize
    obtain ⟨⟨target, end_⟩, s₁, hrun, h⟩ := bind_ok.mp h
    obtain ⟨htarget, rfl⟩ := raise_ok hrun
    obtain ⟨rfl, rfl⟩ := targetRange_ok htarget
    obtain ⟨_, s₁, hreach, h⟩ := bind_ok.mp h
    obtain ⟨hk₁, hbytes, -⟩ := reach_ok hH hlive hk (Nat.le_add_right _ _) hreach
    rw [← hbytes]
    exact applyOne_ok hty hk₁ h

theorem feed_error (hH : H.Atomic) (hlive : R.Live prot₀) {r : Rela} {implicit : Bool} {e : LoadError}
    (hk : R.Kept prot₀ s) (h : R.feed H r implicit s = .error e s') :
    R.Kept prot₀ s' ∧ s'.mem.bytes = s.mem.bytes ∧ Reported e := by
  rw [feed] at h
  cases hsize : storeSize r.r_type with
  | none =>
    rw [hsize] at h
    simp only at h
    split at h
    case isTrue => exact absurd h pure_error
    case isFalse =>
      cases h
      refine ⟨hk, rfl, ?_⟩
      intro a ha
      cases ha
  | some size =>
    rw [hsize] at h
    obtain ⟨rfl, -⟩ := storeSize_some hsize
    rcases bind_error.mp h with h | ⟨⟨target, end_⟩, s₁, hrun, h⟩
    · obtain ⟨htarget, rfl⟩ := raise_error h
      exact ⟨hk, rfl, targetRange_error htarget⟩
    obtain ⟨htarget, rfl⟩ := raise_ok hrun
    obtain ⟨rfl, rfl⟩ := targetRange_ok htarget
    rcases bind_error.mp h with h | ⟨_, s₁, hreach, h⟩
    · exact reach_error hH hlive hk h
    obtain ⟨hk₁, hbytes, hcovers⟩ := reach_ok hH hlive hk (Nat.le_add_right _ _) hreach
    obtain ⟨rfl, hrep⟩ := applyOne_error hk₁ hcovers h
    exact ⟨hk₁, hbytes, hrep⟩

/-! ## A sweep -/

/-- from `s` to `s'` the plain relocations `ps` were made, and the protections are kept -/
def Made (R : Relocator) (prot₀ : ℕ → Protection) (ps : List (Rela × Bool)) (s s' : Sweep) : Prop :=
  R.Kept prot₀ s' ∧ plain R.base R.bindings ps s.mem.bytes = some s'.mem.bytes

theorem Made.append {s₁ : Sweep} {ps qs : List (Rela × Bool)} (h : R.Made prot₀ ps s s₁) (h' : R.Made prot₀ qs s₁ s') :
    R.Made prot₀ (ps ++ qs) s s' :=
  ⟨h'.1, by rw [plain_append h.2, h'.2]⟩

theorem feedAll_ok (hH : H.Atomic) (hlive : R.Live prot₀) {rs : List Rela} {implicit : Bool} (hk : R.Kept prot₀ s)
    (h : R.feedAll H implicit rs s = .ok () s') : R.Made prot₀ (rs.map fun r => (r, implicit)) s s' := by
  induction rs generalizing s with
  | nil =>
    obtain ⟨-, rfl⟩ := pure_ok.mp h
    exact ⟨hk, rfl⟩
  | cons r rs ih =>
    obtain ⟨_, s₁, hfeed, h⟩ := bind_ok.mp h
    obtain ⟨hk₁, hone⟩ := feed_ok hH hlive hk hfeed
    obtain ⟨hk', hrest⟩ := ih hk₁ h
    exact ⟨hk', by rw [List.map_cons, plain_cons hone, hrest]⟩

theorem feedAll_error (hH : H.Atomic) (hlive : R.Live prot₀) {rs : List Rela} {implicit : Bool} {e : LoadError}
    (hk : R.Kept prot₀ s) (h : R.feedAll H implicit rs s = .error e s') :
    Reported e ∧ ∃ ps ⊆ rs.map fun r => (r, implicit), R.Made prot₀ ps s s' := by
  induction rs generalizing s with
  | nil => exact absurd h pure_error
  | cons r rs ih =>
    rcases bind_error.mp h with h | ⟨_, s₁, hfeed, h⟩
    · obtain ⟨hk', hbytes, hrep⟩ := feed_error hH hlive hk h
      exact ⟨hrep, [], List.nil_subset _, hk', congrArg some hbytes.symm⟩
    · obtain ⟨hk₁, hone⟩ := feed_ok hH hlive hk hfeed
      obtain ⟨hrep, ps, hsub, hk', hmade⟩ := ih hk₁ h
      exact ⟨hrep, _ :: ps, List.cons_subset_cons _ hsub, hk', by rw [plain_cons hone, hmade]⟩

/-- the relocations of a pass in the order they are fed -/
def Pass.fed : Pass → List (Rela × Bool)
  | .stream rs implicit _ => rs.map fun r => (r, implicit)
  | .table t => (sorted t.relocations).map fun r => (r, t.implicitAddend)

theorem Pass.fed_subset (p : Pass) : p.fed ⊆ p.each := by
  cases p with
  | stream rs implicit fails => exact List.Subset.refl _
  | table t => exact List.map_subset _ (List.perm_insertionSort _ _).subset

theorem apply_ok (hH : H.Atomic) (hlive : R.Live prot₀) {p : Pass} (hk : R.Kept prot₀ s) (h : R.apply H p s = .ok () s') :
    R.Made prot₀ p.fed s s' := by
  have hclosed : ∀ {ps s₁}, R.Made prot₀ ps s s₁ → R.close H s₁ = .ok () s' → R.Made prot₀ ps s s' := by
    intro ps s₁ hmade hclose
    obtain ⟨s₂, hrun, ho, hp, hbytes⟩ := close_spec hH hmade.1
    obtain rfl : s₂ = s' := by simpa [hrun] using hclose
    exact ⟨by rwa [Kept, ho], by rw [hbytes]; exact hmade.2⟩
  cases p with
  | stream rs implicit fails =>
    obtain ⟨_, s₁, hfeed, h⟩ := bind_ok.mp h
    have hmade := feedAll_ok hH hlive hk hfeed
    cases fails with
    | some e => exact absurd h throw_ok
    | none => exact hclosed hmade h
  | table t =>
    obtain ⟨_, s₁, hfeed, h⟩ := bind_ok.mp h
    exact hclosed (feedAll_ok hH hlive hk hfeed) h

theorem apply_error (hH : H.Atomic) (hlive : R.Live prot₀) {p : Pass} {e : LoadError} (hk : R.Kept prot₀ s)
    (h : R.apply H p s = .error e s') : Reported e ∧ ∃ ps ⊆ p.each, R.Made prot₀ ps s s' := by
  have hclosed : ∀ {s₁}, R.Kept prot₀ s₁ → R.close H s₁ = .error e s' → False := by
    intro s₁ hk₁ hclose
    obtain ⟨s₂, hrun, -⟩ := close_spec hH hk₁
    rw [hrun] at hclose
    cases hclose
  cases p with
  | stream rs implicit fails =>
    rcases bind_error.mp h with h | ⟨_, s₁, hfeed, h⟩
    · exact feedAll_error hH hlive hk h
    have hmade := feedAll_ok hH hlive hk hfeed
    cases fails with
    | some e' =>
      cases h
      refine ⟨?_, _, List.Subset.refl _, hmade⟩
      intro a ha
      cases ha
    | none => exact absurd h (hclosed hmade.1)
  | table t =>
    rcases bind_error.mp h with h | ⟨_, s₁, hfeed, h⟩
    · obtain ⟨hrep, ps, hsub, hmade⟩ := feedAll_error hH hlive hk h
      exact ⟨hrep, ps, List.Subset.trans hsub (Pass.fed_subset (.table t)), hmade⟩
    · exact absurd h (hclosed (feedAll_ok hH hlive hk hfeed).1)

theorem applyAll_ok (hH : H.Atomic) (hlive : R.Live prot₀) {ps : List Pass} (hk : R.Kept prot₀ s)
    (h : R.applyAll H ps s = .ok () s') : R.Made prot₀ (ps.flatMap Pass.fed) s s' := by
  induction ps generalizing s with
  | nil =>
    obtain ⟨-, rfl⟩ := pure_ok.mp h
    exact ⟨hk, rfl⟩
  | cons p ps ih =>
    obtain ⟨_, s₁, hrun, h⟩ := bind_ok.mp h
    have hmade := apply_ok hH hlive hk hrun
    exact hmade.append (ih hmade.1 h)

theorem applyAll_error (hH : H.Atomic) (hlive : R.Live prot₀) {ps : List Pass} {e : LoadError} (hk : R.Kept prot₀ s)
    (h : R.applyAll H ps s = .error e s') :
    Reported e ∧ ∃ qs ⊆ ps.flatMap Pass.each, R.Made prot₀ qs s s' := by
  induction ps generalizing s with
  | nil => exact absurd h pure_error
  | cons p ps ih =>
    rcases bind_error.mp h with h | ⟨_, s₁, hrun, h⟩
    · obtain ⟨hrep, qs, hsub, hmade⟩ := apply_error hH hlive hk h
      exact ⟨hrep, qs, List.Subset.trans hsub (List.subset_append_left _ _), hmade⟩
    · have hmade := apply_ok hH hlive hk hrun
      obtain ⟨hrep, qs, hsub, hrest⟩ := ih hmade.1 h
      refine ⟨hrep, p.fed ++ qs, ?_, hmade.append hrest⟩
      rw [List.flatMap_cons]
      apply List.append_subset.mpr
      exact ⟨List.Subset.trans (Pass.fed_subset p) (List.subset_append_left _ _),
        List.Subset.trans hsub (List.subset_append_right _ _)⟩

end Relocator

/-! ## The order of a table -/

/-- the bytes a relocation stores to -/
def Stores (base : ℕ) (r : Rela) (x : ℕ) : Prop :=
  r.r_type ≠ R_AARCH64_NONE ∧ base + r.r_offset.toNat ≤ x ∧ x < base + r.r_offset.toNat + 8

section Plain

variable {base : ℕ} {bindings : List SymbolBinding} {bytes bytes' : ℕ → UInt8}

theorem plainOne_outside {p : Rela × Bool} (h : plainOne base bindings bytes p = some bytes') {x : ℕ}
    (hx : ¬Stores base p.1 x) : bytes' x = bytes x := by
  obtain ⟨r, implicit⟩ := p
  rw [plainOne] at h
  split at h
  · cases h
    rfl
  case isFalse hty =>
    simp only at h
    split at h
    · cases h
      apply if_neg
      rintro ⟨h₁, h₂⟩
      exact hx ⟨hty, h₁, h₂⟩
    · cases h

theorem plain_outside {ps : List (Rela × Bool)} (h : plain base bindings ps bytes = some bytes') {x : ℕ}
    (hx : ∀ p ∈ ps, ¬Stores base p.1 x) : bytes' x = bytes x := by
  induction ps generalizing bytes with
  | nil =>
    cases h
    rfl
  | cons p ps ih =>
    cases hone : plainOne base bindings bytes p with
    | none =>
      rw [plain, List.foldlM_cons, hone] at h
      cases h
    | some bytes₁ =>
      rw [plain_cons hone] at h
      rw [ih h fun q hq => hx q (List.mem_cons_of_mem _ hq)]
      exact plainOne_outside hone (hx p List.mem_cons_self)

/-- a value stored elsewhere is not seen -/
theorem readU64_writeU64 {a b : ℕ} (h : a + 8 ≤ b ∨ b + 8 ≤ a) (v : UInt64) :
    readU64 (writeU64 bytes b v) a = readU64 bytes a := by
  have hbytes : ((List.range 8).map fun i => writeU64 bytes b v (a + i)) = (List.range 8).map fun i => bytes (a + i) := by
    apply List.map_congr_left
    intro i hi
    have hi := List.mem_range.mp hi
    apply if_neg
    omega
  rw [readU64, hbytes, readU64]

theorem writeU64_comm {a b : ℕ} (h : a + 8 ≤ b ∨ b + 8 ≤ a) (v w : UInt64) :
    writeU64 (writeU64 bytes a v) b w = writeU64 (writeU64 bytes b w) a v := by
  funext x
  simp only [writeU64]
  split
  · rw [if_neg (by omega)]
  · rfl

/-- whether a relocation is refused does not go by its addend -/
theorem relocatedValue_refused {r : Rela} {a : UInt64} {e : LoadError} (h : relocatedValue base bindings r a = .error e)
    (a' : UInt64) : relocatedValue base bindings r a' = .error e := by
  simp only [relocatedValue] at h ⊢
  repeat' split at h
  all_goals cases h
  all_goals simp_all

/-- relocations that store to different bytes may be made either way round -/
theorem plainOne_commutes {r r' : Rela} {implicit : Bool}
    (h : r.r_type ≠ R_AARCH64_NONE → r'.r_type ≠ R_AARCH64_NONE →
      r.r_offset.toNat + 8 ≤ r'.r_offset.toNat ∨ r'.r_offset.toNat + 8 ≤ r.r_offset.toNat) :
    Commutes (plainOne base bindings) (r, implicit) (r', implicit) := by
  intro bytes
  by_cases hr : r.r_type = R_AARCH64_NONE
  · simp [plainOne, hr]
  by_cases hr' : r'.r_type = R_AARCH64_NONE
  · simp [plainOne, hr']
  have happart : base + r.r_offset.toNat + 8 ≤ base + r'.r_offset.toNat ∨
      base + r'.r_offset.toNat + 8 ≤ base + r.r_offset.toNat := by
    have := h hr hr'
    omega
  have hread : ∀ v, readU64 (writeU64 bytes _ v) _ = readU64 bytes _ := readU64_writeU64 happart
  have hread' : ∀ v, readU64 (writeU64 bytes _ v) _ = readU64 bytes _ := readU64_writeU64 happart.symm
  simp only [plainOne, if_neg hr, if_neg hr']
  cases hv : relocatedValue base bindings r
      (if implicit = true then readU64 bytes (base + r.r_offset.toNat) else r.r_addend.toUInt64) with
  | error e =>
    have hv' := fun a => relocatedValue_refused hv a
    cases hw : relocatedValue base bindings r'
        (if implicit = true then readU64 bytes (base + r'.r_offset.toNat) else r'.r_addend.toUInt64) with
    | error e' => rfl
    | ok w => simp [hv']
  | ok v =>
    cases hw : relocatedValue base bindings r'
        (if implicit = true then readU64 bytes (base + r'.r_offset.toNat) else r'.r_addend.toUInt64) with
    | error e' =>
      have hw' := fun a => relocatedValue_refused hw a
      simp [hw']
    | ok w =>
      simp only [Option.bind_eq_bind, Option.bind_some, hread, hread', hv, hw]
      rw [writeU64_comm happart]

end Plain

/-- no relocation that stores is followed by one that stores less than eight bytes below it -/
def InOrder (rs : List Rela) : Prop :=
  rs.Pairwise fun r r' => r.r_type ≠ R_AARCH64_NONE → r'.r_type ≠ R_AARCH64_NONE →
    ¬(r'.r_offset.toNat < r.r_offset.toNat ∧ r.r_offset.toNat < r'.r_offset.toNat + 8)

namespace Relocator

/-- a table is in order; a stream is made in the order it comes in -/
def Pass.InOrder : Pass → Prop
  | .stream .. => True
  | .table t => Elf.InOrder t.relocations

variable {R : Relocator} {H : LoadHost}

theorem Pass.plain_fed {p : Pass} (h : p.InOrder) (base : ℕ) (bindings : List SymbolBinding) (bytes : ℕ → UInt8) :
    plain base bindings p.fed bytes = plain base bindings p.each bytes := by
  cases p with
  | stream rs implicit fails => rfl
  | table t =>
    simp only [Pass.fed, Pass.each, RelocationTable.each, plain, List.foldlM_map]
    apply foldlM_insertionSort
    apply List.Pairwise.imp _ h
    intro r r' hrr
    by_cases hle : r.r_offset.toNat ≤ r'.r_offset.toNat
    · exact .inl hle
    · refine .inr ?_
      have hapart : Commutes (plainOne base bindings) (r, t.implicitAddend) (r', t.implicitAddend) := plainOne_commutes (by
        intro hr hr'
        have := hrr hr hr'
        omega)
      exact hapart

theorem plain_fed {ps : List Pass} (h : ∀ p ∈ ps, p.InOrder) (base : ℕ) (bindings : List SymbolBinding)
    (bytes : ℕ → UInt8) :
    plain base bindings (ps.flatMap Pass.fed) bytes = plain base bindings (ps.flatMap Pass.each) bytes := by
  induction ps generalizing bytes with
  | nil => rfl
  | cons p ps ih =>
    have hp := Pass.plain_fed (h p List.mem_cons_self) base bindings bytes
    rw [List.flatMap_cons, List.flatMap_cons]
    cases hmid : plain base bindings p.fed bytes with
    | none =>
      have hmid' := hp.symm.trans hmid
      rw [plain] at hmid hmid' ⊢
      rw [plain, List.foldlM_append, List.foldlM_append, hmid, hmid']
      rfl
    | some bytes₁ =>
      rw [plain_append hmid, plain_append (hp.symm.trans hmid)]
      exact ih (fun q hq => h q (List.mem_cons_of_mem _ hq)) bytes₁

end Relocator

/-- How a sweep of `passes` from `m` may end. Where it succeeds it has made the relocations one after another in the order
of the file, its tables being in order. However it ends it has changed no byte but those its relocations store to, and every
protection is as it was. -/
def Swept (R : Relocator) (m : Memory) (passes : List Relocator.Pass) : EStateM.Result LoadError Sweep Unit → Prop
  | .ok () s =>
    s.mem.prot = m.prot ∧
    (∀ x, (∀ p ∈ passes.flatMap Relocator.Pass.each, ¬Stores R.base p.1 x) → s.mem.bytes x = m.bytes x) ∧
    ((∀ p ∈ passes, p.InOrder) →
      plain R.base R.bindings (passes.flatMap Relocator.Pass.each) m.bytes = some s.mem.bytes)
  | .error e s =>
    s.mem.prot = m.prot ∧ Relocator.Reported e ∧
    ∀ x, (∀ p ∈ passes.flatMap Relocator.Pass.each, ¬Stores R.base p.1 x) → s.mem.bytes x = m.bytes x

theorem windowed_is_plain (R : Relocator) (H : LoadHost) (hH : H.Atomic) (m : Memory) (hlive : R.Live m.prot)
    (passes : List Relocator.Pass) : Swept R m passes (R.sweep H passes ⟨m, none⟩) := by
  have hkept : R.Kept m.prot ⟨m, none⟩ := rfl
  rw [Relocator.sweep]
  cases hrun : R.applyAll H passes ⟨m, none⟩ with
  | ok u s =>
    obtain ⟨hk, hplain⟩ := Relocator.applyAll_ok hH hlive hkept hrun
    obtain ⟨s', hclose, -, hprot, hbytes⟩ := Relocator.close_spec hH hk
    simp only [hclose]
    refine ⟨hprot, ?_, ?_⟩
    · intro x hx
      rw [hbytes]
      apply plain_outside hplain
      intro p hp
      obtain ⟨q, hq, hpq⟩ := List.mem_flatMap.mp hp
      exact hx p (List.mem_flatMap.mpr ⟨q, hq, Relocator.Pass.fed_subset q hpq⟩)
    · intro hin
      rw [← Relocator.plain_fed hin, hbytes]
      exact hplain
  | error e s =>
    obtain ⟨hrep, ps, hsub, hk, hplain⟩ := Relocator.applyAll_error hH hlive hkept hrun
    obtain ⟨s', hclose, -, hprot, hbytes⟩ := Relocator.close_spec hH hk
    simp only [hclose]
    refine ⟨hprot, hrep, ?_⟩
    intro x hx
    rw [hbytes]
    exact plain_outside hplain fun p hp => hx p (hsub hp)

theorem smallPage_pos : 0 < 0x1000 := by decide

theorem smallPage_dvd : 0x1000 ∣ 0x1000 := by decide

/-- one page at 0x1000, mapped to be read, and a host that grants everything -/
def onePage : Relocator :=
  ⟨0x1000, [⟨0x1000, 0x2000, .read, false⟩], [], 0x1000, 0x1000, smallPage_pos, smallPage_pos, smallPage_dvd⟩

def onePageMemory : Memory := ⟨fun _ => 0, fun x => if 0x1000 ≤ x ∧ x < 0x2000 then .read else .none, 0⟩

def granting : LoadHost := ⟨fun _ _ => true, fun _ _ _ => true, fun _ _ len _ => len⟩

theorem granting_atomic : granting.Atomic := fun _ _ _ _ => .inl (le_refl _)

theorem onePage_live : onePage.Live onePageMemory.prot := by
  constructor
  · decide
  · decide
  · intro m hm x h₁ h₂
    obtain rfl := List.mem_singleton.mp hm
    exact if_pos ⟨h₁, h₂⟩

/-- two relative relocations, the second four bytes below the first -/
def invertedTable : RelocationTable :=
  ⟨"DT_RELA", .rela, 0, 48, [⟨4, R_AARCH64_RELATIVE, 0x11⟩, ⟨0, R_AARCH64_RELATIVE, 0x3300000022⟩], none⟩

/-- a byte of a sweep's end, where it succeeds -/
def byteAfter (passes : List Relocator.Pass) (x : ℕ) : Option UInt8 :=
  match onePage.sweep granting passes ⟨onePageMemory, none⟩ with
  | .ok () s => some (s.mem.bytes x)
  | .error _ _ => none

/-- the sweep stores the second one first, so the byte both store to is the first one's; in the order of the file it is the
second one's -/
theorem inverted_reordered :
    byteAfter [.table invertedTable] 0x1004 = some 0x11 ∧
    (plain onePage.base onePage.bindings (Relocator.Pass.table invertedTable).each onePageMemory.bytes).map (fun b => b 0x1004) =
      some 0x33 := by
  decide

/-- the same two, streamed: the order of the file -/
theorem windowed_is_plain_streamed :
    Swept onePage onePageMemory [.stream invertedTable.relocations false none]
      (onePage.sweep granting [.stream invertedTable.relocations false none] ⟨onePageMemory, none⟩) :=
  windowed_is_plain onePage granting granting_atomic onePageMemory onePage_live
    [.stream invertedTable.relocations false none]

end Omnidroid.Elf
