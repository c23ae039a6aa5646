/-
The dynamic symbol table and its two hash tables (`omni-elf/src/symbols.rs`), read out of the file as lookups need them.
- `SymbolTable.get`, `bytesAt`: a symbol, and its name in the string table.
- `SysvHash.lookup`: a chain of links, as many of them as there are symbols at most.
- `GnuHash.lookup`, `deriveSymbolCount`: chains of consecutive symbols, each to a word whose low bit is set.

What a step of arithmetic makes of numbers out of its range is an outcome of its own (`Stop.overflow`).
-/
import Omnidroid.Elf.Tables

namespace Omnidroid.Elf

open Bytes

/-- how a computation ends that has no answer -/
inductive Stop where
  | refused (e : ElfError)
  /-- arithmetic out of its range: a panic where it is checked -/
  | overflow
deriving DecidableEq, Repr

def refuse {α : Type} : Except ElfError α → Except Stop α
  | .ok a => .ok a
  | .error e => .error (.refused e)

/-- a sum or product of `usize` -/
def usize (n : ℕ) : Except Stop ℕ := if n < 2 ^ 64 then .ok n else .error .overflow

/-- `h >> s` -/
def shiftRight (h s : UInt32) : Except Stop UInt32 := if s < 32 then .ok (h >>> s) else .error .overflow

/-- `a - b` -/
def minus (a b : UInt32) : Except Stop UInt32 := if a < b then .error .overflow else .ok (a - b)

/-- `a % b` -/
def remainder (a b : UInt32) : Except Stop UInt32 := if b = 0 then .error .overflow else .ok (a % b)

/-! ## Reads -/

/-- what a read of `n` bytes that there are not finds: all the view where the end of the read is past every address -/
def bytesLeft (view : Bytes) (offset n : ℕ) : ℕ :=
  if 2 ^ 64 ≤ offset + n then view.length else view.length - min offset view.length

def viewU8 (what : String) (view : Bytes) (offset : ℕ) : Except ElfError UInt8 :=
  match view.get? offset 1 with
  | some bs => .ok (UInt8.ofNat (leNat bs))
  | none => .error (.outOfBounds what offset 1 (bytesLeft view offset 1))

def viewU16 (what : String) (view : Bytes) (offset : ℕ) : Except ElfError UInt16 :=
  match view.get? offset 2 with
  | some bs => .ok (UInt16.ofNat (leNat bs))
  | none => .error (.outOfBounds what offset 2 (bytesLeft view offset 2))

def viewU32 (what : String) (view : Bytes) (offset : ℕ) : Except ElfError UInt32 :=
  match view.get? offset 4 with
  | some bs => .ok (UInt32.ofNat (leNat bs))
  | none => .error (.outOfBounds what offset 4 (bytesLeft view offset 4))

theorem leBytes32 (w : UInt32) : UInt32.ofNat (leNat (leBytes 4 w.toNat)) = w := by
  have hw := w.toNat_lt
  rw [leNat_leBytes, Nat.mod_eq_of_lt (by omega), UInt32.ofNat_toNat]

theorem viewU32_of_holds {what : String} {view : Bytes} {o : ℕ} {w : UInt32} (h : Holds view o (leBytes 4 w.toNat)) :
    viewU32 what view o = .ok w := by
  unfold Holds at h
  rw [length_leBytes] at h
  simp only [viewU32, h, leBytes32]

theorem viewU64_of_holds {what : String} {view : Bytes} {o : ℕ} {w : UInt64} (h : Holds view o (leBytes 8 w.toNat)) :
    viewU64 what view o = .ok w := by
  have hw := w.toNat_lt
  unfold Holds at h
  rw [length_leBytes] at h
  simp only [viewU64, h, leNat_leBytes, Nat.mod_eq_of_lt (show w.toNat < 256 ^ 8 by omega), UInt64.ofNat_toNat]

theorem usize_of_lt {n : ℕ} (h : n < 2 ^ 64) : usize n = .ok n := if_pos h

/-! ## Arithmetic in range -/

section Ends

variable {α β : Type}

theorem bind_ends {x : Except Stop α} {f : α → Except Stop β} (hx : x ≠ .error .overflow)
    (hf : ∀ a, x = .ok a → f a ≠ .error .overflow) : (x >>= f) ≠ .error .overflow := by
  cases x with
  | ok a => exact hf a rfl
  | error e => exact fun h => hx (by cases h; rfl)

theorem refuse_ends (x : Except ElfError α) : refuse x ≠ .error .overflow := by
  cases x with
  | ok a => simp [refuse]
  | error e => simp [refuse]

theorem usize_ends {n : ℕ} (h : n < 2 ^ 64) : usize n ≠ .error .overflow := by simp [usize_of_lt h]

theorem pure_ends (a : α) : (pure a : Except Stop α) ≠ .error .overflow := by simp [pure, Except.pure]

end Ends

/-! ## Symbols and their names -/

def SIZEOF_SYM : ℕ := 24

structure Sym where
  st_name : UInt32
  st_info : UInt8
  st_other : UInt8
  st_shndx : UInt16
  st_value : UInt64
  st_size : UInt64
deriving DecidableEq, Repr

structure SymbolTable where
  view : Bytes
  count : UInt32

def SymbolTable.get (t : SymbolTable) (index : UInt32) : Except Stop Sym :=
  if t.count ≤ index then .error (.refused (.symbolIndexOutOfBounds index.toNat t.count.toNat))
  else do
    let at_ ← usize (index.toNat * SIZEOF_SYM)
    let st_name ← refuse (viewU32 "st_name" t.view at_)
    let st_info ← refuse (viewU8 "st_info" t.view (at_ + 4))
    let st_other ← refuse (viewU8 "st_other" t.view (at_ + 5))
    let st_shndx ← refuse (viewU16 "st_shndx" t.view (at_ + 6))
    let st_value ← refuse (viewU64 "st_value" t.view (at_ + 8))
    let st_size ← refuse (viewU64 "st_size" t.view (at_ + 16))
    pure ⟨st_name, st_info, st_other, st_shndx, st_value, st_size⟩

/-- the string at an offset of the string table, up to its NUL -/
def bytesAt (strtab : Bytes) (offset : ℕ) : Except ElfError Bytes :=
  if strtab.length < offset then .error (.stringOffsetOutOfBounds offset strtab.length)
  else
    match (strtab.drop offset).findIdx? (· = 0) with
    | some stop => .ok ((strtab.drop offset).take stop)
    | none => .error (.unterminatedString offset)

/-- the name of a symbol -/
def symbolName (symtab : SymbolTable) (strtab : Bytes) (index : UInt32) : Except Stop Bytes := do
  let sym ← symtab.get index
  refuse (bytesAt strtab sym.st_name.toNat)

/-! ## `DT_HASH` -/

structure SysvHash where
  view : Bytes
  nbucket : UInt32
  nchain : UInt32

namespace SysvHash

def parse (view : Bytes) : Except ElfError SysvHash := do
  let nbucket ← viewU32 "DT_HASH nbucket" view 0
  let nchain ← viewU32 "DT_HASH nchain" view 4
  let need := 8 + nbucket.toNat * 4 + nchain.toNat * 4
  if 2 ^ 64 ≤ need then throw (.badSysvHash "nbucket/nchain overflow a usize")
  else if view.length < need then throw (.outOfBounds "DT_HASH table" 0 need view.length)
  else pure ⟨view, nbucket, nchain⟩

def hash (name : Bytes) : UInt32 :=
  name.foldl
    (fun h c =>
      let h := h * 16 + c.toUInt32
      let g := h &&& 0xf0000000
      let h := if g ≠ 0 then h ^^^ (g >>> 24) else h
      h &&& ~~~g)
    0

variable (t : SysvHash) (symtab : SymbolTable) (strtab name : Bytes)

/-- so many more rounds of the walk, from a symbol on -/
def walk : ℕ → UInt32 → Except Stop (Option UInt32)
  | 0, _ => .error (.refused (.badSysvHash "chain does not terminate"))
  | n + 1, index =>
    if index = 0 then .ok none
    else if t.nchain ≤ index then .error (.refused (.badSysvHash "chain index past nchain"))
    else do
      let s ← symbolName symtab strtab index
      if s = name then pure (some index)
      else
        let chainAt ← usize (8 + t.nbucket.toNat * 4 + index.toNat * 4)
        let next ← refuse (viewU32 "DT_HASH chain" t.view chainAt)
        walk n next

def lookup : Except Stop (Option UInt32) :=
  if t.nbucket = 0 then .ok none
  else do
    let b ← remainder (hash name) t.nbucket
    let bucketAt ← usize (8 + b.toNat * 4)
    let index ← refuse (viewU32 "DT_HASH bucket" t.view bucketAt)
    -- a cycle ends with the rounds
    t.walk symtab strtab name (t.nchain.toNat + 1) index

end SysvHash

/-! ## `DT_GNU_HASH` -/

structure GnuHash where
  view : Bytes
  nbucket : UInt32
  /-- the first symbol in the table: those before it are imports -/
  symndx : UInt32
  maskwords : UInt32
  shift2 : UInt32
  bloomAt : ℕ
  bucketsAt : ℕ
  chainsAt : ℕ

namespace GnuHash

def isPowerOfTwo (n : UInt32) : Bool := n != 0 && n &&& (n - 1) == 0

def parse (view : Bytes) : Except ElfError GnuHash := do
  let nbucket ← viewU32 "DT_GNU_HASH nbucket" view 0
  let symndx ← viewU32 "DT_GNU_HASH symndx" view 4
  let maskwords ← viewU32 "DT_GNU_HASH maskwords" view 8
  let shift2 ← viewU32 "DT_GNU_HASH shift2" view 12
  if nbucket = 0 then throw (.badGnuHash "nbucket is zero")
  else if isPowerOfTwo maskwords = false then throw (.badGnuHash "maskwords is not a power of two")
  else
    let bloomAt := 16
    let bucketsAt := bloomAt + maskwords.toNat * 8
    let chainsAt := bucketsAt + nbucket.toNat * 4
    if 2 ^ 64 ≤ bucketsAt then throw (.badGnuHash "maskwords overflows a usize")
    else if 2 ^ 64 ≤ chainsAt then throw (.badGnuHash "nbucket overflows a usize")
    else if view.length < chainsAt then
      throw (.outOfBounds "DT_GNU_HASH header, bloom filter and buckets" 0 chainsAt view.length)
    else pure ⟨view, nbucket, symndx, maskwords, shift2, bloomAt, bucketsAt, chainsAt⟩

def hash (name : Bytes) : UInt32 := name.foldl (fun h c => h * 33 + c.toUInt32) 5381

variable (t : GnuHash) (symtab : SymbolTable) (strtab name : Bytes)

def chainAt (index : UInt32) : Except Stop UInt32 := do
  let step ← usize ((index - t.symndx).toNat * 4)
  if 2 ^ 64 ≤ t.chainsAt + step then .error (.refused (.badGnuHash "chain offset overflows a usize"))
  else refuse (viewU32 "DT_GNU_HASH chain" t.view (t.chainsAt + step))

/-- the next symbol of a chain: there is none past the last index -/
def after (index : UInt32) : Option UInt32 := if index = 0xffffffff then none else some (index + 1)

theorem after_lt {index next : UInt32} (h : after index = some next) : 2 ^ 32 - next.toNat < 2 ^ 32 - index.toNat := by
  unfold after at h
  split_ifs at h with hlast
  cases h
  have hlt : index.toNat + 1 < 2 ^ 32 := by
    have := index.toNat_lt
    have : index.toNat ≠ 0xffffffff := fun h => hlast (UInt32.toNat_inj.1 h)
    omega
  rw [UInt32.toNat_add]
  have hone : (1 : UInt32).toNat = 1 := rfl
  omega

/-- from a symbol to the end of its chain -/
def walk (hashed : UInt32) (index : UInt32) : Except Stop (Option UInt32) :=
  match t.chainAt index with
  | .error e => .error e
  | .ok chain =>
    match (if chain ||| 1 = hashed ||| 1 then (symbolName symtab strtab index).map (· == name) else .ok false) with
    | .error e => .error e
    | .ok true => .ok (some index)
    | .ok false =>
      if chain &&& 1 ≠ 0 then .ok none
      else
        match _h : after index with
        | none => .error (.refused (.badGnuHash "chain index overflow"))
        | some next => walk hashed next
termination_by 2 ^ 32 - index.toNat
decreasing_by exact after_lt _h

def lookup : Except Stop (Option UInt32) := do
  let h := hash name
  let mask ← minus t.maskwords 1
  let wordIndex := ((h / 64) &&& mask).toNat
  let wordAt ← usize (t.bloomAt + wordIndex * 8)
  let word ← refuse (viewU64 "DT_GNU_HASH bloom word" t.view wordAt)
  let bit1 := h % 64
  let bit2 := (← shiftRight h t.shift2) % 64
  if word.toNat.testBit bit1.toNat = false ∨ word.toNat.testBit bit2.toNat = false then pure none
  else
    let b ← remainder h t.nbucket
    let bucketAt ← usize (t.bucketsAt + b.toNat * 4)
    let first ← refuse (viewU32 "DT_GNU_HASH bucket" t.view bucketAt)
    if first = 0 then pure none
    else if first < t.symndx then .error (.refused (.badGnuHash "bucket points below symndx"))
    else t.walk symtab strtab name h first

/-- the last index of a chain -/
def chainEnd (index : UInt32) : Except Stop UInt32 :=
  match t.chainAt index with
  | .error e => .error e
  | .ok chain =>
    if chain &&& 1 ≠ 0 then .ok index
    else
      match _h : after index with
      | none => .error (.refused (.badGnuHash "chain index overflow"))
      | some next => chainEnd next
termination_by 2 ^ 32 - index.toNat
decreasing_by exact after_lt _h

/-- a bucket's chain, and the greatest index so far -/
def reach (maxIndex : UInt32) (b : ℕ) : Except Stop UInt32 := do
  let bucketAt ← usize (t.bucketsAt + b * 4)
  let first ← refuse (viewU32 "DT_GNU_HASH bucket" t.view bucketAt)
  if first = 0 then pure maxIndex
  else if first < t.symndx then .error (.refused (.badGnuHash "bucket points below symndx"))
  else
    let last ← t.chainEnd first
    pure (max maxIndex last)

def deriveSymbolCount : Except Stop UInt32 := do
  let maxIndex ← (List.range t.nbucket.toNat).foldlM t.reach (t.symndx - min t.symndx 1)
  match after maxIndex with
  | none => .error (.refused (.badGnuHash "symbol count overflow"))
  | some count => pure count

end GnuHash

end Omnidroid.Elf
