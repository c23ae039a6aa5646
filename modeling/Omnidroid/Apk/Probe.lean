/-
What names things in the extraction cache (`omni-apk/src/cache.rs`): the key of a hint (`probe_key`), the digest in it
(`read_index`), the file name of a library (`native_library_file_name`).

- `probe`: what the key is the SHA-256 of; `probe_injective`: it says which archive, and which entry.
- `readIndex`: a hint's digest, none for what does not parse; `readIndex_hintText`: it reads what is written.
-/
import Omnidroid.Lib.Text

namespace Omnidroid.Apk

open Bytes Text

/-- an archive, as it was opened: its canonical path (what is not text in it replaced), its length, and when it was changed,
since the epoch, if that is known -/
structure Identity where
  path : Bytes
  fileLen : UInt64
  modified : Option (UInt64 × UInt32)
  short : path.length < 2 ^ 64
deriving DecidableEq

/-- an entry, as the central directory has it -/
structure Entry where
  name : Bytes
  localHeaderOffset : UInt64
  uncompressedSize : UInt64
  compressedSize : UInt64
  crc32 : UInt32
  method : UInt16
  short : name.length < 2 ^ 64
deriving DecidableEq

/-- "omni-apk extraction-cache probe v2", and a zero -/
def PROBE_DOMAIN : Bytes :=
  [111, 109, 110, 105, 45, 97, 112, 107, 32, 101, 120, 116, 114, 97, 99, 116, 105, 111, 110, 45, 99, 97, 99, 104, 101, 32, 112, 114,
    111, 98, 101, 32, 118, 50, 0]

def timeBytes : Option (UInt64 × UInt32) → Bytes
  | some (secs, nanos) => 1 :: (leBytes 8 secs.toNat ++ leBytes 4 nanos.toNat)
  | none => [0]

/-- `probe_key`, before it is hashed -/
def probe (a : Identity) (e : Entry) : Bytes :=
  PROBE_DOMAIN ++ (leBytes 8 a.path.length ++ (a.path ++ (leBytes 8 a.fileLen.toNat ++ (timeBytes a.modified ++
    (leBytes 8 e.name.length ++ (e.name ++ (leBytes 8 e.localHeaderOffset.toNat ++ (leBytes 8 e.uncompressedSize.toNat ++
      (leBytes 8 e.compressedSize.toNat ++ (leBytes 4 e.crc32.toNat ++ leBytes 2 e.method.toNat))))))))))

theorem leBytes_inj {w m n : ℕ} (hm : m < 256 ^ w) (hn : n < 256 ^ w) (h : leBytes w m = leBytes w n) : m = n := by
  have := congrArg leNat h
  rwa [leNat_leBytes, leNat_leBytes, Nat.mod_eq_of_lt hm, Nat.mod_eq_of_lt hn] at this

/-- a field of a fixed length, and what follows it -/
theorem field_inj {w m n : ℕ} {x y : Bytes} (hm : m < 256 ^ w) (hn : n < 256 ^ w) (h : leBytes w m ++ x = leBytes w n ++ y) :
    m = n ∧ x = y := by
  obtain ⟨hmn, hxy⟩ := List.append_inj h (by rw [length_leBytes, length_leBytes])
  exact ⟨leBytes_inj hm hn hmn, hxy⟩

/-- a field with its length before it, and what follows it -/
theorem string_inj {b c x y : Bytes} (hb : b.length < 2 ^ 64) (hc : c.length < 2 ^ 64)
    (h : leBytes 8 b.length ++ (b ++ x) = leBytes 8 c.length ++ (c ++ y)) : b = c ∧ x = y := by
  obtain ⟨hlen, hrest⟩ := field_inj hb hc h
  exact List.append_inj hrest hlen

theorem timeBytes_inj {s t : Option (UInt64 × UInt32)} {x y : Bytes} (h : timeBytes s ++ x = timeBytes t ++ y) : s = t ∧ x = y := by
  cases s with
  | none =>
    cases t with
    | none => exact ⟨rfl, (List.cons.inj h).2⟩
    | some t => cases (List.cons.inj h).1
  | some s =>
    cases t with
    | none => cases (List.cons.inj h).1
    | some t =>
      have hrest : leBytes 8 s.1.toNat ++ leBytes 4 s.2.toNat ++ x = leBytes 8 t.1.toNat ++ leBytes 4 t.2.toNat ++ y :=
        (List.cons.inj h).2
      rw [List.append_assoc, List.append_assoc] at hrest
      obtain ⟨hsecs, hrest⟩ := field_inj s.1.toNat_lt t.1.toNat_lt hrest
      obtain ⟨hnanos, hrest⟩ := field_inj s.2.toNat_lt t.2.toNat_lt hrest
      exact ⟨congrArg some (Prod.ext (UInt64.toNat_inj.mp hsecs) (UInt32.toNat_inj.mp hnanos)), hrest⟩

theorem probe_injective {a a' : Identity} {e e' : Entry} (h : probe a e = probe a' e') : a = a' ∧ e = e' := by
  have h := List.append_cancel_left h
  obtain ⟨hpath, h⟩ := string_inj a.short a'.short h
  obtain ⟨hlen, h⟩ := field_inj a.fileLen.toNat_lt a'.fileLen.toNat_lt h
  obtain ⟨htime, h⟩ := timeBytes_inj h
  obtain ⟨hname, h⟩ := string_inj e.short e'.short h
  obtain ⟨hoffset, h⟩ := field_inj e.localHeaderOffset.toNat_lt e'.localHeaderOffset.toNat_lt h
  obtain ⟨hsize, h⟩ := field_inj e.uncompressedSize.toNat_lt e'.uncompressedSize.toNat_lt h
  obtain ⟨hcompressed, h⟩ := field_inj e.compressedSize.toNat_lt e'.compressedSize.toNat_lt h
  obtain ⟨hcrc, h⟩ := field_inj e.crc32.toNat_lt e'.crc32.toNat_lt h
  have hmethod := leBytes_inj e.method.toNat_lt e'.method.toNat_lt h
  cases a
  cases a'
  cases e
  cases e'
  simp only at hpath htime hname
  subst hpath htime hname
  simp only [Identity.mk.injEq, Entry.mk.injEq, and_true, true_and]
  exact ⟨UInt64.toNat_inj.mp hlen, UInt64.toNat_inj.mp hoffset, UInt64.toNat_inj.mp hsize, UInt64.toNat_inj.mp hcompressed,
    UInt32.toNat_inj.mp hcrc, UInt16.toNat_inj.mp hmethod⟩

/-! ## File names -/

/-- "lib/" -/
def LIB_PREFIX : Bytes := [108, 105, 98, 47]

def splitOnce (c : UInt8) : Bytes → Option (Bytes × Bytes)
  | [] => none
  | b :: bs => if b = c then some ([], bs) else (splitOnce c bs).map fun (x, y) => (b :: x, y)

/-- the ABI and the file name of `lib/<abi>/<file>` -/
def splitLibPath (name : Bytes) : Option (Bytes × Bytes) :=
  if LIB_PREFIX.isPrefixOf name then
    match splitOnce 47 (name.drop LIB_PREFIX.length) with
    | some (abi, file) => if abi = [] ∨ file = [] ∨ 47 ∈ file then none else some (abi, file)
    | none => none
  else none

/-- `native_library_file_name`: it ends in ".so" -/
def nativeLibraryFileName (e : Entry) : Option Bytes :=
  match splitLibPath e.name with
  | some (_, file) => if [46, 115, 111].isSuffixOf file then some file else none
  | none => none

/-! ## Hints -/

/-- a SHA-256 -/
abbrev Digest := { b : Bytes // b.length = 32 }

def MAX_INDEX_BYTES : ℕ := 128

/-- a hint's file: the digest in hexadecimal, and the end of a line -/
def hintText (d : Digest) : Bytes := hex d.1 ++ [10]

def parseHex32 (text : Bytes) : Option Digest :=
  if text.length = 64 then
    match parsePairs text with
    | some b => if h : b.length = 32 then some ⟨b, h⟩ else none
    | none => none
  else none

/-- what a hint's file says. One that is not text does not parse either: stripped of white space it is not 64 digits. -/
def readIndex (file : Bytes) : Option Digest := parseHex32 (trim (file.take MAX_INDEX_BYTES))

theorem parseHex32_hex (d : Digest) : parseHex32 (hex d.1) = some d := by
  have hlen : (hex d.1).length = 64 := by rw [length_hex, d.2]
  simp only [parseHex32, hlen, if_true, parsePairs_hex, d.2, dite_true, Subtype.coe_eta]

theorem readIndex_hintText (d : Digest) : readIndex (hintText d) = some d := by
  have hlen : (hex d.1).length = 64 := by rw [length_hex, d.2]
  have htake : (hintText d).take MAX_INDEX_BYTES = hintText d := by
    refine List.take_of_length_le ?_
    rw [hintText, List.length_append, hlen]
    decide
  have hne : hex d.1 ≠ [] := by
    intro h
    rw [h] at hlen
    cases hlen
  rw [readIndex, htake, hintText, trim_line (hex_digits d.1) hne, parseHex32_hex]

end Omnidroid.Apk
