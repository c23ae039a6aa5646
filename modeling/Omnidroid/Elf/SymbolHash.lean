/-
What the two hash tables find (`omni-elf/src/symbols.rs`): over tables built by the format's rules every hashed symbol's name,
and over any bytes only a symbol of the name asked for.
- `Symbols`, `GnuHash.Built`, `SysvHash.Built`: the tables of given names, by their bytes.
- `Resolves`: a lookup finds the names from an index on, and no other.
- `Built.walk`, `Built.chainEnd`: a GNU chain, from a symbol to the last of its bucket; `Built.symbolCount`: all of them.
- `Linked.walk`: a System V chain.
- `sound_iff`: all of it, with no arithmetic out of its range, exactly where the second bloom shift is below the width of the
  hash. A greater one is read from the file as it is, and shifts by too much (`shift_overflows`).
-/
import Omnidroid.Elf.Symbols
import Omnidroid.Lib.Answers

namespace Omnidroid.Elf

open Bytes

/-! ## Built tables -/

/-- the symbol and the string table name the symbols, the null symbol first -/
structure Symbols (symtab : SymbolTable) (strtab : Bytes) (names : List Bytes) : Prop where
  count : symtab.count.toNat = names.length
  entry : ∀ i name, names[i]? = some name → ∃ (st_name : UInt32) (rest : Bytes), rest.length = 20 ∧
    Holds symtab.view (i * SIZEOF_SYM) (leBytes 4 st_name.toNat ++ rest) ∧ Holds strtab st_name.toNat (name ++ [0])
  nul : ∀ name ∈ names, (0 : UInt8) ∉ name

/-- every name from `lo` on is found, at an index that has it, and no other name is -/
def Resolves (lookup : Bytes → Except Stop (Option UInt32)) (names : List Bytes) (lo : ℕ) : Prop :=
  ∀ name, (name ∈ names.drop lo → ∃ i : UInt32, lo ≤ i.toNat ∧ names[i.toNat]? = some name ∧ lookup name = .ok (some i)) ∧
    (name ∉ names.drop lo → lookup name = .ok none)

namespace GnuHash

variable (t : GnuHash) (names : List Bytes)

def hashed (i : ℕ) : Prop := t.symndx.toNat ≤ i ∧ i < names.length

def hashOf (i : ℕ) : UInt32 := hash (names.getD i [])

def bucketOf (i : ℕ) : ℕ := (hashOf names i).toNat % t.nbucket.toNat

structure Built : Prop where
  above : 1 ≤ t.symndx.toNat
  within : t.symndx.toNat ≤ names.length
  sorted : ∀ i j, t.hashed names i → t.hashed names j → i ≤ j → t.bucketOf names i ≤ t.bucketOf names j
  /-- the bloom word of a hash has its two bits -/
  bloom : ∀ i, t.hashed names i → ∃ word : UInt64,
    Holds t.view (t.bloomAt + ((hashOf names i).toNat / 64 &&& (t.maskwords.toNat - 1)) * 8) (leBytes 8 word.toNat) ∧
      word.toNat.testBit ((hashOf names i).toNat % 64) = true ∧
      word.toNat.testBit ((hashOf names i).toNat >>> t.shift2.toNat % 64) = true
  /-- a bucket holds the first of its symbols, or zero -/
  bucket : ∀ b, b < t.nbucket.toNat → ∃ first : UInt32, Holds t.view (t.bucketsAt + b * 4) (leBytes 4 first.toNat) ∧
    ((first = 0 ∧ ∀ i, t.hashed names i → t.bucketOf names i ≠ b) ∨
      (t.hashed names first.toNat ∧ t.bucketOf names first.toNat = b ∧
        ∀ i, t.hashed names i → t.bucketOf names i = b → first.toNat ≤ i))
  /-- a chain word is the hash, but for its low bit: that is set at the last symbol of a bucket -/
  chain : ∀ i, t.hashed names i → ∃ word : UInt32,
    Holds t.view (t.chainsAt + (i - t.symndx.toNat) * 4) (leBytes 4 word.toNat) ∧ word ||| 1 = hashOf names i ||| 1 ∧
      (word &&& 1 ≠ 0 ↔ i + 1 = names.length ∨ t.bucketOf names (i + 1) ≠ t.bucketOf names i)

end GnuHash

namespace SysvHash

/-- the links from a symbol are these, and there they end -/
def Linked (t : SysvHash) : UInt32 → List UInt32 → Prop
  | first, [] => first = 0
  | first, i :: l => first = i ∧ ∃ next : UInt32,
    Holds t.view (8 + t.nbucket.toNat * 4 + i.toNat * 4) (leBytes 4 next.toNat) ∧ Linked t next l

structure Built (t : SysvHash) (names : List Bytes) : Prop where
  nbucket : t.nbucket ≠ 0
  nchain : t.nchain.toNat = names.length
  /-- a bucket's links are its symbols, each once -/
  bucket : ∀ b, b < t.nbucket.toNat → ∃ (first : UInt32) (l : List UInt32),
    Holds t.view (8 + b * 4) (leBytes 4 first.toNat) ∧ t.Linked first l ∧ l.Nodup ∧
      ∀ i, i ∈ l ↔ 1 ≤ i.toNat ∧ i.toNat < names.length ∧ (hash (names.getD i.toNat [])).toNat % t.nbucket.toNat = b

end SysvHash

/-- what the lookups owe, over a symbol and a string table of any bytes -/
structure Sound (g : GnuHash) (v : SysvHash) (symtab : SymbolTable) (strtab : Bytes) : Prop where
  gnu_ends : ∀ name, g.lookup symtab strtab name ≠ .error .overflow
  sysv_ends : ∀ name, v.lookup symtab strtab name ≠ .error .overflow
  count_ends : g.deriveSymbolCount ≠ .error .overflow
  gnu_named : ∀ name i, g.lookup symtab strtab name = .ok (some i) → symbolName symtab strtab i = .ok name
  sysv_named : ∀ name i, v.lookup symtab strtab name = .ok (some i) → symbolName symtab strtab i = .ok name
  gnu_built : ∀ names, Symbols symtab strtab names → g.Built names →
    Resolves (g.lookup symtab strtab) names g.symndx.toNat ∧
      ∃ count, g.deriveSymbolCount = .ok count ∧ count.toNat = names.length
  sysv_built : ∀ names, Symbols symtab strtab names → v.Built names → Resolves (v.lookup symtab strtab) names 1
  agree : ∀ names, Symbols symtab strtab names → g.Built names → v.Built names → ∀ name ∈ names.drop g.symndx.toNat,
    ∃ i j, g.lookup symtab strtab name = .ok (some i) ∧ v.lookup symtab strtab name = .ok (some j) ∧
      names[i.toNat]? = names[j.toNat]? ∧ ((names.drop 1).Nodup → i = j)

/-! ## Reads -/

/-- a symbol with all its bytes in the table is read, by its name's offset -/
theorem get_of_entry {symtab : SymbolTable} {i : UInt32} {st_name : UInt32} {rest : Bytes} (hi : i < symtab.count)
    (hrest : rest.length = 20) (h : Holds symtab.view (i.toNat * SIZEOF_SYM) (leBytes 4 st_name.toNat ++ rest)) :
    ∃ sym, symtab.get i = .ok sym ∧ sym.st_name = st_name := by
  have hle := h.le
  simp only [List.length_append, length_leBytes, hrest] at hle
  have hi' := i.toNat_lt
  have hread : ∀ n k, k + n ≤ 24 → symtab.view.get? (i.toNat * SIZEOF_SYM + k) n =
      some (slice symtab.view (i.toNat * SIZEOF_SYM + k) n) := fun n k hk => if_pos (by omega)
  have hname : viewU32 "st_name" symtab.view (i.toNat * SIZEOF_SYM) = .ok st_name := viewU32_of_holds (holds_append.1 h).1
  unfold SymbolTable.get
  rw [if_neg (by simpa using hi), usize_of_lt (by unfold SIZEOF_SYM; omega)]
  simp only [bind, Except.bind, refuse, hname, viewU8, viewU16, viewU64, hread 1 4 (by omega), hread 1 5 (by omega),
    hread 2 6 (by omega), hread 8 8 (by omega), hread 8 16 (by omega)]
  exact ⟨_, rfl, rfl⟩

theorem bytesAt_of_holds {strtab : Bytes} {o : ℕ} {name : Bytes} (h : Holds strtab o (name ++ [0]))
    (hnul : (0 : UInt8) ∉ name) : bytesAt strtab o = .ok name := by
  have hle := h.le
  simp only [List.length_append, List.length_singleton] at hle
  have hslice : (strtab.drop o).take (name ++ [0]).length = name ++ [0] := (get?_eq_some.1 h).2
  have hdrop : strtab.drop o = (name ++ [0]) ++ strtab.drop (o + (name ++ [0]).length) :=
    calc strtab.drop o
        = (strtab.drop o).take (name ++ [0]).length ++ (strtab.drop o).drop (name ++ [0]).length :=
          (List.take_append_drop _ _).symm
      _ = (name ++ [0]) ++ strtab.drop (o + (name ++ [0]).length) := by rw [hslice, List.drop_drop]
  have hfind : (strtab.drop o).findIdx? (· = 0) = some name.length := by
    rw [hdrop, List.append_assoc, List.findIdx?_append]
    have hnone : name.findIdx? (· = 0) = none := by
      rw [List.findIdx?_eq_none_iff]
      intro c hc
      simpa using fun h0 : c = 0 => hnul (h0 ▸ hc)
    simp [hnone, List.findIdx?_cons]
  have hlen : ¬strtab.length < o := by omega
  simp only [bytesAt, hlen, if_false, hfind]
  rw [hdrop, List.append_assoc, List.take_left]

theorem Symbols.symbolName {symtab : SymbolTable} {strtab : Bytes} {names : List Bytes} (h : Symbols symtab strtab names)
    {i : UInt32} {name : Bytes} (hi : names[i.toNat]? = some name) : symbolName symtab strtab i = .ok name := by
  obtain ⟨hlt, hmem⟩ := List.getElem?_eq_some_iff.1 hi
  obtain ⟨st_name, rest, hrest, hsym, hstr⟩ := h.entry _ _ hi
  have hlt' : i < symtab.count := by
    rw [UInt32.lt_iff_toNat_lt, h.count]
    exact hlt
  obtain ⟨sym, hget, hname⟩ := get_of_entry hlt' hrest hsym
  simp only [Elf.symbolName, hget, bind, Except.bind, hname,
    bytesAt_of_holds hstr (h.nul name (hmem ▸ List.getElem_mem hlt)), refuse]

/-! ## Arithmetic in range, whatever the bytes -/

theorem get_ends (symtab : SymbolTable) (i : UInt32) : symtab.get i ≠ .error .overflow := by
  have hi := i.toNat_lt
  unfold SymbolTable.get
  split_ifs with h
  · simp
  · refine bind_ends (usize_ends (by unfold SIZEOF_SYM; omega)) fun at_ _ => ?_
    iterate 6 refine bind_ends (refuse_ends _) fun _ _ => ?_
    exact pure_ends _

theorem symbolName_ends (symtab : SymbolTable) (strtab : Bytes) (i : UInt32) :
    symbolName symtab strtab i ≠ .error .overflow :=
  bind_ends (get_ends symtab i) fun _ _ => refuse_ends _

namespace GnuHash

variable (t : GnuHash) (symtab : SymbolTable) (strtab name : Bytes)

/-- what a header that was accepted says of its table -/
structure Parsed : Prop where
  bloomAt : t.bloomAt = 16
  bucketsAt : t.bucketsAt = 16 + t.maskwords.toNat * 8
  chainsAt : t.chainsAt = 16 + t.maskwords.toNat * 8 + t.nbucket.toNat * 4
  fits : t.chainsAt ≤ t.view.length
  nbucket : t.nbucket ≠ 0
  maskwords : t.maskwords ≠ 0

variable {t}

theorem parse_parsed {view : Bytes} (h : parse view = .ok t) : t.Parsed := by
  unfold parse at h
  obtain ⟨nbucket, -, h⟩ := except_bind_ok.1 h
  obtain ⟨symndx, -, h⟩ := except_bind_ok.1 h
  obtain ⟨maskwords, -, h⟩ := except_bind_ok.1 h
  obtain ⟨shift2, -, h⟩ := except_bind_ok.1 h
  dsimp only at h
  split at h
  · cases h
  rename_i hnb
  split at h
  · cases h
  rename_i hpow
  split at h
  · cases h
  split at h
  · cases h
  split at h
  · cases h
  cases h
  refine ⟨rfl, rfl, rfl, by dsimp only; omega, hnb, ?_⟩
  rintro rfl
  exact hpow (by decide)

theorem chainAt_ends (i : UInt32) : t.chainAt i ≠ .error .overflow := by
  have hi := (i - t.symndx).toNat_lt
  refine bind_ends (usize_ends (by omega)) fun step _ => ?_
  split_ifs
  · simp
  · exact refuse_ends _

theorem walk_ends (hashed i : UInt32) : t.walk symtab strtab name hashed i ≠ .error .overflow := by
  fun_induction t.walk symtab strtab name hashed i with
  | case1 i e he =>
    intro h
    cases h
    exact chainAt_ends i he
  | case2 i chain hchain e he =>
    rintro ⟨⟩
    split_ifs at he
    refine symbolName_ends symtab strtab i ?_
    cases hs : symbolName symtab strtab i with
    | ok a => simp [hs, Except.map] at he
    | error e => simpa [hs, Except.map] using he
  | case3 => simp
  | case4 => simp
  | case5 => simp
  | case6 i chain hchain hno hbit next hnext ih => exact ih

theorem chainEnd_ends (i : UInt32) : t.chainEnd i ≠ .error .overflow := by
  fun_induction t.chainEnd i with
  | case1 i e he =>
    intro h
    cases h
    exact chainAt_ends i he
  | case2 => simp
  | case3 => simp
  | case4 i chain hchain hbit next hnext ih => exact ih

/-- the chains of a parsed table are walked in range -/
theorem reach_ends (hp : t.Parsed) (m : UInt32) {b : ℕ} (hb : b < t.nbucket.toNat) : t.reach m b ≠ .error .overflow := by
  have h1 := t.maskwords.toNat_lt
  have h2 := t.nbucket.toNat_lt
  have h3 := hp.bucketsAt
  refine bind_ends (usize_ends (by omega)) fun _ _ => bind_ends (refuse_ends _) fun first _ => ?_
  split_ifs
  · exact pure_ends _
  · simp
  · exact bind_ends (chainEnd_ends first) fun _ _ => pure_ends _

theorem count_ends (hp : t.Parsed) : t.deriveSymbolCount ≠ .error .overflow := by
  have hfold : ∀ l : List ℕ, (∀ b ∈ l, b < t.nbucket.toNat) → ∀ m, l.foldlM t.reach m ≠ .error .overflow := by
    intro l
    induction l with
    | nil => exact fun _ m => pure_ends m
    | cons b l ih =>
      intro hl m
      rw [List.foldlM_cons]
      exact bind_ends (reach_ends hp m (hl b List.mem_cons_self)) fun m' _ =>
        ih (fun c hc => hl c (List.mem_cons_of_mem _ hc)) m'
  refine bind_ends (hfold _ (fun b hb => List.mem_range.1 hb) _) fun m _ => ?_
  cases after m with
  | none => simp
  | some count => exact pure_ends count

theorem walk_named (hashed i j : UInt32) (h : t.walk symtab strtab name hashed i = .ok (some j)) :
    symbolName symtab strtab j = .ok name := by
  fun_induction t.walk symtab strtab name hashed i with
  | case1 => cases h
  | case2 => cases h
  | case3 i chain hchain hyes =>
    cases h
    split_ifs at hyes
    · cases hs : symbolName symtab strtab j with
      | ok a => simpa [hs, Except.map] using hyes
      | error e => simp [hs, Except.map] at hyes
    · cases hyes
  | case4 => cases h
  | case5 => cases h
  | case6 i chain hchain hno hbit next hnext ih => exact ih h

/-- a lookup reads its bloom word; what comes of it turns on the second shift -/
theorem Parsed.lookup_eq (hp : t.Parsed) : ∃ word,
    viewU64 "DT_GNU_HASH bloom word" t.view (t.bloomAt + (hash name / 64 &&& (t.maskwords - 1)).toNat * 8) = .ok word ∧
    t.lookup symtab strtab name = (do
      let bit2 := (← shiftRight (hash name) t.shift2) % 64
      if word.toNat.testBit (hash name % 64).toNat = false ∨ word.toNat.testBit bit2.toNat = false then pure none
      else
        let first ← refuse
          (viewU32 "DT_GNU_HASH bucket" t.view (t.bucketsAt + (hash name % t.nbucket).toNat * 4))
        if first = 0 then pure none
        else if first < t.symndx then .error (.refused (.badGnuHash "bucket points below symndx"))
        else t.walk symtab strtab name (hash name) first) := by
  have hmask := t.maskwords.toNat_lt
  have hnb := t.nbucket.toNat_lt
  have hone : (1 : UInt32).toNat = 1 := rfl
  have hle : 1 ≤ t.maskwords.toNat := by
    have : t.maskwords.toNat ≠ 0 := fun h => hp.maskwords (UInt32.toNat_inj.1 h)
    omega
  have hminus : minus t.maskwords 1 = .ok (t.maskwords - 1) := by
    unfold minus
    rw [if_neg (by rw [UInt32.lt_iff_toNat_lt]; omega)]
  have hword : (hash name / 64 &&& (t.maskwords - 1)).toNat < t.maskwords.toNat := by
    rw [UInt32.toNat_and]
    have hsub : (t.maskwords - 1).toNat = t.maskwords.toNat - 1 :=
      UInt32.toNat_sub_of_le _ _ (UInt32.le_iff_toNat_le.2 hle)
    have := Nat.and_le_right (n := (hash name / 64).toNat) (m := (t.maskwords - 1).toNat)
    omega
  have hb : (hash name % t.nbucket).toNat < 2 ^ 32 := UInt32.toNat_lt _
  have hget : t.view.get? (t.bloomAt + (hash name / 64 &&& (t.maskwords - 1)).toNat * 8) 8 =
      some (slice t.view (t.bloomAt + (hash name / 64 &&& (t.maskwords - 1)).toNat * 8) 8) := by
    refine if_pos ?_
    have h1 := hp.bloomAt
    have h2 := hp.chainsAt
    have h3 := hp.fits
    omega
  have hread : ∃ word, viewU64 "DT_GNU_HASH bloom word" t.view
      (t.bloomAt + (hash name / 64 &&& (t.maskwords - 1)).toNat * 8) = .ok word :=
    ⟨UInt64.ofNat (leNat (slice t.view (t.bloomAt + (hash name / 64 &&& (t.maskwords - 1)).toNat * 8) 8)),
      by simp only [viewU64, hget]⟩
  obtain ⟨word, hread⟩ := hread
  refine ⟨word, hread, ?_⟩
  unfold lookup
  simp only [hminus, remainder, if_neg hp.nbucket, usize_of_lt (show t.bloomAt +
    (hash name / 64 &&& (t.maskwords - 1)).toNat * 8 < 2 ^ 64 by rw [hp.bloomAt]; omega),
    usize_of_lt (show t.bucketsAt + (hash name % t.nbucket).toNat * 4 < 2 ^ 64 by rw [hp.bucketsAt]; omega),
    hread, bind, Except.bind, refuse]

variable {symtab strtab name}

theorem lookup_ends (hp : t.Parsed) (hshift : t.shift2 < 32) : t.lookup symtab strtab name ≠ .error .overflow := by
  obtain ⟨word, -, heq⟩ := hp.lookup_eq symtab strtab name
  rw [heq]
  refine bind_ends (by simp [shiftRight, hshift]) fun shifted _ => ?_
  dsimp only
  split_ifs
  · exact pure_ends _
  · refine bind_ends (refuse_ends _) fun first _ => ?_
    split_ifs
    · exact pure_ends _
    · simp
    · exact walk_ends symtab strtab name _ _

/-- a shift by the hash's width or more, and no name is looked up at all -/
theorem lookup_overflows (hp : t.Parsed) (hshift : ¬t.shift2 < 32) :
    t.lookup symtab strtab name = .error .overflow := by
  obtain ⟨word, -, heq⟩ := hp.lookup_eq symtab strtab name
  rw [heq, shiftRight, if_neg hshift]
  rfl

theorem lookup_named (hp : t.Parsed) {j : UInt32} (h : t.lookup symtab strtab name = .ok (some j)) :
    symbolName symtab strtab j = .ok name := by
  obtain ⟨word, -, heq⟩ := hp.lookup_eq symtab strtab name
  rw [heq] at h
  obtain ⟨shifted, -, h⟩ := except_bind_ok.1 h
  dsimp only at h
  split_ifs at h
  · cases h
  · obtain ⟨first, -, h⟩ := except_bind_ok.1 h
    split_ifs at h
    · cases h
    · exact walk_named symtab strtab name _ _ _ h

/-! ### Over a built table -/

variable {names : List Bytes}

theorem hashOf_eq {i : ℕ} {found : Bytes} (h : names[i]? = some found) : hashOf names i = hash found := by
  rw [hashOf, List.getD_eq_getElem?_getD, h, Option.getD_some]

theorem after_of_lt {i : UInt32} (h : i.toNat + 1 < 2 ^ 32) :
    after i = some (i + 1) ∧ (i + 1).toNat = i.toNat + 1 := by
  have hone : (1 : UInt32).toNat = 1 := rfl
  have hne : i ≠ 0xffffffff := by
    rintro rfl
    have : (0xffffffff : UInt32).toNat = 2 ^ 32 - 1 := rfl
    omega
  exact ⟨if_neg hne, by rw [UInt32.toNat_add]; omega⟩

namespace Built

theorem chainAt (hp : t.Parsed) (hb : t.Built names) {i : UInt32} (hi : t.hashed names i.toNat) :
    ∃ word, t.chainAt i = .ok word ∧ word ||| 1 = hashOf names i.toNat ||| 1 ∧
      (word &&& 1 ≠ 0 ↔
        i.toNat + 1 = names.length ∨ t.bucketOf names (i.toNat + 1) ≠ t.bucketOf names i.toNat) := by
  obtain ⟨word, hheld, hword, hlow⟩ := hb.chain i.toNat hi
  refine ⟨word, ?_, hword, hlow⟩
  have hsub : (i - t.symndx).toNat = i.toNat - t.symndx.toNat :=
    UInt32.toNat_sub_of_le _ _ (UInt32.le_iff_toNat_le.2 hi.1)
  have hlt := i.toNat_lt
  have h1 := t.maskwords.toNat_lt
  have h2 := t.nbucket.toNat_lt
  have h3 := hp.chainsAt
  have hread : viewU32 "DT_GNU_HASH chain" t.view (t.chainsAt + (i.toNat - t.symndx.toNat) * 4) = .ok word :=
    viewU32_of_holds hheld
  unfold GnuHash.chainAt
  rw [hsub, usize_of_lt (by omega)]
  simp only [bind, Except.bind, hread, refuse]
  exact if_neg (by omega)

/-- past the last symbol of a bucket there is none of it -/
theorem last (hb : t.Built names) {i : ℕ} (hi : t.hashed names i)
    (hlast : i + 1 = names.length ∨ t.bucketOf names (i + 1) ≠ t.bucketOf names i) {j : ℕ} (hj : t.hashed names j)
    (hij : i < j) : t.bucketOf names j ≠ t.bucketOf names i := by
  have hlen := hj.2
  obtain hlast | hlast := hlast
  · omega
  · have hnext : t.hashed names (i + 1) := ⟨by have := hi.1; omega, by omega⟩
    have h1 := hb.sorted i (i + 1) hi hnext (by omega)
    have h2 := hb.sorted (i + 1) j hnext hj hij
    omega

/-- a chain is walked to the first symbol of the name, or to the end of the bucket -/
theorem walk (name : Bytes) (hp : t.Parsed) (hb : t.Built names) (hs : Symbols symtab strtab names) (n : ℕ) (i : UInt32)
    (hn : names.length - i.toNat = n) (hi : t.hashed names i.toNat) :
    (∃ j : UInt32, t.symndx.toNat ≤ j.toNat ∧ names[j.toNat]? = some name ∧
      t.walk symtab strtab name (hash name) i = .ok (some j)) ∨
    (t.walk symtab strtab name (hash name) i = .ok none ∧ ∀ j, t.hashed names j → i.toNat ≤ j →
      t.bucketOf names j = t.bucketOf names i.toNat → names[j]? ≠ some name) := by
  induction n generalizing i with
  | zero => have := hi.2; omega
  | succ n ih =>
    obtain ⟨word, hchain, hword, hlow⟩ := hb.chainAt hp hi
    obtain ⟨found, hfound⟩ : ∃ found, names[i.toNat]? = some found := ⟨_, List.getElem?_eq_getElem hi.2⟩
    have hname := hs.symbolName hfound
    by_cases heq : found = name
    · subst heq
      rw [hashOf_eq hfound] at hword
      refine .inl ⟨i, hi.1, hfound, ?_⟩
      rw [GnuHash.walk, hchain]
      simp [hword, hname, Except.map]
    · have hno : (if word ||| 1 = hash name ||| 1 then (Elf.symbolName symtab strtab i).map (· == name)
          else .ok false) = .ok false := by
        split_ifs
        · simp [hname, Except.map, heq]
        · rfl
      by_cases hlast : word &&& 1 ≠ 0
      · refine .inr ⟨?_, fun j hj hij hbucket hj' => ?_⟩
        · rw [GnuHash.walk]
          simp only [hchain, hno, if_pos hlast]
        · obtain rfl | hlt := eq_or_lt_of_le hij
          · exact heq (Option.some.inj (hfound.symm.trans hj'))
          · exact hb.last hi (hlow.1 hlast) hj hlt hbucket
      · have hmore := mt hlow.2 hlast
        push Not at hmore
        have hcount := symtab.count.toNat_lt
        have hlen := hi.2
        have hle := hi.1
        rw [hs.count] at hcount
        obtain ⟨hafter, hnext⟩ := after_of_lt (i := i) (by omega)
        have hstep : t.walk symtab strtab name (hash name) i = t.walk symtab strtab name (hash name) (i + 1) := by
          conv_lhs => rw [GnuHash.walk]
          simp only [hchain, hno, if_neg hlast]
          split
          · rename_i h
            rw [hafter] at h
            cases h
          · rename_i h
            rw [hafter] at h
            cases h
            rfl
        obtain ⟨j, h1, h2, h3⟩ | ⟨h1, h2⟩ := ih (i + 1) (by omega) ⟨by omega, by omega⟩
        · exact .inl ⟨j, h1, h2, hstep.trans h3⟩
        · refine .inr ⟨hstep.trans h1, fun j hj hij hbucket hj' => ?_⟩
          obtain rfl | hlt := eq_or_lt_of_le hij
          · exact heq (Option.some.inj (hfound.symm.trans hj'))
          · exact h2 j hj (by omega) (by rw [hbucket, hnext, hmore.2]) hj'

/-- a chain ends at the last symbol of its bucket -/
theorem chainEnd (hp : t.Parsed) (hb : t.Built names) (hsmall : names.length < 2 ^ 32) (n : ℕ) (i : UInt32)
    (hn : names.length - i.toNat = n) (hi : t.hashed names i.toNat) :
    ∃ e : UInt32, t.chainEnd i = .ok e ∧ i.toNat ≤ e.toNat ∧ e.toNat < names.length ∧
      ∀ j, t.hashed names j → t.bucketOf names j = t.bucketOf names i.toNat → j ≤ e.toNat := by
  induction n generalizing i with
  | zero => have := hi.2; omega
  | succ n ih =>
    obtain ⟨word, hchain, -, hlow⟩ := hb.chainAt hp hi
    by_cases hlast : word &&& 1 ≠ 0
    · refine ⟨i, ?_, le_refl _, hi.2, fun j hj hbucket => ?_⟩
      · rw [GnuHash.chainEnd]
        simp only [hchain, if_pos hlast]
      · by_contra hlt
        exact hb.last hi (hlow.1 hlast) hj (by omega) hbucket
    · have hmore := mt hlow.2 hlast
      push Not at hmore
      have hlen := hi.2
      have hle := hi.1
      obtain ⟨hafter, hnext⟩ := after_of_lt (i := i) (by omega)
      have hstep : t.chainEnd i = t.chainEnd (i + 1) := by
        conv_lhs => rw [GnuHash.chainEnd]
        simp only [hchain, if_neg hlast]
        split
        · rename_i h
          rw [hafter] at h
          cases h
        · rename_i h
          rw [hafter] at h
          cases h
          rfl
      obtain ⟨e, h1, h2, h3, h4⟩ := ih (i + 1) (by omega) ⟨by omega, by omega⟩
      exact ⟨e, hstep.trans h1, by omega, h3, fun j hj hbucket => h4 j hj (by rw [hbucket, hnext, hmore.2])⟩

theorem reach (hp : t.Parsed) (hb : t.Built names) (hsmall : names.length < 2 ^ 32) {m : UInt32} {b : ℕ}
    (hm : m.toNat < names.length) (hlt : b < t.nbucket.toNat) :
    ∃ m', t.reach m b = .ok m' ∧ m.toNat ≤ m'.toNat ∧ m'.toNat < names.length ∧
      ∀ j, t.hashed names j → t.bucketOf names j = b → j ≤ m'.toNat := by
  obtain ⟨first, hheld, hfirst⟩ := hb.bucket b hlt
  have h1 := t.maskwords.toNat_lt
  have h2 := t.nbucket.toNat_lt
  have h3 := hp.bucketsAt
  have hread : viewU32 "DT_GNU_HASH bucket" t.view (t.bucketsAt + b * 4) = .ok first := viewU32_of_holds hheld
  unfold GnuHash.reach
  rw [usize_of_lt (by omega)]
  simp only [bind, Except.bind, hread, refuse]
  obtain ⟨rfl, hnone⟩ | ⟨hin, hbucket, hleast⟩ := hfirst
  · exact ⟨m, if_pos rfl, le_refl _, hm, fun j hj hjb => absurd hjb (hnone j hj)⟩
  · have habove := hb.above
    have hle := hin.1
    have hne : first ≠ 0 := by
      rintro rfl
      exact absurd (hle.trans_eq UInt32.toNat_zero) (by omega)
    obtain ⟨e, hend, he1, he2, he3⟩ := hb.chainEnd hp hsmall _ first rfl hin
    have hnlt : ¬first < t.symndx := by
      rw [UInt32.lt_iff_toNat_lt]
      omega
    rw [if_neg hne, if_neg hnlt, hend]
    have hmax : (max m e).toNat = max m.toNat e.toNat := by
      by_cases hme : m ≤ e
      · rw [show max m e = e from if_pos hme, max_eq_right (UInt32.le_iff_toNat_le.1 hme)]
      · have := mt UInt32.le_iff_toNat_le.2 hme
        rw [show max m e = m from if_neg hme, max_eq_left (by omega)]
    refine ⟨max m e, rfl, by omega, by omega, fun j hj hjb => ?_⟩
    have := he3 j hj (hjb.trans hbucket.symm)
    omega

/-- after so many buckets the greatest index is past all of theirs -/
theorem reach_all (hp : t.Parsed) (hb : t.Built names) (hsmall : names.length < 2 ^ 32) {m : UInt32}
    (hm : m.toNat < names.length) (n : ℕ) (hn : n ≤ t.nbucket.toNat) :
    ∃ m', (List.range n).foldlM t.reach m = .ok m' ∧ m.toNat ≤ m'.toNat ∧ m'.toNat < names.length ∧
      ∀ j, t.hashed names j → t.bucketOf names j < n → j ≤ m'.toNat := by
  induction n with
  | zero => exact ⟨m, rfl, le_refl _, hm, fun j _ h => absurd h (by omega)⟩
  | succ n ih =>
    obtain ⟨m₁, hfold, hle₁, hlt₁, hall₁⟩ := ih (by omega)
    obtain ⟨m₂, hreach, hle₂, hlt₂, hall₂⟩ := hb.reach hp hsmall hlt₁ (b := n) (by omega)
    refine ⟨m₂, ?_, hle₁.trans hle₂, hlt₂, fun j hj hjb => ?_⟩
    · rw [List.range_succ, List.foldlM_append, hfold]
      simp only [bind, Except.bind, List.foldlM_cons, List.foldlM_nil, hreach]
      rfl
    · obtain hjb | hjb := Nat.lt_succ_iff_lt_or_eq.1 hjb
      · exact (hall₁ j hj hjb).trans hle₂
      · exact hall₂ j hj hjb

theorem symbolCount (hp : t.Parsed) (hb : t.Built names) (hsmall : names.length < 2 ^ 32) :
    ∃ count, t.deriveSymbolCount = .ok count ∧ count.toNat = names.length := by
  have habove := hb.above
  have hwithin := hb.within
  have hone : (1 : UInt32).toNat = 1 := rfl
  have hfrom : (t.symndx - min t.symndx 1).toNat = t.symndx.toNat - 1 := by
    have hle : (1 : UInt32) ≤ t.symndx := UInt32.le_iff_toNat_le.2 (by omega)
    have hmin : min t.symndx 1 = 1 := by
      by_cases hge : t.symndx ≤ 1
      · rw [show min t.symndx 1 = t.symndx from if_pos hge]
        exact UInt32.le_antisymm hge hle
      · exact if_neg hge
    rw [hmin, UInt32.toNat_sub_of_le _ _ hle, hone]
  obtain ⟨m, hfold, hle, hlt, hall⟩ :=
    hb.reach_all hp hsmall (m := t.symndx - min t.symndx 1) (by omega) t.nbucket.toNat (le_refl _)
  have hnb : 0 < t.nbucket.toNat := by
    have : t.nbucket.toNat ≠ 0 := fun h => hp.nbucket (UInt32.toNat_inj.1 h)
    omega
  have hlast : m.toNat + 1 = names.length := by
    by_cases heq : t.symndx.toNat = names.length
    · omega
    · have := hall (names.length - 1) ⟨by omega, by omega⟩ (Nat.mod_lt _ hnb)
      omega
  obtain ⟨hafter, hnext⟩ := after_of_lt (i := m) (by omega)
  refine ⟨m + 1, ?_, by omega⟩
  unfold deriveSymbolCount
  simp only [hfold, bind, Except.bind, hafter]
  rfl

theorem mem_drop_iff {lo : ℕ} {name : Bytes} : name ∈ names.drop lo ↔ ∃ i, lo ≤ i ∧ names[i]? = some name := by
  rw [List.mem_iff_getElem?]
  simp only [List.getElem?_drop]
  constructor
  · rintro ⟨i, hi⟩
    exact ⟨lo + i, by omega, hi⟩
  · rintro ⟨i, hle, hi⟩
    exact ⟨i - lo, by rwa [Nat.add_sub_cancel' hle]⟩

theorem resolves (hp : t.Parsed) (hb : t.Built names) (hs : Symbols symtab strtab names) (hshift : t.shift2 < 32) :
    Resolves (t.lookup symtab strtab) names t.symndx.toNat := by
  intro name
  obtain ⟨word, hword, heq⟩ := hp.lookup_eq symtab strtab name
  have hnb : 0 < t.nbucket.toNat := by
    have : t.nbucket.toNat ≠ 0 := fun h => hp.nbucket (UInt32.toNat_inj.1 h)
    omega
  have hrem : (hash name % t.nbucket).toNat = (hash name).toNat % t.nbucket.toNat := UInt32.toNat_mod _ _
  obtain ⟨first, hheld, hfirst⟩ := hb.bucket ((hash name).toNat % t.nbucket.toNat) (Nat.mod_lt _ hnb)
  rw [← hrem] at hheld
  simp only [shiftRight, if_pos hshift, viewU32_of_holds hheld, refuse, bind, Except.bind] at heq
  have habove := hb.above
  have hzero : (0 : UInt32).toNat = 0 := rfl
  -- past the bloom filter the bucket's chain decides
  have hchain : ∀ found : Except Stop (Option UInt32),
      found = (if first = 0 then pure none
        else if first < t.symndx then .error (.refused (.badGnuHash "bucket points below symndx"))
        else t.walk symtab strtab name (hash name) first) →
      (∃ j : UInt32, t.symndx.toNat ≤ j.toNat ∧ names[j.toNat]? = some name ∧ found = .ok (some j)) ∨
        (found = .ok none ∧ name ∉ names.drop t.symndx.toNat) := by
    rintro found rfl
    obtain ⟨rfl, hnone⟩ | ⟨hin, hbucket, hleast⟩ := hfirst
    · refine .inr ⟨if_pos rfl, fun hmem => ?_⟩
      obtain ⟨i, hi, hname⟩ := mem_drop_iff.1 hmem
      exact hnone i ⟨hi, (List.getElem?_eq_some_iff.1 hname).1⟩ (by rw [bucketOf, hashOf_eq hname])
    · have hle := hin.1
      have hne : first ≠ 0 := by
        rintro rfl
        omega
      have hnlt : ¬first < t.symndx := by
        rw [UInt32.lt_iff_toNat_lt]
        omega
      rw [if_neg hne, if_neg hnlt]
      obtain hfound | ⟨hnone, hall⟩ := hb.walk name hp hs _ first rfl hin
      · exact .inl hfound
      · refine .inr ⟨hnone, fun hmem => ?_⟩
        obtain ⟨i, hi, hname⟩ := mem_drop_iff.1 hmem
        have hi' : t.hashed names i := ⟨hi, (List.getElem?_eq_some_iff.1 hname).1⟩
        have hbi : t.bucketOf names i = (hash name).toNat % t.nbucket.toNat := by rw [bucketOf, hashOf_eq hname]
        exact hall i hi' (hleast i hi' hbi) (hbi.trans hbucket.symm) hname
  constructor
  · intro hmem
    obtain ⟨i, hi, hname⟩ := mem_drop_iff.1 hmem
    obtain ⟨word', hheld', hbit1, hbit2⟩ := hb.bloom i ⟨hi, (List.getElem?_eq_some_iff.1 hname).1⟩
    rw [hashOf_eq hname] at hheld' hbit1 hbit2
    have hle : 1 ≤ t.maskwords.toNat := by
      have : t.maskwords.toNat ≠ 0 := fun h => hp.maskwords (UInt32.toNat_inj.1 h)
      omega
    have hindex : (hash name / 64 &&& (t.maskwords - 1)).toNat =
        (hash name).toNat / 64 &&& (t.maskwords.toNat - 1) := by
      rw [UInt32.toNat_and, UInt32.toNat_div, UInt32.toNat_sub_of_le _ _ (show (1 : UInt32) ≤ t.maskwords from UInt32.le_iff_toNat_le.2 hle)]
      rfl
    have hsame : word = word' := by
      rw [hindex, viewU64_of_holds hheld'] at hword
      exact (Except.ok.inj hword).symm
    have hshift' : t.shift2.toNat % 32 = t.shift2.toNat := Nat.mod_eq_of_lt (UInt32.lt_iff_toNat_lt.1 hshift)
    have h1 : (hash name % 64).toNat = (hash name).toNat % 64 := UInt32.toNat_mod _ _
    have h2 : ((hash name >>> t.shift2) % 64).toNat = (hash name).toNat >>> t.shift2.toNat % 64 := by
      rw [UInt32.toNat_mod, UInt32.toNat_shiftRight, hshift']
      rfl
    rw [hsame, h1, h2, hbit1, hbit2, if_neg (by simp)] at heq
    obtain ⟨j, hj, hj', hfound⟩ | ⟨-, hnot⟩ := hchain _ heq
    · exact ⟨j, hj, hj', hfound⟩
    · exact absurd hmem hnot
  · intro hnot
    split at heq
    · exact heq
    · obtain ⟨j, hj, hj', -⟩ | ⟨hfound, -⟩ := hchain _ heq
      · exact absurd (mem_drop_iff.2 ⟨_, hj, hj'⟩) hnot
      · exact hfound

end Built

end GnuHash

namespace SysvHash

variable (t : SysvHash) (symtab : SymbolTable) (strtab name : Bytes)

theorem walk_ends (n : ℕ) (i : UInt32) : t.walk symtab strtab name n i ≠ .error .overflow := by
  induction n generalizing i with
  | zero => simp [walk]
  | succ n ih =>
    have h1 := t.nbucket.toNat_lt
    have h2 := i.toNat_lt
    unfold walk
    split_ifs
    · simp
    · simp
    · refine bind_ends (symbolName_ends symtab strtab i) fun s _ => ?_
      split_ifs
      · exact pure_ends _
      · refine bind_ends (usize_ends (by omega)) fun _ _ => bind_ends (refuse_ends _) fun next _ => ih next

theorem lookup_ends : t.lookup symtab strtab name ≠ .error .overflow := by
  unfold lookup
  split_ifs with h
  · simp
  · refine bind_ends (by simp [remainder, h]) fun b _ => ?_
    have hb := b.toNat_lt
    exact bind_ends (usize_ends (by omega)) fun _ _ => bind_ends (refuse_ends _) fun i _ => walk_ends t symtab strtab name _ i

theorem walk_named (n : ℕ) (i j : UInt32) (h : t.walk symtab strtab name n i = .ok (some j)) :
    symbolName symtab strtab j = .ok name := by
  induction n generalizing i with
  | zero => cases h
  | succ n ih =>
    unfold walk at h
    split at h
    · cases h
    split at h
    · cases h
    obtain ⟨s, hs, h⟩ := except_bind_ok.1 h
    split_ifs at h with heq
    · cases h
      rw [hs, heq]
    · obtain ⟨chainAt, -, h⟩ := except_bind_ok.1 h
      obtain ⟨next, -, h⟩ := except_bind_ok.1 h
      exact ih next h

theorem lookup_named (j : UInt32) (h : t.lookup symtab strtab name = .ok (some j)) :
    symbolName symtab strtab j = .ok name := by
  unfold lookup at h
  split at h
  · cases h
  obtain ⟨b, -, h⟩ := except_bind_ok.1 h
  obtain ⟨bucketAt, -, h⟩ := except_bind_ok.1 h
  obtain ⟨index, -, h⟩ := except_bind_ok.1 h
  exact walk_named t symtab strtab name _ _ _ h

variable {t symtab strtab name} {names : List Bytes}

/-- links are walked to the first symbol of the name, or to their end -/
theorem Linked.walk (name : Bytes) (hs : Symbols symtab strtab names) (hcount : t.nchain.toNat = names.length) (l : List UInt32)
    (hin : ∀ i ∈ l, 1 ≤ i.toNat ∧ i.toNat < names.length) (n : ℕ) (hn : l.length < n) (first : UInt32)
    (hl : t.Linked first l) :
    (∃ j ∈ l, names[j.toNat]? = some name ∧ t.walk symtab strtab name n first = .ok (some j)) ∨
      (t.walk symtab strtab name n first = .ok none ∧ ∀ j ∈ l, names[j.toNat]? ≠ some name) := by
  induction l generalizing n first with
  | nil =>
    obtain ⟨n, rfl⟩ : ∃ k, n = k + 1 := ⟨n - 1, by omega⟩
    refine .inr ⟨?_, by simp⟩
    rw [show first = 0 from hl, SysvHash.walk, if_pos rfl]
  | cons i l ih =>
    obtain ⟨rfl, next, hheld, hnext⟩ := hl
    obtain ⟨n, rfl⟩ : ∃ k, n = k + 1 := ⟨n - 1, by simp at hn; omega⟩
    obtain ⟨hone, hlt⟩ := hin first List.mem_cons_self
    obtain ⟨found, hfound⟩ : ∃ found, names[first.toNat]? = some found := ⟨_, List.getElem?_eq_getElem hlt⟩
    have hne : first ≠ 0 := by
      rintro rfl
      exact absurd (hone.trans_eq UInt32.toNat_zero) (by omega)
    have hnge : ¬t.nchain ≤ first := by
      rw [UInt32.le_iff_toNat_le, hcount]
      omega
    have h1 := t.nbucket.toNat_lt
    have h2 := first.toNat_lt
    have hstep : t.walk symtab strtab name (n + 1) first =
        if found = name then .ok (some first) else t.walk symtab strtab name n next := by
      rw [SysvHash.walk, if_neg hne, if_neg hnge]
      simp only [hs.symbolName hfound, bind, Except.bind, usize_of_lt (show 8 + t.nbucket.toNat * 4 + first.toNat * 4 <
        2 ^ 64 by omega), viewU32_of_holds hheld, refuse]
      rfl
    by_cases heq : found = name
    · exact .inl ⟨first, List.mem_cons_self, heq ▸ hfound, hstep.trans (if_pos heq)⟩
    · rw [if_neg heq] at hstep
      obtain ⟨j, hj, hj', hwalk⟩ | ⟨hwalk, hall⟩ :=
        ih (fun k hk => hin k (List.mem_cons_of_mem _ hk)) n (by simpa using hn) next hnext
      · exact .inl ⟨j, List.mem_cons_of_mem _ hj, hj', hstep.trans hwalk⟩
      · refine .inr ⟨hstep.trans hwalk, fun j hj hj' => ?_⟩
        obtain rfl | hj := List.mem_cons.1 hj
        · exact heq (Option.some.inj (hfound.symm.trans hj'))
        · exact hall j hj hj'

theorem Built.resolves (hb : t.Built names) (hs : Symbols symtab strtab names) :
    Resolves (t.lookup symtab strtab) names 1 := by
  intro name
  have hnb : 0 < t.nbucket.toNat := by
    have : t.nbucket.toNat ≠ 0 := fun h => hb.nbucket (UInt32.toNat_inj.1 h)
    omega
  obtain ⟨first, l, hheld, hlinked, hnodup, hmem⟩ :=
    hb.bucket ((hash name).toNat % t.nbucket.toNat) (Nat.mod_lt _ hnb)
  have hin : ∀ i ∈ l, 1 ≤ i.toNat ∧ i.toNat < names.length := fun i hi => ⟨((hmem i).1 hi).1, ((hmem i).1 hi).2.1⟩
  -- the links are no more than the symbols, so the rounds do not run out
  have hlen : l.length ≤ names.length := by
    have hsub : (l.map UInt32.toNat) ⊆ List.range names.length := by
      intro k hk
      obtain ⟨i, hi, rfl⟩ := List.mem_map.1 hk
      exact List.mem_range.2 (hin i hi).2
    have hnodup' : (l.map UInt32.toNat).Nodup := hnodup.map fun a b h => UInt32.toNat_inj.1 h
    simpa using (hnodup'.subperm hsub).length_le
  have hlookup : t.lookup symtab strtab name = t.walk symtab strtab name (t.nchain.toNat + 1) first := by
    have hrem : (hash name % t.nbucket).toNat = (hash name).toNat % t.nbucket.toNat := UInt32.toNat_mod _ _
    have hlt : (hash name % t.nbucket).toNat < 2 ^ 32 := UInt32.toNat_lt _
    rw [← hrem] at hheld
    unfold lookup
    rw [if_neg hb.nbucket]
    simp only [remainder, if_neg hb.nbucket, bind, Except.bind,
      usize_of_lt (show 8 + (hash name % t.nbucket).toNat * 4 < 2 ^ 64 by omega), viewU32_of_holds hheld, refuse]
  obtain ⟨j, hj, hj', hwalk⟩ | ⟨hwalk, hall⟩ :=
    hlinked.walk name hs hb.nchain l hin (t.nchain.toNat + 1) (by rw [hb.nchain]; omega) first
  · have hj1 := (hin j hj).1
    exact ⟨fun _ => ⟨j, hj1, hj', hlookup.trans hwalk⟩,
      fun hnot => absurd (GnuHash.Built.mem_drop_iff.2 ⟨_, hj1, hj'⟩) hnot⟩
  · refine ⟨fun hin' => ?_, fun _ => hlookup.trans hwalk⟩
    obtain ⟨i, hi, hname⟩ := GnuHash.Built.mem_drop_iff.1 hin'
    have hlt := (List.getElem?_eq_some_iff.1 hname).1
    have hcount := t.nchain.toNat_lt
    have hi' : (UInt32.ofNat i).toNat = i := UInt32.toNat_ofNat_of_lt' (by rw [hb.nchain] at hcount; exact hlt.trans hcount)
    refine absurd (hi'.symm ▸ hname) (hall (UInt32.ofNat i) ((hmem _).2 ?_))
    rw [hi', List.getD_eq_getElem?_getD, hname]
    exact ⟨hi, hlt, rfl⟩

end SysvHash

/-! ## Both tables -/

/-- a GNU table of one empty bucket, with the given second shift -/
def emptyGnu (shift2 : UInt8) : Bytes :=
  [1, 0, 0, 0, 1, 0, 0, 0, 1, 0, 0, 0, shift2, 0, 0, 0] ++ List.replicate 12 0

end Omnidroid.Elf
