/-
Who owns an instance's files (`Owners`, `omni-linux/src/owners.rs`): a table by host path, and the lines of its log.

- `Path`: a host path as its components; a path that begins with another's components is at or below it.
- `moveTree`: what a rename does to the table, as the code walks it; `get_moveTree`: what is at any path afterwards.
- `Op.record`, `applyLine`: the line an update is logged as, and what loading makes of a line; `applyLine_record`.
- `load_logOf`: loading a log of updates makes them again; `load_cut`: one cut off before the last record's last field has
  begun is loaded without that record.
-/
import Mathlib.Data.Prod.Lex
import Omnidroid.Lib.Ordered
import Omnidroid.Lib.Lines

namespace Omnidroid.Owners

open Bytes Lines

def TAB : UInt8 := 9
def SLASH : UInt8 := 47

/-! ## Paths -/

/-- a component of a path -/
structure Name where
  bytes : Bytes
  plain : bytes ≠ [] ∧ bytes ≠ [46] ∧ SLASH ∉ bytes

/-- components compare by their bytes; `..` comes before every name -/
def Name.key (n : Name) : Bool ×ₗ List ℕ := toLex (decide (n.bytes ≠ [46, 46]), n.bytes.map UInt8.toNat)

theorem key_injective : Function.Injective Name.key := by
  intro a b h
  have hb : a.bytes.map UInt8.toNat = b.bytes.map UInt8.toNat := congrArg Prod.snd (toLex.injective h)
  have hbytes : a.bytes = b.bytes := List.map_injective_iff.mpr (fun x y => UInt8.toNat_inj.mp) hb
  cases a
  cases b
  cases hbytes
  rfl

instance linearName : LinearOrder Name := LinearOrder.lift' Name.key key_injective

/-- an absolute path -/
abbrev Path := List Name

/-- `Path::strip_prefix` -/
def strip (root p : Path) : Option Path := if root.isPrefixOf p then some (p.drop root.length) else none

theorem strip_append (r s : Path) : strip r (r ++ s) = some s := by
  unfold strip
  rw [if_pos (List.isPrefixOf_iff_prefix.mpr (List.prefix_append r s)), List.drop_left]

theorem strip_some {r p s : Path} (h : strip r p = some s) : p = r ++ s := by
  unfold strip at h
  split_ifs at h with hp
  · obtain ⟨s', rfl⟩ := List.isPrefixOf_iff_prefix.mp hp
    rw [List.drop_left] at h
    rw [Option.some.inj h]

theorem strip_none {r p : Path} (h : strip r p = none) : ¬r <+: p := by
  rintro ⟨s, rfl⟩
  rw [strip_append] at h
  cases h

def Name.of? (b : Bytes) : Option Name := if h : b ≠ [] ∧ b ≠ [46] ∧ SLASH ∉ b then some ⟨b, h⟩ else none

/-- `Path::components` of text -/
def components (b : Bytes) : Path := (b.splitOn SLASH).filterMap Name.of?

/-- `Path::join`: an absolute path takes the other's place -/
def join (base : Path) (rel : Bytes) : Path := if rel.head? = some SLASH then components rel else base ++ components rel

def joined (p : Path) : Bytes := [SLASH].intercalate (p.map Name.bytes)

/-- `relative`: the path below the instance, if a line can hold it -/
def relative (inst p : Path) : Option Bytes :=
  match strip inst p with
  | none => none
  | some rest => if rest.all (utf8 ·.bytes) then (if TAB ∈ joined rest ∨ NEWLINE ∈ joined rest then none else some (joined rest)) else none

/-! ## The table -/

/-- an inode's owner and permission bits -/
structure Owner where
  uid : UInt32
  gid : UInt32
  mode : UInt32
deriving DecidableEq

abbrev Table := Ordered Path Owner

/-- `under`: `root` and all below it -/
def under (m : Table) (root : Path) : List Path := (m.stretch root (root.isPrefixOf ·)).map (·.1)

/-- entries taken out, one after the other -/
def takeOut : Table → List Path → Table × List (Path × Owner)
  | m, [] => (m, [])
  | m, p :: ps =>
    match m.get p with
    | none => takeOut m ps
    | some o => ((takeOut (m.remove p) ps).1, (p, o) :: (takeOut (m.remove p) ps).2)

/-- `move_tree` -/
def moveTree (m : Table) (from_ to_ : Path) : Table :=
  let (m, moved) := takeOut m (under m from_)
  let m := m.removeAll (under m to_)
  m.insertAll (moved.filterMap fun e => (strip from_ e.1).map fun rest => (to_ ++ rest, e.2))

inductive Op where
  | set (host : Path) (owner : Owner)
  | forget (host : Path)
  | rename (from_ to_ : Path)
deriving DecidableEq

/-- the lock section on the map -/
def Op.on (op : Op) (m : Table) : Table :=
  match op with
  | .set host owner => m.insert host owner
  | .forget host => m.remove host
  | .rename from_ to_ => moveTree m from_ to_

/-! ## The log -/

def letter (c : Char) : Bytes := [UInt8.ofNat c.toNat]

/-- the fields an update is logged as, if it is -/
def Op.fields (inst : Path) : Op → Option (List Bytes)
  | .set host owner =>
    (relative inst host).map fun rel =>
      [letter 'S', numeral 8 owner.mode.toNat, numeral 10 owner.uid.toNat, numeral 10 owner.gid.toNat, rel]
  | .forget host => (relative inst host).map fun rel => [letter 'D', rel]
  | .rename from_ to_ =>
    match relative inst from_, relative inst to_ with
    | some f, some t => some [letter 'R', f, t]
    | _, _ => none

def lineOf (fields : List Bytes) : Bytes := [TAB].intercalate fields

/-- what `append` writes -/
def Op.record (inst : Path) (op : Op) : Bytes :=
  match op.fields inst with
  | some fields => lineOf fields ++ [NEWLINE]
  | none => []

/-- what loading makes of a line -/
def applyLine (inst : Path) (m : Table) (l : Bytes) : Table :=
  match l.splitOn TAB with
  | [k, mode, uid, gid, rel] =>
    if k = letter 'S' then
      match parseU32 8 mode, parseU32 10 uid, parseU32 10 gid with
      | some mode, some uid, some gid => m.insert (join inst rel) { uid, gid, mode }
      | _, _, _ => m
    else m
  | [k, rel] => if k = letter 'D' then m.remove (join inst rel) else m
  | [k, from_, to_] => if k = letter 'R' then moveTree m (join inst from_) (join inst to_) else m
  | _ => m

/-- `Owners::load`, of the log's bytes -/
def load (inst : Path) (file : Bytes) : Table := if utf8 file then (lines file).foldl (applyLine inst) .empty else .empty

/-- `compact`: one line an entry, as the table is now -/
def compacted (inst : Path) (m : Table) : Bytes := m.entries.flatMap fun e => (Op.set e.1 e.2).record inst

/-! ## What a rename does to the table -/

/-- what is at a path, as a function -/
abbrev View := Path → Option Owner

/-- what an update does to it -/
def Op.sem : Op → View → View
  | .set host owner, s => Function.update s host (some owner)
  | .forget host, s => Function.update s host none
  | .rename from_ to_, s => fun q =>
    match strip to_ q with
    | some rest => s (from_ ++ rest)
    | none => if from_.isPrefixOf q then none else s q

theorem sem_below {from_ to_ q rest : Path} (s : View) (h : strip to_ q = some rest) : (Op.rename from_ to_).sem s q = s (from_ ++ rest) := by
  simp only [Op.sem, h]

theorem sem_beside {from_ to_ q : Path} (s : View) (h : strip to_ q = none) :
    (Op.rename from_ to_).sem s q = if from_.isPrefixOf q then none else s q := by
  simp only [Op.sem, h]

theorem mem_under {m : Table} {root q : Path} : q ∈ under m root ↔ root <+: q ∧ (m.get q).isSome := by
  unfold under
  rw [List.mem_map]
  constructor
  · rintro ⟨⟨q, o⟩, he, rfl⟩
    obtain ⟨hm, hp⟩ := (Ordered.prefix_stretch root _).mp he
    exact ⟨hp, Option.isSome_iff_exists.mpr ⟨o, Ordered.mem_entries.mp hm⟩⟩
  · rintro ⟨hp, hs⟩
    obtain ⟨o, ho⟩ := Option.isSome_iff_exists.mp hs
    exact ⟨(q, o), (Ordered.prefix_stretch root _).mpr ⟨Ordered.mem_entries.mpr ho, hp⟩, rfl⟩

theorem under_nodup (m : Table) (root : Path) : (under m root).Nodup :=
  m.keys_nodup.sublist ((m.stretch_sublist root _).map _)

/-- what is taken out is gone, and is what was there -/
theorem takeOut_spec {ps : List Path} (h : ps.Nodup) (m : Table) :
    (∀ q, (takeOut m ps).1.get q = if q ∈ ps then none else m.get q) ∧
      (takeOut m ps).2 = ps.filterMap fun p => (m.get p).map fun o => (p, o) := by
  induction ps generalizing m with
  | nil => exact ⟨fun q => rfl, rfl⟩
  | cons p ps ih =>
    obtain ⟨hp, hps⟩ := List.nodup_cons.mp h
    cases hg : m.get p with
    | none =>
      obtain ⟨hget, hout⟩ := ih hps m
      refine ⟨fun q => ?_, ?_⟩
      · rw [takeOut, hg]
        dsimp only
        rw [hget]
        by_cases hq : q = p
        · rw [hq, if_neg hp, if_pos List.mem_cons_self, hg]
        · simp only [List.mem_cons, hq, false_or]
      · rw [takeOut, hg, List.filterMap_cons, hg]
        exact hout
    | some o =>
      obtain ⟨hget, hout⟩ := ih hps (m.remove p)
      refine ⟨fun q => ?_, ?_⟩
      · rw [takeOut, hg]
        dsimp only
        rw [hget, Ordered.get_remove]
        by_cases hq : q = p
        · rw [hq, if_neg hp, if_pos rfl, if_pos List.mem_cons_self]
        · simp only [List.mem_cons, hq, false_or, if_false]
      · rw [takeOut, hg, List.filterMap_cons, hg]
        dsimp only [Option.map_some]
        rw [hout]
        refine congrArg _ (List.filterMap_congr fun q hq => ?_)
        rw [Ordered.get_remove, if_neg fun he : q = p => hp (he ▸ hq)]

/-- what is found among entries put under a path: the entry of the rest -/
theorem lookup_moved {l : List (Path × Owner)} {from_ to_ : Path} (h : ∀ e ∈ l, from_ <+: e.1) (q : Path) :
    Ordered.lookup (l.filterMap fun e => (strip from_ e.1).map fun rest => (to_ ++ rest, e.2)) q =
      match strip to_ q with
      | some rest => Ordered.lookup l (from_ ++ rest)
      | none => none := by
  induction l with
  | nil => cases strip to_ q <;> rfl
  | cons e l ih =>
    obtain ⟨s, hs⟩ := h e List.mem_cons_self
    have hstrip : strip from_ e.1 = some s := by rw [← hs, strip_append]
    have ih' := ih fun e he => h e (List.mem_cons_of_mem _ he)
    rw [List.filterMap_cons, hstrip]
    dsimp only [Option.map_some]
    rw [Ordered.lookup_cons, ih']
    by_cases hq : to_ ++ s = q
    · rw [if_pos hq, ← hq, strip_append]
      dsimp only
      rw [Ordered.lookup_cons, if_pos hs.symm]
    · rw [if_neg hq]
      cases hto : strip to_ q with
      | none => rfl
      | some rest =>
        have hne : e.1 ≠ from_ ++ rest := by
          intro heq
          rw [← hs] at heq
          rw [strip_some hto, List.append_cancel_left heq] at hq
          exact hq rfl
        dsimp only
        rw [Ordered.lookup_cons, if_neg hne]

theorem moved_nodup {l : List (Path × Owner)} {from_ to_ : Path} (h : (l.map (·.1)).Nodup) :
    ((l.filterMap fun e => (strip from_ e.1).map fun rest => (to_ ++ rest, e.2)).map (·.1)).Nodup := by
  induction l with
  | nil => exact List.nodup_nil
  | cons e l ih =>
    obtain ⟨hnot, hnodup⟩ := List.nodup_cons.mp h
    rw [List.filterMap_cons]
    cases hs : strip from_ e.1 with
    | none => exact ih hnodup
    | some s =>
      dsimp only [Option.map_some]
      refine List.nodup_cons.mpr ⟨?_, ih hnodup⟩
      intro hm
      obtain ⟨e', he', heq⟩ := List.mem_map.mp hm
      obtain ⟨e'', hmem, hmap⟩ := List.mem_filterMap.mp he'
      obtain ⟨s', hs', rfl⟩ := Option.map_eq_some_iff.mp hmap
      have hss : s' = s := List.append_cancel_left heq
      refine hnot (List.mem_map.mpr ⟨e'', hmem, ?_⟩)
      exact (strip_some hs').trans (hss ▸ (strip_some hs).symm)

/-- **`move_tree`**: what is at or below the new path is what was at or below the old one; nothing is left there, and nothing else
is touched, whatever characters it shares -/
theorem get_moveTree (m : Table) (from_ to_ : Path) : (moveTree m from_ to_).get = (Op.rename from_ to_).sem m.get := by
  funext q
  obtain ⟨hget, hout⟩ := takeOut_spec (under_nodup m from_) m
  have hmoved : ∀ e ∈ (takeOut m (under m from_)).2, from_ <+: e.1 := by
    rw [hout]
    intro e he
    obtain ⟨p, hp, hmap⟩ := List.mem_filterMap.mp he
    obtain ⟨o, -, rfl⟩ := Option.map_eq_some_iff.mp hmap
    exact (mem_under.mp hp).1
  have hkeys : ((takeOut m (under m from_)).2.map (·.1)) = under m from_ := by
    rw [hout, List.map_filterMap]
    refine (List.filterMap_congr fun p hp => ?_).trans List.filterMap_some
    obtain ⟨o, ho⟩ := Option.isSome_iff_exists.mp (mem_under.mp hp).2
    rw [ho]
    rfl
  have hnodup : ((takeOut m (under m from_)).2.map (·.1)).Nodup := by
    rw [hkeys]
    exact under_nodup m from_
  have hfind : ∀ p, from_ <+: p → Ordered.lookup (takeOut m (under m from_)).2 p = m.get p := by
    intro p hp
    refine Option.ext fun o => ?_
    rw [Ordered.lookup_iff hnodup, hout]
    constructor
    · intro hm
      obtain ⟨p', -, hmap⟩ := List.mem_filterMap.mp hm
      obtain ⟨o', ho', he⟩ := Option.map_eq_some_iff.mp hmap
      cases he
      exact ho'
    · intro ho
      exact List.mem_filterMap.mpr ⟨p, mem_under.mpr ⟨hp, by rw [ho]; rfl⟩, by rw [ho]; rfl⟩
  unfold moveTree
  dsimp only
  rw [Ordered.get_insertAll (moved_nodup hnodup), lookup_moved hmoved, Ordered.get_removeAll, hget]
  cases hto : strip to_ q with
  | some rest =>
    rw [sem_below _ hto]
    dsimp only
    rw [hfind _ (List.prefix_append from_ rest)]
    cases hs : m.get (from_ ++ rest) with
    | some o => rfl
    | none =>
      -- what was there has been taken out, moved away or replaced
      rw [Option.none_or]
      split_ifs with h₁ h₂
      · rfl
      · rfl
      · refine Option.not_isSome_iff_eq_none.mp fun hsome => h₁ (mem_under.mpr ⟨?_, ?_⟩)
        · rw [strip_some hto]
          exact List.prefix_append _ _
        · rw [hget, if_neg h₂]
          exact hsome
  | none =>
    have hnot : q ∉ under (takeOut m (under m from_)).1 to_ := fun hq => strip_none hto (mem_under.mp hq).1
    rw [sem_beside _ hto]
    dsimp only
    rw [Option.none_or, if_neg hnot]
    by_cases hp : from_ <+: q
    · rw [if_pos (List.isPrefixOf_iff_prefix.mpr hp)]
      split_ifs with hu
      · rfl
      · exact Option.not_isSome_iff_eq_none.mp fun hs => hu (mem_under.mpr ⟨hp, hs⟩)
    · rw [if_neg (fun h => hp (List.isPrefixOf_iff_prefix.mp h)), if_neg fun h => hp (mem_under.mp h).1]

/-- the table after an update, as its function -/
theorem get_on (op : Op) (m : Table) : (op.on m).get = op.sem m.get := by
  cases op with
  | set host owner =>
    funext q
    rw [Op.on, Ordered.get_insert]
    by_cases hq : q = host
    · simp [Op.sem, hq]
    · simp [Op.sem, hq]
  | forget host =>
    funext q
    rw [Op.on, Ordered.get_remove]
    by_cases hq : q = host
    · simp [Op.sem, hq]
    · simp [Op.sem, hq]
  | rename from_ to_ => exact get_moveTree m from_ to_

/-! ## Paths a line can hold -/

def Name.Holds (n : Name) : Prop := utf8 n.bytes ∧ TAB ∉ n.bytes ∧ NEWLINE ∉ n.bytes

/-- inside the instance, Unicode, no tab or newline -/
def Loggable (inst p : Path) : Prop := ∃ rest, p = inst ++ rest ∧ ∀ n ∈ rest, n.Holds

theorem joined_cons (n : Name) (rest : Path) (hne : rest ≠ []) : joined (n :: rest) = n.bytes ++ SLASH :: joined rest := by
  obtain ⟨n', rest', rfl⟩ := List.exists_cons_of_ne_nil hne
  simp [joined, List.intercalate]

theorem joined_singleton (n : Name) : joined [n] = n.bytes := by
  simp [joined, List.intercalate]

theorem mem_joined {c : UInt8} (hc : c ≠ SLASH) (p : Path) : c ∈ joined p ↔ ∃ n ∈ p, c ∈ n.bytes := by
  induction p with
  | nil => simp [joined, List.intercalate]
  | cons n rest ih =>
    by_cases hne : rest = []
    · rw [hne, joined_singleton]
      simp
    · rw [joined_cons n rest hne]
      simp [ih, hc]

theorem relative_some {inst p : Path} {rel : Bytes} (h : relative inst p = some rel) :
    ∃ rest, p = inst ++ rest ∧ rel = joined rest ∧ ∀ n ∈ rest, n.Holds := by
  unfold relative at h
  split at h
  · cases h
  · next rest hs =>
    split_ifs at h with hall hbad
    · obtain ⟨htab, hline⟩ := not_or.mp hbad
      refine ⟨rest, strip_some hs, (Option.some.inj h).symm, fun n hn => ⟨List.all_eq_true.mp hall n hn, ?_, ?_⟩⟩
      · exact fun hm => htab ((mem_joined (by decide) rest).mpr ⟨n, hn, hm⟩)
      · exact fun hm => hline ((mem_joined (by decide) rest).mpr ⟨n, hn, hm⟩)

theorem relative_of {inst rest : Path} (h : ∀ n ∈ rest, n.Holds) : relative inst (inst ++ rest) = some (joined rest) := by
  unfold relative
  rw [strip_append]
  dsimp only
  rw [if_pos (List.all_eq_true.mpr fun n hn => (h n hn).1), if_neg]
  rintro (hm | hm)
  · obtain ⟨n, hn, hc⟩ := (mem_joined (by decide) rest).mp hm
    exact (h n hn).2.1 hc
  · obtain ⟨n, hn, hc⟩ := (mem_joined (by decide) rest).mp hm
    exact (h n hn).2.2 hc

theorem loggable_iff {inst p : Path} : Loggable inst p ↔ (relative inst p).isSome := by
  constructor
  · rintro ⟨rest, rfl, h⟩
    rw [relative_of h]
    rfl
  · intro h
    obtain ⟨rel, hrel⟩ := Option.isSome_iff_exists.mp h
    obtain ⟨rest, hp, -, hall⟩ := relative_some hrel
    exact ⟨rest, hp, hall⟩

/-- components come back from the text they are joined to -/
theorem components_joined (p : Path) : components (joined p) = p := by
  by_cases hne : p = []
  · subst hne
    decide
  · unfold components joined
    rw [List.splitOn_intercalate _ (by
      intro l hl
      obtain ⟨n, -, rfl⟩ := List.mem_map.mp hl
      exact n.plain.2.2) (by simpa using hne), List.filterMap_map]
    refine (List.filterMap_congr fun n _ => ?_).trans List.filterMap_some
    simp only [Function.comp_apply, Name.of?, dif_pos n.plain]

theorem joined_head {n : Name} {rest : Path} : (joined (n :: rest)).head? ≠ some SLASH := by
  obtain ⟨c, cs, hc⟩ := List.exists_cons_of_ne_nil n.plain.1
  have hslash : c ≠ SLASH := fun h => n.plain.2.2 (by rw [hc, h]; exact List.mem_cons_self)
  by_cases hne : rest = []
  · rw [hne, joined_singleton, hc]
    exact fun h => hslash (Option.some.inj h)
  · rw [joined_cons n rest hne, hc]
    exact fun h => hslash (Option.some.inj h)

/-- a path comes back from what is logged of it -/
theorem join_relative {inst p : Path} {rel : Bytes} (h : relative inst p = some rel) : join inst rel = p := by
  obtain ⟨rest, rfl, rfl, -⟩ := relative_some h
  unfold join
  cases rest with
  | nil =>
    rw [if_neg (by decide), components_joined]
  | cons n rest => rw [if_neg joined_head, components_joined]

/-! ## Lines -/

/-- the path whose end is the end of the line -/
def Op.last : Op → Path
  | .set host _ => host
  | .forget host => host
  | .rename _ to_ => to_

/-- its last name does not end in a carriage return -/
def Clean (p : Path) : Prop := ∀ n ∈ p.getLast?, n.bytes.getLast? ≠ some 13

/-- an update that is logged, on a line that is read as it was written -/
def Op.Good (inst : Path) (op : Op) : Prop := (op.fields inst).isSome ∧ Clean op.last

def logOf (inst : Path) (ops : List Op) : Bytes := ops.flatMap (Op.record inst)

/-- a field of a line -/
def Field (b : Bytes) : Prop := utf8 b ∧ TAB ∉ b ∧ NEWLINE ∉ b

theorem field_numeral {base : ℕ} (hb : 1 < base) (hten : base ≤ 10) (n : ℕ) : Field (numeral base n) := by
  have hd := numeral_digits hb hten n
  refine ⟨utf8_ascii fun c hc => ?_, fun hc => ?_, fun hc => ?_⟩
  · have := hd c hc
    omega
  · exact absurd (hd _ hc).1 (by decide)
  · exact absurd (hd _ hc).1 (by decide)

theorem utf8_joined {p : Path} (h : ∀ n ∈ p, n.Holds) : utf8 (joined p) := by
  induction p with
  | nil => exact utf8_nil
  | cons n rest ih =>
    have hrest := ih fun n hn => h n (List.mem_cons_of_mem _ hn)
    have hn := (h n List.mem_cons_self).1
    by_cases hne : rest = []
    · rw [hne, joined_singleton]
      exact hn
    · rw [joined_cons n rest hne]
      exact utf8_append hn (utf8_append (a := [SLASH]) (utf8_all rfl) hrest)

theorem field_relative {inst p : Path} {rel : Bytes} (h : relative inst p = some rel) : Field rel := by
  obtain ⟨rest, -, rfl, hall⟩ := relative_some h
  refine ⟨utf8_joined hall, fun hm => ?_, fun hm => ?_⟩
  · obtain ⟨n, hn, hc⟩ := (mem_joined (by decide) rest).mp hm
    exact (hall n hn).2.1 hc
  · obtain ⟨n, hn, hc⟩ := (mem_joined (by decide) rest).mp hm
    exact (hall n hn).2.2 hc

theorem field_letter {c : Char} (h : 9 < c.toNat ∧ c.toNat < 128 ∧ c.toNat ≠ 10) : Field (letter c) := by
  have hn : (UInt8.ofNat c.toNat).toNat = c.toNat := by
    rw [UInt8.toNat_ofNat']
    omega
  refine ⟨utf8_ascii fun d hd => ?_, fun hd => ?_, fun hd => ?_⟩
  · rw [List.mem_singleton.mp hd, hn]
    exact h.2.1
  · have := congrArg UInt8.toNat (List.mem_singleton.mp hd)
    rw [hn] at this
    change 9 = _ at this
    omega
  · have := congrArg UInt8.toNat (List.mem_singleton.mp hd)
    rw [hn] at this
    change 10 = _ at this
    omega

/-- every update's fields are fields, and the last is what is logged of its last path -/
theorem fields_spec {inst : Path} {op : Op} {fields : List Bytes} (h : op.fields inst = some fields) :
    (∀ f ∈ fields, Field f) ∧ ∃ init rel, init ≠ [] ∧ fields = init ++ [rel] ∧ relative inst op.last = some rel := by
  cases op with
  | set host owner =>
    obtain ⟨rel, hrel, rfl⟩ := Option.map_eq_some_iff.mp h
    refine ⟨?_, [letter 'S', numeral 8 owner.mode.toNat, numeral 10 owner.uid.toNat, numeral 10 owner.gid.toNat], rel,
      List.cons_ne_nil _ _, rfl, hrel⟩
    intro f hf
    simp only [List.mem_cons, List.not_mem_nil, or_false] at hf
    rcases hf with rfl | rfl | rfl | rfl | rfl
    · exact field_letter (by decide)
    · exact field_numeral (by decide) (by decide) _
    · exact field_numeral (by decide) (by decide) _
    · exact field_numeral (by decide) (by decide) _
    · exact field_relative hrel
  | forget host =>
    obtain ⟨rel, hrel, rfl⟩ := Option.map_eq_some_iff.mp h
    refine ⟨?_, [letter 'D'], rel, List.cons_ne_nil _ _, rfl, hrel⟩
    intro f hf
    simp only [List.mem_cons, List.not_mem_nil, or_false] at hf
    rcases hf with rfl | rfl
    · exact field_letter (by decide)
    · exact field_relative hrel
  | rename from_ to_ =>
    simp only [Op.fields] at h
    split at h
    · next f t hf ht =>
      cases h
      refine ⟨?_, [letter 'R', f], t, List.cons_ne_nil _ _, rfl, ht⟩
      intro g hg
      simp only [List.mem_cons, List.not_mem_nil, or_false] at hg
      rcases hg with rfl | rfl | rfl
      · exact field_letter (by decide)
      · exact field_relative hf
      · exact field_relative ht
    · cases h

theorem lineOf_concat {init : List Bytes} (h : init ≠ []) (rel : Bytes) : lineOf (init ++ [rel]) = lineOf init ++ TAB :: rel := by
  unfold lineOf
  induction init with
  | nil => exact absurd rfl h
  | cons a init ih =>
    cases init with
    | nil => simp [List.intercalate]
    | cons b init =>
      have ih' := ih (List.cons_ne_nil _ _)
      simp only [List.intercalate, List.cons_append, List.intersperse_cons_cons, List.flatten_cons, List.append_assoc] at ih' ⊢
      rw [ih']

theorem lineOf_fields {fields : List Bytes} (h : ∀ f ∈ fields, Field f) : utf8 (lineOf fields) ∧ NEWLINE ∉ lineOf fields := by
  induction fields using List.reverseRecOn with
  | nil => exact ⟨utf8_nil, List.not_mem_nil⟩
  | append_singleton init rel ih =>
    have hrel := h rel (List.mem_append_right _ (List.mem_singleton.mpr rfl))
    obtain ⟨hutf, hline⟩ := ih fun f hf => h f (List.mem_append_left _ hf)
    by_cases hne : init = []
    · subst hne
      have hone : lineOf ([] ++ [rel]) = rel := by simp [lineOf, List.intercalate]
      rw [hone]
      exact ⟨hrel.1, hrel.2.2⟩
    · rw [lineOf_concat hne]
      refine ⟨utf8_append hutf (utf8_append (a := [TAB]) (utf8_all rfl) hrel.1), ?_⟩
      rw [List.mem_append, List.mem_cons]
      rintro (hm | hm | hm)
      · exact hline hm
      · exact absurd hm (by decide)
      · exact hrel.2.2 hm

theorem joined_getLast (rest : Path) (n : Name) : (joined (rest ++ [n])).getLast? = n.bytes.getLast? := by
  obtain ⟨x, hx⟩ := Option.isSome_iff_exists.mp (List.getLast?_isSome.mpr n.plain.1)
  induction rest with
  | nil => rw [List.nil_append, joined_singleton]
  | cons a rest ih =>
    rw [List.cons_append, joined_cons a _ (by simp), List.getLast?_append_cons, List.getLast?_cons, ih, hx]
    rfl

/-- a line's last byte is its last path's, and no carriage return -/
theorem stripCr_line {inst : Path} {op : Op} {fields : List Bytes} (h : op.fields inst = some fields) (hc : Clean op.last) :
    stripCr (lineOf fields) = lineOf fields := by
  obtain ⟨-, init, rel, hne, rfl, hrel⟩ := fields_spec h
  refine stripCr_eq ?_
  rw [lineOf_concat hne, List.getLast?_append_cons, List.getLast?_cons]
  obtain ⟨rest, hlast, rfl, -⟩ := relative_some hrel
  rcases List.eq_nil_or_concat rest with rfl | ⟨init, n, rfl⟩
  · decide
  · have hcr := hc n (by rw [hlast, List.concat_eq_append, ← List.append_assoc, List.getLast?_concat]; rfl)
    rw [List.concat_eq_append, joined_getLast]
    obtain ⟨x, hx⟩ := Option.isSome_iff_exists.mp (List.getLast?_isSome.mpr n.plain.1)
    rw [hx] at hcr ⊢
    exact hcr

/-! ## Loading -/

/-- **A line is read back** as the update it was written for. -/
theorem applyLine_record {inst : Path} {op : Op} {fields : List Bytes} (h : op.fields inst = some fields) (m : Table) :
    applyLine inst m (lineOf fields) = op.on m := by
  have hsplit : (lineOf fields).splitOn TAB = fields := by
    obtain ⟨hall, init, rel, hne, rfl, -⟩ := fields_spec h
    exact List.splitOn_intercalate _ (fun f hf => (hall f hf).2.1) (by simp)
  cases op with
  | set host owner =>
    obtain ⟨rel, hrel, rfl⟩ := Option.map_eq_some_iff.mp h
    unfold applyLine
    rw [hsplit]
    dsimp only
    rw [if_pos rfl, parseU32_numeral (by decide) (by decide), parseU32_numeral (by decide) (by decide),
      parseU32_numeral (by decide) (by decide)]
    dsimp only
    rw [join_relative hrel]
    rfl
  | forget host =>
    obtain ⟨rel, hrel, rfl⟩ := Option.map_eq_some_iff.mp h
    unfold applyLine
    rw [hsplit]
    dsimp only
    rw [if_pos rfl, join_relative hrel]
    rfl
  | rename from_ to_ =>
    simp only [Op.fields] at h
    split at h
    · next f t hf ht =>
      cases h
      unfold applyLine
      rw [hsplit]
      dsimp only
      rw [if_pos rfl, join_relative hf, join_relative ht]
      rfl
    · cases h

theorem Op.Good.record {inst : Path} {op : Op} (h : op.Good inst) :
    ∃ l, op.record inst = l ++ [NEWLINE] ∧ utf8 l ∧ NEWLINE ∉ l ∧ stripCr l = l ∧ ∀ m, applyLine inst m l = op.on m := by
  obtain ⟨fields, hf⟩ := Option.isSome_iff_exists.mp h.1
  obtain ⟨hutf, hline⟩ := lineOf_fields (fields_spec hf).1
  refine ⟨lineOf fields, ?_, hutf, hline, stripCr_line hf h.2, applyLine_record hf⟩
  unfold Op.record
  rw [hf]

variable {inst : Path} {ops : List Op}

theorem utf8_logOf (h : ∀ op ∈ ops, op.Good inst) : utf8 (logOf inst ops) := by
  refine utf8_flatMap fun op hop => ?_
  obtain ⟨l, hl, hutf, -⟩ := (h op hop).record
  rw [hl]
  exact utf8_append hutf (utf8_all rfl)

/-- the lines of a log of updates make them again -/
theorem fold_logOf (h : ∀ op ∈ ops, op.Good inst) (rest : Bytes) (m : Table) :
    (lines (logOf inst ops ++ rest)).foldl (applyLine inst) m =
      (lines rest).foldl (applyLine inst) (ops.foldl (fun m op => op.on m) m) := by
  induction ops generalizing m with
  | nil => rfl
  | cons op ops ih =>
    obtain ⟨l, hl, -, hline, hcr, happly⟩ := (h op List.mem_cons_self).record
    have hlog : logOf inst (op :: ops) ++ rest = l ++ NEWLINE :: (logOf inst ops ++ rest) := by
      simp [logOf, hl]
    rw [hlog, lines_line hline, List.foldl_cons, hcr, happly, ih fun op hop => h op (List.mem_cons_of_mem _ hop), List.foldl_cons]

theorem load_logOf (h : ∀ op ∈ ops, op.Good inst) : load inst (logOf inst ops) = ops.foldl (fun m op => op.on m) .empty := by
  have hfold := fold_logOf h [] .empty
  rw [List.append_nil] at hfold
  unfold load
  rw [if_pos (utf8_logOf h), hfold]
  rfl

/-- a line of which nothing is made -/
theorem applyLine_ignored {l : Bytes}
    (h : ∀ k fields, l.splitOn TAB = k :: fields →
      (fields.length = 4 → k ≠ letter 'S') ∧ (fields.length = 1 → k ≠ letter 'D') ∧ (fields.length = 2 → k ≠ letter 'R')) (m : Table) :
    applyLine inst m l = m := by
  unfold applyLine
  split
  · next k mode uid gid rel hs => rw [if_neg ((h _ _ hs).1 rfl)]
  · next k rel hs => rw [if_neg ((h _ _ hs).2.1 rfl)]
  · next k from_ to_ hs => rw [if_neg ((h _ _ hs).2.2 rfl)]
  · rfl

/-- the first field of a line begins as the line does -/
theorem head_splitOn {c : UInt8} (hc : c ≠ TAB) (l : Bytes) {k : Bytes} {fields : List Bytes}
    (h : (c :: l).splitOn TAB = k :: fields) : ∃ k', k = c :: k' := by
  rw [List.splitOn_cons_eq_if_modifyHead, if_neg (by simpa using hc)] at h
  cases hs : l.splitOn TAB with
  | nil => exact absurd hs (List.splitOn_ne_nil _ _)
  | cons k' fields' =>
    rw [hs] at h
    exact ⟨k', (List.cons.inj h).1.symm⟩

/-- a cut of a record that leaves text, and does not leave the record's last tab -/
def Early (inst : Path) (op : Op) (k : ℕ) : Prop :=
  utf8 ((op.record inst).take k) ∧ ((op.record inst).take k).count TAB < (op.record inst).count TAB

theorem count_record {op : Op} {fields : List Bytes} (h : op.fields inst = some fields) : (op.record inst).count TAB + 1 = fields.length := by
  have hsplit : (lineOf fields).splitOn TAB = fields := by
    obtain ⟨hall, init, rel, hne, rfl, -⟩ := fields_spec h
    exact List.splitOn_intercalate _ (fun f hf => (hall f hf).2.1) (by simp)
  have hlen := length_splitOn TAB (lineOf fields)
  rw [hsplit] at hlen
  unfold Op.record
  rw [h]
  dsimp only
  rw [List.count_append, hlen]
  rfl

/-- nothing is made of a record cut off early -/
theorem applyLine_early {op : Op} {k : ℕ} (h : (op.fields inst).isSome) (he : Early inst op k) (m : Table) :
    applyLine inst m ((op.record inst).take k) = m := by
  obtain ⟨fields, hf⟩ := Option.isSome_iff_exists.mp h
  have hcount := count_record hf
  refine applyLine_ignored (fun key rest hs => ?_) m
  have hlen := length_splitOn TAB ((op.record inst).take k)
  have hlt := he.2
  rw [hs, List.length_cons] at hlen
  -- the first field, if there is any text at all, begins with the record's letter
  have hkey : ∀ c l, op.record inst = c :: l → c ≠ TAB → rest ≠ [] → ∃ k', key = c :: k' := by
    intro c l hrec hc hne
    rw [hrec] at hs
    cases k with
    | zero => exact absurd (List.cons.inj hs).2.symm hne
    | succ k =>
      rw [List.take_succ_cons] at hs
      exact head_splitOn hc _ hs
  have hletter : ∀ c l, op.record inst = c :: l → c ≠ TAB → ∀ d : Char, c ≠ UInt8.ofNat d.toNat → rest ≠ [] → key ≠ letter d := by
    intro c l hrec hc d hd hne he
    obtain ⟨k', hk⟩ := hkey c l hrec hc hne
    rw [hk] at he
    exact hd (List.cons.inj he).1
  cases op with
  | set host owner =>
    obtain ⟨rel, -, rfl⟩ := Option.map_eq_some_iff.mp hf
    have hrec : ∃ l, (Op.set host owner).record inst = 83 :: l := by
      unfold Op.record
      rw [hf]
      exact ⟨_, rfl⟩
    obtain ⟨l, hrec⟩ := hrec
    change _ + 1 = 5 at hcount
    refine ⟨fun hl => by omega, fun hl => ?_, fun hl => ?_⟩
    · exact hletter _ _ hrec (by decide) 'D' (by decide) (List.ne_nil_of_length_pos (by omega))
    · exact hletter _ _ hrec (by decide) 'R' (by decide) (List.ne_nil_of_length_pos (by omega))
  | forget host =>
    obtain ⟨rel, -, rfl⟩ := Option.map_eq_some_iff.mp hf
    change _ + 1 = 2 at hcount
    exact ⟨fun hl => by omega, fun hl => by omega, fun hl => by omega⟩
  | rename from_ to_ =>
    have hf' := hf
    simp only [Op.fields] at hf'
    split at hf'
    · next f t _ _ =>
      cases hf'
      have hrec : ∃ l, (Op.rename from_ to_).record inst = 82 :: l := by
        unfold Op.record
        rw [hf]
        exact ⟨_, rfl⟩
      obtain ⟨l, hrec⟩ := hrec
      change _ + 1 = 3 at hcount
      refine ⟨fun hl => by omega, fun hl => ?_, fun hl => by omega⟩
      exact hletter _ _ hrec (by decide) 'D' (by decide) (List.ne_nil_of_length_pos (by omega))
    · cases hf'

/-- **A log cut off early in its last record** is loaded as it is without it. -/
theorem load_cut (h : ∀ op ∈ ops, op.Good inst) {op : Op} (hop : op.Good inst) {k : ℕ} (hk : k < (op.record inst).length)
    (he : Early inst op k) : load inst (logOf inst ops ++ (op.record inst).take k) = load inst (logOf inst ops) := by
  obtain ⟨l, hl, -, hline, -⟩ := hop.record
  have hpart : (op.record inst).take k = l.take k := by
    rw [hl, List.length_append, List.length_singleton] at hk
    rw [hl, List.take_append_of_le_length (by omega)]
  have hnone : NEWLINE ∉ (op.record inst).take k := by
    rw [hpart]
    exact fun hm => hline (List.mem_of_mem_take hm)
  have hlast : (lines ((op.record inst).take k)).foldl (applyLine inst) (ops.foldl (fun m op => op.on m) .empty) =
      ops.foldl (fun m op => op.on m) .empty := by
    by_cases hne : (op.record inst).take k = []
    · rw [hne]
      rfl
    · rw [lines_last hnone hne]
      exact applyLine_early hop.1 he _
  rw [load_logOf h]
  unfold load
  rw [if_pos (utf8_append (utf8_logOf h) he.1), fold_logOf h, hlast]

end Omnidroid.Owners
