/-
The BPF file system (`omni-linux/src/bpf.rs`): directories and pins in one map by path, their modes and owners in another.

- `Fs.exec`: a call and its answer. `Tree`: every entry has a directory for its parent, up to the mount's root. `Owned`: the two maps
  have the same paths.
- `Moves`: what a rename is for, said of a map before and after it.
- `Fair`: a rename that puts nothing inside itself, over entries, or in the place of the other kind; `rename` does not look.
- `bpffs_tree`: where every rename that goes through is fair, the file system is a tree at every moment, and each call does what it is for
  or nothing.
-/
import Omnidroid.Lib.Ordered
import Omnidroid.Lib.Run
import Omnidroid.Lib.Utf8
import Omnidroid.Errno
import Mathlib.Data.Char
import Mathlib.Data.List.DropRight

namespace Omnidroid.Vfs.BpfFs

/-! ## The code -/

def ENOTDIR : Errno := ⟨20⟩
def EISDIR : Errno := ⟨21⟩
def ENOTEMPTY : Errno := ⟨39⟩

abbrev Path := List Char

/-- "/sys/fs/bpf" -/
def ROOT : Path := ['/', 's', 'y', 's', '/', 'f', 's', '/', 'b', 'p', 'f']

/-- its bytes -/
def ROOT_BYTES : Bytes := [47, 115, 121, 115, 47, 102, 115, 47, 98, 112, 102]

inductive Node (ω : Type)
  | Dir
  | Pin (object : ω)
deriving DecidableEq

/-- a path's mode and owner -/
structure Meta where
  mode : UInt32
  uid : UInt32
  gid : UInt32
deriving DecidableEq

structure Fs (ω : Type) where
  nodes : Ordered Path (Node ω)
  info : Ordered Path Meta

def Fs.empty {ω : Type} : Fs ω := ⟨.empty, .empty⟩

def key (path : Bytes) : Path := (Utf8.lossy path).rdropWhile (· = '/')

def onBpffs (path : Bytes) : Bool := path = ROOT_BYTES || (ROOT_BYTES.isPrefixOf path && path[ROOT_BYTES.length]? = some 47)

/-- `str::rsplit_once('/')` -/
def rsplitOnce (path : Path) : Option (Path × Path) :=
  match path.rdropWhile (· ≠ '/') with
  | [] => none
  | c :: before => some ((c :: before).dropLast, path.rtakeWhile (· ≠ '/'))

variable {ω : Type}

def parentIsDir (fs : Ordered Path (Node ω)) (path : Path) : Bool :=
  match rsplitOnce path with
  | some (parent, _) => parent = ROOT || match fs.get parent with
    | some .Dir => true
    | _ => false
  | none => false

/-- `format!("{path}/")` begins the key -/
def isUnder (path k : Path) : Bool := (path ++ ['/']).isPrefixOf k

def makeDir (s : Fs ω) (path : Bytes) : Fs ω × Except Errno Unit :=
  let path := key path
  if path = ROOT then (s, .error EEXIST)
  else if (s.nodes.get path).isSome then (s, .error EEXIST)
  else if !parentIsDir s.nodes path then (s, .error ENOENT)
  else ({ s with nodes := s.nodes.insert path .Dir }, .ok ())

def mkdir (s : Fs ω) (path : Bytes) (mode uid gid : UInt32) : Fs ω × Except Errno Unit :=
  match makeDir s path with
  | (s, .error e) => (s, .error e)
  | (s, .ok ()) => ({ s with info := s.info.insert (key path) ⟨mode &&& 0o7777, uid, gid⟩ }, .ok ())

def pinNode (s : Fs ω) (path : Bytes) (object : ω) : Fs ω × Except Errno Unit :=
  if !onBpffs path then (s, .error EINVAL)
  else
    let path := key path
    if path = ROOT ∨ (s.nodes.get path).isSome then (s, .error EEXIST)
    else if !parentIsDir s.nodes path then (s, .error ENOENT)
    else ({ s with nodes := s.nodes.insert path (.Pin object) }, .ok ())

def pin (s : Fs ω) (path : Bytes) (object : ω) (uid gid : UInt32) : Fs ω × Except Errno Unit :=
  match pinNode s path object with
  | (s, .error e) => (s, .error e)
  | (s, .ok ()) => ({ s with info := s.info.insert (key path) ⟨0o600, uid, gid⟩ }, .ok ())

/-- `unlink`, and `rmdir` with `dir` -/
def remove (s : Fs ω) (path : Bytes) (dir : Bool) : Fs ω × Except Errno Unit :=
  let path := key path
  let removed : Fs ω := ⟨s.nodes.remove path, s.info.remove path⟩
  match s.nodes.get path, dir with
  | none, _ => (s, .error ENOENT)
  | some .Dir, false => (s, .error EISDIR)
  | some (.Pin _), true => (s, .error ENOTDIR)
  | some .Dir, true => if s.nodes.entries.any fun e => isUnder path e.1 then (s, .error ENOTEMPTY) else (removed, .ok ())
  | some (.Pin _), false => (removed, .ok ())

/-- a key with one beginning in place of another -/
def shift (src dst k : Path) : Path := dst ++ k.drop src.length

def moveInfo (src dst : Path) (info : Ordered Path Meta) : Ordered Path Meta :=
  (info.entries.filter fun e => e.1 = src || isUnder src e.1).foldl
    (fun info e => (info.remove e.1).insert (shift src dst e.1) e.2) info

def moveNodes (src dst : Path) (node : Node ω) (nodes : Ordered Path (Node ω)) : Ordered Path (Node ω) :=
  let moved := nodes.entries.filter fun e => isUnder src e.1
  (((nodes.removeAll (moved.map (·.1))).remove src).insert dst node).insertAll (moved.map fun e => (shift src dst e.1, e.2))

def rename (s : Fs ω) (src dst : Bytes) (noreplace : Bool) : Fs ω × Except Errno Unit :=
  let src := key src
  let dst := key dst
  match s.nodes.get src with
  | none => (s, .error ENOENT)
  | some node =>
    if (s.nodes.get dst).isSome && noreplace then (s, .error EEXIST)
    else if !parentIsDir s.nodes dst then (s, .error ENOENT)
    else (⟨moveNodes src dst node s.nodes, moveInfo src dst s.info⟩, .ok ())

def chmod (s : Fs ω) (path : Bytes) (mode : UInt32) : Fs ω :=
  match s.info.get (key path) with
  | some m => { s with info := s.info.insert (key path) { m with mode := mode &&& 0o7777 } }
  | none => s

/-- the largest number leaves what it stands for as it is -/
def chown (s : Fs ω) (path : Bytes) (uid gid : UInt32) : Fs ω :=
  match s.info.get (key path) with
  | some m =>
    let uid := if uid ≠ 0xFFFFFFFF then uid else m.uid
    let gid := if gid ≠ 0xFFFFFFFF then gid else m.gid
    { s with info := s.info.insert (key path) { m with uid := uid, gid := gid } }
  | none => s

inductive Call (ω : Type)
  | mkdir (path : Bytes) (mode uid gid : UInt32)
  | pin (path : Bytes) (object : ω) (uid gid : UInt32)
  | remove (path : Bytes) (dir : Bool)
  | rename (src dst : Bytes) (noreplace : Bool)
  | chmod (path : Bytes) (mode : UInt32)
  | chown (path : Bytes) (uid gid : UInt32)

def Fs.exec (s : Fs ω) : Call ω → Fs ω × Except Errno Unit
  | .mkdir path mode uid gid => BpfFs.mkdir s path mode uid gid
  | .pin path object uid gid => BpfFs.pin s path object uid gid
  | .remove path dir => BpfFs.remove s path dir
  | .rename src dst noreplace => BpfFs.rename s src dst noreplace
  | .chmod path mode => (BpfFs.chmod s path mode, .ok ())
  | .chown path uid gid => (BpfFs.chown s path uid gid, .ok ())

def Fs.next (s : Fs ω) (c : Call ω) : Fs ω := (s.exec c).1

/-! ## A tree of paths -/

/-- the key is the path, or begins with it and a slash -/
def In (path k : Path) : Prop := k = path ∨ isUnder path k = true

instance (path k : Path) : Decidable (In path k) := inferInstanceAs (Decidable (_ ∨ _))

/-- a directory, or the root of the mount -/
def IsDir (nodes : Ordered Path (Node ω)) (path : Path) : Prop := path = ROOT ∨ nodes.get path = some .Dir

/-- every entry is below the root, in a directory -/
structure Tree (nodes : Ordered Path (Node ω)) : Prop where
  below : ∀ k, (nodes.get k).isSome → isUnder ROOT k = true
  parent : ∀ k, (nodes.get k).isSome → ∃ p name, k = p ++ '/' :: name ∧ '/' ∉ name ∧ IsDir nodes p

/-- what there is has a mode and an owner, and nothing else has -/
def Owned (s : Fs ω) : Prop := ∀ k, (s.nodes.get k).isSome ↔ (s.info.get k).isSome

/-- what was at `src` and below it is at `dst` and below it, and every other path has what it had -/
def Moves {ν : Type} (src dst : Path) (m m' : Ordered Path ν) : Prop :=
  ∀ k, (In dst k → m'.get k = m.get (shift dst src k)) ∧ (¬In dst k → In src k → m'.get k = none) ∧
    (¬In dst k → ¬In src k → m'.get k = m.get k)

/-! ## Paths -/

theorem isUnder_iff {path k : Path} : isUnder path k = true ↔ ∃ rest, k = path ++ '/' :: rest := by
  rw [isUnder, List.isPrefixOf_iff_prefix]
  constructor
  · rintro ⟨rest, rfl⟩
    exact ⟨rest, by simp⟩
  · rintro ⟨rest, rfl⟩
    exact ⟨rest, by simp⟩

theorem in_iff {path k : Path} : In path k ↔ ∃ rest, k = path ++ rest ∧ (rest = [] ∨ ∃ more, rest = '/' :: more) := by
  rw [In, isUnder_iff]
  constructor
  · rintro (rfl | ⟨rest, rfl⟩)
    · exact ⟨[], by simp, .inl rfl⟩
    · exact ⟨'/' :: rest, rfl, .inr ⟨rest, rfl⟩⟩
  · rintro ⟨rest, rfl, rfl | ⟨more, rfl⟩⟩
    · exact .inl (by simp)
    · exact .inr ⟨more, rfl⟩

theorem rsplitOnce_some {path p name : Path} (h : rsplitOnce path = some (p, name)) : path = p ++ '/' :: name ∧ '/' ∉ name := by
  unfold rsplitOnce at h
  have hsplit := List.rdropWhile_append_rtakeWhile (p := fun c : Char => decide (c ≠ '/')) (l := path)
  cases hbefore : path.rdropWhile (· ≠ '/') with
  | nil =>
    simp only [hbefore] at h
    cases h
  | cons c before =>
    simp only [hbefore, Option.some.injEq, Prod.mk.injEq] at h
    obtain ⟨rfl, rfl⟩ := h
    have hlast := List.rdropWhile_last_not (p := fun c : Char => decide (c ≠ '/')) path (by rw [hbefore]; exact List.cons_ne_nil _ _)
    simp only [hbefore] at hlast
    simp only [ne_eq, decide_not, Bool.not_eq_true', decide_eq_false_iff_not, not_not] at hlast
    refine ⟨?_, fun hmem => by simpa using List.mem_rtakeWhile_imp hmem⟩
    conv_lhs => rw [← hsplit, hbefore, ← List.dropLast_append_getLast (List.cons_ne_nil c before), hlast]
    simp

theorem parentIsDir_spec {nodes : Ordered Path (Node ω)} {path : Path} (h : parentIsDir nodes path = true) :
    ∃ p name, path = p ++ '/' :: name ∧ '/' ∉ name ∧ IsDir nodes p := by
  unfold parentIsDir at h
  split at h
  · rename_i parent name hsplit
    obtain ⟨hpath, hname⟩ := rsplitOnce_some hsplit
    refine ⟨parent, name, hpath, hname, ?_⟩
    rcases Bool.or_eq_true .. ▸ h with hroot | hdir
    · exact .inl (of_decide_eq_true hroot)
    · split at hdir
      · exact .inr (by assumption)
      · cases hdir
  · cases h

theorem isUnder_trans {a b c : Path} (hab : isUnder a b = true) (hbc : isUnder b c = true) : isUnder a c = true := by
  obtain ⟨r, rfl⟩ := isUnder_iff.mp hab
  obtain ⟨r', rfl⟩ := isUnder_iff.mp hbc
  exact isUnder_iff.mpr ⟨r ++ '/' :: r', by simp⟩

theorem isUnder_child (p name : Path) : isUnder p (p ++ '/' :: name) = true := isUnder_iff.mpr ⟨name, rfl⟩

theorem isUnder_length {a b : Path} (h : isUnder a b = true) : a.length < b.length := by
  obtain ⟨r, rfl⟩ := isUnder_iff.mp h
  simp

/-- a path's parent is where the path is, or the path is the place itself -/
theorem in_parent {a p name : Path} (hname : '/' ∉ name) (h : isUnder a (p ++ '/' :: name) = true) : In a p := by
  obtain ⟨r, hr⟩ := isUnder_iff.mp h
  rcases List.append_eq_append_iff.mp hr with ⟨t, rfl, ht⟩ | ⟨t, rfl, ht⟩
  · cases t with
    | nil => exact .inl (by simp)
    | cons c t =>
      obtain ⟨rfl, hrest⟩ : '/' = c ∧ name = t ++ '/' :: r := by simpa using ht
      exact absurd (by simp [hrest]) hname
  · cases t with
    | nil => exact .inl (by simp)
    | cons c t =>
      obtain ⟨rfl, _⟩ : '/' = c ∧ r = t ++ '/' :: name := by simpa using ht
      exact .inr (isUnder_child a t)

theorem in_child {a p name : Path} (h : In a p) : isUnder a (p ++ '/' :: name) = true := by
  rcases h with rfl | h
  · exact isUnder_child p name
  · exact isUnder_trans h (isUnder_child p name)

@[simp] theorem shift_append (src dst rest : Path) : shift src dst (src ++ rest) = dst ++ rest := by
  rw [shift, List.drop_left]

theorem shift_shift {src dst k : Path} (h : In src k) : shift dst src (shift src dst k) = k := by
  obtain ⟨rest, rfl, _⟩ := in_iff.mp h
  simp

theorem in_shift {src dst k : Path} (h : In src k) : In dst (shift src dst k) := by
  obtain ⟨rest, rfl, hrest⟩ := in_iff.mp h
  rw [shift_append]
  exact in_iff.mpr ⟨rest, rfl, hrest⟩

theorem isUnder_shift {src dst k : Path} (h : isUnder src k = true) : isUnder dst (shift src dst k) = true := by
  obtain ⟨rest, rfl⟩ := isUnder_iff.mp h
  rw [shift_append]
  exact isUnder_child dst rest

/-- two places that share a path are one in the other -/
theorem in_or_in {a b k : Path} (ha : In a k) (hb : In b k) : In a b ∨ In b a := by
  obtain ⟨r, rfl, hr⟩ := in_iff.mp ha
  obtain ⟨r', hk, hr'⟩ := in_iff.mp hb
  rcases List.append_eq_append_iff.mp hk with ⟨t, rfl, ht⟩ | ⟨t, rfl, ht⟩
  · refine .inl (in_iff.mpr ⟨t, rfl, ?_⟩)
    cases t with
    | nil => exact .inl rfl
    | cons c t =>
      rcases hr with rfl | ⟨more, rfl⟩
      · cases ht
      · exact .inr ⟨t, by rw [(List.cons.inj ht).1]⟩
  · refine .inr (in_iff.mpr ⟨t, rfl, ?_⟩)
    cases t with
    | nil => exact .inl rfl
    | cons c t =>
      rcases hr' with rfl | ⟨more, rfl⟩
      · cases ht
      · exact .inr ⟨t, by rw [(List.cons.inj ht).1]⟩

/-! ## What a rename does to a map -/

section
variable {ν : Type} {m : Ordered Path ν} {src dst : Path}

theorem keys_filter (p : Path × ν → Bool) : ((m.entries.filter p).map (·.1)).Nodup :=
  m.keys_nodup.sublist (List.filter_sublist.map _)

/-- entries of a place have different paths in the other -/
theorem keys_shifted {l : List (Path × ν)} (hl : ∀ e ∈ l, In src e.1) (hnodup : (l.map (·.1)).Nodup) :
    ((l.map fun e => (shift src dst e.1, e.2)).map (·.1)).Nodup := by
  have hmap : (l.map fun e => (shift src dst e.1, e.2)).map (·.1) = (l.map (·.1)).map (shift src dst) := by
    rw [List.map_map, List.map_map]
    rfl
  rw [hmap]
  refine (List.nodup_map_iff_inj_on hnodup).mpr fun a ha b hb hab => ?_
  obtain ⟨e, he, rfl⟩ := List.mem_map.mp ha
  obtain ⟨f, hf, rfl⟩ := List.mem_map.mp hb
  rw [← @shift_shift src dst _ (hl e he), hab, shift_shift (hl f hf)]

/-- entries of a place, moved: what is at a path was where the path came from -/
theorem lookup_shifted {p : Path × ν → Bool} (hp : ∀ e, p e = true → In src e.1) {k : Path} {v : ν} :
    Ordered.lookup ((m.entries.filter p).map fun e => (shift src dst e.1, e.2)) k = some v ↔
      In dst k ∧ m.get (shift dst src k) = some v ∧ p (shift dst src k, v) = true := by
  rw [Ordered.lookup_iff (keys_shifted (fun e he => hp e (List.mem_filter.mp he).2) (keys_filter p)), List.mem_map]
  constructor
  · rintro ⟨⟨k', v'⟩, he, hkv⟩
    obtain ⟨hmem, hpe⟩ := List.mem_filter.mp he
    obtain ⟨rfl, rfl⟩ := Prod.mk.inj hkv
    have hin := hp _ hpe
    dsimp only at hin ⊢
    rw [shift_shift hin]
    exact ⟨in_shift hin, Ordered.mem_entries.mp hmem, hpe⟩
  · rintro ⟨hin, hget, hpe⟩
    exact ⟨(shift dst src k, v), List.mem_filter.mpr ⟨Ordered.mem_entries.mpr hget, hpe⟩, by rw [shift_shift hin]⟩

/-- the paths of entries of one kind -/
theorem mem_keys {p : Path → Bool} {k : Path} :
    k ∈ (m.entries.filter fun e => p e.1).map (·.1) ↔ p k = true ∧ (m.get k).isSome := by
  rw [List.mem_map]
  constructor
  · rintro ⟨e, he, rfl⟩
    obtain ⟨hmem, hp⟩ := List.mem_filter.mp he
    exact ⟨hp, by rw [Ordered.mem_entries.mp hmem]; rfl⟩
  · rintro ⟨hp, hsome⟩
    obtain ⟨v, hv⟩ := Option.isSome_iff_exists.mp hsome
    exact ⟨(k, v), List.mem_filter.mpr ⟨Ordered.mem_entries.mpr hv, hp⟩, rfl⟩

/-- nothing is below `dst`, but for what the rename moves -/
def Clear (m : Ordered Path ν) (src dst : Path) : Prop := src = dst ∨ ∀ k, isUnder dst k = true → m.get k = none

theorem not_under_self (k : Path) : isUnder k k = false := by
  by_contra h
  exact absurd (isUnder_length (by simpa using h)) (lt_irrefl _)

theorem moves_nodes {nodes : Ordered Path (Node ω)} {node : Node ω} (hnode : nodes.get src = some node)
    (hclear : Clear nodes src dst) : Moves src dst nodes (moveNodes src dst node nodes) := by
  have hget : ∀ k, (moveNodes src dst node nodes).get k =
      (Ordered.lookup ((nodes.entries.filter fun e => isUnder src e.1).map fun e => (shift src dst e.1, e.2)) k).or
        (if k = dst then some node else if k = src then none
          else if isUnder src k = true ∧ (nodes.get k).isSome then none else nodes.get k) := by
    intro k
    rw [moveNodes, Ordered.get_insertAll (keys_shifted (fun e he => .inr (List.mem_filter.mp he).2) (keys_filter _)),
      Ordered.get_insert, Ordered.get_remove, Ordered.get_removeAll]
    simp only [mem_keys]
  have hlookup : ∀ k, ¬isUnder dst k = true →
      Ordered.lookup ((nodes.entries.filter fun e => isUnder src e.1).map fun e => (shift src dst e.1, e.2)) k = none := by
    intro k hk
    refine Option.eq_none_iff_forall_ne_some.mpr fun v hv => ?_
    obtain ⟨hin, _, hunder⟩ := (lookup_shifted fun e he => .inr he).mp hv
    have := @isUnder_shift src dst _ hunder
    rw [shift_shift hin] at this
    exact hk this
  intro k
  rw [hget]
  refine ⟨fun hin => ?_, fun hdst hsrc => ?_, fun hdst hsrc => ?_⟩
  · rcases hin with rfl | hunder
    · rw [hlookup _ (by rw [not_under_self]; decide), if_pos rfl, Option.none_or, ← hnode]
      congr 1
      rw [shift, List.drop_length, List.append_nil]
    · have hne : k ≠ dst := by
        rintro rfl
        rw [not_under_self] at hunder
        cases hunder
      cases hfrom : nodes.get (shift dst src k) with
      | some v =>
        have hp : ∀ e : Path × Node ω, isUnder src e.1 = true → In src e.1 := fun _ he => .inr he
        rw [(lookup_shifted hp).mpr ⟨.inr hunder, hfrom, isUnder_shift hunder⟩, Option.some_or]
      | none =>
        have hnone : Ordered.lookup ((nodes.entries.filter fun e => isUnder src e.1).map
            fun e => (shift src dst e.1, e.2)) k = none := by
          refine Option.eq_none_iff_forall_ne_some.mpr fun v hv => ?_
          obtain ⟨_, hsome, _⟩ := (lookup_shifted fun e he => .inr he).mp hv
          rw [hfrom] at hsome
          cases hsome
        rw [hnone, if_neg hne, Option.none_or]
        split_ifs with hsrc hkeys
        · rfl
        · rfl
        · rcases hclear with rfl | hclear
          · exact Option.not_isSome_iff_eq_none.mp fun hsome => hkeys ⟨hunder, hsome⟩
          · exact hclear k hunder
  · rw [hlookup k fun h => hdst (.inr h), if_neg fun h => hdst (.inl h), Option.none_or]
    split_ifs with heq hkeys
    · rfl
    · rfl
    · exact Option.not_isSome_iff_eq_none.mp fun hsome => hkeys ⟨hsrc.resolve_left heq, hsome⟩
  · rw [hlookup k fun h => hdst (.inr h), if_neg fun h => hdst (.inl h), if_neg fun h => hsrc (.inl h), Option.none_or,
      if_neg fun h => hsrc (.inr h.1)]

/-- entries moved one after the other, none to where another still is -/
theorem get_moved {l : List (Path × ν)} (hl : ∀ e ∈ l, In src e.1) (hnodup : (l.map (·.1)).Nodup)
    (happart : ∀ e ∈ l, ∀ f ∈ l, shift src dst e.1 ≠ f.1) (m : Ordered Path ν) (k : Path) :
    (l.foldl (fun m e => (m.remove e.1).insert (shift src dst e.1) e.2) m).get k =
      (Ordered.lookup (l.map fun e => (shift src dst e.1, e.2)) k).or (if k ∈ l.map (·.1) then none else m.get k) := by
  induction l generalizing m with
  | nil => rfl
  | cons e l ih =>
    have hkeys := @keys_shifted _ _ dst _ hl hnodup
    obtain ⟨hnot, hnodup'⟩ := List.nodup_cons.mp hnodup
    obtain ⟨hnot', _⟩ := List.nodup_cons.mp hkeys
    have hrest := ih (fun f hf => hl f (List.mem_cons_of_mem _ hf)) hnodup'
      (fun f hf g hg => happart f (List.mem_cons_of_mem _ hf) g (List.mem_cons_of_mem _ hg))
    rw [List.foldl_cons, hrest, List.map_cons, Ordered.lookup_cons, Ordered.get_insert, Ordered.get_remove]
    by_cases hk : shift src dst e.1 = k
    · have hnone : Ordered.lookup (l.map fun e => (shift src dst e.1, e.2)) k = none := by
        refine Option.eq_none_iff_forall_ne_some.mpr fun v hv => hnot' ?_
        change shift src dst e.1 ∈ _
        rw [hk]
        exact List.mem_map.mpr ⟨(k, v), (Ordered.lookup_iff (List.nodup_cons.mp hkeys).2).mp hv, rfl⟩
      have hout : k ∉ l.map (·.1) := by
        rintro hmem
        obtain ⟨f, hf, rfl⟩ := List.mem_map.mp hmem
        exact happart e List.mem_cons_self f (List.mem_cons_of_mem _ hf) hk
      rw [hnone, if_pos hk, if_pos hk.symm, if_neg hout]
      rfl
    · rw [if_neg hk, if_neg (Ne.symm hk)]
      congr 1
      by_cases he : k = e.1
      · simp only [he, List.map_cons, List.mem_cons, true_or, if_true, ite_self]
      · simp only [he, List.map_cons, List.mem_cons, false_or, if_false]

/-- entries moved to where they are -/
theorem get_moved_self {l : List (Path × ν)} {m : Ordered Path ν} (hl : ∀ e ∈ l, In src e.1 ∧ m.get e.1 = some e.2) (k : Path) :
    (l.foldl (fun m e => (m.remove e.1).insert (shift src src e.1) e.2) m).get k = m.get k := by
  induction l generalizing m with
  | nil => rfl
  | cons e l ih =>
    obtain ⟨hin, hget⟩ := hl e List.mem_cons_self
    have hself : shift src src e.1 = e.1 := by
      obtain ⟨rest, hrest, _⟩ := in_iff.mp hin
      rw [hrest, shift_append]
    have hsame : ∀ k, ((m.remove e.1).insert (shift src src e.1) e.2).get k = m.get k := by
      intro k
      rw [hself, Ordered.get_insert, Ordered.get_remove]
      split_ifs with hk
      · rw [hk, hget]
      · rfl
    rw [List.foldl_cons, ih, hsame]
    intro f hf
    rw [hsame]
    exact hl f (List.mem_cons_of_mem _ hf)

theorem in_filter (src : Path) (info : Ordered Path Meta) :
    ∀ e ∈ info.entries.filter (fun e => e.1 = src || isUnder src e.1), In src e.1 ∧ info.get e.1 = some e.2 := by
  intro e he
  obtain ⟨hmem, hp⟩ := List.mem_filter.mp he
  rw [Bool.or_eq_true, decide_eq_true_eq] at hp
  exact ⟨hp, Ordered.mem_entries.mp hmem⟩

/-- a place moved onto itself, or onto one that is apart from it and has no entries of its own below it -/
theorem moves_info {info : Ordered Path Meta} (hapart : src = dst ∨ ∀ k, In src k → ¬In dst k)
    (hsrc : (info.get src).isSome) (hclear : Clear info src dst) : Moves src dst info (moveInfo src dst info) := by
  have hfilter := in_filter src info
  rcases hapart with rfl | hapart
  · have hget := get_moved_self hfilter
    intro k
    rw [moveInfo, hget]
    refine ⟨fun hin => ?_, fun hdst hsrc => absurd hsrc hdst, fun _ _ => rfl⟩
    obtain ⟨rest, rfl, _⟩ := in_iff.mp hin
    rw [shift_append]
  · have hne : src ≠ dst := fun h => hapart src (.inl rfl) (.inl h)
    have hbelow := hclear.resolve_left hne
    have hget := @get_moved _ _ dst _ (fun e he => (hfilter e he).1) (keys_filter _)
      (fun e he f hf heq => hapart f.1 (hfilter f hf).1 (by rw [← heq]; exact in_shift (hfilter e he).1)) info
    have hp : ∀ e : Path × Meta, (e.1 = src || isUnder src e.1) = true → In src e.1 := fun e he => by
      rwa [Bool.or_eq_true, decide_eq_true_eq] at he
    have hlookup : ∀ k v, Ordered.lookup ((info.entries.filter fun e => e.1 = src || isUnder src e.1).map
        fun e => (shift src dst e.1, e.2)) k = some v ↔ In dst k ∧ info.get (shift dst src k) = some v := by
      intro k v
      rw [lookup_shifted hp]
      refine ⟨fun h => ⟨h.1, h.2.1⟩, fun h => ⟨h.1, h.2, ?_⟩⟩
      rw [Bool.or_eq_true, decide_eq_true_eq]
      exact in_shift h.1
    have hmoved : ∀ k, (moveInfo src dst info).get k = (Ordered.lookup ((info.entries.filter fun e => e.1 = src || isUnder src e.1).map
        fun e => (shift src dst e.1, e.2)) k).or (if In src k ∧ (info.get k).isSome then none else info.get k) := by
      intro k
      rw [moveInfo, hget]
      congr 1
      refine if_congr ?_ rfl rfl
      rw [mem_keys (p := fun k => k = src || isUnder src k), Bool.or_eq_true, decide_eq_true_eq]
      rfl
    intro k
    rw [hmoved]
    refine ⟨fun hin => ?_, fun hdst hin => ?_, fun hdst hin => ?_⟩
    · cases hfrom : info.get (shift dst src k) with
      | some v => rw [(hlookup k v).mpr ⟨hin, hfrom⟩, Option.some_or]
      | none =>
        have hnone : Ordered.lookup ((info.entries.filter fun e => e.1 = src || isUnder src e.1).map
            fun e => (shift src dst e.1, e.2)) k = none := by
          refine Option.eq_none_iff_forall_ne_some.mpr fun v hv => ?_
          rw [((hlookup k v).mp hv).2] at hfrom
          cases hfrom
        rw [hnone, if_neg fun h => hapart k h.1 hin, Option.none_or]
        rcases hin with rfl | hunder
        · rw [shift, List.drop_length, List.append_nil] at hfrom
          rw [hfrom] at hsrc
          cases hsrc
        · exact hbelow k hunder
    · have hnone := Option.eq_none_iff_forall_ne_some.mpr fun v hv => hdst ((hlookup k v).mp hv).1
      rw [hnone, Option.none_or]
      split_ifs with h
      · rfl
      · exact Option.not_isSome_iff_eq_none.mp fun hsome => h ⟨hin, hsome⟩
    · have hnone := Option.eq_none_iff_forall_ne_some.mpr fun v hv => hdst ((hlookup k v).mp hv).1
      rw [hnone, Option.none_or, if_neg fun h => hin h.1]

end

/-! ## A rename keeps the tree -/

/-- a rename that puts nothing inside itself, over entries of another, or in the place of the other kind -/
def Fair (s : Fs ω) (src dst : Path) : Prop :=
  src = dst ∨ isUnder src dst = false ∧
    match s.nodes.get src, s.nodes.get dst with
    | some .Dir, some .Dir => ∀ k, isUnder dst k = true → s.nodes.get k = none
    | some .Dir, some (.Pin _) => False
    | some (.Pin _), some .Dir => False
    | _, _ => True

/-- in a tree nothing is below what is not a directory -/
theorem Tree.below_dir {nodes : Ordered Path (Node ω)} (h : Tree nodes) {path k : Path} (hroot : isUnder ROOT path = true)
    (hunder : isUnder path k = true) (hk : (nodes.get k).isSome) : nodes.get path = some .Dir := by
  induction hn : k.length using Nat.strong_induction_on generalizing k with
  | _ n ih =>
    obtain ⟨p, name, rfl, hname, hdir⟩ := h.parent k hk
    rcases in_parent hname hunder with rfl | hp
    · rcases hdir with rfl | hdir
      · rw [not_under_self] at hroot
        cases hroot
      · exact hdir
    · rcases hdir with rfl | hdir
      · exact absurd (isUnder_trans hroot hp) (by rw [not_under_self]; decide)
      · refine ih p.length ?_ hp (by rw [hdir]; rfl) rfl
        rw [← hn]
        simp

section
variable {s : Fs ω} {src dst : Path} (htree : Tree s.nodes) (hsrc : (s.nodes.get src).isSome) (hparent : parentIsDir s.nodes dst = true)
  (hfair : Fair s src dst)
include htree hparent

theorem below_root : isUnder ROOT dst = true := by
  obtain ⟨p, name, rfl, _, rfl | hdir⟩ := parentIsDir_spec hparent
  · exact isUnder_child ROOT name
  · exact isUnder_trans (htree.below p (by rw [hdir]; rfl)) (isUnder_child p name)

include hsrc hfair

theorem Fair.clear : Clear s.nodes src dst := by
  rcases hfair with heq | ⟨_, hkinds⟩
  · exact .inl heq
  · refine .inr fun k hk => ?_
    by_contra hsome
    have hdir := htree.below_dir (below_root htree hparent) hk (Option.isSome_iff_ne_none.mpr hsome)
    obtain ⟨node, hnode⟩ := Option.isSome_iff_exists.mp hsrc
    rw [hnode, hdir] at hkinds
    cases node with
    | Dir => exact hsome (hkinds k hk)
    | Pin object => exact hkinds

theorem Fair.apart : src = dst ∨ ∀ k, In src k → ¬In dst k := by
  by_cases heq : src = dst
  · exact .inl heq
  · refine .inr fun k hs hd => ?_
    have hclear := (Fair.clear htree hsrc hparent hfair).resolve_left heq
    rcases in_or_in hs hd with h | h
    · rcases h with h | h
      · exact heq h.symm
      · rw [(hfair.resolve_left heq).1] at h
        cases h
    · rcases h with h | h
      · exact heq h
      · rw [hclear src h] at hsrc
        cases hsrc

theorem Tree.rename {nodes' : Ordered Path (Node ω)} (hmoves : Moves src dst s.nodes nodes') : Tree nodes' := by
  have hroot := below_root htree hparent
  have hout : ∀ k, (nodes'.get k).isSome → ¬In dst k → ¬In src k ∧ (s.nodes.get k).isSome := by
    intro k hk hdst
    by_cases hin : In src k
    · rw [(hmoves k).2.1 hdst hin] at hk
      cases hk
    · rw [(hmoves k).2.2 hdst hin] at hk
      exact ⟨hin, hk⟩
  refine ⟨fun k hk => ?_, fun k hk => ?_⟩
  · by_cases hin : In dst k
    · rcases hin with rfl | hin
      · exact hroot
      · exact isUnder_trans hroot hin
    · exact htree.below k (hout k hk hin).2
  · by_cases hin : In dst k
    · rcases hin with rfl | hunder
      · obtain ⟨p, name, rfl, hname, hdir⟩ := parentIsDir_spec hparent
        refine ⟨p, name, rfl, hname, hdir.imp_right fun hdir => ?_⟩
        have hdst : ¬In (p ++ '/' :: name) p := by
          rintro (h | h)
          · exact absurd (congrArg List.length h) (by simp)
          · exact absurd (isUnder_length h) (by simp)
        have hin : ¬In src p := by
          intro h
          rcases hfair with rfl | ⟨hno, _⟩
          · exact hdst h
          · rw [in_child h] at hno
            cases hno
        rw [(hmoves p).2.2 hdst hin, hdir]
      · obtain ⟨rest, rfl⟩ := isUnder_iff.mp hunder
        rw [(hmoves _).1 (.inr hunder), shift_append] at hk
        obtain ⟨p, name, heq, hname, hdir⟩ := htree.parent _ hk
        have hin : In src p := in_parent hname (heq ▸ isUnder_child src rest)
        obtain ⟨more, rfl, hmore⟩ := in_iff.mp hin
        have hrest : '/' :: rest = more ++ '/' :: name := by
          rw [List.append_assoc] at heq
          exact List.append_cancel_left heq
        refine ⟨dst ++ more, name, by rw [hrest, List.append_assoc], hname, .inr ?_⟩
        rw [(hmoves _).1 (in_iff.mpr ⟨more, rfl, hmore⟩), shift_append]
        rcases hdir with hroot' | hdir
        · have := htree.below src hsrc
          rw [← hroot'] at this
          exact absurd (isUnder_length this) (by simp)
        · exact hdir
    · obtain ⟨hsrc', hsome⟩ := hout k hk hin
      obtain ⟨p, name, rfl, hname, hdir⟩ := htree.parent k hsome
      refine ⟨p, name, rfl, hname, hdir.imp_right fun hdir => ?_⟩
      rw [(hmoves p).2.2 (fun h => hin (.inr (in_child h))) (fun h => hsrc' (.inr (in_child h))), hdir]

end

/-! ## The other calls -/

theorem Tree.insert {nodes : Ordered Path (Node ω)} (h : Tree nodes) {path : Path} {node : Node ω} (hnew : nodes.get path = none)
    (hparent : parentIsDir nodes path = true) : Tree (nodes.insert path node) := by
  obtain ⟨p, name, hpath, hname, hdir⟩ := parentIsDir_spec hparent
  have hroot : isUnder ROOT path = true := by
    rw [hpath]
    rcases hdir with rfl | hdir
    · exact isUnder_child ROOT name
    · exact isUnder_trans (h.below p (by rw [hdir]; rfl)) (isUnder_child p name)
  have hkeep : ∀ q, IsDir nodes q → IsDir (nodes.insert path node) q := by
    refine fun q hq => hq.imp_right fun hq => ?_
    rw [Ordered.get_insert, if_neg fun heq => ?_, hq]
    rw [heq, hnew] at hq
    cases hq
  refine ⟨fun k hk => ?_, fun k hk => ?_⟩
  · rw [Ordered.get_insert] at hk
    split_ifs at hk with heq
    · rw [heq]
      exact hroot
    · exact h.below k hk
  · rw [Ordered.get_insert] at hk
    split_ifs at hk with heq
    · exact ⟨p, name, heq.trans hpath, hname, hkeep p hdir⟩
    · obtain ⟨q, n, hq, hn, hdir'⟩ := h.parent k hk
      exact ⟨q, n, hq, hn, hkeep q hdir'⟩

theorem Tree.remove {nodes : Ordered Path (Node ω)} (h : Tree nodes) {path : Path}
    (hleaf : ∀ k, isUnder path k = true → nodes.get k = none) : Tree (nodes.remove path) := by
  refine ⟨fun k hk => ?_, fun k hk => ?_⟩
  · rw [Ordered.get_remove] at hk
    split_ifs at hk
    · cases hk
    · exact h.below k hk
  · rw [Ordered.get_remove] at hk
    split_ifs at hk with heq
    · cases hk
    · obtain ⟨p, name, rfl, hname, hdir⟩ := h.parent k hk
      refine ⟨p, name, rfl, hname, hdir.imp_right fun hdir => ?_⟩
      rw [Ordered.get_remove, if_neg fun hp => ?_, hdir]
      rw [hleaf _ (hp ▸ isUnder_child p name)] at hk
      cases hk

/-! ## Every call -/

/-- what a rename that goes through must be -/
def Ruled (s : Fs ω) : Call ω → Prop
  | .rename src dst noreplace =>
    (s.nodes.get (key src)).isSome → ((s.nodes.get (key dst)).isSome && noreplace) = false → parentIsDir s.nodes (key dst) = true →
      Fair s (key src) (key dst)
  | _ => True

section
variable {s : Fs ω}

theorem Owned.insert (h : Owned s) (path : Path) (node : Node ω) (m : Meta) :
    Owned ⟨s.nodes.insert path node, s.info.insert path m⟩ := by
  intro k
  rw [Ordered.get_insert, Ordered.get_insert]
  split_ifs
  · exact Iff.rfl
  · exact h k

theorem Owned.remove (h : Owned s) (path : Path) : Owned ⟨s.nodes.remove path, s.info.remove path⟩ := by
  intro k
  rw [Ordered.get_remove, Ordered.get_remove]
  split_ifs
  · exact Iff.rfl
  · exact h k

/-- what is there keeps a mode and an owner -/
theorem Owned.change (h : Owned s) {path : Path} {m : Meta} (hm : s.info.get path = some m) (m' : Meta) :
    Owned { s with info := s.info.insert path m' } := by
  intro k
  rw [Ordered.get_insert]
  split_ifs with heq
  · rw [h k, heq, hm]
    exact Iff.rfl
  · exact h k

theorem Owned.moves (h : Owned s) {src dst : Path} {s' : Fs ω} (hnodes : Moves src dst s.nodes s'.nodes)
    (hinfo : Moves src dst s.info s'.info) : Owned s' := by
  intro k
  by_cases hdst : In dst k
  · rw [(hnodes k).1 hdst, (hinfo k).1 hdst]
    exact h _
  · by_cases hsrc : In src k
    · rw [(hnodes k).2.1 hdst hsrc, (hinfo k).2.1 hdst hsrc]
      exact Iff.rfl
    · rw [(hnodes k).2.2 hdst hsrc, (hinfo k).2.2 hdst hsrc]
      exact h k

/-- a name that is made: it was not there, and its parent is a directory -/
theorem insert_kept (htree : Tree s.nodes) (howned : Owned s) {path : Path} (node : Node ω) (m : Meta)
    (hnew : ¬(s.nodes.get path).isSome = true) (hparent : ¬(!parentIsDir s.nodes path) = true) :
    Tree (s.nodes.insert path node) ∧ Owned ⟨s.nodes.insert path node, s.info.insert path m⟩ :=
  ⟨htree.insert (Option.not_isSome_iff_eq_none.mp hnew) (by simpa using hparent), howned.insert path node m⟩

/-- a call keeps the tree and the owners, and leaves everything when it fails -/
structure Kept (s : Fs ω) (r : Fs ω × Except Errno Unit) : Prop where
  tree : Tree r.1.nodes
  owned : Owned r.1
  failed : ∀ e, r.2 = .error e → r.1 = s

theorem Kept.same (htree : Tree s.nodes) (howned : Owned s) (a : Except Errno Unit) : Kept s (s, a) := ⟨htree, howned, fun _ _ => rfl⟩

theorem Kept.done {s' : Fs ω} (htree : Tree s'.nodes) (howned : Owned s') : Kept s (s', .ok ()) :=
  ⟨htree, howned, fun _ he => by cases he⟩

theorem mkdir_kept (htree : Tree s.nodes) (howned : Owned s) (path : Bytes) (mode uid gid : UInt32) :
    Kept s (mkdir s path mode uid gid) := by
  unfold mkdir makeDir
  by_cases hroot : key path = ROOT
  · simp only [if_pos hroot]
    exact .same htree howned _
  by_cases hthere : (s.nodes.get (key path)).isSome = true
  · simp only [if_neg hroot, if_pos hthere]
    exact .same htree howned _
  by_cases hparent : (!parentIsDir s.nodes (key path)) = true
  · simp only [if_neg hroot, if_neg hthere, if_pos hparent]
    exact .same htree howned _
  · simp only [if_neg hroot, if_neg hthere, if_neg hparent]
    obtain ⟨htree', howned'⟩ := insert_kept htree howned .Dir ⟨mode &&& 0o7777, uid, gid⟩ hthere hparent
    exact .done htree' howned'

theorem pin_kept (htree : Tree s.nodes) (howned : Owned s) (path : Bytes) (object : ω) (uid gid : UInt32) :
    Kept s (pin s path object uid gid) := by
  unfold pin pinNode
  by_cases hon : (!onBpffs path) = true
  · simp only [if_pos hon]
    exact .same htree howned _
  by_cases hthere : key path = ROOT ∨ (s.nodes.get (key path)).isSome = true
  · simp only [if_neg hon, if_pos hthere]
    exact .same htree howned _
  by_cases hparent : (!parentIsDir s.nodes (key path)) = true
  · simp only [if_neg hon, if_neg hthere, if_pos hparent]
    exact .same htree howned _
  · simp only [if_neg hon, if_neg hthere, if_neg hparent]
    obtain ⟨htree', howned'⟩ := insert_kept htree howned (.Pin object) ⟨0o600, uid, gid⟩
      (fun h => hthere (.inr h)) hparent
    exact .done htree' howned'

/-- a name that is taken away: nothing is below it -/
theorem remove_kept (htree : Tree s.nodes) (howned : Owned s) (path : Bytes) (dir : Bool) : Kept s (remove s path dir) := by
  have hleaf : (∀ k, isUnder (key path) k = true → s.nodes.get k = none) →
      Kept s (⟨s.nodes.remove (key path), s.info.remove (key path)⟩, .ok ()) :=
    fun h => .done (htree.remove h) (howned.remove (key path))
  unfold remove
  dsimp only
  split
  · exact .same htree howned _
  · exact .same htree howned _
  · exact .same htree howned _
  · split_ifs with hany
    · exact .same htree howned _
    · refine hleaf fun k hk => ?_
      by_contra hsome
      obtain ⟨v, hv⟩ := Option.ne_none_iff_exists'.mp hsome
      exact hany (List.any_eq_true.mpr ⟨(k, v), Ordered.mem_entries.mpr hv, hk⟩)
  · rename_i object hget
    refine hleaf fun k hk => ?_
    by_contra hsome
    have hroot := htree.below (key path) (by rw [hget]; rfl)
    rw [htree.below_dir hroot hk (Option.isSome_iff_ne_none.mpr hsome)] at hget
    cases hget

theorem chmod_kept (htree : Tree s.nodes) (howned : Owned s) (path : Bytes) (mode : UInt32) : Kept s (chmod s path mode, .ok ()) := by
  unfold chmod
  split
  · rename_i m hm
    exact .done htree (howned.change hm _)
  · exact .done htree howned

theorem chown_kept (htree : Tree s.nodes) (howned : Owned s) (path : Bytes) (uid gid : UInt32) :
    Kept s (chown s path uid gid, .ok ()) := by
  unfold chown
  split
  · rename_i m hm
    exact .done htree (howned.change hm _)
  · exact .done htree howned

/-- a rename goes through and moves both maps, or fails and leaves them -/
theorem rename_cases (htree : Tree s.nodes) (howned : Owned s) {src dst : Bytes} {noreplace : Bool}
    (hruled : Ruled s (.rename src dst noreplace)) :
    (∃ e, rename s src dst noreplace = (s, .error e)) ∨
      ∃ s' : Fs ω, rename s src dst noreplace = (s', .ok ()) ∧ Fair s (key src) (key dst) ∧ Tree s'.nodes ∧
        Moves (key src) (key dst) s.nodes s'.nodes ∧ Moves (key src) (key dst) s.info s'.info := by
  cases hnode : s.nodes.get (key src) with
  | none => exact .inl ⟨ENOENT, by simp only [rename, hnode]⟩
  | some node =>
    by_cases hthere : ((s.nodes.get (key dst)).isSome && noreplace) = true
    · exact .inl ⟨EEXIST, by simp only [rename, hnode, if_pos hthere]⟩
    by_cases hparent : (!parentIsDir s.nodes (key dst)) = true
    · exact .inl ⟨ENOENT, by simp only [rename, hnode, if_neg hthere, if_pos hparent]⟩
    have hdir : parentIsDir s.nodes (key dst) = true := by simpa using hparent
    have hsrc : (s.nodes.get (key src)).isSome := by rw [hnode]; rfl
    have hfair : Fair s (key src) (key dst) := hruled hsrc (Bool.eq_false_iff.mpr hthere) hdir
    have hclear := Fair.clear htree hsrc hdir hfair
    have hclearInfo : Clear s.info (key src) (key dst) := hclear.imp_right fun h k hk => by
      rw [← Option.not_isSome_iff_eq_none, ← howned k, h k hk]
      exact Bool.false_ne_true
    have hnodes := moves_nodes hnode hclear
    have hinfo := moves_info (Fair.apart htree hsrc hdir hfair) ((howned _).mp hsrc) hclearInfo
    refine .inr ⟨⟨moveNodes (key src) (key dst) node s.nodes, moveInfo (key src) (key dst) s.info⟩, ?_, hfair,
      htree.rename hsrc hdir hfair hnodes, hnodes, hinfo⟩
    simp only [rename, hnode, if_neg hthere, if_neg hparent]

theorem rename_kept (htree : Tree s.nodes) (howned : Owned s) {src dst : Bytes} {noreplace : Bool}
    (hruled : Ruled s (.rename src dst noreplace)) : Kept s (rename s src dst noreplace) := by
  rcases rename_cases htree howned hruled with ⟨e, he⟩ | ⟨s', hs', _, htree', hnodes, hinfo⟩
  · rw [he]
    exact .same htree howned _
  · rw [hs']
    exact .done htree' (howned.moves hnodes hinfo)

theorem Fs.exec_kept (htree : Tree s.nodes) (howned : Owned s) (c : Call ω) (hruled : Ruled s c) : Kept s (s.exec c) := by
  cases c with
  | mkdir path mode uid gid => exact mkdir_kept htree howned path mode uid gid
  | pin path object uid gid => exact pin_kept htree howned path object uid gid
  | remove path dir => exact remove_kept htree howned path dir
  | rename src dst noreplace => exact rename_kept htree howned hruled
  | chmod path mode => exact chmod_kept htree howned path mode
  | chown path uid gid => exact chown_kept htree howned path uid gid

end

theorem Tree.empty : Tree (Fs.empty : Fs ω).nodes :=
  ⟨fun _ h => absurd h Bool.false_ne_true, fun _ h => absurd h Bool.false_ne_true⟩

theorem Owned.empty : Owned (Fs.empty : Fs ω) := fun _ => Iff.rfl

theorem reach_kept {s : Fs ω} (h : Reach Fs.next Ruled Fs.empty s) : Tree s.nodes ∧ Owned s :=
  h.invariant (fun s => Tree s.nodes ∧ Owned s) ⟨.empty, .empty⟩ fun _ c _ hruled hkept =>
    have hstep := Fs.exec_kept hkept.1 hkept.2 c hruled
    ⟨hstep.tree, hstep.owned⟩

/-- what is said of a state: the tree, the owners, and what each call does from here -/
structure Sound (s : Fs ω) (ok : Call ω → Prop) : Prop where
  tree : Tree s.nodes
  owned : Owned s
  failed : ∀ c, ok c → ∀ e, (s.exec c).2 = .error e → (s.exec c).1 = s
  renamed : ∀ src dst noreplace, ok (.rename src dst noreplace) → (s.exec (.rename src dst noreplace)).2 = .ok () →
    Fair s (key src) (key dst) ∧
      Moves (key src) (key dst) s.nodes (s.exec (.rename src dst noreplace)).1.nodes ∧
      Moves (key src) (key dst) s.info (s.exec (.rename src dst noreplace)).1.info

/-- the file system is a tree, and a call does what it is for or nothing, as long as every rename that goes through is fair -/
theorem bpffs_tree {s : Fs ω} (h : Reach Fs.next Ruled Fs.empty s) : Sound s (Ruled s) := by
  obtain ⟨htree, howned⟩ := reach_kept h
  refine ⟨htree, howned, fun c hruled => (Fs.exec_kept htree howned c hruled).failed, fun src dst noreplace hruled hok => ?_⟩
  rcases rename_cases htree howned hruled with ⟨e, he⟩ | ⟨s', hs', hfair, _, hnodes, hinfo⟩
  · change (rename s src dst noreplace).2 = .ok () at hok
    rw [he] at hok
    cases hok
  · have hexec : s.exec (.rename src dst noreplace) = (s', .ok ()) := hs'
    rw [hexec]
    exact ⟨hfair, hnodes, hinfo⟩

/-- "/sys/fs/bpf/a", "/b" after it, and "/sys/fs/bpf/c" -/
def aPath : Bytes := ROOT_BYTES ++ [47, 97]

def abPath : Bytes := aPath ++ [47, 98]

def cPath : Bytes := ROOT_BYTES ++ [47, 99]

/-- a directory with another in it, renamed -/
def movedRun : List (Call Unit) := [.mkdir aPath 0o755 0 0, .mkdir abPath 0o755 0 0, .rename aPath cPath false]

theorem bpffs_tree_moved : Sound (run Fs.next Fs.empty movedRun) (Ruled (run Fs.next Fs.empty movedRun)) :=
  bpffs_tree (.run .start movedRun ⟨trivial, trivial, fun _ _ _ => .inr ⟨by decide, trivial⟩, trivial⟩)

/-- a directory renamed into itself: the call goes through, and what is there is in no directory -/
theorem bpffs_not_tree : ¬∀ s : Fs Unit, Reach Fs.next anyStep Fs.empty s → Sound s fun _ => True := by
  intro h
  have hsound := h _ (reach_run Fs.next Fs.empty [.mkdir aPath 0o755 0 0, .rename aPath abPath false])
  have hdir := @Tree.below_dir _ _ hsound.tree (key aPath) (key abPath) (by decide) (by decide) (by decide)
  revert hdir
  decide

end Omnidroid.Vfs.BpfFs
