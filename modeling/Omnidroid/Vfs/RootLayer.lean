/-
The layer over `/system` of a rooted instance (`omni-linux/src/root/layer.rs`): the enabled modules' files and the tools, in one map.
- `Layer.build`: the modules in order, then the tools. `events`: the files and the replaced directories that it comes to, in order.
- `overlay`: what these give when each one wins over what came before it at and below its path.
- `Undisturbed`: what settles a path contradicts nothing before it. `build_overlays`: then the layer is the overlay, and only then.
- `layer_file_below_file`: a module's file where another has a directory.
-/
import Omnidroid.Lib.Ordered
import Mathlib.Data.Char

namespace Omnidroid.Vfs.RootLayer

abbrev Name := List Char

/-- a guest path by its names; "/" has none -/
abbrev Path := List Name

inductive LayerNode (ω : Type)
  | File (host : ω)
  | Dir
deriving DecidableEq

structure Layer (ω : Type) where
  files : Ordered Path (LayerNode ω)
  replaced : List Path

/-- a directory of the host by its entries, in the order of their names -/
inductive HostDir (ω : Type)
  | nil
  | file (name : Name) (host : ω) (rest : HostDir ω)
  | dir (name : Name) (entries rest : HostDir ω)

inductive ModuleSource (ω : Type)
  /-- the names in the module's directory, and its `system` -/
  | Dir (names : List Name) (system : HostDir ω)
  | Zip

structure Module (ω : Type) where
  id : Name
  source : ModuleSource ω

def REPLACE : Name := ['.', 'r', 'e', 'p', 'l', 'a', 'c', 'e']
def SYSTEM : Name := ['s', 'y', 's', 't', 'e', 'm']
def BIN : Name := ['b', 'i', 'n']
def DEBUG_RAMDISK : Name := ['d', 'e', 'b', 'u', 'g', '_', 'r', 'a', 'm', 'd', 'i', 's', 'k']

def PARTITIONS : List Name :=
  [['v', 'e', 'n', 'd', 'o', 'r'], ['p', 'r', 'o', 'd', 'u', 'c', 't'], ['s', 'y', 's', 't', 'e', 'm', '_', 'e', 'x', 't']]

def SKIP_MARKERS : List Name :=
  [['d', 'i', 's', 'a', 'b', 'l', 'e'], ['r', 'e', 'm', 'o', 'v', 'e'], ['s', 'k', 'i', 'p', '_', 'm', 'o', 'u', 'n', 't']]

def TOOLS : List Name :=
  [['s', 'u'], ['m', 'a', 'g', 'i', 's', 'k'], ['r', 'e', 's', 'e', 't', 'p', 'r', 'o', 'p']]

variable {ω : Type}

/-- a marker that keeps none of the directory's earlier files -/
def HostDir.replaces : HostDir ω → Bool
  | nil => false
  | file name _ rest => name = REPLACE || rest.replaces
  | dir name _ rest => name = REPLACE || rest.replaces

/-- the path is below the directory -/
def isUnder (dir path : Path) : Bool := dir.isPrefixOf path && dir.length < path.length

/-- the directories above a path, "/" not among them, the nearest first -/
def parents (path : Path) : List Path := ((List.range (path.length - 1)).map fun i => path.take (i + 1)).reverse

/-- `format!("{guest}/{name}")`, and a partition of its own at the top -/
def childPath (guest : Path) (top : Bool) (name : Name) : Path :=
  if top && PARTITIONS.contains name then [name] else guest ++ [name]

namespace Layer

def empty : Layer ω := ⟨.empty, []⟩

/-- `entry(dir).or_insert(LayerNode::Dir)` -/
def orInsertDir (files : Ordered Path (LayerNode ω)) (dir : Path) : Ordered Path (LayerNode ω) :=
  if (files.get dir).isSome then files else files.insert dir .Dir

def addFile (l : Layer ω) (guest : Path) (host : ω) : Layer ω :=
  { l with files := ((parents guest).foldl orInsertDir l.files).insert guest (.File host) }

def underReplaced (l : Layer ω) (guest : Path) : Bool := l.replaced.any fun r => isUnder r guest

/-- what an earlier module put below the directory is dropped -/
def replace (l : Layer ω) (key : Path) : Layer ω :=
  ⟨l.files.removeAll ((l.files.entries.map (·.1)).filter (isUnder key)), key :: l.replaced⟩

def overlayDir (guest : Path) (top : Bool) : HostDir ω → Layer ω → Layer ω
  | .nil, l => l
  | .file name host rest, l =>
    if name = REPLACE then overlayDir guest top rest l
    else overlayDir guest top rest (l.addFile (childPath guest top name) host)
  | .dir name entries rest, l =>
    if name = REPLACE then overlayDir guest top rest l
    else
      let child := childPath guest top name
      overlayDir guest top rest (overlayDir child false entries (if entries.replaces then l.replace child else l))

def overlayModule (catalog : List (Module ω)) (l : Layer ω) (id : Name) : Layer ω :=
  match catalog.find? (·.id = id) with
  | some ⟨_, .Dir names system⟩ =>
    if SKIP_MARKERS.any names.contains then l else overlayDir [SYSTEM] true system l
  | some ⟨_, .Zip⟩ => l
  | none => l

def addTool (tool : Name → ω) (l : Layer ω) (name : Name) : Layer ω :=
  (l.addFile [SYSTEM, BIN, name] (tool name)).addFile [DEBUG_RAMDISK, name] (tool name)

/-- the enabled modules, and the tools over them -/
def build (profile : List Name) (catalog : List (Module ω)) (tool : Name → ω) : Layer ω :=
  TOOLS.foldl (addTool tool) (profile.foldl (overlayModule catalog) empty)

def lookup (l : Layer ω) (path : Path) : Option (LayerNode ω) := l.files.get path

def hides (l : Layer ω) (path : Path) : Bool := !l.replaced.isEmpty && l.underReplaced path

/-- of the keys from the directory's on that begin with it, those with one more name -/
def children (l : Layer ω) (dir : Path) : List (Name × LayerNode ω) :=
  (l.files.stretch dir fun k => dir.isPrefixOf k).filterMap fun e =>
    match e.1.drop dir.length with
    | [name] => (l.lookup e.1).map fun node => (name, node)
    | _ => none

end Layer

/-! ## Overlaying -/

/-- what a layer is made of -/
inductive Event (ω : Type)
  | file (path : Path) (host : ω)
  | replace (dir : Path)

def HostDir.events (guest : Path) (top : Bool) : HostDir ω → List (Event ω)
  | .nil => []
  | .file name host rest =>
    if name = REPLACE then rest.events guest top else .file (childPath guest top name) host :: rest.events guest top
  | .dir name entries rest =>
    if name = REPLACE then rest.events guest top
    else
      (if entries.replaces then [.replace (childPath guest top name)] else []) ++
        entries.events (childPath guest top name) false ++ rest.events guest top

def Module.events (m : Module ω) : List (Event ω) :=
  match m.source with
  | .Dir names system => if SKIP_MARKERS.any names.contains then [] else system.events [SYSTEM] true
  | .Zip => []

/-- the enabled modules' entries, one module after another, and then the tools -/
def events (profile : List Name) (catalog : List (Module ω)) (tool : Name → ω) : List (Event ω) :=
  (profile.flatMap fun id => ((catalog.find? (·.id = id)).map Module.events).getD []) ++
    TOOLS.flatMap fun name => [.file [SYSTEM, BIN, name] (tool name), .file [DEBUG_RAMDISK, name] (tool name)]

/-- a file is over everything at, above and below its path, a replaced directory over everything at and below -/
def overlayStep (tree : Path → Option (LayerNode ω)) : Event ω → Path → Option (LayerNode ω)
  | .file p host, path =>
    if path = p then some (.File host) else if path ∈ parents p then some .Dir else if isUnder p path then none else tree path
  | .replace dir, path =>
    if isUnder dir path then none else if path = dir then (tree path).map fun _ => .Dir else tree path

def overlay (es : List (Event ω)) : Path → Option (LayerNode ω) := es.foldl overlayStep fun _ => none

/-- the layer is the overlay, and a tree, and the tools are in it -/
structure Overlays (es : List (Event ω)) (tool : Name → ω) (l : Layer ω) : Prop where
  same : ∀ path, l.lookup path = overlay es path
  /-- every directory above an entry is one; so nothing is below a file -/
  dirs : ∀ path, (l.lookup path).isSome → ∀ dir ∈ parents path, l.lookup dir = some .Dir
  leaves : ∀ path host, l.lookup path = some (.File host) → ∀ below, isUnder path below = true → l.lookup below = none
  children : ∀ dir name node, (name, node) ∈ l.children dir ↔ l.lookup (dir ++ [name]) = some node
  hides : ∀ path, l.hides path = true ↔ ∃ dir, Event.replace dir ∈ es ∧ isUnder dir path = true
  tools : ∀ name ∈ TOOLS, ∀ path, path = [SYSTEM, BIN, name] ∨ path = [DEBUG_RAMDISK, name] →
    l.lookup path = some (.File (tool name)) ∧ ∀ dir ∈ parents path, l.lookup dir = some .Dir

/-! ## What contradicts what came before -/

/-- an event of which `P` says something, and none that `C` is true of after it -/
def Since {ε : Type} (P : List ε → ε → Prop) (C : ε → Prop) (es : List ε) : Prop :=
  ∃ before e after, es = before ++ e :: after ∧ P before e ∧ ∀ e' ∈ after, ¬C e'

/-- a replaced directory above the path -/
def Cuts (path : Path) : Event ω → Prop
  | .file _ _ => False
  | .replace dir => isUnder dir path = true

/-- a file at the path -/
def FileAt (path : Path) : Event ω → Prop
  | .file p _ => path = p
  | .replace _ => False

/-- a file at or below the path -/
def EntryAt (path : Path) : Event ω → Prop
  | .file p _ => path = p ∨ path ∈ parents p
  | .replace _ => False

/-- a file came there, and no replaced directory above it since -/
def FileSince (path : Path) : List (Event ω) → Prop := Since (fun _ e => FileAt path e) (Cuts path)

def EntrySince (path : Path) : List (Event ω) → Prop := Since (fun _ e => EntryAt path e) (Cuts path)

/-- a file below the path, or a directory in its place, where a file came; or a file above it, where any came -/
def Contradicts (path : Path) (before : List (Event ω)) : Event ω → Prop
  | .file p _ => (path ∈ parents p ∧ FileSince path before) ∨ (isUnder p path = true ∧ EntrySince path before)
  | .replace dir => path = dir ∧ FileSince path before

/-- a file at, above or below the path, or a replaced directory above it -/
def Settles (path : Path) : Event ω → Prop
  | .file p _ => path = p ∨ path ∈ parents p ∨ isUnder p path = true
  | .replace dir => isUnder dir path = true

/-- what settles a path last contradicts nothing before it, and no replacement of the path itself after that does -/
def Undisturbed (es : List (Event ω)) : Prop := ∀ path, ¬Since (Contradicts path) (Settles path) es

/-! ## Paths -/

theorem isUnder_iff {dir path : Path} : isUnder dir path = true ↔ dir <+: path ∧ dir.length < path.length := by
  rw [isUnder, Bool.and_eq_true, List.isPrefixOf_iff_prefix, decide_eq_true_eq]

theorem isUnder_trans {a b c : Path} (h : isUnder a b = true) (h' : isUnder b c = true) : isUnder a c = true := by
  rw [isUnder_iff] at *
  exact ⟨h.1.trans h'.1, h.2.trans h'.2⟩

theorem not_isUnder_self (path : Path) : ¬isUnder path path = true := fun h => absurd (isUnder_iff.mp h).2 (lt_irrefl _)

theorem mem_parents {dir path : Path} : dir ∈ parents path ↔ dir ≠ [] ∧ isUnder dir path = true := by
  rw [isUnder_iff, parents, List.mem_reverse, List.mem_map]
  constructor
  · rintro ⟨i, hi, rfl⟩
    have hlt := List.mem_range.mp hi
    have hlength : (path.take (i + 1)).length = i + 1 := List.length_take_of_le (by omega)
    refine ⟨List.ne_nil_of_length_eq_add_one hlength, List.take_prefix _ _, ?_⟩
    omega
  · rintro ⟨hne, hpre, hlt⟩
    have hpos := List.length_pos_iff.mpr hne
    refine ⟨dir.length - 1, List.mem_range.mpr (by omega), ?_⟩
    rw [Nat.sub_add_cancel hpos]
    exact (List.prefix_iff_eq_take.mp hpre).symm

theorem parents_trans {a b c : Path} (h : a ∈ parents b) (h' : isUnder b c = true) : a ∈ parents c := by
  rw [mem_parents] at *
  exact ⟨h.1, isUnder_trans h.2 h'⟩

/-! ## What a step leaves at a path -/

namespace Layer

theorem get_orInsertDirs (dirs : List Path) (files : Ordered Path (LayerNode ω)) (path : Path) :
    (dirs.foldl orInsertDir files).get path = if path ∈ dirs then (files.get path).or (some .Dir) else files.get path := by
  induction dirs generalizing files with
  | nil => rfl
  | cons dir dirs ih =>
    have hone : (orInsertDir files dir).get path = if path = dir then (files.get path).or (some .Dir) else files.get path := by
      unfold orInsertDir
      by_cases hpath : path = dir
      · subst hpath
        rw [if_pos rfl]
        cases hget : files.get path with
        | some node => exact hget
        | none => exact (Ordered.get_insert files path path .Dir).trans (if_pos rfl)
      · rw [if_neg hpath]
        split
        · rfl
        · rw [Ordered.get_insert, if_neg hpath]
    rw [List.foldl_cons, ih, hone]
    by_cases hpath : path = dir
    · rw [if_pos hpath, if_pos (List.mem_cons.mpr (.inl hpath))]
      split
      · cases files.get path <;> rfl
      · rfl
    · rw [if_neg hpath]
      simp only [List.mem_cons, hpath, false_or]

theorem lookup_addFile (l : Layer ω) (p : Path) (host : ω) (path : Path) : (l.addFile p host).lookup path =
    if path = p then some (.File host) else if path ∈ parents p then (l.lookup path).or (some .Dir) else l.lookup path := by
  rw [lookup, addFile, Ordered.get_insert, get_orInsertDirs]
  by_cases hpath : path = p
  · rw [if_pos hpath, if_pos hpath]
  · rw [if_neg hpath, if_neg hpath]
    rfl

theorem lookup_replace (l : Layer ω) (key path : Path) :
    (l.replace key).lookup path = if isUnder key path then none else l.lookup path := by
  rw [lookup, replace, Ordered.get_removeAll]
  by_cases hunder : isUnder key path = true
  · rw [if_pos hunder]
    split
    · rfl
    case isFalse hnot =>
      refine Option.eq_none_iff_forall_ne_some.mpr fun node hnode => hnot ?_
      exact List.mem_filter.mpr ⟨List.mem_map.mpr ⟨(path, node), Ordered.mem_entries.mpr hnode, rfl⟩, hunder⟩
  · rw [if_neg hunder, if_neg fun h => hunder (List.mem_filter.mp h).2]
    rfl

def apply (l : Layer ω) : Event ω → Layer ω
  | .file path host => l.addFile path host
  | .replace dir => l.replace dir

theorem overlayDir_eq (d : HostDir ω) (guest : Path) (top : Bool) (l : Layer ω) :
    overlayDir guest top d l = (d.events guest top).foldl apply l := by
  induction d generalizing guest top l with
  | nil => rfl
  | file name host rest ih =>
    rw [overlayDir, HostDir.events]
    split
    · exact ih guest top l
    · rw [ih, List.foldl_cons]
      rfl
  | dir name entries rest ihe ihr =>
    rw [overlayDir, HostDir.events]
    split
    · exact ihr guest top l
    · rw [ihr, ihe, List.foldl_append, List.foldl_append]
      split
      · rfl
      · rfl

theorem overlayModule_eq (catalog : List (Module ω)) (l : Layer ω) (id : Name) :
    overlayModule catalog l id = (((catalog.find? (·.id = id)).map Module.events).getD []).foldl apply l := by
  rw [overlayModule]
  cases catalog.find? (·.id = id) with
  | none => rfl
  | some m =>
    obtain ⟨id', source⟩ := m
    cases source with
    | Zip => rfl
    | Dir names system =>
      simp only [Option.map_some, Option.getD_some, Module.events]
      split
      · rfl
      · exact overlayDir_eq ..

theorem addTool_eq (tool : Name → ω) (l : Layer ω) (name : Name) : addTool tool l name =
    ([.file [SYSTEM, BIN, name] (tool name), .file [DEBUG_RAMDISK, name] (tool name)] : List (Event ω)).foldl apply l := rfl

theorem foldl_flatMap_apply {α : Type} {f : Layer ω → α → Layer ω} {g : α → List (Event ω)} (h : ∀ l a, f l a = (g a).foldl apply l)
    (as : List α) (l : Layer ω) : as.foldl f l = (as.flatMap g).foldl apply l := by
  rw [List.foldl_flatMap]
  congr 1
  funext l a
  exact h l a

/-- the layer is its events, one after another -/
theorem build_eq (profile : List Name) (catalog : List (Module ω)) (tool : Name → ω) :
    build profile catalog tool = (events profile catalog tool).foldl apply empty := by
  rw [build, events, List.foldl_append, foldl_flatMap_apply (overlayModule_eq catalog) profile empty,
    foldl_flatMap_apply (addTool_eq tool) TOOLS]

end Layer

/-! ## Where the layer is the overlay -/

/-- the last event is it, or does not end it -/
theorem since_concat {ε : Type} {P : List ε → ε → Prop} {C : ε → Prop} {es : List ε} {e : ε} :
    Since P C (es ++ [e]) ↔ P es e ∨ ¬C e ∧ Since P C es := by
  constructor
  · rintro ⟨before, e', after, heq, hp, hafter⟩
    rcases List.eq_nil_or_concat after with rfl | ⟨after, last, rfl⟩
    · obtain ⟨rfl, h⟩ := List.append_inj' heq rfl
      cases h
      exact .inl hp
    · rw [List.concat_eq_append, ← List.cons_append, ← List.append_assoc] at heq
      obtain ⟨rfl, h⟩ := List.append_inj' heq rfl
      cases h
      refine .inr ⟨hafter e (by simp), before, e', after, rfl, hp, fun a ha => hafter a ?_⟩
      rw [List.concat_eq_append]
      exact List.mem_append_left _ ha
  · rintro (hp | ⟨hc, before, e', after, rfl, hp, hafter⟩)
    · exact ⟨es, e, [], rfl, hp, List.forall_mem_nil _⟩
    · refine ⟨before, e', after ++ [e], by simp, hp, ?_⟩
      rw [List.forall_mem_append]
      exact ⟨hafter, List.forall_mem_singleton.mpr hc⟩

theorem not_since_nil {ε : Type} {P : List ε → ε → Prop} {C : ε → Prop} : ¬Since P C [] := by
  rintro ⟨before, e, after, heq, -⟩
  exact absurd heq.symm (by simp)

/-- the layer of a list of events -/
def layerOf (es : List (Event ω)) : Layer ω := es.foldl Layer.apply Layer.empty

theorem layerOf_concat (es : List (Event ω)) (e : Event ω) : layerOf (es ++ [e]) = (layerOf es).apply e := by
  rw [layerOf, List.foldl_append]
  rfl

theorem overlay_concat (es : List (Event ω)) (e : Event ω) : overlay (es ++ [e]) = overlayStep (overlay es) e := by
  rw [overlay, List.foldl_append]
  rfl

/-- the layer keeps a file for as long as no directory above it is replaced -/
theorem fileSince_iff {es : List (Event ω)} {path : Path} :
    FileSince path es ↔ ∃ host, (layerOf es).lookup path = some (.File host) := by
  induction es using List.reverseRecOn with
  | nil =>
    refine iff_of_false not_since_nil ?_
    rintro ⟨host, h⟩
    cases h
  | append_singleton es e ih =>
    rw [FileSince, since_concat, ← FileSince, ih, layerOf_concat]
    cases e with
    | file p host =>
      rw [Layer.apply, Layer.lookup_addFile]
      by_cases hpath : path = p
      · rw [if_pos hpath]
        exact iff_of_true (.inl hpath) ⟨host, rfl⟩
      · rw [if_neg hpath]
        simp only [FileAt, Cuts, hpath, false_or, not_false_iff, true_and]
        split
        · cases (layerOf es).lookup path with
          | none => simp
          | some node => rw [Option.some_or]
        · rfl
    | replace dir =>
      rw [Layer.apply, Layer.lookup_replace]
      simp only [FileAt, Cuts, false_or]
      split
      case isTrue hunder => exact iff_of_false (fun h => h.1 hunder) (by simp)
      case isFalse hunder => exact and_iff_right hunder

/-- any entry, too -/
theorem entrySince_iff {es : List (Event ω)} {path : Path} : EntrySince path es ↔ (layerOf es).lookup path ≠ none := by
  induction es using List.reverseRecOn with
  | nil => exact iff_of_false not_since_nil fun h => h rfl
  | append_singleton es e ih =>
    rw [EntrySince, since_concat, ← EntrySince, ih, layerOf_concat]
    cases e with
    | file p host =>
      rw [Layer.apply, Layer.lookup_addFile]
      simp only [EntryAt, Cuts, not_false_iff, true_and]
      by_cases hpath : path = p
      · rw [if_pos hpath]
        exact iff_of_true (.inl (.inl hpath)) (by simp)
      · rw [if_neg hpath]
        split
        case isTrue hparent => exact iff_of_true (.inl (.inr hparent)) (by cases (layerOf es).lookup path <;> simp)
        case isFalse hparent => simp only [hpath, hparent, or_false, false_or]
    | replace dir =>
      rw [Layer.apply, Layer.lookup_replace]
      simp only [EntryAt, Cuts, false_or]
      split
      case isTrue hunder => exact iff_of_false (fun h => h.1 hunder) (fun h => h rfl)
      case isFalse hunder => exact and_iff_right hunder

/-- a file of the overlay is one that the layer has kept -/
theorem fileSince_of_overlay {es : List (Event ω)} {path : Path} {host : ω} (h : overlay es path = some (.File host)) :
    FileSince path es := by
  induction es using List.reverseRecOn generalizing host with
  | nil => cases h
  | append_singleton es e ih =>
    rw [overlay_concat] at h
    rw [FileSince, since_concat, ← FileSince]
    cases e with
    | file p host' =>
      rw [overlayStep] at h
      split at h
      case isTrue hpath => exact .inl hpath
      split at h
      · cases h
      split at h
      · cases h
      exact .inr ⟨id, ih h⟩
    | replace dir =>
      rw [overlayStep] at h
      split at h
      · cases h
      case isFalse hunder =>
        split at h
        · obtain ⟨node, -, hnode⟩ := Option.map_eq_some_iff.mp h
          cases hnode
        · exact .inr ⟨hunder, ih h⟩

/-- a path at which the last event that settles it contradicts nothing -/
theorem same_iff {es : List (Event ω)} {path : Path} :
    (layerOf es).lookup path = overlay es path ↔ ¬Since (Contradicts path) (Settles path) es := by
  induction es using List.reverseRecOn with
  | nil => exact iff_of_true rfl not_since_nil
  | append_singleton es e ih =>
    have hfile := @fileSince_iff ω es path
    have hentry := @entrySince_iff ω es path
    have hoverlay := fun host => @fileSince_of_overlay ω es path host
    rw [since_concat, layerOf_concat, overlay_concat, not_or, not_and, ← ih]
    cases e with
    | file p host =>
      rw [Layer.apply, Layer.lookup_addFile, overlayStep, Contradicts, Settles]
      by_cases hpath : path = p
      · have hno : ¬isUnder p p = true := not_isUnder_self p
        have hno' : ¬p ∈ parents p := fun h => hno (mem_parents.mp h).2
        rw [if_pos hpath, if_pos hpath]
        simp [hpath, hno, hno']
      rw [if_neg hpath, if_neg hpath]
      by_cases hparent : path ∈ parents p
      · have hno : ¬isUnder p path = true := fun h => not_isUnder_self p (isUnder_trans h (mem_parents.mp hparent).2)
        have hkept : ((layerOf es).lookup path).or (some .Dir) = some .Dir ↔ ¬FileSince path es := by
          rw [hfile]
          rcases (layerOf es).lookup path with _ | (host' | _) <;> simp
        rw [if_pos hparent, if_pos hparent, hkept]
        simp [hparent, hno]
      rw [if_neg hparent, if_neg hparent]
      by_cases hunder : isUnder p path = true
      · rw [if_pos hunder]
        simp [hparent, hunder, hentry]
      · rw [if_neg hunder]
        simp [hpath, hparent, hunder]
    | replace dir =>
      rw [Layer.apply, Layer.lookup_replace, overlayStep, Contradicts, Settles]
      by_cases hunder : isUnder dir path = true
      · have hne : path ≠ dir := fun h => not_isUnder_self dir (h ▸ hunder)
        rw [if_pos hunder, if_pos hunder]
        simp [hne, hunder]
      rw [if_neg hunder, if_neg hunder]
      by_cases hpath : path = dir
      · -- a path that is no file of the layer is none of the overlay's either
        have hkept : ((layerOf es).lookup path = (overlay es path).map fun _ => .Dir) ↔
            ¬FileSince path es ∧ (layerOf es).lookup path = overlay es path := by
          rw [hfile] at hoverlay ⊢
          generalize (layerOf es).lookup path = kept at hoverlay ⊢
          generalize overlay es path = node at hoverlay ⊢
          rcases kept with _ | (host' | _) <;> rcases node with _ | (host'' | _) <;> simp at hoverlay ⊢
        rw [if_pos hpath, hkept]
        simp only [hpath, true_and, and_congr_right_iff]
        exact fun _ => ⟨fun h _ => h, fun h => h (not_isUnder_self dir)⟩
      · rw [if_neg hpath]
        simp [hpath, hunder]

/-! ## The overlay is a tree -/

theorem overlay_dirs {es : List (Event ω)} {path dir : Path} (h : (overlay es path).isSome) (hdir : dir ∈ parents path) :
    overlay es dir = some .Dir := by
  induction es using List.reverseRecOn generalizing path dir with
  | nil => cases h
  | append_singleton es e ih =>
    have hunder := (mem_parents.mp hdir).2
    rw [overlay_concat] at h ⊢
    cases e with
    | file p host =>
      rw [overlayStep] at h ⊢
      by_cases hpath : path = p
      · have hne : dir ≠ p := fun heq => not_isUnder_self p (by rw [hpath, heq] at hunder; exact hunder)
        rw [if_neg hne, if_pos (hpath ▸ hdir)]
      rw [if_neg hpath] at h
      by_cases hparent : path ∈ parents p
      · have hdir' := parents_trans hdir (mem_parents.mp hparent).2
        have hne : dir ≠ p := fun heq => not_isUnder_self p (by rw [heq] at hdir'; exact (mem_parents.mp hdir').2)
        rw [if_neg hne, if_pos hdir']
      rw [if_neg hparent] at h
      by_cases hbelow : isUnder p path = true
      · rw [if_pos hbelow] at h
        cases h
      rw [if_neg hbelow] at h
      have hne : dir ≠ p := fun heq => hbelow (heq ▸ hunder)
      rw [if_neg hne]
      split
      · rfl
      · rw [if_neg fun h => hbelow (isUnder_trans h hunder)]
        exact ih h hdir
    | replace d =>
      rw [overlayStep] at h ⊢
      by_cases hbelow : isUnder d path = true
      · rw [if_pos hbelow] at h
        cases h
      rw [if_neg hbelow] at h
      have hsome : (overlay es path).isSome := by
        split at h
        · rwa [Option.isSome_map] at h
        · exact h
      rw [if_neg fun h => hbelow (isUnder_trans h hunder), ih hsome hdir]
      split
      · rfl
      · rfl

/-- no event is at "/" -/
def Named (es : List (Event ω)) : Prop := ∀ path host, Event.file path host ∈ es → path ≠ []

theorem overlay_root {es : List (Event ω)} (hes : Named es) : overlay es [] = none := by
  induction es using List.reverseRecOn with
  | nil => rfl
  | append_singleton es e ih =>
    have hnone := ih fun path host h => hes path host (List.mem_append_left _ h)
    rw [overlay_concat]
    cases e with
    | file p host =>
      have hne := hes p host (List.mem_append_right _ (List.mem_singleton_self _))
      have hparent : ¬[] ∈ parents p := fun h => (mem_parents.mp h).1 rfl
      rw [overlayStep, if_neg hne.symm, if_neg hparent, hnone, ite_self]
    | replace d => rw [overlayStep, hnone, Option.map_none, ite_self, ite_self]

theorem hostDir_named (d : HostDir ω) {guest : Path} (top : Bool) {path : Path} {host : ω} (h : Event.file path host ∈ d.events guest top) :
    path ≠ [] := by
  have hchild : ∀ guest top name, childPath guest top name ≠ [] := by
    intro guest top name
    unfold childPath
    split
    · exact List.cons_ne_nil _ _
    · exact List.append_ne_nil_of_right_ne_nil _ (List.cons_ne_nil _ _)
  induction d generalizing guest top with
  | nil => cases h
  | file name host' rest ih =>
    rw [HostDir.events] at h
    split at h
    · exact ih top h
    · rcases List.mem_cons.mp h with h | h
      · cases h
        exact hchild _ _ _
      · exact ih top h
  | dir name entries rest ihe ihr =>
    rw [HostDir.events] at h
    split at h
    · exact ihr top h
    · rcases List.mem_append.mp h with h | h
      · rcases List.mem_append.mp h with h | h
        · split at h
          · cases List.mem_singleton.mp h
          · cases h
        · exact ihe false h
      · exact ihr top h

theorem events_named (profile : List Name) (catalog : List (Module ω)) (tool : Name → ω) : Named (events profile catalog tool) := by
  intro path host h
  rcases List.mem_append.mp h with h | h
  · obtain ⟨id, -, h⟩ := List.mem_flatMap.mp h
    cases hfind : catalog.find? (·.id = id) with
    | none =>
      rw [hfind] at h
      cases h
    | some m =>
      rw [hfind, Option.map_some, Option.getD_some, Module.events] at h
      split at h
      · split at h
        · cases h
        · exact hostDir_named _ _ h
      · cases h
  · obtain ⟨name, -, h⟩ := List.mem_flatMap.mp h
    rcases List.mem_pair.mp h with h | h
    · cases h
      exact List.cons_ne_nil _ _
    · cases h
      exact List.cons_ne_nil _ _

/-! ## The layer and the overlay -/

theorem mem_replaced {es : List (Event ω)} {dir : Path} : dir ∈ (layerOf es).replaced ↔ Event.replace dir ∈ es := by
  induction es using List.reverseRecOn with
  | nil => exact iff_of_false List.not_mem_nil List.not_mem_nil
  | append_singleton es e ih =>
    rw [layerOf_concat, List.mem_append, ← ih, List.mem_singleton]
    cases e with
    | file p host => exact (or_iff_left fun h => by cases h).symm
    | replace d =>
      rw [Layer.apply, Layer.replace, List.mem_cons, Event.replace.injEq]
      exact or_comm

theorem hides_iff {es : List (Event ω)} {path : Path} :
    (layerOf es).hides path = true ↔ ∃ dir, Event.replace dir ∈ es ∧ isUnder dir path = true := by
  have hany : (layerOf es).hides path = (layerOf es).replaced.any fun r => isUnder r path := by
    rw [Layer.hides, Layer.underReplaced]
    cases (layerOf es).replaced <;> rfl
  rw [hany, List.any_eq_true]
  simp only [mem_replaced]

theorem mem_children (l : Layer ω) (dir : Path) (name : Name) (node : LayerNode ω) :
    (name, node) ∈ l.children dir ↔ l.lookup (dir ++ [name]) = some node := by
  have hstretch : ∀ e, e ∈ l.files.stretch dir (fun k => dir.isPrefixOf k) ↔ e ∈ l.files.entries ∧ dir <+: e.1 := by
    intro e
    rw [Ordered.mem_stretch, List.isPrefixOf_iff_prefix]
    · exact fun b hb => le_of_prefix (List.isPrefixOf_iff_prefix.mp hb)
    · exact fun a b hra hab hb => List.isPrefixOf_iff_prefix.mpr (prefix_of_between hra hab (List.isPrefixOf_iff_prefix.mp hb))
  rw [Layer.children, List.mem_filterMap]
  constructor
  · rintro ⟨⟨key, node'⟩, he, h⟩
    obtain ⟨-, rest, hkey⟩ := (hstretch _).mp he
    change dir ++ rest = key at hkey
    subst hkey
    dsimp only at h
    rw [List.drop_left] at h
    split at h
    case h_1 one =>
      obtain ⟨node'', hnode, h⟩ := Option.map_eq_some_iff.mp h
      cases h
      exact hnode
    case h_2 => cases h
  · intro h
    refine ⟨(dir ++ [name], node), (hstretch _).mpr ⟨Ordered.mem_entries.mpr h, List.prefix_append ..⟩, ?_⟩
    rw [List.drop_left]
    exact Option.map_eq_some_iff.mpr ⟨node, h, rfl⟩

/-- nothing that comes after a tool is at or above its paths -/
theorem overlay_tools (es : List (Event ω)) (tool : Name → ω) {name : Name} (hname : name ∈ TOOLS) {path : Path}
    (hpath : path = [SYSTEM, BIN, name] ∨ path = [DEBUG_RAMDISK, name]) :
    overlay (es ++ TOOLS.flatMap fun name => [.file [SYSTEM, BIN, name] (tool name), .file [DEBUG_RAMDISK, name] (tool name)]) path =
      some (.File (tool name)) := by
  rw [overlay, List.foldl_append]
  generalize es.foldl overlayStep (fun _ => none) = tree
  simp only [TOOLS, List.mem_cons, List.not_mem_nil, or_false] at hname
  rcases hname with rfl | rfl | rfl <;> rcases hpath with rfl | rfl <;>
    simp [TOOLS, overlayStep, mem_parents, isUnder, SYSTEM, BIN, DEBUG_RAMDISK]

/-- where the layer is the overlay at every path, it is a tree with the tools in it -/
theorem overlays_of_same {es : List (Event ω)} (hes : Named es) {tool : Name → ω}
    (hsame : ∀ path, (layerOf es).lookup path = overlay es path)
    (htools : ∀ name ∈ TOOLS, ∀ path, path = [SYSTEM, BIN, name] ∨ path = [DEBUG_RAMDISK, name] →
      overlay es path = some (.File (tool name))) : Overlays es tool (layerOf es) where
  same := hsame
  dirs path h dir hdir := by
    rw [hsame] at h ⊢
    exact overlay_dirs h hdir
  leaves path host h below hunder := by
    rw [hsame] at h ⊢
    by_contra hsome
    have hne : path ≠ [] := by
      rintro rfl
      rw [overlay_root hes] at h
      cases h
    have hdir := overlay_dirs (Option.ne_none_iff_isSome.mp hsome) (mem_parents.mpr ⟨hne, hunder⟩)
    rw [h] at hdir
    cases hdir
  children := mem_children (layerOf es)
  hides path := hides_iff
  tools name hname path hpath := by
    have h := htools name hname path hpath
    refine ⟨(hsame path).trans h, fun dir hdir => ?_⟩
    rw [hsame]
    exact overlay_dirs (by rw [h]; rfl) hdir

/-- the layer is the overlay of the modules and the tools exactly when what settles each path contradicts nothing before it -/
theorem build_overlays (profile : List Name) (catalog : List (Module ω)) (tool : Name → ω) :
    Overlays (events profile catalog tool) tool (Layer.build profile catalog tool) ↔ Undisturbed (events profile catalog tool) := by
  rw [Layer.build_eq]
  constructor
  · intro h path
    exact same_iff.mp (h.same path)
  · intro h
    exact overlays_of_same (events_named profile catalog tool) (fun path => same_iff.mpr (h path))
      fun name hname path hpath => overlay_tools _ tool hname hpath

/-- `/system/x` is the first module's file, and stays one above the second module's `/system/x/g` -/
theorem layer_file_below_file :
    let a : Module Nat := ⟨['a'], .Dir [] (.file ['x'] 1 .nil)⟩
    let b : Module Nat := ⟨['b'], .Dir [] (.dir ['x'] (.file ['g'] 2 .nil) .nil)⟩
    ¬Overlays (events [['a'], ['b']] [a, b] (fun _ => 0)) (fun _ => 0) (Layer.build [['a'], ['b']] [a, b] fun _ => 0) := by
  intro a b h
  have hdir := h.dirs [SYSTEM, ['x'], ['g']] (by with_unfolding_all decide) [SYSTEM, ['x']] (by decide)
  have hfile : (Layer.build [['a'], ['b']] [a, b] fun _ => 0).lookup [SYSTEM, ['x']] = some (.File 1) := by with_unfolding_all decide
  rw [hfile] at hdir
  cases hdir

end Omnidroid.Vfs.RootLayer
