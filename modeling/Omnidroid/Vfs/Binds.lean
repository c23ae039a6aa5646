/-
The bind mounts of an instance (`Binds`, `omni-linux/src/vfs.rs`): a table, and the text it is kept in.

- `format`, `parse`: the text a save writes, and what a reload makes of a text; `parse_format` for targets without tabs and line
  ends and host paths that are Unicode.
- `apply`: what a mount or an unmount does to a table.
- `covering`, `redirect`: the mount a guest path is under, and the place a host path is in.
-/
import Omnidroid.Vfs.Owners

namespace Omnidroid.Binds

open Bytes Lines
open Owners (TAB SLASH components joined)

/-! ## Text of host paths -/

/-- the bytes of a character's rest, within the range its second byte may be in -/
def isRest (b : Bytes) (i : ℕ) (lo hi : UInt8) : Bool :=
  match b[i]? with
  | some c => lo ≤ c && c ≤ hi
  | none => false

/-- whether a character comes first, and how many bytes it has, or are replaced together -/
def nextChar : Bytes → Bool × ℕ
  | [] => (false, 1)
  | a :: rest =>
    if a < 0x80 then (true, 1)
    else if 0xC2 ≤ a ∧ a ≤ 0xDF then (if isRest rest 0 0x80 0xBF then (true, 2) else (false, 1))
    else if 0xE0 ≤ a ∧ a ≤ 0xEF then
      if !isRest rest 0 (if a = 0xE0 then 0xA0 else 0x80) (if a = 0xED then 0x9F else 0xBF) then (false, 1)
      else if !isRest rest 1 0x80 0xBF then (false, 2)
      else (true, 3)
    else if 0xF0 ≤ a ∧ a ≤ 0xF4 then
      if !isRest rest 0 (if a = 0xF0 then 0x90 else 0x80) (if a = 0xF4 then 0x8F else 0xBF) then (false, 1)
      else if !isRest rest 1 0x80 0xBF then (false, 2)
      else if !isRest rest 2 0x80 0xBF then (false, 3)
      else (true, 4)
    else (false, 1)

def lossyFrom : ℕ → Bytes → Bytes
  | 0, _ => []
  | fuel + 1, b =>
    if b = [] then []
    else (if (nextChar b).1 then b.take (nextChar b).2 else [0xEF, 0xBF, 0xBD]) ++ lossyFrom fuel (b.drop (nextChar b).2)

/-- `String::from_utf8_lossy` and `to_string_lossy` -/
def lossy (b : Bytes) : Bytes := lossyFrom b.length b

/-! ## The table -/

/-- a bind mount: a guest path that shows a host path, over a host directory -/
structure Bind where
  target : Bytes
  host : Bytes
  over_ : Option Bytes
deriving DecidableEq, Repr

inductive Op where
  | bind (target host : Bytes) (over_ : Option Bytes)
  | unbind (target : Bytes)
deriving DecidableEq

/-- a directory is not bound over itself -/
def overOf (host : Bytes) (over_ : Option Bytes) : Option Bytes := over_.filter fun o => components o ≠ components host

/-- the change to the table -/
def Op.apply (table : List Bind) : Op → List Bind
  | .bind target host over_ => (table.filter (·.target ≠ target)) ++ [⟨target, host, overOf host over_⟩]
  | .unbind target => table.filter (·.target ≠ target)

/-- whether it goes on to save: an unmount that removed nothing does not -/
def Op.saves (table : List Bind) : Op → Bool
  | .bind .. => true
  | .unbind target => (table.filter (·.target ≠ target)).length ≠ table.length

def Bind.line (b : Bind) : Bytes := b.target ++ TAB :: lossy b.host ++ TAB :: (b.over_.elim [] lossy)

/-- the text `save` writes -/
def format (table : List Bind) : Bytes := table.flatMap fun b => b.line ++ [NEWLINE]

/-- what `reload` makes of a line -/
def parseLine (l : Bytes) : Option Bind :=
  match l.splitOn TAB with
  | target :: host :: rest =>
    some ⟨target, lossy host, (rest.head?.filter (· ≠ [])).map lossy⟩
  | _ => none

/-- `reload`, of the file's bytes -/
def parse (text : Bytes) : List Bind := (text.splitOn NEWLINE).filterMap parseLine

/-- the last entry of the greatest key, `max_by_key` -/
def maxByKey {α : Type*} (key : α → ℕ) (l : List α) : Option α :=
  l.foldl (fun best x => match best with | none => some x | some b => if key b ≤ key x then some x else some b) none

/-- `covering`: the deepest mount at or above a guest path -/
def covering (table : List Bind) (path : Bytes) : Option (Bytes × Bytes) :=
  (maxByKey (·.target.length) (table.filter fun b =>
    path = b.target || (b.target.isPrefixOf path && path[b.target.length]? = some SLASH))).map fun b => (b.target, b.host)

/-- `Path::join` -/
def joinHost (base rest : Bytes) : Bytes := if base.getLast? = some SLASH then base ++ rest else base ++ SLASH :: rest

/-- the mount a host path is seen through: one over a directory at or above it, not within what it covers -/
def through (table : List Bind) (host : Bytes) : Option (Bind × Bytes) :=
  (maxByKey (fun e : Bind × Bytes => e.2.length) ((table.filterMap fun b => b.over_.map fun o => (b, o)).filter fun e =>
    (components e.2).isPrefixOf (components host) && !(components e.2).isPrefixOf (components e.1.host)))

def redirectFrom (table : List Bind) : ℕ → Bytes → Bytes
  | 0, host => host
  | fuel + 1, host =>
    match through table host with
    | none => host
    | some (b, o) =>
      let rest := (components host).drop (components o).length
      redirectFrom table fuel (if rest = [] then b.host else joinHost b.host (joined rest))

/-- `redirect` -/
def redirect (table : List Bind) (host : Bytes) : Bytes := redirectFrom table 8 host

/-! ## The text is read back -/

/-- text of a host path that a line holds -/
def Text (b : Bytes) : Prop := lossy b = b ∧ TAB ∉ b ∧ NEWLINE ∉ b

/-- a mount that a line holds -/
def Bind.Holds (b : Bind) : Prop := (TAB ∉ b.target ∧ NEWLINE ∉ b.target) ∧ Text b.host ∧ ∀ o ∈ b.over_, Text o ∧ o ≠ []

theorem line_newline {b : Bind} (h : b.Holds) : NEWLINE ∉ b.line := by
  obtain ⟨⟨-, ht⟩, ⟨hl, -, hh⟩, ho⟩ := h
  have hover : NEWLINE ∉ b.over_.elim [] lossy := by
    cases hv : b.over_ with
    | none => exact List.not_mem_nil
    | some o =>
      obtain ⟨⟨hol, -, hon⟩, -⟩ := ho o hv
      change NEWLINE ∉ lossy o
      rwa [hol]
  unfold Bind.line
  rw [hl]
  simp only [List.mem_append, List.mem_cons, not_or]
  exact ⟨⟨ht, by decide, hh⟩, by decide, hover⟩

theorem parseLine_line {b : Bind} (h : b.Holds) : parseLine b.line = some b := by
  obtain ⟨⟨ht, -⟩, ⟨hl, hh, -⟩, ho⟩ := h
  unfold parseLine Bind.line
  rw [hl, List.append_assoc, List.cons_append, List.splitOn_append_cons_self_of_not_mem ht, List.splitOn_append_cons_self_of_not_mem hh]
  cases hv : b.over_ with
  | none =>
    simp only [Option.elim_none, List.splitOn_nil, List.head?_cons, Option.filter_some, ne_eq, not_true_eq_false, decide_false,
      Bool.false_eq_true, if_false, Option.map_none]
    rw [hl, ← hv]
  | some o =>
    obtain ⟨⟨hol, hot, -⟩, hne⟩ := ho o hv
    simp only [Option.elim_some]
    rw [hol, List.splitOn_eq_singleton hot]
    simp only [List.head?_cons, Option.filter_some, ne_eq, hne, not_false_eq_true, decide_true, if_true, Option.map_some]
    rw [hol, hl, ← hv]

/-- **A table comes back** from the text it is saved as. -/
theorem parse_format {table : List Bind} (h : ∀ b ∈ table, b.Holds) : parse (format table) = table := by
  unfold parse format
  induction table with
  | nil => rfl
  | cons b table ih =>
    have hb := h b List.mem_cons_self
    rw [List.flatMap_cons, List.append_assoc]
    change List.filterMap parseLine ((b.line ++ NEWLINE :: _).splitOn NEWLINE) = _
    rw [List.splitOn_append_cons_self_of_not_mem (line_newline hb), List.filterMap_cons, parseLine_line hb]
    exact congrArg (List.cons b) (ih fun b hb => h b (List.mem_cons_of_mem _ hb))

/-- a mount whose strings a line holds -/
def Op.Holds : Op → Prop
  | .bind target host over_ => Bind.Holds ⟨target, host, overOf host over_⟩
  | .unbind _ => True

theorem apply_holds {table : List Bind} (h : ∀ b ∈ table, b.Holds) {op : Op} (hop : op.Holds) : ∀ b ∈ op.apply table, b.Holds := by
  intro b hb
  cases op with
  | bind target host over_ =>
    rcases List.mem_append.mp hb with hb | hb
    · exact h b (List.mem_of_mem_filter hb)
    · rw [List.mem_singleton.mp hb]
      exact hop
  | unbind target => exact h b (List.mem_of_mem_filter hb)

end Omnidroid.Binds
