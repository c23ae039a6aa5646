/-
Entries of a loopback namespace's table (`Entry` and `read_entry`, `omni-linux/src/loopns.rs`): a small file each.
`readEntry_text`: an entry is read as it was written.
-/
import Omnidroid.Lib.Lines

namespace Omnidroid.Loopback

open Bytes Lines

structure Entry where
  /-- the host port (forward entry) or guest port (reverse entry) -/
  port : UInt16
  owner : UInt32
  shared : Bool
  expiry : Option UInt64
deriving DecidableEq

def SPACE : UInt8 := 32

/-- `<port> <owner pid>`, then ` s` or ` x<unix ms>` -/
def Entry.text (e : Entry) : Bytes :=
  numeral 10 e.port.toNat ++ SPACE :: numeral 10 e.owner.toNat ++ (if e.shared then [SPACE, 115] else []) ++
    e.expiry.elim [] fun ms => SPACE :: 120 :: numeral 10 ms.toNat

def isSpace (c : UInt8) : Bool := c = 32 || (9 ≤ c && c ≤ 13)

/-- `split_whitespace` -/
def words (b : Bytes) : List Bytes := (b.splitOnP isSpace).filter (· ≠ [])

/-- `s`, `x<ms>`, or neither -/
def flag (e : Entry) (t : Bytes) : Entry :=
  if t = [115] then { e with shared := true }
  else
    match t with
    | 120 :: ms => { e with expiry := (parseBelow (2 ^ 64) 10 ms).map UInt64.ofNat }
    | _ => e

/-- `read_entry`, of a file's bytes -/
def readEntry (b : Bytes) : Option Entry :=
  if utf8 b then
    match words b with
    | port :: owner :: rest =>
      match parseBelow (2 ^ 16) 10 port, parseBelow (2 ^ 32) 10 owner with
      | some port, some owner => some (rest.foldl flag { port := UInt16.ofNat port, owner := UInt32.ofNat owner, shared := false, expiry := none })
      | _, _ => none
    | _ => none
  else none

theorem numeral_words {n : ℕ} : ∀ c ∈ numeral 10 n, isSpace c = false := by
  intro c hc
  obtain ⟨hlo, hhi⟩ := numeral_digits (by decide) (by decide) n c hc
  unfold isSpace
  have h₁ : c ≠ 32 := by
    rintro rfl
    exact absurd hlo (by decide)
  have h₂ : ¬c ≤ 13 := by
    intro h
    have := UInt8.le_iff_toNat_le.mp h
    change c.toNat ≤ 13 at this
    omega
  simp [h₁, h₂]

/-- a word, and what comes after the space behind it -/
theorem words_cons {w : Bytes} (h : ∀ c ∈ w, isSpace c = false) (hne : w ≠ []) (rest : Bytes) :
    words (w ++ SPACE :: rest) = w :: words rest := by
  unfold words
  rw [List.splitOnP_append_cons_of_forall_mem h SPACE (by decide), List.filter_cons, if_pos (by simpa using hne)]

theorem words_last {w : Bytes} (h : ∀ c ∈ w, isSpace c = false) (hne : w ≠ []) : words w = [w] := by
  unfold words
  rw [List.splitOnP_eq_singleton h, List.filter_cons, if_pos (by simpa using hne)]
  rfl

theorem utf8_numeral (n : ℕ) : utf8 (numeral 10 n) := by
  refine utf8_ascii fun c hc => ?_
  have := numeral_digits (by decide) (by decide) n c hc
  omega

theorem utf8_text (e : Entry) : utf8 e.text := by
  unfold Entry.text
  refine utf8_append (utf8_append (utf8_append (utf8_numeral _) ?_) ?_) ?_
  · exact utf8_append (a := [SPACE]) (utf8_all rfl) (utf8_numeral _)
  · split
    · exact utf8_all rfl
    · exact utf8_nil
  · cases e.expiry with
    | none => exact utf8_nil
    | some ms => exact utf8_append (a := [SPACE, 120]) (utf8_all rfl) (utf8_numeral _)

/-- an entry is read as it was written -/
theorem readEntry_text (e : Entry) : readEntry e.text = some e := by
  obtain ⟨port, owner, shared, expiry⟩ := e
  have hport : ∀ rest, words (numeral 10 port.toNat ++ SPACE :: rest) = numeral 10 port.toNat :: words rest := fun rest =>
    words_cons numeral_words (numeral_ne_nil _) rest
  have howner : ∀ rest, words (numeral 10 owner.toNat ++ SPACE :: rest) = numeral 10 owner.toNat :: words rest := fun rest =>
    words_cons numeral_words (numeral_ne_nil _) rest
  have hflags : words (Entry.text ⟨port, owner, shared, expiry⟩) =
      numeral 10 port.toNat :: numeral 10 owner.toNat ::
        ((if shared then [[115]] else []) ++ expiry.elim [] fun ms => [120 :: numeral 10 ms.toNat]) := by
    have hx : ∀ ms : UInt64, words (120 :: numeral 10 ms.toNat) = [120 :: numeral 10 ms.toNat] := by
      intro ms
      refine words_last (fun c hc => ?_) (List.cons_ne_nil _ _)
      rcases List.mem_cons.mp hc with rfl | hc
      · decide
      · exact numeral_words c hc
    have hlast : words (numeral 10 owner.toNat) = [numeral 10 owner.toNat] := words_last numeral_words (numeral_ne_nil _)
    have hs : words [115] = [[115]] := by decide
    have hs' : ∀ rest, words ([115] ++ SPACE :: rest) = [115] :: words rest := fun rest =>
      words_cons (List.forall_mem_singleton.mpr rfl) (List.cons_ne_nil _ _) rest
    unfold Entry.text
    dsimp only
    cases shared with
    | false =>
      cases expiry with
      | none =>
        simp only [Bool.false_eq_true, if_false, Option.elim_none, List.append_nil]
        rw [hport, hlast]
      | some ms =>
        simp only [Bool.false_eq_true, if_false, Option.elim_some, List.append_nil, List.append_assoc, List.cons_append]
        rw [hport, howner, hx]
        rfl
    | true =>
      cases expiry with
      | none =>
        simp only [if_true, Option.elim_none, List.append_nil, List.append_assoc, List.cons_append]
        rw [hport, howner, hs]
      | some ms =>
        simp only [if_true, Option.elim_some, List.append_assoc, List.cons_append, List.nil_append]
        rw [hport, howner]
        change _ :: _ :: words ([115] ++ SPACE :: _) = _
        rw [hs', hx]
  unfold readEntry
  rw [if_pos (utf8_text _), hflags]
  dsimp only
  rw [parseBelow_numeral (by decide) (by decide) port.toNat_lt, parseBelow_numeral (by decide) (by decide) owner.toNat_lt]
  dsimp only
  rw [UInt16.ofNat_toNat, UInt32.ofNat_toNat]
  have hms : ∀ ms : UInt64, (parseBelow (2 ^ 64) 10 (numeral 10 ms.toNat)).map UInt64.ofNat = some ms := by
    intro ms
    rw [parseBelow_numeral (by decide) (by decide) ms.toNat_lt, Option.map_some, UInt64.ofNat_toNat]
  have hflag : ∀ (e : Entry) (ms : UInt64), flag e (120 :: numeral 10 ms.toNat) = { e with expiry := some ms } := by
    intro e ms
    unfold flag
    rw [if_neg fun h => absurd (List.cons.inj h).1 (by decide)]
    exact congrArg (fun x => { e with expiry := x }) (hms ms)
  cases shared with
  | false =>
    cases expiry with
    | none => rfl
    | some ms => exact congrArg some (hflag _ ms)
  | true =>
    cases expiry with
    | none => rfl
    | some ms => exact congrArg some (hflag _ ms)

end Omnidroid.Loopback
