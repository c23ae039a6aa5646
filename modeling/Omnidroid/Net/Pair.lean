/-
One direction of a socket pair (`PairChannel` and `send_with`, `receive`, `take` on it, `omni-linux/src/socket.rs`): what an end
has been sent, bytes in one queue and descriptors in another, each batch at the position of its message's first byte.

- `fill_append`, `fill_length`: a stream's receive takes a prefix of what is queued, as long as there is room and something queued.
- `starts_append`, `starts_split`: messages by the position they start at, and what moving the position on passes over.
-/
import Mathlib.Tactic
import Omnidroid.Lib.Bytes

namespace Omnidroid.Pair

open Bytes

/-- a message as it was sent -/
structure Msg (ρ : Type) where
  bytes : Bytes
  rights : List ρ
deriving DecidableEq

/-- a receive that took something, and what became of it -/
structure Take (ρ : Type) where
  room : ℕ
  /-- it can hand over descriptors -/
  carries : Bool
  /-- what its caller got -/
  bytes : Bytes
  /-- end of file -/
  ended : Bool
  /-- the descriptors of the messages whose first byte it took (of the message, if messages are whole) -/
  owed : List ρ
  /-- those it handed over; `none` until it gets to them -/
  given : Option (List ρ)
deriving DecidableEq

structure Dir (ρ : Type) where
  queue : List Bytes := []
  /-- bytes ever queued, and ever taken -/
  sent : ℕ := 0
  taken : ℕ := 0
  rights : List (ℕ × List ρ) := []
  /-- the messages, and the receives, from the first on -/
  log : List (Msg ρ) := []
  takes : List (Take ρ) := []
deriving DecidableEq

/-- the copying loop of a stream's `receive`: what it takes, and what stays queued -/
def fill : List Bytes → ℕ → Bytes × List Bytes
  | [], _ => ([], [])
  | front :: q, room =>
    if room = 0 then ([], front :: q)
    else if front.length ≤ room then (front ++ (fill q (room - front.length)).1, (fill q (room - front.length)).2)
    else (front.take room, front.drop room :: q)

/-- messages, each with the position it starts at -/
def starts {ρ : Type} : ℕ → List (Msg ρ) → List (ℕ × Msg ρ)
  | _, [] => []
  | at_, m :: log => (at_, m) :: starts (at_ + m.bytes.length) log

/-- what a receive that takes the message, or its first byte, is to hand over -/
def Msg.due {ρ : Type} (stream : Bool) (m : Msg ρ) : List ρ := if stream && m.bytes.isEmpty then [] else m.rights

namespace Dir

variable {ρ : Type} (stream : Bool) (d : Dir ρ)

/-- `send_with` -/
def send (bytes : Bytes) (rights : List ρ) : Dir ρ :=
  { d with
    sent := (d.sent + bytes.length) % 2 ^ 64
    rights := if rights.isEmpty then d.rights else d.rights ++ [(d.sent, rights)]
    queue := d.queue ++ [bytes]
    log := d.log ++ [⟨bytes, rights⟩] }

/-- `receive`, of an end whose other end is open or not; `none` is `EAGAIN` -/
def receive (other : Bool) (room : ℕ) : Option (Bytes × Dir ρ) :=
  match d.queue with
  | [] => if other then none else some ([], d)
  | msg :: q =>
    if stream then
      some ((fill d.queue room).1,
        { d with queue := (fill d.queue room).2, taken := (d.taken + (fill d.queue room).1.length) % 2 ^ 64 })
    else some (msg.take room, { d with queue := q, taken := (d.taken + msg.length) % 2 ^ 64 })

/-- `take`: the next message, or all that a stream has queued -/
def take : Option (Bytes × Dir ρ) :=
  match d.queue with
  | [] => none
  | msg :: q =>
    if stream then some (d.queue.flatten, { d with queue := [], taken := (d.taken + d.queue.flatten.length) % 2 ^ 64 })
    else some (msg, { d with queue := q, taken := (d.taken + msg.length) % 2 ^ 64 })

/-- `rights_taken` -/
def rightsTaken : List ρ × Dir ρ :=
  ((d.rights.takeWhile (·.1 < d.taken)).flatMap (·.2), { d with rights := d.rights.dropWhile (·.1 < d.taken) })

/-- messages no receive has taken, nor their first byte -/
def untaken : List (ℕ × Msg ρ) :=
  if stream then (starts 0 d.log).filter (d.taken ≤ ·.1) else (starts 0 d.log).drop (d.log.length - d.queue.length)

/-- those among them that taking `n` bytes, or the next message, takes -/
def passed (n : ℕ) : List (ℕ × Msg ρ) :=
  if stream then (d.untaken stream).filter (·.1 < d.taken + n) else (d.untaken stream).take 1

def owed (n : ℕ) : List ρ := (d.passed stream n).flatMap (·.2.due stream)

end Dir

/-! ## What a stream's receive takes -/

theorem fill_append (q : List Bytes) (room : ℕ) : (fill q room).1 ++ (fill q room).2.flatten = q.flatten := by
  induction q generalizing room with
  | nil => rfl
  | cons front q ih =>
    unfold fill
    split_ifs
    · rfl
    · rw [List.append_assoc, ih, List.flatten_cons]
    · rw [List.flatten_cons, ← List.append_assoc, List.take_append_drop, List.flatten_cons]

theorem fill_length (q : List Bytes) (room : ℕ) : (fill q room).1.length = min room q.flatten.length := by
  induction q generalizing room with
  | nil => simp [fill]
  | cons front q ih =>
    unfold fill
    rw [List.flatten_cons, List.length_append]
    split_ifs with h₀ h₁
    · simp [h₀]
    · rw [List.length_append, ih]
      omega
    · rw [List.length_take]
      omega

theorem fill_short (q : List Bytes) (room : ℕ) : (fill q room).1.length ≤ q.flatten.length := by
  rw [fill_length]
  exact Nat.min_le_right _ _

/-! ## Positions -/

section Starts

variable {ρ : Type}

def size (log : List (Msg ρ)) : ℕ := (log.flatMap Msg.bytes).length

theorem size_cons (m : Msg ρ) (log : List (Msg ρ)) : size (m :: log) = m.bytes.length + size log := by
  unfold size
  rw [List.flatMap_cons, List.length_append]

theorem size_append (log log' : List (Msg ρ)) : size (log ++ log') = size log + size log' := by
  unfold size
  rw [List.flatMap_append, List.length_append]

theorem starts_append (log log' : List (Msg ρ)) (at_ : ℕ) :
    starts at_ (log ++ log') = starts at_ log ++ starts (at_ + size log) log' := by
  induction log generalizing at_ with
  | nil => simp [starts, size]
  | cons m log ih => rw [List.cons_append, starts, starts, ih, size_cons, Nat.add_assoc, List.cons_append]

theorem starts_length (log : List (Msg ρ)) (at_ : ℕ) : (starts at_ log).length = log.length := by
  induction log generalizing at_ with
  | nil => rfl
  | cons m log ih => rw [starts, List.length_cons, ih, List.length_cons]

theorem starts_drop (log : List (Msg ρ)) (at_ n : ℕ) :
    (starts at_ log).drop n = starts (at_ + size (log.take n)) (log.drop n) := by
  induction log generalizing at_ n with
  | nil => simp [starts]
  | cons m log ih =>
    cases n with
    | zero => simp [size]
    | succ n => rw [starts, List.drop_succ_cons, ih, List.take_succ_cons, List.drop_succ_cons, size_cons, Nat.add_assoc]

theorem starts_le {log : List (Msg ρ)} {at_ : ℕ} : ∀ x ∈ starts at_ log, at_ ≤ x.1 := by
  induction log generalizing at_ with
  | nil => simp [starts]
  | cons m log ih =>
    intro x hx
    rcases List.mem_cons.mp hx with rfl | hx
    · exact le_rfl
    · exact (Nat.le_add_right _ _).trans (ih x hx)

/-- what starts from a position on: up to another, and from there on -/
theorem starts_split (log : List (Msg ρ)) (at_ : ℕ) {lo hi : ℕ} (h : lo ≤ hi) :
    (starts at_ log).filter (lo ≤ ·.1) =
      ((starts at_ log).filter (lo ≤ ·.1)).filter (·.1 < hi) ++ (starts at_ log).filter (hi ≤ ·.1) := by
  induction log generalizing at_ with
  | nil => rfl
  | cons m log ih =>
    rw [starts]
    by_cases hhi : hi ≤ at_
    · -- nothing that starts later starts before `hi`
      have hnone : ((starts (at_ + m.bytes.length) log).filter (lo ≤ ·.1)).filter (·.1 < hi) = [] := by
        refine List.filter_eq_nil_iff.mpr fun x hx => ?_
        have := starts_le x (List.mem_of_mem_filter hx)
        simp only [decide_eq_true_eq, Nat.not_lt]
        omega
      rw [List.filter_cons_of_pos (by simpa using h.trans hhi), List.filter_cons_of_neg (by simpa using hhi),
        List.filter_cons_of_pos (by simpa using hhi), hnone, List.nil_append]
      congr 1
      rw [ih, hnone, List.nil_append]
    · have hskip : ((at_, m) :: starts (at_ + m.bytes.length) log).filter (fun x => decide (hi ≤ x.1)) =
          (starts (at_ + m.bytes.length) log).filter (hi ≤ ·.1) := List.filter_cons_of_neg (by simpa using hhi)
      rw [hskip]
      by_cases hlo : lo ≤ at_
      · rw [List.filter_cons_of_pos (by simpa using hlo), List.filter_cons_of_pos (by simpa using Nat.not_le.mp hhi),
          List.cons_append, ← ih]
      · rw [List.filter_cons_of_neg (by simpa using hlo)]
        exact ih _

end Starts

end Omnidroid.Pair
