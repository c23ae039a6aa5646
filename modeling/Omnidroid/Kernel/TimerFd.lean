/-
A timerfd's expiries (`TimerFd`, `omni-linux/src/poll.rs`): a read takes those there were since the last one, and moves the timer
on by as many intervals, of which it multiplies by a 32-bit number at most.

- `take_counts`: a read up to which fewer than `2 ^ 32` expiries have come counts them all.
- `take_lags`: after one up to which more have, the next expiry is one that it has counted.
- `reads_count`: a timer counts every expiry once, at the reads of any sequence, exactly where fewer than `2 ^ 32` come between
  one read and the next.
-/
import Mathlib.Data.Set.Card
import Mathlib.Tactic

namespace Omnidroid.TimerFd

/-! ## The timer -/

/-- `Instant`, in nanoseconds: of seconds a signed 64-bit number -/
def INSTANT_END : ℕ := 2 ^ 63 * 10 ^ 9

/-- `Duration`, in nanoseconds: of seconds an unsigned one -/
def DURATION_END : ℕ := 2 ^ 64 * 10 ^ 9

def checked_add (a d : ℕ) : Option ℕ := if a + d < INSTANT_END then some (a + d) else none

structure TimerState where
  next : Option ℕ := none
  interval : ℕ := 0
deriving DecidableEq, Repr

namespace TimerState

variable (st : TimerState)

/-- how many expiries a read this late takes: the quotient is cast to 64 bits -/
def due (late : ℕ) : ℕ := (1 + late / st.interval % 2 ^ 64) % 2 ^ 64

/-- the intervals that `n` expiries move the timer on by -/
def skip (n : ℕ) : ℕ := st.interval * if n < 2 ^ 32 then n else 2 ^ 32 - 1

/-- `none` is the panic of a `Duration` that overflows -/
def take (now : ℕ) : Option (ℕ × TimerState) :=
  match st.next with
  | none => some (0, st)
  | some next =>
    if now < next then some (0, st)
    else if st.interval = 0 then some (1, { st with next := none })
    else
      let n := st.due (now - next)
      if st.skip n < DURATION_END then some (n, { st with next := checked_add next (st.skip n) }) else none

def ready (now : ℕ) : Bool := st.next.any (· ≤ now)

/-- reads in turn: how many expiries they took together, and the timer after them -/
def reads (st : TimerState) : List ℕ → Option (ℕ × TimerState)
  | [] => some (0, st)
  | now :: ts =>
    match st.take now with
    | none => none
    | some (n, st') => (st'.reads ts).map fun x => (n + x.1, x.2)

end TimerState

/-! ## What it is to count -/

variable (first interval : ℕ)

/-- the expiries up to a time -/
noncomputable def expiries (t : ℕ) : ℕ := Set.ncard {k : ℕ | first + k * interval ≤ t}

/-- after every read of the sequence, all the expiries so far have been taken, and the next is to come -/
def Counts (ts : List ℕ) : Prop :=
  ∀ before t, before ++ [t] <+: ts → ∃ total st, TimerState.reads ⟨some first, interval⟩ (before ++ [t]) = some (total, st) ∧
    total = expiries first interval t ∧ ∀ next ∈ st.next, t < next

/-- fewer than `2 ^ 32` come between one read and the next -/
def Few (ts : List ℕ) : Prop := (0 :: ts.map (expiries first interval)).IsChain fun a b => b < a + 2 ^ 32

variable {first interval}

theorem expiries_set (hi : 0 < interval) (t : ℕ) :
    {k : ℕ | first + k * interval ≤ t} = Finset.range (if t < first then 0 else (t - first) / interval + 1) := by
  ext k
  rw [Set.mem_ofPred_eq, Finset.mem_coe, Finset.mem_range]
  split_ifs with h
  · omega
  · rw [Nat.lt_succ_iff, Nat.le_div_iff_mul_le hi]
    omega

/-- the expiries up to a time are the first ones -/
theorem lt_expiries (hi : 0 < interval) {k t : ℕ} : k < expiries first interval t ↔ first + k * interval ≤ t := by
  have hset : {k : ℕ | first + k * interval ≤ t} = _ := expiries_set hi t
  have hcount : expiries first interval t = if t < first then 0 else (t - first) / interval + 1 := by
    rw [expiries, hset, Set.ncard_coe_finset, Finset.card_range]
  rw [hcount, ← Finset.mem_range, ← Finset.mem_coe, ← hset]
  rfl

theorem expiries_mono (hi : 0 < interval) {t t' : ℕ} (h : t ≤ t') : expiries first interval t ≤ expiries first interval t' := by
  by_contra hlt
  have hle := (lt_expiries hi).1 (Nat.lt_of_not_le hlt)
  exact absurd ((lt_expiries hi).2 (hle.trans h)) (lt_irrefl _)

/-! ## A read -/

/-- the timer after `k` expiries have been taken -/
def At (first interval k : ℕ) : TimerState := ⟨checked_add first (k * interval), interval⟩

/-- the next expiry is to come -/
theorem at_next (hi : 0 < interval) {k t : ℕ} (h : expiries first interval t ≤ k) : ∀ next ∈ (At first interval k).next, t < next := by
  intro next hn
  have hlt : t < first + k * interval := Nat.lt_of_not_le fun hle => absurd ((lt_expiries hi).2 hle) (Nat.not_lt.2 h)
  unfold At checked_add at hn
  split_ifs at hn
  · rwa [← Option.some.inj hn]
  · cases hn

theorem take_early (hi : 0 < interval) {k t : ℕ} (h : expiries first interval t ≤ k) : (At first interval k).take t = some (0, At first interval k) := by
  have hnext := at_next hi h
  unfold TimerState.take
  cases hn : (At first interval k).next with
  | none => rfl
  | some next => exact if_pos (hnext next hn)

section

variable {k t : ℕ} (hi : 0 < interval) (ht : t < INSTANT_END)
include hi ht

/-- one that is due is an instant, and what a read takes is the quotient -/
theorem take_due (h : k < expiries first interval t) :
    (At first interval k).next = some (first + k * interval) ∧ ¬t < first + k * interval ∧
      (t - (first + k * interval)) / interval + 1 = expiries first interval t - k := by
  have hle := (lt_expiries hi).1 h
  refine ⟨if_pos (hle.trans_lt ht), Nat.not_lt.2 hle, ?_⟩
  obtain ⟨n, hn⟩ : ∃ n, expiries first interval t = k + n + 1 := Nat.exists_eq_add_of_lt h
  have hlast : first + (k + n) * interval ≤ t := (lt_expiries hi).1 (by omega)
  have hafter : ¬first + (k + n + 1) * interval ≤ t := fun hle => by
    have := (lt_expiries hi).2 hle
    omega
  have hq : (t - (first + k * interval)) / interval = n := by
    rw [Nat.div_eq_iff hi]
    rw [Nat.add_mul] at hlast
    rw [Nat.add_mul, Nat.add_mul] at hafter
    omega
  omega

theorem ready_iff : (At first interval k).ready t = true ↔ k < expiries first interval t := by
  unfold TimerState.ready
  by_cases h : k < expiries first interval t
  · obtain ⟨hnext, hnow, -⟩ := take_due hi ht h
    rw [hnext, iff_true_right h]
    exact decide_eq_true (Nat.not_lt.1 hnow)
  · rw [iff_false_right h, Option.any_eq_true]
    rintro ⟨next, hn, hle⟩
    exact absurd (at_next hi (Nat.not_lt.1 h) next hn) (Nat.not_lt.2 (of_decide_eq_true hle))

/-- the expiries before the last are within the time of the read -/
theorem span_lt (hd : interval < DURATION_END) (h : k < expiries first interval t) :
    (expiries first interval t - k) * interval < DURATION_END := by
  obtain ⟨n, hn⟩ : ∃ n, expiries first interval t = k + n + 1 := Nat.exists_eq_add_of_lt h
  have hlast : first + (k + n) * interval ≤ t := (lt_expiries hi).1 (by omega)
  have hspan : n * interval < INSTANT_END := by
    rw [Nat.add_mul] at hlast
    omega
  have hsum : expiries first interval t - k = n + 1 := by omega
  rw [hsum]
  cases n with
  | zero => rwa [Nat.zero_add, Nat.one_mul]
  | succ n =>
    have hdouble : (n + 1 + 1) * interval ≤ 2 * ((n + 1) * interval) := by
      rw [← Nat.mul_assoc]
      exact Nat.mul_le_mul_right _ (by omega)
    unfold DURATION_END
    unfold INSTANT_END at hspan
    omega

theorem take_counts (hd : interval < DURATION_END) (hk : k ≤ expiries first interval t) (hfew : expiries first interval t < k + 2 ^ 32) :
    (At first interval k).take t = some (expiries first interval t - k, At first interval (expiries first interval t)) := by
  rcases hk.eq_or_lt with heq | hlt
  · rw [← heq, take_early hi heq.ge, Nat.sub_self]
  · obtain ⟨hnext, hnow, hq⟩ := take_due hi ht hlt
    have hdue : (At first interval k).due (t - (first + k * interval)) = expiries first interval t - k := by
      unfold TimerState.due
      change (1 + (t - (first + k * interval)) / interval % 2 ^ 64) % 2 ^ 64 = _
      omega
    have hskip : (At first interval k).skip (expiries first interval t - k) = (expiries first interval t - k) * interval := by
      unfold TimerState.skip
      rw [if_pos (by omega), Nat.mul_comm]
      rfl
    have hmove : first + k * interval + (expiries first interval t - k) * interval = first + expiries first interval t * interval := by
      rw [Nat.add_assoc, ← Nat.add_mul, Nat.add_sub_cancel' hk]
    unfold TimerState.take
    rw [hnext]
    dsimp only
    rw [if_neg hnow, if_neg (show ¬(At first interval k).interval = 0 from hi.ne'), hdue, hskip, if_pos (span_lt hi ht hd hlt)]
    unfold At checked_add
    rw [hmove]

theorem take_lags (hlag : k + 2 ^ 32 ≤ expiries first interval t) {n : ℕ} {st : TimerState}
    (h : (At first interval k).take t = some (n, st)) : ∃ next ∈ st.next, next ≤ t := by
  have hmore : k < expiries first interval t := by omega
  obtain ⟨hnext, hnow, -⟩ := take_due hi ht hmore
  have hskip : ∀ m, (At first interval k).skip m ≤ (2 ^ 32 - 1) * interval := by
    intro m
    unfold TimerState.skip
    rw [Nat.mul_comm]
    refine Nat.mul_le_mul_right _ ?_
    split_ifs <;> omega
  have hlast : first + (k + (2 ^ 32 - 1)) * interval ≤ t := (lt_expiries hi).1 (by omega)
  have hmove : ∀ m, first + k * interval + (At first interval k).skip m ≤ t := by
    intro m
    have := hskip m
    rw [Nat.add_mul] at hlast
    omega
  unfold TimerState.take at h
  rw [hnext] at h
  dsimp only at h
  rw [if_neg hnow, if_neg (show ¬(At first interval k).interval = 0 from hi.ne')] at h
  split_ifs at h
  cases h
  exact ⟨_, if_pos ((hmove _).trans_lt ht), hmove _⟩

end

/-! ## The reads of a run -/

theorem reads_cons {st st' : TimerState} {t n : ℕ} (h : st.take t = some (n, st')) (ts : List ℕ) :
    st.reads (t :: ts) = (st'.reads ts).map fun x => (n + x.1, x.2) := by
  rw [TimerState.reads, h]

/-- `Counts`, of a timer of which `k` expiries have been taken -/
def CountsFrom (first interval k : ℕ) (ts : List ℕ) : Prop :=
  ∀ before t, before ++ [t] <+: ts → ∃ total st, (At first interval k).reads (before ++ [t]) = some (total, st) ∧
    k + total = expiries first interval t ∧ ∀ next ∈ st.next, t < next

/-- a read that counts all there are is one of a run that does -/
theorem countsFrom_cons (hi : 0 < interval) (hd : interval < DURATION_END) {k t : ℕ} {ts : List ℕ} (ht : t < INSTANT_END)
    (hk : k ≤ expiries first interval t) (hfew : expiries first interval t < k + 2 ^ 32) :
    CountsFrom first interval k (t :: ts) ↔ CountsFrom first interval (expiries first interval t) ts := by
  have hreads := reads_cons (take_counts hi ht hd hk hfew)
  constructor
  · intro h before u hp
    obtain ⟨total, st, hr, hsum, hnext⟩ := h (t :: before) u (List.cons_prefix_cons.2 ⟨rfl, hp⟩)
    rw [List.cons_append, hreads, Option.map_eq_some_iff] at hr
    obtain ⟨x, hx, heq⟩ := hr
    cases heq
    exact ⟨x.1, x.2, hx, by omega, hnext⟩
  · intro h before u hp
    cases before with
    | nil =>
      obtain ⟨rfl, -⟩ := List.cons_prefix_cons.1 hp
      exact ⟨_, _, hreads [], by dsimp only; omega, at_next hi le_rfl⟩
    | cons b before =>
      obtain ⟨rfl, hp'⟩ := List.cons_prefix_cons.1 hp
      obtain ⟨total, st, hr, hsum, hnext⟩ := h before u hp'
      refine ⟨_, st, by rw [List.cons_append, hreads, hr]; rfl, ?_, hnext⟩
      dsimp only
      omega

theorem countsFrom_iff (hi : 0 < interval) (hd : interval < DURATION_END) {k : ℕ} {ts : List ℕ} (hs : ts.Pairwise (· ≤ ·))
    (ht : ∀ t ∈ ts, t < INSTANT_END) (hk : ∀ t ∈ ts, k ≤ expiries first interval t) :
    CountsFrom first interval k ts ↔ (k :: ts.map (expiries first interval)).IsChain fun a b => b < a + 2 ^ 32 := by
  induction ts generalizing k with
  | nil =>
    refine iff_of_true (fun before t hp => ?_) (List.isChain_singleton _)
    exact absurd (List.prefix_nil.1 hp) (List.append_ne_nil_of_right_ne_nil _ (List.cons_ne_nil _ _))
  | cons t ts ih =>
    obtain ⟨hle, hs⟩ := List.pairwise_cons.1 hs
    have ht₀ := ht t List.mem_cons_self
    rw [List.map_cons, List.isChain_cons_cons]
    by_cases hfew : expiries first interval t < k + 2 ^ 32
    · rw [countsFrom_cons hi hd ht₀ (hk t List.mem_cons_self) hfew, and_iff_right hfew]
      exact ih hs (fun u hu => ht u (List.mem_cons_of_mem _ hu)) fun u hu => expiries_mono hi (hle u hu)
    · rw [iff_false_right (fun h => hfew h.1)]
      intro h
      obtain ⟨total, st, hr, -, hnext⟩ := h [] t (List.prefix_append [t] ts)
      rw [List.nil_append, TimerState.reads] at hr
      cases htake : (At first interval k).take t with
      | none =>
        rw [htake] at hr
        cases hr
      | some x =>
        rw [htake] at hr
        cases hr
        obtain ⟨next, hn, hlate⟩ := take_lags hi ht₀ (Nat.not_lt.1 hfew) htake
        exact absurd (hnext next hn) (Nat.not_lt.2 hlate)

/-- **Expiries are counted once** exactly where fewer than `2 ^ 32` come between one read and the next. -/
theorem reads_count (hi : 0 < interval) (hd : interval < DURATION_END) (hfirst : first < INSTANT_END) {ts : List ℕ}
    (hs : ts.Pairwise (· ≤ ·)) (ht : ∀ t ∈ ts, t < INSTANT_END) : Counts first interval ts ↔ Few first interval ts := by
  have harmed : (⟨some first, interval⟩ : TimerState) = At first interval 0 := by
    unfold At checked_add
    rw [Nat.zero_mul, Nat.add_zero, if_pos hfirst]
  rw [Few, ← countsFrom_iff hi hd hs ht fun _ _ => Nat.zero_le _]
  unfold Counts CountsFrom
  simp only [harmed, Nat.zero_add]

/-- a read in time, one that is two expiries late, and one that takes nothing -/
theorem reads_count_late : Counts 5 10 [7, 31, 31] := by
  have hle : ∀ t ≤ 31, expiries 5 10 t < 2 ^ 32 := by
    intro t ht
    refine Nat.lt_of_not_le fun h => ?_
    have hfour : 3 < expiries 5 10 t ↔ 5 + 3 * 10 ≤ t := lt_expiries (by decide)
    omega
  have hadd : ∀ a t, t ≤ 31 → expiries 5 10 t < a + 2 ^ 32 := fun a t ht => (hle t ht).trans_le (Nat.le_add_left _ _)
  refine (reads_count (by decide) (by decide) (by decide) (by decide) (by decide)).2 ?_
  refine .cons_cons (hadd _ _ (by decide)) (.cons_cons (hadd _ _ (by decide)) (.cons_cons (hadd _ _ (by decide)) (.singleton _)))

/-- a timer of one nanosecond, read after more than four seconds: the next expiry is behind, and the last ones are counted again -/
theorem reads_twice :
    ¬Counts 0 1 [2 ^ 32] ∧ TimerState.reads ⟨some 0, 1⟩ [2 ^ 32, 2 ^ 32] = some (2 ^ 32 + 3, ⟨some (2 ^ 32 + 1), 1⟩) ∧
      expiries 0 1 (2 ^ 32) = 2 ^ 32 + 1 := by
  refine ⟨fun h => ?_, rfl, ?_⟩
  · obtain ⟨total, st, hr, -, hnext⟩ := h [] (2 ^ 32) (List.prefix_refl _)
    have hreads : TimerState.reads ⟨some 0, 1⟩ [2 ^ 32] = some (2 ^ 32 + 1, ⟨some (2 ^ 32 - 1), 1⟩) := rfl
    rw [List.nil_append, hreads] at hr
    cases hr
    exact absurd (hnext _ rfl) (by decide)
  · rw [expiries, expiries_set (by decide), Set.ncard_coe_finset, Finset.card_range]
    decide

end Omnidroid.TimerFd
