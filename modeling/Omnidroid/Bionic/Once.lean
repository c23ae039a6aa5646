/-
`pthread_once` (`omni-bionic/src/once.rs`): one word, zero at first, and a futex on it.

Any number of calls are each somewhere in `once` (`Pc`). A thread that calls again has another of the places, and so has a
routine that calls `once` itself. One step is one load, one compare-and-swap, one store, one futex call, or the routine's
start or its end.
- `World.move`: the next step of a call.
- `Inv`: no one has won, one call has won and the others are behind it, or all is done. `step_inv` keeps it.
- `once_runs_once`: in every run the routine is started once, no call returns before it has completed, whoever is parked
  when the word is DONE has a wake coming and re-reads DONE at the latest when its slice ends, the word only moves from 0 to
  1 to 2, and every call can still return.
-/
import Omnidroid.Lib.Run
import Omnidroid.Lib.Threads

namespace Omnidroid.Bionic.Once

/-! ## Where a call is -/

def NEVER : ℕ := 0
def IN_PROGRESS : ℕ := 1
def DONE : ℕ := 2

def PTHREAD_ONCE_T : ℕ := 4

def u32Max : ℕ := 2 ^ 32 - 1

inductive OnceOutcome where
  | ran | alreadyDone
deriving DecidableEq, Repr

/-- four bytes, and no wraparound; the error is the address of the fault -/
def checkAddr (addr : ℕ) : Except ℕ Unit :=
  if addr = 0 then .error 0
  else if addr + (PTHREAD_ONCE_T - 1) < 2 ^ 64 then .ok ()
  else .error addr

inductive Pc where
  /-- in the guest, with what the last call returned -/
  | outside (r : Option (Except ℕ OnceOutcome))
  | reads
  /-- has read NEVER: about to compare and swap -/
  | swaps
  /-- has won: about to start the routine, in it, about to store DONE, about to wake -/
  | starts
  | runs
  | stores
  | wakes
  /-- has read IN_PROGRESS: about to wait, asleep in a slice of a second, about to read again -/
  | waits
  | parked
  | rereads

def sleeper : Sleeper Pc where
  sleeps
    | .parked => true
    | _ => false
  woken
    | .parked => .rereads
    | pc => pc

/-! ## The machine -/

structure World (n : ℕ) where
  addr : ℕ
  word : ℕ := NEVER
  threads : Fin n → Pc := fun _ => .outside none
  /-- history: how often the routine was started, and how often it completed -/
  started : ℕ := 0
  completed : ℕ := 0

inductive Act (n : ℕ) where
  | call (t : Fin n)
  /-- a thread's next step; `chosen` is whom a wake finds -/
  | move (t : Fin n) (chosen : Fin n → Bool)

/-- a wake of at most `count`: of all who sleep, or of as many as it may -/
def wakeable {n : ℕ} (count : ℕ) (g : Fin n → Pc) (chosen : Fin n → Bool) : Prop :=
  if total (fun pc => (sleeper.sleeps pc).toNat) g ≤ count then ∀ t, sleeper.sleeps (g t) = true → chosen t = true
  else (Finset.univ.filter fun t => sleeper.sleeps (g t) = true ∧ chosen t = true).card = count

instance {n : ℕ} (count : ℕ) (g : Fin n → Pc) (chosen : Fin n → Bool) : Decidable (wakeable count g chosen) := by
  unfold wakeable
  infer_instance

def wake {n : ℕ} (g : Fin n → Pc) (chosen : Fin n → Bool) (t : Fin n) : Pc :=
  if chosen t then sleeper.woken (g t) else g t

namespace World

variable {n : ℕ}

def goTo (w : World n) (t : Fin n) (pc : Pc) : World n := { w with threads := Function.update w.threads t pc }

/-- the read at the top, and the arm it takes -/
def afterRead (w : World n) : Pc :=
  if w.word = DONE then .outside (some (.ok .alreadyDone))
  else if w.word = IN_PROGRESS then .waits
  else if w.word = NEVER then .swaps
  else .outside (some (.error w.addr))

def move (w : World n) (t : Fin n) (chosen : Fin n → Bool) : World n :=
  match w.threads t with
  | .outside _ => w
  | .reads => w.goTo t w.afterRead
  | .swaps => if w.word = NEVER then { w with word := IN_PROGRESS }.goTo t .starts else w.goTo t .reads
  | .starts => { w with started := w.started + 1 }.goTo t .runs
  | .runs => { w with completed := w.completed + 1 }.goTo t .stores
  | .stores => { w with word := DONE }.goTo t .wakes
  | .wakes =>
    if wakeable u32Max w.threads chosen then
      { w with threads := wake w.threads chosen }.goTo t (.outside (some (.ok .ran)))
    else w
  -- the look at the word and the going to sleep are one step
  | .waits => w.goTo t (if w.word = IN_PROGRESS then .parked else .rereads)
  -- the slice over, or for no reason
  | .parked => w.goTo t .rereads
  | .rereads => w.goTo t (if w.word = DONE then .outside (some (.ok .alreadyDone)) else .waits)

def step (w : World n) : Act n → World n
  | .call t =>
    match w.threads t, checkAddr w.addr with
    | .outside _, .ok _ => w.goTo t .reads
    | .outside _, .error f => w.goTo t (.outside (some (.error f)))
    | _, _ => w
  | .move t chosen => w.move t chosen

end World

/-- every run from a word that is zero, whatever its address -/
abbrev Run {n : ℕ} (addr : ℕ) : World n → Prop := Reach World.step anyStep { addr }

/-! ## What holds -/

/-- where a call can be while no one has won -/
def Pc.early : Pc → Bool
  | .outside (some (.ok _)) => false
  | .outside _ | .reads | .swaps => true
  | _ => false

/-- where one can be behind another that has won -/
def Pc.behind : Pc → Bool
  | .waits | .parked | .rereads => true
  | pc => pc.early

def Pc.after : Pc → Bool
  | .starts | .runs | .stores => false
  | _ => true

/-- a call that has won, by how often the routine was started and completed -/
inductive Winner : ℕ → ℕ → Pc → Prop
  | starts : Winner 0 0 .starts
  | runs : Winner 1 0 .runs
  | stores : Winner 1 1 .stores

inductive Inv {n : ℕ} (w : World n) : Prop
  | never (word : w.word = NEVER) (started : w.started = 0) (completed : w.completed = 0)
      (early : ∀ t, (w.threads t).early = true)
  | running (t : Fin n) (word : w.word = IN_PROGRESS) (won : Winner w.started w.completed (w.threads t))
      (behind : ∀ u, u ≠ t → (w.threads u).behind = true)
  | done (word : w.word = DONE) (started : w.started = 1) (completed : w.completed = 1)
      (after : ∀ t, (w.threads t).after = true)
      (waking : n ≤ u32Max → ∀ t, w.threads t = .parked → ∃ u, w.threads u = .wakes)

section Steps

variable {n : ℕ} {w : World n} {t u : Fin n} {pc : Pc}

@[simp] theorem goTo_started : (w.goTo t pc).started = w.started := rfl

@[simp] theorem goTo_completed : (w.goTo t pc).completed = w.completed := rfl

@[simp] theorem goTo_self : (w.goTo t pc).threads t = pc := Function.update_self ..

theorem goTo_other (hu : u ≠ t) : (w.goTo t pc).threads u = w.threads u := Function.update_of_ne hu ..

theorem goTo_all {P : Pc → Prop} (hw : ∀ u, P (w.threads u)) (hpc : P pc) (u : Fin n) : P ((w.goTo t pc).threads u) := by
  rcases eq_or_ne u t with rfl | hu
  · rw [goTo_self]
    exact hpc
  · rw [goTo_other hu]
    exact hw u

theorem behind_of_early (h : pc.early = true) : pc.behind = true := by
  cases pc <;> first | exact h | rfl

theorem after_of_behind (h : pc.behind = true) : pc.after = true := by
  cases pc <;> first | rfl | cases h

/-- a call not behind the winner is the winner -/
theorem winner_eq {v : Fin n} (hbehind : ∀ u, u ≠ v → (w.threads u).behind = true) (h : (w.threads t).behind = false) :
    t = v := by
  by_contra hne
  rw [hbehind t hne] at h
  cases h

/-! ## One step -/

theorem sleeper_parked : sleeper.sleeps pc = true ↔ pc = .parked := by
  cases pc <;> simp [sleeper]

theorem wake_parked {g : Fin n → Pc} {chosen : Fin n → Bool} (h : g t = .parked) (ht : chosen t = true) :
    wake g chosen t = .rereads := by
  rw [wake, if_pos ht, h]
  rfl

theorem wake_other {g : Fin n → Pc} {chosen : Fin n → Bool} (h : g t ≠ .parked) : wake g chosen t = g t := by
  unfold wake
  split
  · cases hg : g t <;> first | exact absurd hg h | rfl
  · rfl

/-- all who sleep, where they are no more than can be counted -/
theorem chosen_of_wakeable {g : Fin n → Pc} {chosen : Fin n → Bool} (h : wakeable u32Max g chosen) (hn : n ≤ u32Max)
    (ht : g t = .parked) : chosen t = true := by
  have hle : total (fun pc => (sleeper.sleeps pc).toNat) g ≤ u32Max := by
    have hsum : total (fun pc => (sleeper.sleeps pc).toNat) g ≤ ∑ _t : Fin n, 1 :=
      Finset.sum_le_sum fun u _ => Bool.toNat_le _
    simp only [Finset.sum_const, Finset.card_univ, Fintype.card_fin, smul_eq_mul, mul_one] at hsum
    exact hsum.trans hn
  rw [wakeable, if_pos hle] at h
  exact h t (sleeper_parked.2 ht)

/-- whatever is told of places that a wake leaves them -/
theorem wake_all {P : Pc → Prop} {g : Fin n → Pc} {chosen : Fin n → Bool} (h : ∀ t, P (g t)) (hre : P .rereads)
    (t : Fin n) : P (wake g chosen t) := by
  by_cases ht : g t = .parked
  · by_cases hc : chosen t = true
    · rw [wake_parked ht hc]
      exact hre
    · rw [wake, if_neg hc]
      exact h t
  · rw [wake_other ht]
    exact h t

theorem Winner.after {a b : ℕ} (h : Winner a b pc) : pc.after = false := by
  cases h <;> rfl

theorem Winner.once {a b : ℕ} (h : Winner a b pc) : a ≤ 1 := by
  cases h <;> decide

theorem Inv.move (h : Inv w) (t : Fin n) (chosen : Fin n → Bool) : Inv (w.move t chosen) := by
  cases h with
  | never word started completed early =>
    have ht := early t
    cases hpc : w.threads t with
    | outside r =>
      simp only [World.move, hpc]
      exact .never word started completed early
    | reads =>
      simp only [World.move, hpc]
      have harm : w.afterRead = .swaps := by
        simp [World.afterRead, word, NEVER, IN_PROGRESS, DONE]
      rw [harm]
      exact .never word started completed (goTo_all (P := fun pc => pc.early = true) early rfl)
    | swaps =>
      -- the compare and swap that wins
      simp only [World.move, hpc, word, if_true]
      refine .running t rfl ?_ fun u hu => ?_
      · rw [goTo_self, goTo_started, goTo_completed, started, completed]
        exact .starts
      · rw [goTo_other hu]
        exact behind_of_early (early u)
    | starts | runs | stores | wakes | waits | parked | rereads =>
      rw [hpc] at ht
      cases ht
  | running v word won behind =>
    have hbehind : ∀ pc : Pc, pc.behind = true → t ≠ v → Inv (w.goTo t pc) := by
      intro pc hpc htv
      refine .running v word ?_ fun u hu => ?_
      · rw [goTo_other (Ne.symm htv)]
        exact won
      · rcases eq_or_ne u t with rfl | hut
        · rw [goTo_self]
          exact hpc
        · rw [goTo_other hut]
          exact behind u hu
    by_cases htv : t = v
    · -- the winner's own step
      subst htv
      cases hpc : w.threads t with
      | starts =>
        rw [hpc] at won
        simp only [World.move, hpc]
        refine .running t word ?_ fun u hu => by rw [goTo_other hu]; exact behind u hu
        rw [goTo_self, goTo_started, goTo_completed]
        generalize w.started = a, w.completed = b at won
        cases won
        exact .runs
      | runs =>
        rw [hpc] at won
        simp only [World.move, hpc]
        refine .running t word ?_ fun u hu => by rw [goTo_other hu]; exact behind u hu
        rw [goTo_self, goTo_started, goTo_completed]
        generalize w.started = a, w.completed = b at won
        cases won
        exact .stores
      | stores =>
        rw [hpc] at won
        simp only [World.move, hpc]
        have hcounts : w.started = 1 ∧ w.completed = 1 := by
          generalize w.started = a, w.completed = b at won
          cases won
          exact ⟨rfl, rfl⟩
        refine .done rfl hcounts.1 hcounts.2 (fun u => ?_) fun _ _ _ => ⟨t, goTo_self⟩
        rcases eq_or_ne u t with rfl | hu
        · rw [goTo_self]
          rfl
        · rw [goTo_other hu]
          exact after_of_behind (behind u hu)
      | outside _ | reads | swaps | wakes | waits | parked | rereads =>
        rw [hpc] at won
        generalize w.started = a, w.completed = b at won
        cases won
    · have ht := behind t htv
      cases hpc : w.threads t with
      | outside r =>
        simp only [World.move, hpc]
        exact .running v word won behind
      | reads =>
        simp only [World.move, hpc]
        have harm : w.afterRead = .waits := by
          simp [World.afterRead, word, IN_PROGRESS, DONE]
        rw [harm]
        exact hbehind _ rfl htv
      | swaps =>
        simp only [World.move, hpc]
        rw [if_neg (by rw [word]; decide)]
        exact hbehind _ rfl htv
      | waits =>
        simp only [World.move, hpc, word, if_true]
        exact hbehind _ rfl htv
      | parked =>
        simp only [World.move, hpc]
        exact hbehind _ rfl htv
      | rereads =>
        simp only [World.move, hpc]
        rw [if_neg (by rw [word]; decide)]
        exact hbehind _ rfl htv
      | starts | runs | stores | wakes =>
        rw [hpc] at ht
        cases ht
  | done word started completed after waking =>
    have ht := after t
    -- a place the thread goes to that is neither asleep nor before the store, from one where it is not about to wake
    have hafter : ∀ pc : Pc, pc.after = true → pc ≠ .parked → w.threads t ≠ .wakes → Inv (w.goTo t pc) := by
      intro pc hpc hpark hnot
      refine .done word started completed (goTo_all (P := fun pc => pc.after = true) after hpc) fun hn u hu => ?_
      rcases eq_or_ne u t with rfl | hut
      · rw [goTo_self] at hu
        exact absurd hu hpark
      · rw [goTo_other hut] at hu
        obtain ⟨v, hv⟩ := waking hn u hu
        have hvt : v ≠ t := by
          rintro rfl
          exact hnot hv
        exact ⟨v, by rw [goTo_other hvt]; exact hv⟩
    cases hpc : w.threads t with
    | outside r =>
      simp only [World.move, hpc]
      exact .done word started completed after waking
    | reads =>
      simp only [World.move, hpc]
      have harm : w.afterRead = .outside (some (.ok .alreadyDone)) := by
        simp [World.afterRead, word]
      rw [harm]
      exact hafter _ rfl nofun (by rw [hpc]; nofun)
    | swaps =>
      simp only [World.move, hpc]
      rw [if_neg (by rw [word]; decide)]
      exact hafter _ rfl nofun (by rw [hpc]; nofun)
    | wakes =>
      simp only [World.move, hpc]
      split
      · rename_i hwake
        refine .done word started completed (goTo_all (P := fun pc => pc.after = true) (wake_all (P := fun pc => pc.after = true) after rfl) rfl)
          fun hn u hu => ?_
        -- no one it leaves is asleep
        rcases eq_or_ne u t with rfl | hut
        · rw [goTo_self] at hu
          cases hu
        · rw [goTo_other hut] at hu
          change wake w.threads chosen u = .parked at hu
          by_cases hg : w.threads u = .parked
          · rw [wake_parked hg (chosen_of_wakeable hwake hn hg)] at hu
            cases hu
          · rw [wake_other hg] at hu
            exact absurd hu hg
      · exact .done word started completed after waking
    | waits =>
      simp only [World.move, hpc]
      rw [if_neg (by rw [word]; decide)]
      exact hafter _ rfl nofun (by rw [hpc]; nofun)
    | parked =>
      simp only [World.move, hpc]
      exact hafter _ rfl nofun (by rw [hpc]; nofun)
    | rereads =>
      simp only [World.move, hpc]
      rw [if_pos word]
      exact hafter _ rfl nofun (by rw [hpc]; nofun)
    | starts | runs | stores =>
      rw [hpc] at ht
      cases ht

theorem Inv.step (h : Inv w) (a : Act n) : Inv (w.step a) := by
  cases a with
  | move t chosen => exact h.move t chosen
  | call t =>
    have henter : ∀ r : Option (Except ℕ OnceOutcome), ∀ pc : Pc, w.threads t = .outside r → pc.early = true →
        pc ≠ .parked → Inv (w.goTo t pc) := by
      intro r pc hr hpc hpark
      cases h with
      | never word started completed early =>
        exact .never word started completed (goTo_all (P := fun pc => pc.early = true) early hpc)
      | running v word won behind =>
        have hvt : v ≠ t := by
          rintro rfl
          rw [hr] at won
          generalize w.started = a, w.completed = b at won
          cases won
        refine .running v word (by rw [goTo_other hvt]; exact won) fun u hu => ?_
        rcases eq_or_ne u t with rfl | hut
        · rw [goTo_self]
          exact behind_of_early hpc
        · rw [goTo_other hut]
          exact behind u hu
      | done word started completed after waking =>
        refine .done word started completed
          (goTo_all (P := fun pc => pc.after = true) after (after_of_behind (behind_of_early hpc))) fun hn u hu => ?_
        rcases eq_or_ne u t with rfl | hut
        · rw [goTo_self] at hu
          exact absurd hu hpark
        · rw [goTo_other hut] at hu
          obtain ⟨v, hv⟩ := waking hn u hu
          have hvt : v ≠ t := by
            rintro rfl
            rw [hr] at hv
            cases hv
          exact ⟨v, by rw [goTo_other hvt]; exact hv⟩
    simp only [World.step]
    split
    · rename_i r _ hr _
      exact henter r _ hr rfl nofun
    · rename_i r f hr _
      exact henter r _ hr rfl nofun
    · exact h

theorem Run.inv {addr : ℕ} (h : Run addr w) : Inv w :=
  Reach.invariant Inv (.never rfl rfl rfl fun _ => rfl) (fun _ a _ _ hi => hi.step a) h

/-! ## What every run keeps -/

theorem Run.addr {addr : ℕ} (h : Run addr w) : w.addr = addr := by
  refine Reach.invariant (fun w : World n => w.addr = addr) rfl (fun w a _ _ hi => ?_) h
  cases a with
  | call t =>
    simp only [World.step]
    split <;> exact hi
  | move t chosen =>
    simp only [World.step]
    unfold World.move
    split <;> first | exact hi | (split <;> exact hi)

theorem Inv.word (h : Inv w) : w.word = NEVER ∨ w.word = IN_PROGRESS ∨ w.word = DONE := by
  cases h with
  | never word => exact .inl word
  | running _ word => exact .inr (.inl word)
  | done word => exact .inr (.inr word)

/-- a call fails only where its word cannot be -/
theorem Run.fault {addr : ℕ} (h : Run addr w) :
    ∀ (t : Fin n) (f : ℕ), w.threads t = .outside (some (.error f)) → checkAddr addr = .error f := by
  refine Reach.invariant
    (fun w : World n => ∀ t f, w.threads t = .outside (some (.error f)) → checkAddr addr = .error f)
    (fun _ _ h => by cases h)
    (fun w a hr _ hi => ?_) h
  have hgo : ∀ (t : Fin n) (pc : Pc), (∀ f, pc = .outside (some (.error f)) → checkAddr addr = .error f) →
      ∀ u f, (w.goTo t pc).threads u = .outside (some (.error f)) → checkAddr addr = .error f := by
    intro t pc hpc u f hu
    rcases eq_or_ne u t with rfl | hut
    · rw [goTo_self] at hu
      exact hpc f hu
    · rw [goTo_other hut] at hu
      exact hi u f hu
  cases a with
  | call t =>
    simp only [World.step]
    split
    · exact hgo t _ nofun
    · rename_i f _ hf
      refine hgo t _ fun g hg => ?_
      rw [Run.addr hr] at hf
      cases hg
      exact hf
    · exact hi
  | move t chosen =>
    simp only [World.step]
    unfold World.move
    split
    · exact hi
    · refine hgo t _ fun f hf => ?_
      -- the word is none of the three: never
      rcases (Run.inv hr).word with hw | hw | hw <;> simp [World.afterRead, hw, NEVER, IN_PROGRESS, DONE] at hf
    · split
      · exact hgo t _ nofun
      · exact hgo t _ nofun
    · exact hgo t _ nofun
    · exact hgo t _ nofun
    · exact hgo t _ nofun
    · split
      · intro u f hu
        rcases eq_or_ne u t with rfl | hut
        · rw [goTo_self] at hu
          cases hu
        · rw [goTo_other hut] at hu
          change wake w.threads chosen u = _ at hu
          by_cases hg : w.threads u = .parked
          · unfold wake at hu
            split at hu
            · rw [hg] at hu
              cases hu
            · exact hi u f hu
          · rw [wake_other hg] at hu
            exact hi u f hu
      · exact hi
    · refine hgo t _ fun f hf => ?_
      split at hf <;> cases hf
    · exact hgo t _ nofun
    · refine hgo t _ fun f hf => ?_
      split at hf <;> cases hf

/-! ## Every call can return -/

/-- some run from here has the call of `t` return -/
def Returns (t : Fin n) (w : World n) : Prop :=
  ∃ acts o, (run World.step w acts).threads t = .outside (some (.ok o))

def World.inside (w : World n) (t : Fin n) : Prop := ∀ r, w.threads t ≠ .outside r

theorem Returns.now {o : OnceOutcome} (h : w.threads t = .outside (some (.ok o))) : Returns t w := ⟨[], o, h⟩

theorem Returns.after (a : Act n) (h : Returns t (w.step a)) : Returns t w := by
  obtain ⟨acts, o, hacts⟩ := h
  exact ⟨a :: acts, o, hacts⟩

theorem exists_wakeable (count : ℕ) (g : Fin n → Pc) : ∃ chosen, wakeable count g chosen := by
  by_cases h : total (fun pc => (sleeper.sleeps pc).toNat) g ≤ count
  · refine ⟨fun _ => true, ?_⟩
    rw [wakeable, if_pos h]
    exact fun _ _ => rfl
  · have hcard : total (fun pc => (sleeper.sleeps pc).toNat) g
        = (Finset.univ.filter fun t => sleeper.sleeps (g t) = true).card := by
      rw [Finset.card_filter]
      refine Finset.sum_congr rfl fun t _ => ?_
      cases hs : sleeper.sleeps (g t) <;> simp [hs]
    obtain ⟨some, hsub, hsome⟩ := Finset.exists_subset_card_eq (hcard ▸ (not_le.1 h).le)
    refine ⟨fun t => decide (t ∈ some), ?_⟩
    rw [wakeable, if_neg h, ← hsome]
    congr 1
    ext t
    simp only [Finset.mem_filter, Finset.mem_univ, true_and, decide_eq_true_eq]
    exact ⟨And.right, fun ht => ⟨(Finset.mem_filter.1 (hsub ht)).2, ht⟩⟩

theorem returns_of_done (h : Inv w) (hw : w.word = DONE) (ht : w.inside t) : Returns t w := by
  have hreads : ∀ v : World n, v.word = DONE → v.threads t = .reads → Returns t v := by
    intro v hv hpc
    refine .after (.move t fun _ => true) (.now (o := .alreadyDone) ?_)
    simp only [World.step, World.move, hpc, goTo_self]
    rw [World.afterRead, if_pos hv]
  have hrereads : ∀ v : World n, v.word = DONE → v.threads t = .rereads → Returns t v := by
    intro v hv hpc
    refine .after (.move t fun _ => true) (.now (o := .alreadyDone) ?_)
    simp only [World.step, World.move, hpc, goTo_self]
    rw [if_pos hv]
  have hafter : (w.threads t).after = true := by
    cases h with
    | never word => exact absurd (word.symm.trans hw) (by decide)
    | running _ word => exact absurd (word.symm.trans hw) (by decide)
    | done _ _ _ after => exact after t
  cases hpc : w.threads t with
  | outside r => exact absurd hpc (ht r)
  | reads => exact hreads w hw hpc
  | swaps =>
    refine .after (.move t fun _ => true) (hreads _ ?_ ?_)
    all_goals
      simp only [World.step, World.move, hpc]
      rw [if_neg (by rw [hw]; decide)]
    · exact hw
    · exact goTo_self
  | wakes =>
    obtain ⟨chosen, hchosen⟩ := exists_wakeable u32Max w.threads
    refine .after (.move t chosen) (.now (o := .ran) ?_)
    simp only [World.step, World.move, hpc]
    rw [if_pos hchosen]
    exact goTo_self
  | waits =>
    refine .after (.move t fun _ => true) (hrereads _ ?_ ?_)
    all_goals
      simp only [World.step, World.move, hpc]
      rw [if_neg (by rw [hw]; decide)]
    · exact hw
    · exact goTo_self
  | parked =>
    refine .after (.move t fun _ => true) (hrereads _ ?_ ?_)
    all_goals simp only [World.step, World.move, hpc]
    · exact hw
    · exact goTo_self
  | rereads => exact hrereads w hw hpc
  | starts | runs | stores =>
    rw [hpc] at hafter
    cases hafter

/-- whoever was inside still is, where another call has moved and not returned -/
theorem inside_goTo {pc : Pc} (ht : w.inside t) (hpc : ∀ r, pc ≠ .outside r) : (w.goTo u pc).inside t := by
  intro r hr
  rcases eq_or_ne t u with rfl | htu
  · rw [goTo_self] at hr
    exact hpc r hr
  · rw [goTo_other htu] at hr
    exact ht r hr

/-- the winner goes on to its store -/
theorem returns_of_running {v : Fin n} (h : Inv w) (hv : Winner w.started w.completed (w.threads v)) (ht : w.inside t) :
    Returns t w := by
  have hstores : ∀ x : World n, Inv x → x.threads v = .stores → x.inside t → Returns t x := by
    intro x hx hpc hin
    refine .after (.move v fun _ => true) (returns_of_done (hx.step _) ?_ ?_)
    all_goals simp only [World.step, World.move, hpc]
    · rfl
    · exact inside_goTo (w := { x with word := DONE }) hin nofun
  have hruns : ∀ x : World n, Inv x → x.threads v = .runs → x.inside t → Returns t x := by
    intro x hx hpc hin
    refine .after (.move v fun _ => true) (hstores _ (hx.step _) ?_ ?_)
    all_goals simp only [World.step, World.move, hpc]
    · exact goTo_self
    · exact inside_goTo (w := { x with completed := x.completed + 1 }) hin nofun
  cases hpc : w.threads v with
  | starts =>
    refine .after (.move v fun _ => true) (hruns _ (h.step _) ?_ ?_)
    all_goals simp only [World.step, World.move, hpc]
    · exact goTo_self
    · exact inside_goTo (w := { w with started := w.started + 1 }) ht nofun
  | runs => exact hruns w h hpc ht
  | stores => exact hstores w h hpc ht
  | outside _ | reads | swaps | wakes | waits | parked | rereads =>
    rw [hpc] at hv
    generalize w.started = a, w.completed = b at hv
    cases hv

theorem Inv.returns (h : Inv w) (ht : w.inside t) : Returns t w := by
  cases h with
  | running v word won behind => exact returns_of_running (.running v word won behind) won ht
  | done word started completed after waking => exact returns_of_done (.done word started completed after waking) word ht
  | never word started completed early =>
    have hinv : Inv w := .never word started completed early
    have hswaps : ∀ x : World n, Inv x → x.word = NEVER → x.started = 0 → x.completed = 0 → x.threads t = .swaps →
        Returns t x := by
      intro x hx hxw hxs hxc hpc
      have hstep : x.step (.move t fun _ => true) = { x with word := IN_PROGRESS }.goTo t .starts := by
        simp only [World.step, World.move, hpc]
        rw [if_pos hxw]
      refine .after (.move t fun _ => true) ?_
      have hnext := hx.step (.move t fun _ => true)
      rw [hstep] at hnext ⊢
      refine returns_of_running (v := t) hnext ?_ fun r hr => ?_
      · rw [goTo_self, goTo_started, goTo_completed]
        change Winner x.started x.completed .starts
        rw [hxs, hxc]
        exact .starts
      · rw [goTo_self] at hr
        cases hr
    cases hpc : w.threads t with
    | outside r => exact absurd hpc (ht r)
    | reads =>
      have harm : w.afterRead = .swaps := by
        simp [World.afterRead, word, NEVER, IN_PROGRESS, DONE]
      have hstep : w.step (.move t fun _ => true) = w.goTo t .swaps := by
        simp only [World.step, World.move, hpc, harm]
      refine .after (.move t fun _ => true) (hswaps _ (hinv.step _) ?_ ?_ ?_ ?_)
      all_goals rw [hstep]
      · exact word
      · exact started
      · exact completed
      · exact goTo_self
    | swaps => exact hswaps w hinv word started completed hpc
    | starts | runs | stores | wakes | waits | parked | rereads =>
      have hearly := early t
      rw [hpc] at hearly
      cases hearly

end Steps

/-! ## `pthread_once` -/

/-- what is promised of a state of a run -/
structure Promise {n : ℕ} (w : World n) : Prop where
  once : w.started ≤ 1
  /-- a call that has returned did so after the routine, started once, had completed -/
  ordered : ∀ t o, w.threads t = .outside (some (.ok o)) → w.started = 1 ∧ w.completed = 1
  published : w.word = DONE → w.started = 1 ∧ w.completed = 1
  /-- for whoever is parked at DONE a wake is coming: the winner's, which reaches it -/
  waking : n ≤ u32Max → w.word = DONE → ∀ t, w.threads t = .parked →
    ∃ u, w.threads u = .wakes ∧ ∀ chosen, wakeable u32Max w.threads chosen → (w.move u chosen).threads t = .rereads
  /-- and in any case its slice ends, and it reads the word again -/
  bounded : w.word = DONE → ∀ t chosen chosen', w.threads t = .parked →
    ((w.move t chosen).move t chosen').threads t = .outside (some (.ok .alreadyDone))
  word : ∀ a, (w.step a).word = w.word ∨ w.word = NEVER ∧ (w.step a).word = IN_PROGRESS ∨
    w.word = IN_PROGRESS ∧ (w.step a).word = DONE
  fault : ∀ t f, w.threads t = .outside (some (.error f)) → checkAddr w.addr = .error f
  returns : ∀ t, w.inside t → Returns t w

section Promises

variable {n : ℕ} {w : World n}

theorem Inv.ordered (h : Inv w) {t : Fin n} {o : OnceOutcome} (ht : w.threads t = .outside (some (.ok o))) :
    w.started = 1 ∧ w.completed = 1 := by
  cases h with
  | never _ _ _ early =>
    have := early t
    rw [ht] at this
    cases this
  | running v _ won behind =>
    have hv : t = v := winner_eq behind (by rw [ht]; rfl)
    have := (hv ▸ won).after
    rw [ht] at this
    cases this
  | done _ started completed => exact ⟨started, completed⟩

/-- only the winner's two steps move the word -/
theorem Inv.moves (h : Inv w) (a : Act n) : (w.step a).word = w.word ∨ w.word = NEVER ∧ (w.step a).word = IN_PROGRESS ∨
    w.word = IN_PROGRESS ∧ (w.step a).word = DONE := by
  cases a with
  | call t =>
    simp only [World.step]
    split <;> exact .inl rfl
  | move t chosen =>
    simp only [World.step]
    unfold World.move
    split
    case h_3 =>
      split
      · rename_i hnever
        exact .inr (.inl ⟨hnever, rfl⟩)
      · exact .inl rfl
    case h_6 hpc =>
      refine .inr (.inr ⟨?_, rfl⟩)
      -- about to store, and so it has won
      cases h with
      | never _ _ _ early =>
        have := early t
        rw [hpc] at this
        cases this
      | running _ word => exact word
      | done _ _ _ after =>
        have := after t
        rw [hpc] at this
        cases this
    case h_7 => split <;> exact .inl rfl
    all_goals exact .inl rfl

theorem once_runs_once {addr : ℕ} (h : Run addr w) : Promise w := by
  have hinv := h.inv
  constructor
  case once =>
    cases hinv with
    | never _ started => omega
    | running _ _ won => exact won.once
    | done _ started => omega
  case ordered => exact fun t o ht => hinv.ordered ht
  case published =>
    intro hw
    cases hinv with
    | never word => exact absurd (word.symm.trans hw) (by decide)
    | running _ word => exact absurd (word.symm.trans hw) (by decide)
    | done _ started completed => exact ⟨started, completed⟩
  case waking =>
    intro hn hw t ht
    cases hinv with
    | never word => exact absurd (word.symm.trans hw) (by decide)
    | running _ word => exact absurd (word.symm.trans hw) (by decide)
    | done _ _ _ _ waking =>
      obtain ⟨u, hu⟩ := waking hn t ht
      refine ⟨u, hu, fun chosen hchosen => ?_⟩
      have htu : t ≠ u := by
        rintro rfl
        rw [ht] at hu
        cases hu
      simp only [World.move, hu]
      rw [if_pos hchosen, goTo_other htu]
      exact wake_parked ht (chosen_of_wakeable hchosen hn ht)
  case bounded =>
    intro hw t chosen chosen' ht
    have hfirst : w.move t chosen = w.goTo t .rereads := by
      simp only [World.move, ht]
    rw [hfirst]
    simp only [World.move, goTo_self]
    exact if_pos hw
  case word => exact hinv.moves
  case fault => exact fun t f ht => h.addr.symm ▸ h.fault t f ht
  case returns => exact fun t ht => hinv.returns ht

/-- two calls: the second loses the race and is asleep when the first has stored DONE -/
def race : List (Act 2) :=
  [.call 0, .call 1, .move 0 fun _ => true, .move 1 fun _ => true, .move 0 fun _ => true, .move 1 fun _ => true,
    .move 1 fun _ => true, .move 1 fun _ => true, .move 0 fun _ => true, .move 0 fun _ => true, .move 0 fun _ => true]

theorem once_runs_once_race :
    (run World.step ({ addr := 4096 } : World 2) race).word = DONE ∧
      (run World.step ({ addr := 4096 } : World 2) race).threads 1 = .parked ∧
      Promise (run World.step ({ addr := 4096 } : World 2) race) :=
  ⟨rfl, rfl, once_runs_once (reach_run World.step { addr := 4096 } race)⟩

end Promises

end Omnidroid.Bionic.Once
