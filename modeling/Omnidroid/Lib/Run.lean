/-
Runs of a state machine, and the one induction every safety result over them uses.

`Reach step ok init s`: some run from `init` ends in `s`, each of its steps one that `ok` allows in the state it starts
from. `ok` is `fun _ _ => True` for a result about every run, and a condition on the steps for a result that holds only
while the environment keeps to a rule.
- `Reach.invariant`: what holds at the start and is kept by every allowed step from a reachable state holds throughout;
  the step may use that its state is reachable, so one invariant can rest on another proved before it;
- `Reach.mono`: a run under a stronger condition is a run under a weaker one;
- `reach_run`: a concrete list of steps reaches the state that running it computes.
-/
import Mathlib.Tactic

namespace Omnidroid

variable {σ α : Type*}

inductive Reach (step : σ → α → σ) (ok : σ → α → Prop) (init : σ) : σ → Prop
  | start : Reach step ok init init
  | next {s : σ} (a : α) (h : Reach step ok init s) (ho : ok s a) : Reach step ok init (step s a)

/-- no condition on the steps -/
def anyStep : σ → α → Prop := fun _ _ => True

theorem Reach.mono {step : σ → α → σ} {ok ok' : σ → α → Prop} {init s : σ} (hle : ∀ s a, ok s a → ok' s a)
    (h : Reach step ok init s) : Reach step ok' init s := by
  induction h with
  | start => exact .start
  | next a _ ho ih => exact .next a ih (hle _ _ ho)

theorem Reach.any {step : σ → α → σ} {ok : σ → α → Prop} {init s : σ} (h : Reach step ok init s) :
    Reach step anyStep init s :=
  h.mono fun _ _ _ => trivial

theorem Reach.invariant {step : σ → α → σ} {ok : σ → α → Prop} {init : σ} (I : σ → Prop) (h0 : I init)
    (hstep : ∀ s a, Reach step ok init s → ok s a → I s → I (step s a)) {s : σ} (h : Reach step ok init s) : I s := by
  induction h with
  | start => exact h0
  | next a h ho ih => exact hstep _ a h ho ih

/-- running a list of steps -/
def run (step : σ → α → σ) (s : σ) (acts : List α) : σ := acts.foldl step s

/-- every step of the list is allowed where it is taken -/
def Allowed (step : σ → α → σ) (ok : σ → α → Prop) : σ → List α → Prop
  | _, [] => True
  | s, a :: acts => ok s a ∧ Allowed step ok (step s a) acts

instance decAllowed (step : σ → α → σ) (ok : σ → α → Prop) [∀ s a, Decidable (ok s a)] :
    ∀ (s : σ) (acts : List α), Decidable (Allowed step ok s acts)
  | _, [] => .isTrue trivial
  | s, a :: acts =>
    have := decAllowed step ok (step s a) acts
    inferInstanceAs (Decidable (ok s a ∧ Allowed step ok (step s a) acts))

theorem Reach.run {step : σ → α → σ} {ok : σ → α → Prop} {init s : σ} (h : Reach step ok init s) (acts : List α)
    (ha : Allowed step ok s acts) : Reach step ok init (run step s acts) := by
  induction acts generalizing s with
  | nil => exact h
  | cons a acts ih => exact ih (.next a h ha.1) ha.2

theorem allowed_of_forall {step : σ → α → σ} {ok : σ → α → Prop} {acts : List α} (h : ∀ s, ∀ a ∈ acts, ok s a) (s : σ) :
    Allowed step ok s acts := by
  induction acts generalizing s with
  | nil => trivial
  | cons a acts ih => exact ⟨h s a List.mem_cons_self, ih (fun s b hb => h s b (List.mem_cons_of_mem a hb)) _⟩

theorem allowed_any (step : σ → α → σ) (s : σ) (acts : List α) : Allowed step anyStep s acts :=
  allowed_of_forall (fun _ _ _ => trivial) s

theorem reach_run (step : σ → α → σ) (init : σ) (acts : List α) :
    Reach step anyStep init (Omnidroid.run step init acts) :=
  Reach.run .start acts (allowed_any step init acts)

end Omnidroid
