/-
How a step that can fail answers, its state kept either way (`EStateM`).
- `bind_ok`, `bind_error`: what is known of a sequence of steps from how it ended; `except_bind_ok` where there is no state.
- `Follows R x y`: where `x` succeeds, `y` does from every state related by `R`, with the same answer and to a related
  state. It is kept by sequences and branches, so a program that is given two sets of steps follows as they do.
- `Ensures x s Q E`: from `s`, `x` ends as `Q` says or fails as `E` says; a rule for each way of putting steps together, so
  that a program's proof goes by its steps' own.
- `Keeps P x`: wherever `x` ends, `P` holds as it did before.
-/
import Mathlib.Tactic

namespace Omnidroid

variable {ε σ τ α β : Type} {s s' : σ}

theorem bind_ok {x : EStateM ε σ α} {f : α → EStateM ε σ β} {b : β} :
    (x >>= f) s = .ok b s' ↔ ∃ a s₁, x s = .ok a s₁ ∧ f a s₁ = .ok b s' := by
  simp only [bind, EStateM.bind]
  cases x s with
  | ok a s₁ => simp
  | error e s₁ => simp

theorem bind_error {x : EStateM ε σ α} {f : α → EStateM ε σ β} {e : ε} :
    (x >>= f) s = .error e s' ↔ x s = .error e s' ∨ ∃ a s₁, x s = .ok a s₁ ∧ f a s₁ = .error e s' := by
  simp only [bind, EStateM.bind]
  cases x s with
  | ok a s₁ => simp
  | error e s₁ => simp

theorem bind_of_ok {x : EStateM ε σ α} {a : α} (h : x s = .ok a s') (f : α → EStateM ε σ β) : (x >>= f) s = f a s' := by
  simp only [bind, EStateM.bind, h]

theorem pure_ok {a b : α} : (pure a : EStateM ε σ α) s = .ok b s' ↔ a = b ∧ s = s' := by
  simp [pure, EStateM.pure]

theorem pure_error {a : α} {e : ε} : ¬(pure a : EStateM ε σ α) s = .error e s' := by
  intro h
  cases h

theorem throw_ok {e : ε} {a : α} : ¬(throw e : EStateM ε σ α) s = .ok a s' := by
  intro h
  cases h

theorem throw_error {e e' : ε} : (throw e : EStateM ε σ α) s = .error e' s' → s = s' := by
  intro h
  cases h
  rfl

theorem get_eq : (get : EStateM ε σ σ) s = .ok s s := rfl

theorem except_bind_ok {x : Except ε α} {f : α → Except ε β} {b : β} :
    (x >>= f) = .ok b ↔ ∃ a, x = .ok a ∧ f a = .ok b := by
  cases x with
  | ok a => simp [bind, Except.bind]
  | error e => simp [bind, Except.bind]

def Follows (R : σ → τ → Prop) (x : EStateM ε σ α) (y : EStateM ε τ α) : Prop :=
  ∀ s t a s', R s t → x s = .ok a s' → ∃ t', y t = .ok a t' ∧ R s' t'

namespace Follows

variable {R : σ → τ → Prop} {x : EStateM ε σ α} {y : EStateM ε τ α}

theorem pure (a : α) : Follows R (Pure.pure a : EStateM ε σ α) (Pure.pure a : EStateM ε τ α) := by
  intro s t b s' hR h
  obtain ⟨rfl, rfl⟩ := pure_ok.mp h
  exact ⟨t, rfl, hR⟩

theorem throw (e : ε) : Follows R (throwThe ε e : EStateM ε σ α) y := by
  intro s t b s' _ h
  cases h

theorem bind {f : α → EStateM ε σ β} {g : α → EStateM ε τ β} (h : Follows R x y) (hf : ∀ a, Follows R (f a) (g a)) :
    Follows R (x >>= f) (y >>= g) := by
  intro s t b s' hR hb
  obtain ⟨a, s₁, hx, hb⟩ := bind_ok.mp hb
  obtain ⟨t₁, hy, hR₁⟩ := h s t a s₁ hR hx
  obtain ⟨t', hg, hR'⟩ := hf a s₁ t₁ b s' hR₁ hb
  exact ⟨t', bind_ok.mpr ⟨a, t₁, hy, hg⟩, hR'⟩

end Follows

/-- `x`, run from `s`, ends as `Q` says where it succeeds, and as `E` says where it fails -/
structure Ensures (x : EStateM ε σ α) (s : σ) (Q : α → σ → Prop) (E : ε → σ → Prop) : Prop where
  ok : ∀ a s', x s = .ok a s' → Q a s'
  error : ∀ e s', x s = .error e s' → E e s'

/-- `x` and how it ended, which is then no failure -/
def attempt (x : EStateM ε σ α) : EStateM ε σ (Except ε α) := fun s =>
  match x s with
  | .ok a s' => .ok (.ok a) s'
  | .error e s' => .ok (.error e) s'

namespace Ensures

variable {x : EStateM ε σ α} {f : α → EStateM ε σ β} {Q Q' : α → σ → Prop} {R : β → σ → Prop} {E E' : ε → σ → Prop}

theorem mono (h : Ensures x s Q E) (hQ : ∀ a s', Q a s' → Q' a s') (hE : ∀ e s', E e s' → E' e s') : Ensures x s Q' E' :=
  ⟨fun a s' hx => hQ a s' (h.ok a s' hx), fun e s' hx => hE e s' (h.error e s' hx)⟩

theorem post (h : Ensures x s Q E) (hQ : ∀ a s', Q a s' → Q' a s') : Ensures x s Q' E := h.mono hQ fun _ _ he => he

theorem pure {a : α} (h : Q a s) : Ensures (Pure.pure a) s Q E := by
  constructor
  · intro b s' hx
    cases hx
    exact h
  · intro e s' hx
    cases hx

theorem throw {e : ε} (h : E e s) : Ensures (throwThe ε e : EStateM ε σ α) s Q E := by
  constructor
  · intro b s' hx
    cases hx
  · intro e' s' hx
    cases hx
    exact h

theorem bind (h : Ensures x s (fun a s' => Ensures (f a) s' R E) E) : Ensures (x >>= f) s R E := by
  constructor
  · intro b s' hx
    simp only [Bind.bind, EStateM.bind] at hx
    split at hx
    · rename_i a s₁ hxa
      exact (h.ok a s₁ hxa).ok b s' hx
    · cases hx
  · intro e s' hx
    simp only [Bind.bind, EStateM.bind] at hx
    split at hx
    · rename_i a s₁ hxa
      exact (h.ok a s₁ hxa).error e s' hx
    · rename_i e' s₁ hxe
      cases hx
      exact h.error e s' hxe

theorem get {Q : σ → σ → Prop} (h : Q s s) : Ensures (MonadState.get : EStateM ε σ σ) s Q E := by
  constructor
  · intro b s' hx
    cases hx
    exact h
  · intro e s' hx
    cases hx

theorem modifies {g : σ → σ} {Q : Unit → σ → Prop} (h : Q () (g s)) : Ensures (modify g : EStateM ε σ Unit) s Q E := by
  constructor
  · intro b s' hx
    cases hx
    exact h
  · intro e s' hx
    cases hx

/-- a step that is taken only where a condition holds, before the rest -/
theorem when {c : Prop} [Decidable c] {y : EStateM ε σ PUnit} {k : PUnit → EStateM ε σ β}
    (h : Ensures (if c then y else Pure.pure ⟨⟩) s (fun u s' => Ensures (k u) s' R E) E) :
    Ensures (if c then y >>= k else k ⟨⟩) s R E := by
  split at h
  · rename_i hc
    rw [if_pos hc]
    exact bind h
  · rename_i hc
    rw [if_neg hc]
    exact h.ok _ _ rfl

end Ensures

/-- `P` holds wherever `x` ends, succeeding or failing, as long as it held where it began -/
def Keeps (P : σ → Prop) (x : EStateM ε σ α) : Prop := ∀ s, P s → Ensures x s (fun _ s' => P s') fun _ s' => P s'

namespace Keeps

variable {P : σ → Prop} {x : EStateM ε σ α} {f : α → EStateM ε σ β}

theorem pure (a : α) : Keeps P (Pure.pure a : EStateM ε σ α) := fun _ h => .pure h

theorem throw (e : ε) : Keeps P (throwThe ε e : EStateM ε σ α) := fun _ h => .throw h

theorem bind (h : Keeps P x) (hf : ∀ a, Keeps P (f a)) : Keeps P (x >>= f) :=
  fun s hs => .bind ((h s hs).post fun a s' hs' => hf a s' hs')

/-- what is read is a state that `P` holds of -/
theorem get {f : σ → EStateM ε σ β} (hf : ∀ s, P s → Keeps P (f s)) : Keeps P (MonadState.get >>= f) :=
  fun s hs => .bind (.get (hf s hs s hs))

theorem modify {g : σ → σ} (h : ∀ s, P s → P (g s)) : Keeps P (modifyGet fun s => (PUnit.unit, g s) : EStateM ε σ PUnit) := fun s hs => .modifies (h s hs)

theorem set {s : σ} (h : P s) : Keeps P (MonadStateOf.set s : EStateM ε σ PUnit) := .modify fun _ _ => h

theorem attempt (h : Keeps P x) : Keeps P (attempt x) := by
  intro s hs
  constructor
  · intro a s' hx
    unfold Omnidroid.attempt at hx
    split at hx
    case h_1 a₁ s₁ hok =>
      cases hx
      exact (h s hs).ok a₁ _ hok
    case h_2 e s₁ herror =>
      cases hx
      exact (h s hs).error e _ herror
  · intro e s' hx
    unfold Omnidroid.attempt at hx
    split at hx <;> cases hx

theorem ite {c : Prop} [Decidable c] {y : EStateM ε σ α} (h : Keeps P x) (h' : Keeps P y) : Keeps P (if c then x else y) := by
  split
  · exact h
  · exact h'

/-- a step that is taken only where a condition holds, before the rest -/
theorem when {c : Prop} [Decidable c] {y : EStateM ε σ PUnit} {k : PUnit → EStateM ε σ β} (h : Keeps P y) (hk : ∀ u, Keeps P (k u)) :
    Keeps P (if c then y >>= k else k ⟨⟩) := .ite (.bind h hk) (hk _)

theorem forM {g : α → EStateM ε σ PUnit} (l : List α) (h : ∀ a, Keeps P (g a)) : Keeps P (l.forM g) := by
  induction l with
  | nil => exact .pure _
  | cons a l ih => exact .bind (h a) fun _ => ih

theorem mapM {g : α → EStateM ε σ β} (l : List α) (h : ∀ a, Keeps P (g a)) : Keeps P (l.mapM g) := by
  induction l with
  | nil => exact .pure _
  | cons a l ih =>
    rw [List.mapM_cons]
    exact .bind (h a) fun _ => .bind ih fun _ => .pure _

end Keeps

end Omnidroid
