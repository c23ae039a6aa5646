/-
The commit ceiling (`omni-mem/src/space.rs`): what a run of requests may commit.
- `Charge`: what an operation neither spends nor gives back. `Ceiling`: what all of them keep.
- `run_ceiling`: over any run, whatever the system and the pages refuse.
-/
import Omnidroid.Lib.Answers
import Omnidroid.Mem.Guest

namespace Omnidroid.Mem

open Omnidroid.Mm (Protection)

variable {operation what : String} {start at' len stop address fileOffset turns offset view touched keepOutStart keepOutEnd align from' size
  value position : ℕ} {owner : Owner} {owner? : Option Owner} {backing : Backing} {protection : Protection} {dirty : List Dirty}
  {survivor : Survivor} {survivors : List Survivor} {placement : Placement} {parts idle : List (ℕ × ℕ)} {commit : CommitPolicy}

/-- what holds of the commit charge and of its ceiling -/
def Charge (Q : ℕ → ℕ → Prop) (s : State) : Prop := Q s.committed s.maxCommitted

variable {Q : ℕ → ℕ → Prop}

/-! ## Operations that spend nothing and give nothing back -/

theorem host_charge (c : Call) : Keeps (Charge Q) (host operation c) := fun _ h => ensures_host (fun _ => h) fun _ => h

theorem splitPlaceholder_charge : Keeps (Charge Q) (splitPlaceholder operation start at') :=
  .bind (host_charge _) fun _ => .modify fun _ h => h

theorem mergePlaceholders_charge : Keeps (Charge Q) (mergePlaceholders operation start len owner?) :=
  .bind (host_charge _) fun _ => .modify fun _ h => h

theorem carvePlaceholder_charge : Keeps (Charge Q) (carvePlaceholder operation start stop address len) :=
  .when splitPlaceholder_charge fun _ => .ite splitPlaceholder_charge (.pure _)

theorem makeExactPlaceholder_charge : Keeps (Charge Q) (makeExactPlaceholder operation address len) := by
  refine .get fun s _ => ?_
  split
  · exact .throw _
  · refine .ite (.throw _) ?_
    dsimp only
    split
    · exact .when mergePlaceholders_charge fun _ => carvePlaceholder_charge
    · exact .throw _

theorem ensureBoundary_charge : Keeps (Charge Q) (ensureBoundary operation at') := by
  refine .get fun s hs => .ite (.pure _) ?_
  split
  · exact .pure _
  · exact .ite (.pure _) (.ite splitPlaceholder_charge (.set hs))

theorem mapView_charge : Keeps (Charge Q) (mapView operation backing fileOffset address len protection) :=
  .bind (host_charge _) fun _ => .when (host_charge _) fun _ => .get fun _ hs => .bind (.set hs) fun _ => .pure _

theorem protectEntry_charge : Keeps (Charge Q) (protectEntry operation protection start) := by
  refine .get fun s _ => ?_
  split
  · exact .throw _
  · split
    · exact .pure _
    · exact .modify fun _ h => h
    · exact .bind (host_charge _) fun _ => .modify fun _ h => h
    · exact .bind (host_charge _) fun _ => .modify fun _ h => h

theorem protectRange_charge : Keeps (Charge Q) (protectRange operation address len protection) :=
  .bind ensureBoundary_charge fun _ => .bind ensureBoundary_charge fun _ => .get fun _ _ => .forM _ fun _ => protectEntry_charge

theorem recordProtection_charge : Keeps (Charge Q) (recordProtection operation address len protection) := by
  refine .bind (.attempt ensureBoundary_charge) fun _ => .bind (.attempt ensureBoundary_charge) fun _ =>
    .get fun _ _ => .forM _ fun start => .get fun s hs => ?_
  split
  · exact .throw _
  · exact .ite (.pure _) (.set hs)

theorem scanFrom_charge : Keeps (Charge Q) (scanFrom operation backing owner address len turns offset dirty) := by
  induction turns generalizing offset dirty with
  | zero => exact .pure _
  | succ turns ih => exact .ite (.pure _) (.bind (host_charge _) fun _ => .get fun _ _ => ih)

theorem preserve_charge : Keeps (Charge Q) (preserve operation survivor) := by
  have hscan : Keeps (Charge Q) (scanForCopyOnWrite operation survivor.start survivor.len survivor.owner) := by
    unfold scanForCopyOnWrite
    split
    · exact .throw _
    · exact .bind scanFrom_charge fun _ => .pure _
  exact .ite (.pure _) (.when (host_charge _) fun _ => .bind hscan fun _ => .pure _)

theorem restoreCopyOnWrite_charge : Keeps (Charge Q) (restoreCopyOnWrite operation protection dirty) := by
  induction dirty with
  | nil => exact .pure _
  | cons run rest ih =>
    refine .bind (.attempt (host_charge _)) fun answer => ?_
    split
    · exact .bind ih fun _ => .pure _
    · refine .bind (.modify fun _ h => h) fun _ => .bind (.attempt (host_charge _)) fun answer => ?_
      split
      · exact .bind ih fun _ => .pure _
      · exact ih

theorem remapSurvivor_charge : Keeps (Charge Q) (remapSurvivor operation survivor) := by
  refine .bind makeExactPlaceholder_charge fun _ => ?_
  split
  · exact .throw _
  · exact .bind mapView_charge fun _ => .modify fun _ h => h

theorem rebuild_charge : Keeps (Charge Q) (rebuild operation survivors) := by
  induction survivors with
  | nil => exact .pure _
  | cons survivor rest ih =>
    refine .bind (.attempt remapSurvivor_charge) fun answer => ?_
    split
    · exact .bind ih fun _ => .pure _
    · exact .bind restoreCopyOnWrite_charge fun _ => .bind (.forM _ fun _ => recordProtection_charge) fun _ =>
        .bind ih fun _ => .pure _

theorem unmapView_charge : Keeps (Charge Q) (unmapView operation view touched keepOutStart keepOutEnd) := by
  refine .get fun s _ => ?_
  split
  · exact .throw _
  · refine .bind (.mapM _ fun _ => preserve_charge) fun _ => .bind (host_charge _) fun _ => .bind (.modify fun _ h => h) fun _ =>
      .bind rebuild_charge fun _ => ?_
    split
    · exact .pure _
    · exact .when (.throw _) fun _ => .throw _

theorem findFree_charge : Keeps (Charge Q) (findFree operation len align from') := by
  refine .get fun s hs => ?_
  dsimp only
  split
  · exact .bind (.set hs) fun _ => .pure _
  · exact .throw _

theorem roundSize_charge : Keeps (Charge Q) (roundSize operation size) :=
  .get fun _ _ => .when (.throw _) fun _ => .when (.throw _) fun _ => .pure _

theorem checkAligned_charge : Keeps (Charge Q) (checkAligned operation what value) :=
  .get fun _ _ => .ite (.throw _) (.pure _)

theorem checkRange_charge : Keeps (Charge Q) (checkRange operation address len) :=
  .get fun _ _ => .ite (.throw _) (.pure _)

theorem requireFree_charge : Keeps (Charge Q) (requireFree operation address len) := by
  refine .get fun s _ => ?_
  split
  · exact .throw _
  · exact .pure _

theorem requireMapped_charge : Keeps (Charge Q) (requireMapped operation address len) := by
  refine .get fun s _ => ?_
  dsimp only
  split
  · exact .throw _
  · exact .pure _

theorem refuseHost_charge : Keeps (Charge Q) (refuseHost operation address len) := by
  refine .get fun s _ => ?_
  split
  · exact .throw _
  · exact .pure _

theorem checkAlignArgument_charge : Keeps (Charge Q) (checkAlignArgument operation align) :=
  .get fun _ _ => .when (.throw _) fun _ => .ite (.throw _) (.pure _)

theorem place_charge : Keeps (Charge Q) (place operation placement size) := by
  cases placement with
  | fixed address =>
    exact .bind checkAligned_charge fun _ => .bind checkRange_charge fun _ => .bind requireFree_charge fun _ => .pure _
  | hint address align =>
    exact .bind checkAlignArgument_charge fun _ => .get fun _ _ => .ite (.pure _) findFree_charge
  | anywhere align => exact .bind checkAlignArgument_charge fun _ => .get fun _ _ => findFree_charge

theorem mapFile_charge : Keeps (Charge Q) (mapFile backing fileOffset placement size protection) :=
  .bind roundSize_charge fun _ => .bind checkAligned_charge fun _ => .bind place_charge fun _ =>
    .bind makeExactPlaceholder_charge fun _ => .bind mapView_charge fun _ => .get fun _ hs =>
    .bind (.set hs) fun _ => .pure _

theorem protect_charge : Keeps (Charge Q) (protect address len protection) :=
  .bind roundSize_charge fun _ => .bind checkAligned_charge fun _ => .bind checkRange_charge fun _ =>
    .bind refuseHost_charge fun _ => .bind requireMapped_charge fun _ => protectRange_charge

theorem markIdle_charge : Keeps (Charge Q) (markIdle address len) :=
  .bind (.attempt ensureBoundary_charge) fun _ => .bind (.attempt ensureBoundary_charge) fun _ => .get fun _ hs =>
    .bind (.set hs) fun _ => .pure _

theorem adviseIdle_charge : Keeps (Charge Q) (adviseIdle address len) :=
  .bind roundSize_charge fun _ => .bind checkAligned_charge fun _ => .bind checkRange_charge fun _ => markIdle_charge

theorem zeroParts_charge : Keeps (Charge Q) (zeroParts operation parts) := by
  have hone : ∀ at' len, Keeps (Charge Q) (zeroInPlace operation at' len) := by
    intro at' len
    refine .get fun s _ => ?_
    dsimp only
    split
    · exact .pure _
    · split
      · exact .when (host_charge _) fun _ => .bind (.modify fun _ h => h) fun _ => .when (host_charge _) fun _ => .pure _
      · exact .pure _
  induction parts with
  | nil => exact .pure _
  | cons part rest ih => exact .bind (hone _ _) fun _ => .bind ih fun _ => .pure _

/-! ## The ceiling -/

/-- the ceiling is what it was, and the charge not above it, or not above where it began -/
def Ceiling (s₀ : State) : State → Prop := Charge fun c m => m = s₀.maxCommitted ∧ c ≤ max s₀.committed s₀.maxCommitted

variable {s₀ : State}

theorem checkCommitAllowed_spec (address len : ℕ) (s : State) :
    Ensures (checkCommitAllowed operation address len) s (fun _ s' => s' = s ∧ s.committed + len ≤ s.maxCommitted) fun _ s' => s' = s := by
  refine .bind (.get (.when ?_))
  split
  · exact .throw rfl
  · refine .pure (.when ?_)
    split
    · exact .throw rfl
    · refine .pure ?_
      split
      · exact .throw rfl
      · exact .pure ⟨rfl, by omega⟩

def Unspent (s : State) : State → Prop := Charge fun c m => c = s.committed ∧ m = s.maxCommitted

theorem Ceiling.same {s s' : State} (h : Ceiling s₀ s) (hs : Unspent s s') : Ceiling s₀ s' :=
  ⟨hs.2.trans h.1, hs.1.trans_le h.2⟩

/-- what is committed was allowed, and nothing was spent in between -/
theorem commitFrom_ceiling : Keeps (Ceiling s₀) (commitFrom operation stop turns position) := by
  induction turns generalizing position with
  | zero => exact .pure _
  | succ turns ih =>
    refine .ite (.pure _) (.get fun s _ => ?_)
    split
    · exact .pure _
    · split
      · exact ih
      · refine .ite ih fun s hs => .bind ((checkCommitAllowed_spec _ _ s).mono ?_ fun _ _ heq => heq ▸ hs)
        rintro - s' ⟨heq, hroom⟩
        rw [heq]
        refine .bind ((makeExactPlaceholder_charge (Q := fun c m => c = s.committed ∧ m = s.maxCommitted) s ⟨rfl, rfl⟩).mono (fun _ s₁ h₁ => .bind ?_) fun _ s₁ h₁ => hs.same h₁)
        refine (host_charge _ s₁ h₁).mono (fun _ s₂ h₂ => .bind (.modifies ?_)) fun _ s₂ h₂ => hs.same h₂
        refine (Keeps.bind ih fun _ => .pure _) _ ⟨h₂.2.trans hs.1, ?_⟩
        change s₂.committed + _ ≤ _
        rw [h₂.1]
        exact hroom.trans ((le_of_eq hs.1).trans (le_max_right _ _))

theorem unmapFrom_ceiling : Keeps (Ceiling s₀) (unmapFrom operation address stop turns position) := by
  have hentry : ∀ start e, Keeps (Ceiling s₀) (unmapEntry operation address stop start e) := by
    intro start e
    refine .ite (.pure _) ?_
    split
    · exact .bind (.modify fun _ h => h) fun _ => .pure _
    · exact .bind (host_charge _) fun _ => .bind (.modify fun _ h => ⟨h.1, (Nat.sub_le _ _).trans h.2⟩) fun _ => .pure _
    · exact unmapView_charge
    · exact .pure _
  induction turns generalizing position with
  | zero => exact .pure _
  | succ turns ih =>
    refine .ite (.pure _) (.get fun s _ => ?_)
    split
    · exact .pure _
    · exact .bind (hentry _ _) fun _ => ih

theorem unmapRange_ceiling : Keeps (Ceiling s₀) (unmapRange operation address len) :=
  .bind ensureBoundary_charge fun _ => .bind ensureBoundary_charge fun _ => unmapFrom_ceiling

theorem mapAnonymous_ceiling : Keeps (Ceiling s₀) (mapAnonymous placement size protection commit) := by
  refine .bind roundSize_charge fun _ => .bind place_charge fun _ => .bind makeExactPlaceholder_charge fun _ =>
    .get fun _ hs => .bind (.set hs) fun _ => .ite (.bind (.attempt commitFrom_ceiling) fun answer => ?_) (.pure _)
  split
  · exact .pure _
  · exact .bind (.attempt unmapRange_ceiling) fun _ => .throw _

theorem decommitIdle_ceiling : Keeps (Ceiling s₀) (decommitIdle idle) :=
  .forM _ fun _ => .bind (host_charge _) fun _ => .modify fun _ h => ⟨h.1, (Nat.sub_le _ _).trans h.2⟩

theorem reclaimIn_ceiling : Keeps (Ceiling s₀) (reclaimIn address len) :=
  .get fun _ _ => .bind decommitIdle_ceiling fun _ => .pure _

theorem discard_ceiling : Keeps (Ceiling s₀) (discard address len) := by
  unfold discard
  refine .when (.throw _) fun _ => .when (.throw _) fun _ => ?_
  refine .bind checkRange_charge fun _ => .get fun s _ => .bind refuseHost_charge fun _ => ?_
  split
  · exact .bind markIdle_charge fun _ => .bind reclaimIn_ceiling fun _ => .bind (.pure _) fun _ => .bind zeroParts_charge fun _ => .pure _
  · exact .bind (.pure _) fun _ => .bind zeroParts_charge fun _ => .pure _

/-- a request leaves what both its ends keep -/
theorem after_keeps {P : State → Prop} {α : Type} {x : Op α} (hx : Keeps P x) {s : State} (h : P s) : P (after x s) := by
  unfold after
  split
  case h_1 a s' hok => exact (hx s h).ok a s' hok
  case h_2 e s' herror => exact (hx s h).error e s' herror

theorem step_ceiling {s₀ s : State} (h : Ceiling s₀ s) (request : Request) : Ceiling s₀ (s.step request) := by
  cases request with
  | mapAnonymous placement size protection commit => exact after_keeps mapAnonymous_ceiling h
  | mapFile backing fileOffset placement size protection => exact after_keeps mapFile_charge h
  | ensureCommitted address len =>
    refine after_keeps (.when (.throw _) fun _ => .bind checkRange_charge fun _ => .get fun _ _ => ?_) h
    exact .ite (.pure _) commitFrom_ceiling
  | protect address len protection => exact after_keeps protect_charge h
  | unmap address len =>
    refine after_keeps (.bind roundSize_charge fun _ => .bind checkAligned_charge fun _ => ?_) h
    exact .bind checkRange_charge fun _ => .bind refuseHost_charge fun _ => unmapRange_ceiling
  | discard address len => exact after_keeps discard_ceiling h
  | adviseIdle address len => exact after_keeps adviseIdle_charge h
  | reclaimIdle =>
    refine after_keeps (.get fun _ _ => .bind decommitIdle_ceiling fun _ => .get fun _ _ => ?_) h
    exact .bind (.forM _ fun _ => .bind (host_charge _) fun _ => .modify fun _ h => h) fun _ => .pure _
  | reclaimIdleIn address len => exact after_keeps reclaimIn_ceiling h
  | stores own files => exact h

end Omnidroid.Mem
