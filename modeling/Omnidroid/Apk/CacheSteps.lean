/-
The steps of a call to the extraction cache, each a `Change` with an `Arrival`.

- `Change.same`, `Change.append`, `Change.create`, `Change.publish`, `Change.hint`, `Change.remove`: the file-system calls.
- `Inv.looks`, `Inv.writes`, `Inv.publishes`, `Inv.writesHint`: the steps of `lookup`, `write_temp`, `publish`, `write_index`;
  `Inv.advance`: every step.
-/
import Omnidroid.Apk.CacheInv

namespace Omnidroid.Apk

variable {ι ℓ : Type*}

/-! ## The steps there are -/

section Steps

variable {S : Setting ι ℓ} {w w' : World ι ℓ} {c : ℕ} {call : Call ι ℓ} {pc : Pc ℓ} {refused : Bool} {t : Temp} {i : Ino (Path ℓ)}
  {held : Option Temp} {a : Answer ℓ}

/-- no file is touched -/
theorem Change.same (h : Inv S w) : Change S w w c call pc where
  procs _ := ⟨rfl, rfl, le_rfl⟩
  nextProc := rfl
  calls := rfl
  nextCall := rfl
  sound := h.files
  next := le_rfl
  temps _ _ hi := .inl hi
  elsewhere _ _ _ := rfl
  data _ _ _ := ⟨rfl, rfl⟩
  libs _ _ hi := .inl hi
  stays _ _ hi := .inl hi
  indexes _ _ hi := .inl hi

theorem counted_procs (w : World ι ℓ) (q p : ℕ) : ((w.counted q).procs p).pid = (w.procs p).pid ∧
    ((w.counted q).procs p).alive = (w.procs p).alive ∧ (w.procs p).count ≤ ((w.counted q).procs p).count := by
  unfold World.counted
  rcases eq_or_ne p q with rfl | hne
  · simp
  · simp [hne]

theorem counted_self (w : World ι ℓ) (p : ℕ) : ((w.counted p).procs p).count = (w.procs p).count + 1 := by
  simp only [World.counted, Function.update_self]

/-- only a name is used up -/
theorem Change.counted (h : Inv S w) : Change S w (w.counted call.proc) c call pc := by
  have hsame : Change S w w c call pc := Change.same h
  exact { hsame with procs := counted_procs w call.proc }

/-- what a call writes to the file that it has open -/
theorem Change.append [DecidableEq ℓ] (h : Inv S w) (ht : t ∈ call.pc.held) (hi : w.files.names (.temp t) = .file i) (bs : Bytes) :
    Change S w { w with files := w.files.append i bs } c call pc where
  procs _ := ⟨rfl, rfl, le_rfl⟩
  nextProc := rfl
  calls := rfl
  nextCall := rfl
  sound := h.files.append i bs
  next := le_rfl
  temps _ _ hi := .inl hi
  elsewhere _ _ _ := rfl
  data j hj _ := by
    refine ⟨Files.append_other ?_, rfl⟩
    rintro rfl
    exact hj t (.inl ht) hi
  libs _ _ hi := .inl hi
  stays _ _ hi := .inl hi
  indexes _ _ hi := .inl hi

theorem Change.create [DecidableEq ℓ] (h : Inv S w) {files : Files (Path ℓ)} (ht : t ∈ pc.held)
    (hc : w.files.create (.temp t) = some (files, i)) :
    Change S w { w.counted call.proc with files, author := Function.update w.author i (some c) } c call pc := by
  obtain ⟨hsound, -, -, hother, hdata, hnext, hcase⟩ := Files.create_spec h.files hc
  have hkeep : ∀ p, (∀ t', p ≠ .temp t') → files.names p = w.files.names p := fun p hp => (hother p (hp t)).1
  refine ⟨counted_procs w call.proc, rfl, rfl, rfl, hsound, hnext, ?_, ?_, ?_, ?_, ?_, ?_⟩
  · intro t' j hj
    rcases eq_or_ne t' t with rfl | hne
    · cases (Files.create_spec h.files hc).2.1.symm.trans hj
      rcases hcase with hold | ⟨hnew, -⟩
      · exact .inl hold
      · exact .inr hnew
    · exact .inl ((hother _ (by simpa using hne)).1.symm.trans hj)
  · intro t' _ hout
    have hne : t' ≠ t := by
      rintro rfl
      exact hout ht
    exact (hother _ (by simpa using hne)).1
  · intro j hj hnew
    have hne : j ≠ i := by
      rintro rfl
      rcases hcase with hold | ⟨hnew', -⟩
      · exact hj t (.inr ht) hold
      · exact hnew hnew'
    exact ⟨hdata j hne, Function.update_of_ne hne ..⟩
  · intro p j hj
    exact .inl ((hkeep _ (by intro t'; exact nofun)).symm.trans hj)
  · intro p j hj
    exact .inl ((hkeep _ (by intro t'; exact nofun)).trans hj)
  · intro k j hj
    exact .inl ((hkeep _ (by intro t'; exact nofun)).symm.trans hj)

/-- the extraction's file takes its place -/
theorem Change.publish [DecidableEq ℓ] (h : Inv S w) {files : Files (Path ℓ)} (ht : t ∈ call.pc.held)
    (hi : w.files.names (.temp t) = .file i) (hauthor : w.author i = some c) (hgood : (S.job call.job).good = true)
    (hdata : w.files.data i = (S.job call.job).data)
    (hr : w.files.rename (.temp t) (S.libraryPath call.job (S.digest call.job)) = some files) (pc : Pc ℓ) :
    Change S w { w with files } c call pc ∧ files.names (S.libraryPath call.job (S.digest call.job)) = .file i ∧
      files.data i = (S.job call.job).data := by
  obtain ⟨j, hj, hsound, hnew, hgone, hother, hsame, hnext⟩ := Files.rename_spec h.files (by exact nofun) hr
  cases hi.symm.trans hj
  refine ⟨⟨fun _ => ⟨rfl, rfl, le_rfl⟩, rfl, rfl, rfl, hsound, hnext.ge, ?_, ?_, ?_, ?_, ?_, ?_⟩, hnew, by rw [hsame]; exact hdata⟩
  · intro t' k hk
    rcases eq_or_ne t' t with rfl | hne
    · cases hgone.symm.trans hk
    · exact .inl ((hother _ (by simpa using hne) (by exact nofun)).symm.trans hk)
  · intro t' hout _
    have hne : t' ≠ t := by
      rintro rfl
      exact hout ht
    exact hother _ (by simpa using hne) (by exact nofun)
  · intro k _ _
    exact ⟨congrFun hsame k, rfl⟩
  · intro p k hk
    rcases eq_or_ne (Path.lib p) (S.libraryPath call.job (S.digest call.job)) with heq | hne
    · rw [heq] at hk
      cases hnew.symm.trans hk
      refine .inr ⟨hauthor, hgood, ?_, heq⟩
      change files.data i = _
      rw [hsame]
      exact hdata
    · exact .inl ((hother _ (by exact nofun) hne).symm.trans hk)
  · intro p k hk
    rcases eq_or_ne (Path.lib p) (S.libraryPath call.job (S.digest call.job)) with heq | hne
    · refine .inr ⟨i, ?_, ?_, heq⟩
      · change files.names (.lib p) = _
        rw [heq]
        exact hnew
      · change files.data i = _
        rw [hsame]
        exact hdata
    · exact .inl ((hother _ (by exact nofun) hne).trans hk)
  · intro k j hk
    exact .inl ((hother _ (by exact nofun) (by exact nofun)).symm.trans hk)

/-- a hint takes its place -/
theorem Change.hint [DecidableEq ℓ] (h : Inv S w) {files : Files (Path ℓ)} (ht : t ∈ call.pc.held)
    (hi : w.files.names (.temp t) = .file i) (hauthor : w.author i = some c)
    (hdata : w.files.data i = hintText (S.digest call.job)) {a : Answer ℓ} (hpc : call.pc = .renamesIndex held a t)
    (hr : w.files.rename (.temp t) (.index (S.key call.job)) = some files) : Change S w { w with files } c call pc := by
  obtain ⟨j, hj, hsound, hnew, hgone, hother, hsame, hnext⟩ := Files.rename_spec h.files (by exact nofun) hr
  cases hi.symm.trans hj
  refine ⟨fun _ => ⟨rfl, rfl, le_rfl⟩, rfl, rfl, rfl, hsound, hnext.ge, ?_, ?_, ?_, ?_, ?_, ?_⟩
  · intro t' k hk
    rcases eq_or_ne t' t with rfl | hne
    · cases hgone.symm.trans hk
    · exact .inl ((hother _ (by simpa using hne) (by exact nofun)).symm.trans hk)
  · intro t' hout _
    have hne : t' ≠ t := by
      rintro rfl
      exact hout ht
    exact hother _ (by simpa using hne) (by exact nofun)
  · intro k _ _
    exact ⟨congrFun hsame k, rfl⟩
  · intro p k hk
    exact .inl ((hother _ (by exact nofun) (by exact nofun)).symm.trans hk)
  · intro p k hk
    exact .inl ((hother _ (by exact nofun) (by exact nofun)).trans hk)
  · intro k j hk
    rcases eq_or_ne k (S.key call.job) with rfl | hne
    · cases hnew.symm.trans hk
      refine .inr ⟨hauthor, ?_, rfl, held, a, t, hpc⟩
      change files.data i = _
      rw [hsame]
      exact hdata
    · exact .inl ((hother _ (by exact nofun) (by simpa using hne)).symm.trans hk)

theorem Change.remove [DecidableEq ℓ] (h : Inv S w) (ht : t ∈ call.pc.held) (fault : Bool) :
    Change S w (if fault then w else { w with files := w.files.remove (.temp t) }) c call pc := by
  split
  · exact Change.same h
  · obtain ⟨hsound, hother, hback, hdata, hnext⟩ := Files.remove_spec h.files (.temp t)
    refine ⟨fun _ => ⟨rfl, rfl, le_rfl⟩, rfl, rfl, rfl, hsound, hnext.ge, fun t' i hi => .inl (hback _ i hi), ?_, ?_,
      fun p i hi => .inl (hback _ i hi), fun p i hi => .inl ((hother _ (by exact nofun)).trans hi), fun k i hi => .inl (hback _ i hi)⟩
    · intro t' hout _
      have hne : t' ≠ t := by
        rintro rfl
        exact hout ht
      exact hother _ (by simpa using hne)
    · intro j _ _
      exact ⟨congrFun hdata j, rfl⟩

/-- a call that has no file open, and looks at none -/
theorem Arrival.quiet (hc : w.calls c = some call) (h : Inv S w) (hheld : pc.held.Sublist call.pc.held)
    (hquiet : pc.writing = none ∧ pc.written = none ∧ pc.past = false ∧ pc.hint = none ∧ pc.found = none ∧ ∀ t, pc ≠ .checks t)
    (hlate : ∀ a, pc.late = some a → ∃ d, a = .extracted d ∨ a = .raced d)
    (hraced : ∀ d, pc.answer = some (.raced d) → call.pc.answer = some (.raced d) ∨ ∃ t f, call.pc = .checks t ∧
      w.files.names (S.libraryPath call.job (S.digest call.job)) = .file f ∧ (w.files.data f).length = S.size call.job)
    (ha : ∀ a, pc.answer = some a → (∀ d len i, a ≠ .reused d len i) ∧ w'.fair S call.job call.extract (call.refused || refused) a) :
    Arrival S w w' c call pc refused := by
  obtain ⟨hwriting, hwritten, hpast, hhint, hfound, hchecks⟩ := hquiet
  constructor
  case held => exact fun t ht => .inl (hheld.subset ht)
  case nodup => exact (h.nodup hc).sublist hheld
  case writing =>
    intro t i left x hw
    cases hwriting.symm.trans hw
  case written =>
    intro t x hw
    cases hwritten.symm.trans hw
  case good =>
    intro hp
    cases hpast.symm.trans hp
  case hint =>
    intro i hi
    cases hhint.symm.trans hi
  case found =>
    intro d i hf
    cases hfound.symm.trans hf
  case answers => exact fun ha' => (ha _ ha').2
  case checks => exact fun ht => absurd ht (hchecks _)
  case reused => exact fun ha' => absurd rfl ((ha _ ha').1 _ _ _)
  case late => exact fun ha' => hlate _ ha'
  case raced => exact fun ha' => hraced _ ha'

theorem quiet_miss (call : Call ι ℓ) : (World.miss call).writing = none ∧ (World.miss call).written = none ∧
    (World.miss call).past = false ∧ (World.miss call).hint = none ∧ (World.miss call).found = none ∧
    ∀ t, World.miss call ≠ .checks t := by
  unfold World.miss
  split <;> exact ⟨rfl, rfl, rfl, rfl, rfl, nofun⟩

theorem quiet_finish (hans : ∀ d len h, a ≠ .reused d len h) : (World.finish held a).writing = none ∧
    (World.finish held a).written = none ∧ (World.finish held a).past = false ∧ (World.finish held a).hint = none ∧
    (World.finish held a).found = none ∧ ∀ t, World.finish held a ≠ .checks t := by
  cases held with
  | some t => exact ⟨rfl, rfl, rfl, rfl, rfl, nofun⟩
  | none =>
    cases a with
    | reused d len h => exact absurd rfl (hans d len h)
    | _ => exact ⟨rfl, rfl, rfl, rfl, rfl, nofun⟩

theorem held_finish : (World.finish held a).held = held.toList := by
  cases held <;> rfl

theorem answer_finish : (World.finish held a).answer = some a := by
  cases held <;> rfl

theorem late_finish : (World.finish held a).late = none := by
  cases held <;> rfl

theorem late_miss (call : Call ι ℓ) : (World.miss call).late = none := by
  unfold World.miss
  split <;> rfl

/-- an answer says no more for a refusal more -/
theorem fair_refused {j : ι} {x r : Bool} (h : w.fair S j x r a) (r' : Bool) : w.fair S j x (r || r') a := by
  cases a with
  | failed e =>
    intro hx
    rcases h hx with hr | hr
    · exact .inl (by rw [hr, Bool.true_or])
    · exact .inr hr
  | _ => exact h

/-- what a step of a call is -/
def Moved (S : Setting ι ℓ) (w : World ι ℓ) (c : ℕ) (call : Call ι ℓ) (w₁ : World ι ℓ) : Prop :=
  ∃ w' pc refused, w₁ = w'.goTo c call pc refused ∧ Change S w w' c call pc ∧ Arrival S w w' c call pc refused

/-- the end of an extraction, with the answer there was -/
theorem Inv.finish (hS : S.Sound) (h : Inv S w) (hc : w.calls c = some call)
    (f : Change S w w' c call (World.finish held a)) (hheld : held.toList.Sublist call.pc.held) (ha : call.pc.answer = some a)
    (hnot : ∀ a, call.pc ≠ .done a) : Moved S w c call (w'.goTo c call (World.finish held a) refused) := by
  have hans : ∀ d len i, a ≠ .reused d len i := by
    rintro d len i rfl
    exact hnot _ (h.reused hc ha)
  refine ⟨_, _, _, rfl, f, .quiet hc h (held_finish ▸ hheld) (quiet_finish hans) ?_ ?_ ?_⟩
  · rw [late_finish]
    exact nofun
  · intro d hd
    cases answer_finish.symm.trans hd
    exact .inl ha
  · intro a' ha'
    cases answer_finish.symm.trans ha'
    exact ⟨hans, fair_refused (f.fair hS h (h.answers hc ha)) refused⟩

/-- a failure, with the extraction's file to be removed -/
theorem Inv.fails (h : Inv S w) (hc : w.calls c = some call) {e : Failure}
    (f : Change S w w' c call (.removes t (.failed e))) (hheld : [t].Sublist call.pc.held)
    (hwhy : (call.refused || refused) = true ∨ (S.job call.job).good = false) :
    Moved S w c call (w'.goTo c call (.removes t (.failed e)) refused) := by
  refine ⟨_, _, _, rfl, f, .quiet hc h hheld ⟨rfl, rfl, rfl, rfl, rfl, nofun⟩ nofun nofun ?_⟩
  rintro a ⟨rfl⟩
  refine ⟨nofun, fun _ => ?_⟩
  rcases hwhy with hr | hg
  · exact .inl hr
  · exact .inr (.inl hg)

/-- a failure, with nothing to be removed -/
theorem Inv.ends (h : Inv S w) (hc : w.calls c = some call) {e : Failure}
    (hwhy : call.extract = true → (call.refused || refused) = true) : Moved S w c call (w.goTo c call (.done (.failed e)) refused) := by
  refine ⟨_, _, _, rfl, Change.same h, .quiet hc h (List.nil_sublist _) ⟨rfl, rfl, rfl, rfl, rfl, nofun⟩ nofun nofun ?_⟩
  rintro a ⟨rfl⟩
  exact ⟨nofun, fun hx => .inl (hwhy hx)⟩

/-- nothing found -/
theorem Inv.miss (h : Inv S w) (hc : w.calls c = some call) :
    Moved S w c call (w.goTo c call (World.miss call) refused) := by
  have hheld : (World.miss call).held = [] := by
    unfold World.miss
    split <;> rfl
  have hans : ∀ a, (World.miss call).answer = some a → a = .missed := by
    intro a ha
    unfold World.miss at ha
    split at ha
    · cases ha
    · cases ha
      rfl
  refine ⟨_, _, _, rfl, Change.same h, .quiet hc h (hheld ▸ List.nil_sublist _) (quiet_miss call) ?_ ?_ ?_⟩
  · rw [late_miss]
    exact nofun
  · intro d hd
    cases hans _ hd
  · intro a ha
    cases hans a ha
    exact ⟨nofun, trivial⟩

/-- on with no file open, and no answer yet or the answer there was -/
theorem Inv.proceed (hS : S.Sound) (h : Inv S w) (hc : w.calls c = some call)
    (f : Change S w w' c call pc) (hheld : pc.held.Sublist call.pc.held)
    (hquiet : pc.writing = none ∧ pc.written = none ∧ pc.past = false ∧ pc.hint = none ∧ pc.found = none ∧ ∀ t, pc ≠ .checks t)
    (ha : ∀ a, pc.answer = some a → call.pc.answer = some a) (hlate : ∀ a, pc.late = some a → call.pc.late = some a)
    (hnot : ∀ a, call.pc ≠ .done a) : Moved S w c call (w'.goTo c call pc refused) := by
  refine ⟨_, _, _, rfl, f, .quiet hc h hheld hquiet (fun a hl => h.late hc (hlate a hl)) (fun d hd => .inl (ha _ hd)) ?_⟩
  intro a ha'
  refine ⟨?_, fair_refused (f.fair hS h (h.answers hc (ha a ha'))) refused⟩
  rintro d len i rfl
  exact hnot _ (h.reused hc (ha _ ha'))

/-- on with a file open, or written -/
theorem Inv.carry (hS : S.Sound) (h : Inv S w) (hc : w.calls c = some call)
    (f : Change S w w' c call pc) (hheld : pc.held = call.pc.held)
    (hwriting : ∀ {t i left x}, pc.writing = some (t, i, left, x) →
      w'.files.names (.temp t) = .file i ∧ w'.author i = some c ∧ w'.files.data i ++ left = text S call.job x)
    (hwritten : ∀ {t x}, pc.written = some (t, x) →
      ∃ i, w'.files.names (.temp t) = .file i ∧ w'.author i = some c ∧ w'.files.data i = text S call.job x)
    (hgood : pc.past = true → (S.job call.job).good = true) (hquiet : pc.hint = none ∧ pc.found = none)
    (ha : ∀ a, pc.answer = some a → call.pc.answer = some a) (hlate : ∀ a, pc.late = some a → call.pc.late = some a)
    (hnot : ∀ a, call.pc ≠ .done a) (hchecks : ∀ t, pc = .checks t → refused = true) : Moved S w c call (w'.goTo c call pc refused) := by
  refine ⟨_, _, _, rfl, f, ⟨fun t ht => .inl (hheld ▸ ht), hheld ▸ h.nodup hc, hwriting, hwritten, hgood, ?_, ?_, ?_,
    fun ht => hchecks _ ht, ?_, fun hl => h.late hc (hlate _ hl), fun hd => .inl (ha _ hd)⟩⟩
  · intro i hi
    cases hquiet.1.symm.trans hi
  · intro d i hf
    cases hquiet.2.symm.trans hf
  · intro a ha'
    exact fair_refused (f.fair hS h (h.answers hc (ha a ha'))) refused
  · intro d len i ha'
    exact absurd (h.reused hc (ha _ ha')) (hnot _)

/-- a temporary file created, or not; its name is new either way -/
theorem Inv.create [DecidableEq ℓ] (hS : S.Sound) (h : Inv S w) (hc : w.calls c = some call) (hlive : w.live call)
    (hcount : (w.procs call.proc).count < 2 ^ 64) (x fault : Bool) {otherwise : Pc ℓ} {pc : Ino (Path ℓ) → Pc ℓ}
    (hheld : ∀ i, (pc i).held = w.temp S call x :: call.pc.held) (hheld' : otherwise.held = w.temp S call x :: call.pc.held)
    (hwriting : ∀ i, (pc i).writing = some (w.temp S call x, i, text S call.job x, x))
    (hquiet : ∀ i, (pc i).written = none ∧ (pc i).past = false ∧ (pc i).hint = none ∧ (pc i).found = none ∧ ∀ t, pc i ≠ .checks t)
    (hquiet' : otherwise.writing = none ∧ otherwise.written = none ∧ otherwise.past = false ∧ otherwise.hint = none ∧
      otherwise.found = none ∧ ∀ t, otherwise ≠ .checks t)
    (ha : ∀ i a, (pc i).answer = some a → call.pc.answer = some a)
    (ha' : ∀ a, otherwise.answer = some a → call.pc.answer = some a ∨ ∃ e, a = .failed e)
    (hlate : ∀ i a, (pc i).late = some a → call.pc.late = some a) (hlate' : ∀ a, otherwise.late = some a → call.pc.late = some a)
    (hnot : ∀ a, call.pc ≠ .done a) :
    Moved S w c call (w.create c call (w.temp S call x) fault pc otherwise) := by
  have hnew : ∀ t, t ∈ w.temp S call x :: call.pc.held → t ∈ call.pc.held ∨ t.pid = (w.procs call.proc).pid ∧
      t.sequence = (w.procs call.proc).count ∧ (w.procs call.proc).count < ((w.counted call.proc).procs call.proc).count := by
    intro t ht
    rcases List.mem_cons.mp ht with rfl | ht
    · exact .inr ⟨rfl, Nat.mod_eq_of_lt hcount, by rw [counted_self]; exact Nat.lt_succ_self _⟩
    · exact .inl ht
  have hnodup : (w.temp S call x :: call.pc.held).Nodup := by
    refine List.nodup_cons.mpr ⟨?_, h.nodup hc⟩
    intro hm
    have := (h.held hc hlive hm).2
    change (w.procs call.proc).count % 2 ^ 64 < _ at this
    rw [Nat.mod_eq_of_lt hcount] at this
    exact lt_irrefl _ this
  have hfail : Moved S w c call ((w.counted call.proc).goTo c call otherwise true) := by
    have f : Change S w (w.counted call.proc) c call otherwise := Change.counted h
    obtain ⟨hw, hwr, hp, hh, hf, hch⟩ := hquiet'
    refine ⟨_, _, _, rfl, f, ⟨fun t ht => hnew t (hheld' ▸ ht), hheld' ▸ hnodup, ?_, ?_, ?_, ?_, ?_, ?_, ?_, ?_,
      fun hl => h.late hc (hlate' _ hl), ?_⟩⟩
    · intro t i left x hx
      cases hw.symm.trans hx
    · intro t x hx
      cases hwr.symm.trans hx
    · intro hx
      cases hp.symm.trans hx
    · intro i hx
      cases hh.symm.trans hx
    · intro d i hx
      cases hf.symm.trans hx
    · intro a hx
      rcases ha' a hx with hold | ⟨e, rfl⟩
      · exact fair_refused (f.fair hS h (h.answers hc hold)) true
      · exact fun _ => .inl (Bool.or_true _)
    · exact fun hx => absurd hx (hch _)
    · intro d len i hx
      rcases ha' _ hx with hold | ⟨e, he⟩
      · exact absurd (h.reused hc hold) (hnot _)
      · cases he
    · intro d hd
      rcases ha' _ hd with hold | ⟨e, he⟩
      · exact .inl hold
      · cases he
  unfold World.create
  cases fault with
  | true => exact hfail
  | false =>
    cases hcr : w.files.create (.temp (w.temp S call x)) with
    | none => exact hfail
    | some r =>
      obtain ⟨files, i⟩ := r
      obtain ⟨-, hname, hdata, -⟩ := Files.create_spec h.files hcr
      have f : Change S w { w.counted call.proc with files, author := Function.update w.author i (some c) } c call (pc i) :=
        Change.create h (by rw [hheld]; exact List.mem_cons_self) hcr
      obtain ⟨hwr, hp, hh, hf, hch⟩ := hquiet i
      refine ⟨_, _, _, rfl, f, ⟨fun t ht => hnew t (hheld i ▸ ht), hheld i ▸ hnodup, ?_, ?_, ?_, ?_, ?_, ?_, ?_, ?_,
        fun hl => h.late hc (hlate i _ hl), fun hd => .inl (ha i _ hd)⟩⟩
      · intro t j left y hx
        cases (hwriting i).symm.trans hx
        refine ⟨hname, Function.update_self .., ?_⟩
        change files.data i ++ _ = _
        rw [hdata, List.nil_append]
      · intro t y hx
        cases hwr.symm.trans hx
      · intro hx
        cases hp.symm.trans hx
      · intro j hx
        cases hh.symm.trans hx
      · intro d j hx
        cases hf.symm.trans hx
      · intro a hx
        exact fair_refused (f.fair hS h (h.answers hc (ha i a hx))) false
      · exact fun hx => absurd hx (hch _)
      · intro d len j hx
        exact absurd (h.reused hc (ha i _ hx)) (hnot _)

/-- `lookup`'s steps -/
theorem Inv.looks [DecidableEq ℓ] (hS : S.Sound) (h : Inv S w) (hc : w.calls c = some call) (fault : Bool)
    (n : ℕ) (hpc : call.pc = .opens ∨ (∃ i, call.pc = .reads i) ∨ ∃ i d, call.pc = .inspects i d) :
    Moved S w c call (w.advance S c call fault n) := by
  have hrefused : Moved S w c call (w.goTo c call (.done (.failed .io)) true) := h.ends hc fun _ => Bool.or_true _
  have hmiss : Moved S w c call (w.goTo c call (World.miss call) false) := h.miss hc
  unfold World.advance
  rcases hpc with hpc | ⟨i, hpc⟩ | ⟨i, d, hpc⟩
  · simp only [hpc]
    split
    · exact hrefused
    · cases hn : w.files.names (.index (S.key call.job)) with
      | absent => exact hmiss
      | dir => exact hrefused
      | file i =>
        refine ⟨_, _, _, rfl, Change.same h, ⟨nofun, List.nodup_nil, nofun, nofun, nofun, ?_, nofun, nofun, nofun, nofun,
          nofun, nofun⟩⟩
        rintro j ⟨rfl⟩
        exact .inr hn
  · simp only [hpc]
    split
    · exact hrefused
    · cases hr : readIndex (w.files.data i) with
      | none => exact hmiss
      | some d =>
        refine ⟨_, _, _, rfl, Change.same h, ⟨nofun, List.nodup_nil, nofun, nofun, nofun, ?_, ?_, nofun, nofun, nofun,
          nofun, nofun⟩⟩
        · rintro j ⟨rfl⟩
          exact .inl (by rw [hpc]; rfl)
        · rintro e j ⟨rfl, rfl⟩
          exact hr
  · simp only [hpc]
    split
    · exact hrefused
    · cases hn : w.files.names (S.libraryPath call.job d) with
      | absent => exact hmiss
      | dir => exact hmiss
      | file f =>
        simp only
        split
        · next hlen =>
          refine ⟨_, _, _, rfl, Change.same h, ⟨nofun, List.nodup_nil, nofun, nofun, nofun, ?_, ?_, ?_, nofun, ?_,
            nofun, nofun⟩⟩
          · rintro j ⟨rfl⟩
            exact .inl (by rw [hpc]; rfl)
          · rintro e j ⟨rfl, rfl⟩
            exact h.found hc (by rw [hpc]; rfl)
          · rintro a ⟨rfl⟩
            exact hlen
          · rintro e len j ⟨rfl, rfl, rfl⟩
            rfl
        · split
          · refine h.proceed hS hc (Change.same h) (List.nil_sublist _) ⟨rfl, rfl, rfl, rfl, rfl, nofun⟩ nofun nofun ?_
            rw [hpc]
            exact nofun
          · next hx => exact h.ends hc fun hx' => absurd hx' hx

/-- `write_temp`'s steps, from the file it has open on -/
theorem Inv.writes [DecidableEq ℓ] (hS : S.Sound) (h : Inv S w) (hc : w.calls c = some call) (hlive : w.live call) (fault : Bool)
    (n : ℕ) (hpc : (∃ left, call.pc = .writes t i left) ∨ call.pc = .syncs t i) : Moved S w c call (w.advance S c call fault n) := by
  unfold World.advance
  rcases hpc with ⟨left, hpc⟩ | hpc
  · have hheld : t ∈ call.pc.held := by
      rw [hpc]
      exact List.mem_cons_self
    have hnot : ∀ a, call.pc ≠ .done a := by
      rw [hpc]
      exact nofun
    obtain ⟨hname, hauthor, hdata⟩ := h.writing hc hlive (by rw [hpc]; rfl : call.pc.writing = some (t, i, left, false))
    simp only [hpc]
    split
    · exact h.fails hc (Change.same h) (by rw [hpc]; exact List.Sublist.refl _) (.inl (Bool.or_true _))
    · split
      · next hleft =>
        split
        · next hgood =>
          refine h.carry hS hc (Change.same h) (by rw [hpc]; rfl) ?_ nofun (fun _ => hgood) ⟨rfl, rfl⟩ nofun nofun hnot nofun
          rintro t' i' left' x ⟨rfl, rfl, rfl, rfl⟩
          exact ⟨hname, hauthor, hleft ▸ hdata⟩
        · next hgood =>
          exact h.fails hc (Change.same h) (by rw [hpc]; exact List.Sublist.refl _) (.inr (by simpa using hgood))
      · refine h.carry hS hc (Change.append h hheld hname _) (by rw [hpc]; rfl) ?_ nofun nofun ⟨rfl, rfl⟩ nofun nofun hnot nofun
        rintro t' i' left' x ⟨rfl, rfl, rfl, rfl⟩
        refine ⟨hname, hauthor, ?_⟩
        rw [Files.append_same, List.append_assoc, List.take_append_drop]
        exact hdata
  · obtain ⟨hname, hauthor, hdata⟩ := h.writing hc hlive (by rw [hpc]; rfl : call.pc.writing = some (t, i, [], false))
    simp only [hpc]
    split
    · exact h.fails hc (Change.same h) (by rw [hpc]; exact List.Sublist.refl _) (.inl (Bool.or_true _))
    · refine h.carry hS hc (Change.same h) (by rw [hpc]; rfl) nofun ?_ (fun _ => h.good hc (by rw [hpc]; rfl)) ⟨rfl, rfl⟩
        nofun nofun (by rw [hpc]; exact nofun) nofun
      rintro t' x ⟨rfl, rfl⟩
      exact ⟨i, hname, hauthor, (List.append_nil _).symm.trans hdata⟩

/-- `publish`'s steps -/
theorem Inv.publishes [DecidableEq ℓ] (hS : S.Sound) (h : Inv S w) (hc : w.calls c = some call) (hlive : w.live call)
    (fault : Bool) (n : ℕ) (hpc : call.pc = .makesLib t ∨ call.pc = .renames t ∨ call.pc = .checks t) :
    Moved S w c call (w.advance S c call fault n) := by
  have hheld : call.pc.held = [t] := by
    rcases hpc with hpc | hpc | hpc <;> rw [hpc] <;> rfl
  have hnot : ∀ a, call.pc ≠ .done a := by
    rcases hpc with hpc | hpc | hpc <;> rw [hpc] <;> exact nofun
  have hgood : (S.job call.job).good = true := by
    refine h.good hc ?_
    rcases hpc with hpc | hpc | hpc <;> rw [hpc] <;> rfl
  obtain ⟨i, hname, hauthor, hdata⟩ : ∃ i, w.files.names (.temp t) = .file i ∧ w.author i = some c ∧
      w.files.data i = text S call.job false := by
    refine h.written hc hlive ?_
    rcases hpc with hpc | hpc | hpc <;> rw [hpc] <;> rfl
  have hsub : [t].Sublist call.pc.held := hheld ▸ List.Sublist.refl _
  unfold World.advance
  rcases hpc with hpc | hpc | hpc
  · simp only [hpc]
    split
    · exact h.fails hc (Change.same h) hsub (.inl (Bool.or_true _))
    · refine h.carry hS hc (Change.same h) (by rw [hheld]; rfl) nofun ?_ (fun _ => hgood) ⟨rfl, rfl⟩ nofun nofun hnot nofun
      rintro t' x ⟨rfl, rfl⟩
      exact ⟨i, hname, hauthor, hdata⟩
  · have hfail : Moved S w c call (w.goTo c call (.checks t) true) := by
      refine h.carry hS hc (Change.same h) (by rw [hheld]; rfl) nofun ?_ (fun _ => hgood) ⟨rfl, rfl⟩ nofun nofun hnot
        fun _ _ => rfl
      rintro t' x ⟨rfl, rfl⟩
      exact ⟨i, hname, hauthor, hdata⟩
    simp only [hpc]
    unfold World.rename
    cases fault with
    | true => exact hfail
    | false =>
      cases hr : w.files.rename (.temp t) (S.libraryPath call.job (S.digest call.job)) with
      | none => exact hfail
      | some files =>
        have hpublish := Change.publish h (hheld ▸ List.mem_singleton.mpr rfl : t ∈ call.pc.held) hname hauthor hgood hdata hr
        obtain ⟨f, hplace, hbytes⟩ := hpublish (.makesIndex none (.extracted (S.digest call.job)))
        refine ⟨_, _, _, rfl, f, .quiet hc h (List.nil_sublist _) ⟨rfl, rfl, rfl, rfl, rfl, nofun⟩ ?_ nofun ?_⟩
        · rintro a ⟨rfl⟩
          exact ⟨_, .inl rfl⟩
        · rintro a ⟨rfl⟩
          exact ⟨nofun, rfl, hgood, i, hplace, hbytes⟩
  · have hrefused := h.checks hc hpc
    have hfail : ∀ r, Moved S w c call (w.goTo c call (.removes t (.failed .cachePublish)) r) := fun r =>
      h.fails hc (Change.same h) hsub (.inl (by rw [hrefused, Bool.true_or]))
    simp only [hpc]
    cases fault with
    | true => exact hfail true
    | false =>
      cases hn : w.files.names (S.libraryPath call.job (S.digest call.job)) with
      | absent => exact hfail false
      | dir => exact hfail false
      | file j =>
        simp only
        split
        · next hlen =>
          refine ⟨_, _, _, rfl, Change.same h, .quiet hc h hsub ⟨rfl, rfl, rfl, rfl, rfl, nofun⟩ ?_ ?_ ?_⟩
          · rintro a ⟨rfl⟩
            exact ⟨_, .inr rfl⟩
          · intro d _
            exact .inr ⟨t, j, hpc, hn, hlen⟩
          · rintro a ⟨rfl⟩
            exact ⟨nofun, trivial⟩
        · exact hfail false

/-- `write_index`'s steps, from the file it has open on -/
theorem Inv.writesHint [DecidableEq ℓ] (hS : S.Sound) (h : Inv S w) (hc : w.calls c = some call) (hlive : w.live call)
    (fault : Bool) (n : ℕ) (hpc : (∃ i left, call.pc = .writesIndex held a t i left) ∨ (∃ i, call.pc = .syncsIndex held a t i) ∨
      call.pc = .renamesIndex held a t) : Moved S w c call (w.advance S c call fault n) := by
  have hheld : call.pc.held = t :: held.toList := by
    rcases hpc with ⟨i, left, hpc⟩ | ⟨i, hpc⟩ | hpc <;> rw [hpc] <;> rfl
  have hnot : ∀ a, call.pc ≠ .done a := by
    rcases hpc with ⟨i, left, hpc⟩ | ⟨i, hpc⟩ | hpc <;> rw [hpc] <;> exact nofun
  have hans : call.pc.answer = some a := by
    rcases hpc with ⟨i, left, hpc⟩ | ⟨i, hpc⟩ | hpc <;> rw [hpc] <;> rfl
  have hkeep : ∀ a', some a = some a' → call.pc.answer = some a' := fun a' ha => hans.trans ha
  have hlate : ∀ a', some a = some a' → call.pc.late = some a' := by
    rcases hpc with ⟨i, left, hpc⟩ | ⟨i, hpc⟩ | hpc <;> rw [hpc] <;> exact fun _ ha => ha
  have hremove : Moved S w c call (w.goTo c call (.removesIndex held a t) true) :=
    h.proceed hS hc (Change.same h) (by rw [hheld]; exact List.Sublist.refl _) ⟨rfl, rfl, rfl, rfl, rfl, nofun⟩ hkeep
      hlate hnot
  unfold World.advance
  rcases hpc with ⟨i, left, hpc⟩ | ⟨i, hpc⟩ | hpc
  · obtain ⟨hname, hauthor, hdata⟩ := h.writing hc hlive (by rw [hpc]; rfl : call.pc.writing = some (t, i, left, true))
    simp only [hpc]
    split
    · exact hremove
    · split
      · next hleft =>
        refine h.carry hS hc (Change.same h) (by rw [hheld]; rfl) ?_ nofun nofun ⟨rfl, rfl⟩ hkeep hlate hnot nofun
        rintro t' i' left' x ⟨rfl, rfl, rfl, rfl⟩
        exact ⟨hname, hauthor, hleft ▸ hdata⟩
      · refine h.carry hS hc (Change.append h (hheld ▸ List.mem_cons_self) hname _) (by rw [hheld]; rfl) ?_ nofun nofun
          ⟨rfl, rfl⟩ hkeep hlate hnot nofun
        rintro t' i' left' x ⟨rfl, rfl, rfl, rfl⟩
        refine ⟨hname, hauthor, ?_⟩
        rw [Files.append_same, List.append_assoc, List.take_append_drop]
        exact hdata
  · obtain ⟨hname, hauthor, hdata⟩ := h.writing hc hlive (by rw [hpc]; rfl : call.pc.writing = some (t, i, [], true))
    simp only [hpc]
    split
    · exact hremove
    · refine h.carry hS hc (Change.same h) (by rw [hheld]; rfl) nofun ?_ nofun ⟨rfl, rfl⟩ hkeep hlate hnot nofun
      rintro t' x ⟨rfl, rfl⟩
      exact ⟨i, hname, hauthor, (List.append_nil _).symm.trans hdata⟩
  · obtain ⟨i, hname, hauthor, hdata⟩ := h.written hc hlive (by rw [hpc]; rfl : call.pc.written = some (t, true))
    simp only [hpc]
    unfold World.rename
    cases fault with
    | true => exact hremove
    | false =>
      cases hr : w.files.rename (.temp t) (.index (S.key call.job)) with
      | none => exact hremove
      | some files =>
        exact h.finish hS hc (Change.hint h (hheld ▸ List.mem_cons_self) hname hauthor hdata hpc hr)
          (hheld ▸ List.sublist_cons_self ..) hans hnot

/-- what a step of a call can be -/
theorem Inv.advance [DecidableEq ℓ] (hS : S.Sound) (h : Inv S w) (hc : w.calls c = some call) (hlive : w.live call)
    (hcount : (w.procs call.proc).count < 2 ^ 64) (hnot : ∀ a, call.pc ≠ .done a) (fault : Bool) (n : ℕ) :
    Moved S w c call (w.advance S c call fault n) := by
  cases hpc : call.pc with
  | opens => exact h.looks hS hc fault n (.inl hpc)
  | reads i => exact h.looks hS hc fault n (.inr (.inl ⟨i, hpc⟩))
  | inspects i d => exact h.looks hS hc fault n (.inr (.inr ⟨i, d, hpc⟩))
  | makesTmp =>
    simp only [World.advance, hpc]
    split
    · exact h.ends hc fun _ => Bool.or_true _
    · exact h.proceed hS hc (Change.same h) (List.nil_sublist _) ⟨rfl, rfl, rfl, rfl, rfl, nofun⟩ nofun nofun hnot
  | creates =>
    simp only [World.advance, hpc]
    refine h.create hS hc hlive hcount false fault (fun i => ?_) ?_ (fun i => rfl) (fun i => ⟨rfl, rfl, rfl, rfl, nofun⟩)
      ⟨rfl, rfl, rfl, rfl, rfl, nofun⟩ (fun i => nofun) ?_ (fun i => nofun) nofun hnot
    · rw [hpc]
      rfl
    · rw [hpc]
      rfl
    · rintro a ⟨rfl⟩
      exact .inr ⟨_, rfl⟩
  | writes t i left => exact h.writes hS hc hlive fault n (.inl ⟨left, hpc⟩)
  | syncs t i => exact h.writes hS hc hlive fault n (.inr hpc)
  | makesLib t => exact h.publishes hS hc hlive fault n (.inl hpc)
  | renames t => exact h.publishes hS hc hlive fault n (.inr (.inl hpc))
  | checks t => exact h.publishes hS hc hlive fault n (.inr (.inr hpc))
  | makesIndex held a =>
    simp only [World.advance, hpc]
    split
    · exact h.finish hS hc (Change.same h) (by rw [hpc]; exact List.Sublist.refl _) (by rw [hpc]; rfl) hnot
    · exact h.proceed hS hc (Change.same h) (by rw [hpc]; exact List.Sublist.refl _) ⟨rfl, rfl, rfl, rfl, rfl, nofun⟩
        (by rw [hpc]; exact fun _ ha => ha) (by rw [hpc]; exact fun _ ha => ha) hnot
  | makesIndexTmp held a =>
    simp only [World.advance, hpc]
    split
    · exact h.finish hS hc (Change.same h) (by rw [hpc]; exact List.Sublist.refl _) (by rw [hpc]; rfl) hnot
    · exact h.proceed hS hc (Change.same h) (by rw [hpc]; exact List.Sublist.refl _) ⟨rfl, rfl, rfl, rfl, rfl, nofun⟩
        (by rw [hpc]; exact fun _ ha => ha) (by rw [hpc]; exact fun _ ha => ha) hnot
  | createsIndex held a =>
    simp only [World.advance, hpc]
    refine h.create hS hc hlive hcount true fault (fun i => ?_) ?_ (fun i => rfl) (fun i => ⟨rfl, rfl, rfl, rfl, nofun⟩)
      ⟨rfl, rfl, rfl, rfl, rfl, nofun⟩ (fun i => ?_) ?_ (fun i => ?_) ?_ hnot
    · rw [hpc]
      rfl
    · rw [hpc]
      rfl
    · rw [hpc]
      exact fun _ ha => ha
    · rw [hpc]
      exact fun _ ha => .inl ha
    · rw [hpc]
      exact fun _ ha => ha
    · rw [hpc]
      exact fun _ ha => ha
  | writesIndex held a t i left => exact h.writesHint hS hc hlive fault n (.inl ⟨i, left, hpc⟩)
  | syncsIndex held a t i => exact h.writesHint hS hc hlive fault n (.inr (.inl ⟨i, hpc⟩))
  | renamesIndex held a t => exact h.writesHint hS hc hlive fault n (.inr (.inr hpc))
  | removesIndex held a t =>
    simp only [World.advance, hpc]
    exact h.finish hS hc (Change.remove h (by rw [hpc]; exact List.mem_cons_self) fault)
      (by rw [hpc]; exact List.sublist_cons_self ..) (by rw [hpc]; rfl) hnot
  | removes t a =>
    have hend : Moved S w c call ((if fault then w else { w with files := w.files.remove (.temp t) }).goTo c call (World.finish none a) fault) :=
      h.finish hS hc (Change.remove h (by rw [hpc]; exact List.mem_cons_self) fault) (List.nil_sublist _) (by rw [hpc]; rfl) hnot
    simp only [World.advance, hpc]
    exact hend
  | done a => exact absurd hpc (hnot a)

end Steps

end Omnidroid.Apk
