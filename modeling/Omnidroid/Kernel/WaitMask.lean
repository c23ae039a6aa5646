/-
The signal mask over the waits (`omni-linux/src/poll.rs`): what comes between the temporary mask and its end leaves the task
alone, so a wait that gets to its end has the old mask back, or saved for the signal that ended it.
- `Still`: a part of a call that leaves the task as it is, and whether it can end the call early.
- `finish_survives`: the end of a call gives the old mask back.
- `epollPwait_survives`, `pselect6_survives`: every such call.
- `ppoll_survives_iff`: `ppoll` reads its array again at each look, and an error there ends the call under the temporary mask.
-/
import Omnidroid.Kernel.Waits
import Omnidroid.Lib.Answers

namespace Omnidroid.Waits

variable {σ File α β : Type} (m : Machine σ File)

/-- how a call that was begun under a mask may end without an answer -/
def Ended (task : Task) : Halt → State σ → Prop
  | .errno e, s =>
    if e = EINTR then s.installed = true → s.task.savedSigmask = some task.sigmask else s.task.sigmask = task.sigmask
  | .looking, _ => True

/-- a call that returns gives the mask back, unless a signal ended it: then it is saved, if a temporary one was in place -/
def Survives (call : Call σ UInt64) (task : Task) (world : σ) : Prop :=
  Ensures call { task := task, world := world } (fun _ s => s.task.sigmask = task.sigmask) (Ended task)

/-! ## What leaves the task alone -/

def Same (s s' : State σ) : Prop := s'.task = s.task ∧ s'.installed = s.installed

/-- it leaves the task as it is, and ends the call early with such errors only -/
def Still (p : Errno → Prop) (x : Call σ α) : Prop :=
  ∀ s, Ensures x s (fun _ s' => Same s s') fun e s' => Same s s' ∧ ∀ err, e = .errno err → p err

namespace Still

variable {p : Errno → Prop} {x : Call σ α} {f : α → Call σ β}

theorem pure (a : α) : Still p (Pure.pure a : Call σ α) := fun _ => .pure ⟨rfl, rfl⟩

theorem bind (hx : Still p x) (hf : ∀ a, Still p (f a)) : Still p (x >>= f) := by
  intro s
  refine .bind ((hx s).post fun a s₁ h₁ => ?_)
  exact (hf a s₁).mono (fun _ s' h => ⟨h.1.trans h₁.1, h.2.trans h₁.2⟩)
    fun _ s' h => ⟨⟨h.1.1.trans h₁.1, h.1.2.trans h₁.2⟩, h.2⟩

theorem ask (g : σ → α × σ) : Still p (ask g) := by
  intro s
  constructor
  · intro a s' h
    cases h
    exact ⟨rfl, rfl⟩
  · intro err s' h
    cases h

theorem tell (g : σ → σ) : Still p (tell g) := by
  intro s
  constructor
  · intro a s' h
    cases h
    exact ⟨rfl, rfl⟩
  · intro err s' h
    cases h

theorem task : Still p (get : Call σ (State σ)) := fun _ => .get ⟨rfl, rfl⟩

theorem early {err : Errno} (h : p err) : Still p (early err : Call σ α) := fun _ =>
  .throw ⟨⟨rfl, rfl⟩, fun err' he => by cases he; exact h⟩

theorem looking : Still p (throw .looking : Call σ α) := fun _ => .throw ⟨⟨rfl, rfl⟩, fun err he => by cases he⟩

theorem ite {c : Prop} [Decidable c] {y z : Call σ α} (hy : Still p y) (hz : Still p z) : Still p (if c then y else z) := by
  split_ifs
  · exact hy
  · exact hz

theorem foldlM {γ : Type} {g : β → γ → Call σ β} (hg : ∀ b c, Still p (g b c)) (l : List γ) (b : β) :
    Still p (l.foldlM g b) := by
  induction l generalizing b with
  | nil => exact pure b
  | cons c l ih =>
    rw [List.foldlM_cons]
    exact bind (hg b c) fun b' => ih b'

theorem turns {W : Type} {look : W → Call σ (Turn W)} (hlook : ∀ w, Still p (look w)) (n : ℕ) (w : W) :
    Still p (turns look n w) := by
  induction n generalizing w with
  | zero => exact looking
  | succ n ih =>
    refine bind (hlook w) fun turn => ?_
    cases turn with
    | done result => exact pure result
    | again w' => exact ih w'

end Still

/-! ## The parts of the calls -/

section Parts

variable {p : Errno → Prop}

theorem readMem_still (hp : ∀ err : MemError, p err.errno) (at_ : UInt64) (len : ℕ) : Still p (readMem m at_ len) :=
  .bind (.ask _) fun answer => by
    cases answer with
    | ok bytes => exact .pure bytes
    | error err => exact .early (hp err)

theorem readU64_still (at_ : UInt64) : Still (fun _ => True) (readU64 m at_) :=
  .bind (readMem_still m (fun _ => trivial) at_ 8) fun _ => .pure _

theorem writeMem_still (at_ : UInt64) (bytes : Bytes) : Still p (writeMem m at_ bytes) :=
  .bind (.ask _) fun answer => by
    cases answer with
    | ok u => exact .pure _
    | error err => exact .pure _

theorem readDeadline_still (at_ : UInt64) : Still (fun _ => True) (readDeadline m at_) :=
  .ite (.pure _) (.bind (.ask _) fun _ => .bind
    (.bind (readMem_still m (fun _ => trivial) at_ 16) fun _ => .ite (.early trivial) (.pure _)) fun _ => .pure _)

theorem wait_still (keys : Keys) (deadline : Option ℕ) : Still p (wait m keys deadline) :=
  .bind (.ask _) fun _ => .bind .task fun _ => .bind (.ask _) fun _ =>
    .ite (.pure _) (.bind (.ask _) fun _ => .bind (.ask _) fun _ => .bind (.tell _) fun _ => .pure _)

theorem keysOf_still (files : List File) (keys : List ℕ) : Still p (keysOf m files keys) := by
  induction files generalizing keys with
  | nil => exact .pure _
  | cons f files ih =>
    refine .bind (.ask _) fun key => ?_
    cases key with
    | none => exact .pure _
    | some k => exact ih _

theorem sleepOrWatch_still (watching : Option Keys) (wake : Option ℕ) {keys : Call σ Keys} (hkeys : Still p keys) :
    Still p (sleepOrWatch m watching wake keys) := by
  cases watching with
  | none => exact .bind hkeys fun _ => .bind (.tell _) fun _ => .pure _
  | some k =>
    refine .bind (wait_still m k wake) fun waited => ?_
    cases waited with
    | ok u => exact .pure _
    | error err => exact .pure _

theorem retain_still (entries : List (ℤ × Interest File)) : Still p (retain m entries) := by
  induction entries with
  | nil => exact .pure _
  | cons x entries ih => exact .bind (.ask _) fun _ => .bind ih fun _ => .pure _

theorem openFiles_still (entries : List (ℤ × Interest File)) : Still p (openFiles m entries) := by
  induction entries with
  | nil => exact .pure _
  | cons x entries ih => exact .bind (.ask _) fun _ => .bind ih fun _ => .pure _

theorem stillNamed_still [DecidableEq File] (fd : ℤ) (file : File) : Still p (stillNamed m fd file) := by
  refine .bind (.ask _) fun alive => .ite (.bind (.ask _) fun answer => ?_) (.pure _)
  cases answer with
  | ok f => exact .pure _
  | error err => exact .pure _

theorem lookEdge_still (x : Interest File) (ready wanted : UInt32) : Still p (lookEdge m x ready wanted) :=
  .bind (.ask _) fun _ => .ite (.bind (.ask _) fun _ => .pure _) (.pure _)

theorem judge_still (now max : ℕ) (found : Found) (x : Interest File) : Still p (judge m now max found x) :=
  .bind (.ask _) fun _ => .bind (lookEdge_still m x _ _) fun _ => .ite (.pure _) (.pure _)

theorem scan_still [DecidableEq File] (now max : ℕ) (entries : List (ℤ × Interest File)) (found : Found) :
    Still p (scan m now max entries found) := by
  induction entries generalizing found with
  | nil => exact .pure _
  | cons x entries ih =>
    refine .bind (.bind (stillNamed_still m x.1 x.2.file) fun stands => ?_) fun _ => .bind (ih _) fun _ => .pure _
    exact .ite (judge_still m now max found x.2) (.pure _)

theorem epollLook_still [DecidableEq File] (ep : File) (events : UInt64) (max : ℕ) (deadline : Option ℕ) (watching : Option Keys) :
    Still p (epollLook m ep events max deadline watching) := by
  refine .bind (.ask _) fun now => .bind (.ask _) fun entries => .bind (retain_still m entries) fun kept =>
    .bind (scan_still m now max kept _) fun scanned => .bind (.tell _) fun _ => ?_
  refine .ite (.bind (writeMem_still m _ _) fun _ => .pure _) (.ite (.pure _) ?_)
  exact sleepOrWatch_still m watching _ (.bind (.ask _) fun _ => .bind (openFiles_still m _) fun _ =>
    .bind (keysOf_still m _ _) fun _ => .bind (.ask _) fun _ => .pure _)

theorem reventsOf_still (now : ℕ) (fd : ℤ) (events : UInt32) : Still p (reventsOf m now fd events) := by
  refine .ite (.pure _) (.bind (.ask _) fun answer => ?_)
  cases answer with
  | ok f => exact .bind (.ask _) fun _ => .pure _
  | error err => exact .pure _

theorem pollFiles_still (raw : Bytes) (is : List ℕ) : Still p (pollFiles m raw is) := by
  induction is with
  | nil => exact .pure _
  | cons i is ih =>
    refine .bind (.ask _) fun answer => .bind ih fun _ => ?_
    cases answer with
    | ok f => exact .pure _
    | error err => exact .pure _

theorem ppollTurn_still (at_ : UInt64) (n : ℕ) (timed : Bool) (deadline : Option ℕ) (watching : Option Keys) (raw : Bytes) :
    Still p (ppollTurn m at_ n timed deadline watching raw) := by
  refine .bind (.ask _) fun now => .bind (.foldlM (fun p i => .bind (reventsOf_still m now _ _) fun _ => .pure _) _ _)
    fun polled => .ite (.bind (writeMem_still m _ _) fun _ => .pure _) ?_
  exact sleepOrWatch_still m watching _ (.bind (pollFiles_still m _ _) fun _ => keysOf_still m _ _)

theorem selectScan_still (now : ℕ) (reads writes excepts : Option Bytes) (fds : List ℕ) (s : Selected) :
    Still p (selectScan m now reads writes excepts fds s) := by
  induction fds generalizing s with
  | nil => exact .pure _
  | cons fd fds ih =>
    refine .ite (ih s) (.bind (.ask _) fun answer => ?_)
    cases answer with
    | ok f => exact .bind (.ask _) fun _ => ih _
    | error err => exact .pure _

theorem writeAll_still (l : List (UInt64 × Bytes)) : Still p (writeAll m l) := by
  induction l with
  | nil => exact .pure _
  | cons x l ih =>
    refine .ite ih (.bind (writeMem_still m _ _) fun written => ?_)
    cases written with
    | ok u => exact ih
    | error err => exact .pure _

theorem writeLeft_still (at_ : UInt64) (deadline : Option ℕ) : Still p (writeLeft m at_ deadline) := by
  cases deadline with
  | none => exact .pure _
  | some d =>
    refine .bind (.ask _) fun now => .bind (writeMem_still m _ _) fun written => ?_
    cases written with
    | ok u => exact writeMem_still m _ _
    | error err => exact .pure _

theorem waitForChange_still (seen : ℕ) (deadline : Option ℕ) : Still p (waitForChange m seen deadline) :=
  .bind (.tell _) fun _ => .bind (.ask _) fun _ => .ite (.pure _) (wait_still m none deadline)

theorem pselectLook_still (a : Fin 6 → UInt64) (n bytes : ℕ) (reads writes excepts : Option Bytes) (deadline : Option ℕ)
    (u : Unit) : Still p (pselectLook m a n bytes reads writes excepts deadline u) := by
  refine .bind (.ask _) fun seen => .bind (.ask _) fun now => .bind (selectScan_still m now _ _ _ _ _) fun selected => ?_
  cases selected with
  | none => exact .pure _
  | some s =>
    refine .ite (.bind (writeAll_still m _) fun written => ?_) (.bind (waitForChange_still m _ _) fun waited => ?_)
    · cases written with
      | ok u => exact .bind (writeLeft_still m _ _) fun _ => .pure _
      | error err => exact .pure _
    · cases waited with
      | ok u => exact .pure _
      | error err => exact .pure _

theorem readSet_still (at_ : UInt64) (bytes : ℕ) : Still (fun _ => True) (readSet m at_ bytes) := by
  refine .ite (.pure _) ?_
  exact .bind (readMem_still m (fun _ => trivial) at_ bytes) fun _ => .pure _

theorem epollOf_still (fd : UInt64) : Still (fun _ => True) (epollOf m fd) := by
  refine .bind (.ask _) fun answer => ?_
  cases answer with
  | error err => exact .early trivial
  | ok f => exact .bind (.ask _) fun _ => .ite (.pure _) (.early trivial)

end Parts

/-! ## The mask, from the start of a call to its end -/

/-- what a call has to put back, and that a temporary mask is in place where it has something -/
def Armed (task : Task) (restore : Option UInt64) (s : State σ) : Prop :=
  (restore = none ∧ s.task = task ∧ s.installed = false) ∨ (restore = some task.sigmask ∧ s.installed = true)

theorem Armed.same {task : Task} {restore : Option UInt64} {s s' : State σ} (h : Armed task restore s) (hs : Same s s') :
    Armed task restore s' := by
  unfold Armed
  rw [hs.1, hs.2]
  exact h

section Ends

variable {task : Task} {s : State σ} {Q : β → State σ → Prop}

theorem ended_of_same {e : Halt} (ht : s.task = task) (hi : s.installed = false) : Ended task e s := by
  cases e with
  | looking => trivial
  | errno e =>
    simp only [Ended]
    split_ifs
    · simp [hi]
    · rw [ht]

/-- a part of a call before any mask is in place -/
theorem before_bind {x : Call σ α} {f : α → Call σ β} (hx : Still (fun _ => True) x) (ht : s.task = task) (hi : s.installed = false)
    (hf : ∀ a s', s'.task = task → s'.installed = false → Ensures (f a) s' Q (Ended task)) :
    Ensures (x >>= f) s Q (Ended task) := by
  refine .bind ((hx s).mono (fun a s' h => ?_) fun e s' h => ?_)
  · exact hf a s' (h.1.trans ht) (h.2.trans hi)
  · exact ended_of_same (h.1.1.trans ht) (h.1.2.trans hi)

theorem temporaryMask_armed (at_ size : UInt64) (ht : s.task = task) (hi : s.installed = false) :
    Ensures (temporaryMask m at_ size) s (Armed task) fun _ s' => s'.task = task ∧ s'.installed = false := by
  unfold temporaryMask
  split_ifs
  · exact .pure (.inl ⟨rfl, ht, hi⟩)
  · exact .throw ⟨ht, hi⟩
  · refine .bind (.get (.bind ((readU64_still m at_ s).mono (fun mask s' h => ?_) fun e s' h => ?_)))
    · refine .bind (.modifies (.pure (.inr ⟨?_, rfl⟩)))
      rw [ht]
    · exact ⟨h.1.1.trans ht, h.1.2.trans hi⟩

/-- the end of a call gives the old mask back, or saves it -/
theorem finish_survives {restore : Option UInt64} (h : Armed task restore s) (result : Except Errno UInt64) :
    Ensures (finish restore result) s (fun _ s' => s'.task.sigmask = task.sigmask) (Ended task) := by
  obtain ⟨rfl, ht, hi⟩ | ⟨rfl, hi⟩ := h
  · cases result with
    | ok n => exact .pure (by rw [ht])
    | error e => exact .throw (ended_of_same ht hi)
  · by_cases hintr : result = .error EINTR
    · subst hintr
      refine .bind ?_
      rw [restoreMask, if_pos rfl]
      exact .modifies (.throw fun _ => rfl)
    · refine .bind ?_
      rw [restoreMask, if_neg hintr]
      refine .modifies ?_
      cases result with
      | ok n => exact .pure rfl
      | error e =>
        refine .throw ?_
        have hne : e ≠ EINTR := fun h => hintr (by rw [h])
        rw [Ended, if_neg hne]

/-- looks that cannot end the call, and its end -/
theorem looks_survive {W : Type} {look : W → Call σ (Turn W)} (hlook : ∀ w, Still (fun _ => False) (look w)) (n : ℕ) (w : W)
    {restore : Option UInt64} (h : Armed task restore s) :
    Ensures (turns look n w >>= finish restore) s (fun _ s' => s'.task.sigmask = task.sigmask) (Ended task) := by
  refine .bind ((Still.turns hlook n w s).mono (fun result s' hs => finish_survives (h.same hs) result) fun e s' he => ?_)
  cases e with
  | looking => trivial
  | errno e => exact (he.2 e rfl).elim

end Ends

theorem epollPwait_survives [DecidableEq File] (fuel : ℕ) (a : Fin 6 → UInt64) (task : Task) (world : σ) :
    Survives (sysEpollPwait m fuel a) task world := by
  unfold Survives sysEpollPwait
  refine before_bind (epollOf_still m _) rfl rfl fun ep s ht hi => ?_
  dsimp only
  split
  · exact .throw (ended_of_same ht hi)
  · refine before_bind (.ask _) ht hi fun now s' ht hi => ?_
    refine .bind ((temporaryMask_armed m _ _ ht hi).mono (fun restore s'' h => ?_) fun e s'' h => ended_of_same h.1 h.2)
    exact looks_survive (fun w => epollLook_still m ep _ _ _ w) fuel none h

theorem pselect6_survives (fuel : ℕ) (a : Fin 6 → UInt64) (task : Task) (world : σ) :
    Survives (sysPselect6 m fuel a) task world := by
  unfold Survives sysPselect6
  dsimp only
  split_ifs
  · exact .throw (ended_of_same rfl rfl)
  · refine before_bind (readSet_still m _ _) rfl rfl fun reads s ht hi => ?_
    refine before_bind (readSet_still m _ _) ht hi fun writes s ht hi => ?_
    refine before_bind (readSet_still m _ _) ht hi fun excepts s ht hi => ?_
    refine before_bind (readDeadline_still m _) ht hi fun deadline s ht hi => ?_
    have hmask : Ensures (selectMask m (a 5)) s (Armed task) fun _ s' => s'.task = task ∧ s'.installed = false := by
      unfold selectMask
      split_ifs
      · exact .pure (.inl ⟨rfl, ht, hi⟩)
      · refine .bind ((readU64_still m _ s).mono (fun mask s₁ h₁ => ?_) fun e s₁ h₁ => ?_)
        swap
        · exact ⟨h₁.1.1.trans ht, h₁.1.2.trans hi⟩
        refine .bind ((readU64_still m _ s₁).mono (fun size s₂ h₂ => ?_) fun e s₂ h₂ => ?_)
        · exact temporaryMask_armed m mask size (h₂.1.trans (h₁.1.trans ht)) (h₂.2.trans (h₁.2.trans hi))
        · exact ⟨h₂.1.1.trans (h₁.1.trans ht), h₂.1.2.trans (h₁.2.trans hi)⟩
    refine .bind (hmask.mono (fun restore s'' h => ?_) fun e s'' h => ended_of_same h.1 h.2)
    exact looks_survive (fun w => pselectLook_still m a _ _ _ _ _ _ w) fuel () h

/-! ## `ppoll` -/

section Ppoll

variable {W : Type} {look : W → Call σ (Turn W)}

/-- a look after which there is another -/
def Again (look : W → Call σ (Turn W)) (x y : W × State σ) : Prop := look x.1 x.2 = .ok (.again y.1) y.2

theorem same_again (hlook : ∀ w, Still (fun _ => True) (look w)) {x y : W × State σ}
    (h : Relation.ReflTransGen (Again look) x y) : Same x.2 y.2 := by
  induction h with
  | refl => exact ⟨rfl, rfl⟩
  | tail _ hstep ih =>
    have hsame := (hlook _ _).ok _ _ hstep
    exact ⟨hsame.1.trans ih.1, hsame.2.trans ih.2⟩

/-- with looks enough, a call comes to each look there is -/
theorem turns_again {x y : W × State σ} (h : Relation.ReflTransGen (Again look) x y) :
    ∃ k, ∀ n, turns look (n + k) x.1 x.2 = turns look n y.1 y.2 := by
  induction h using Relation.ReflTransGen.head_induction_on with
  | refl => exact ⟨0, fun _ => rfl⟩
  | head hstep _ ih =>
    obtain ⟨k, hk⟩ := ih
    refine ⟨k + 1, fun n => ?_⟩
    rw [← add_assoc, turns]
    exact (bind_of_ok hstep _).trans (hk n)

/-- the array can be read at each look under a temporary mask that is not the old one -/
def ArrayRead (a : Fin 6 → UInt64) (task : Task) (world : σ) : Prop :=
  ∀ deadline old s, ppollStart m a { task := task, world := world } = .ok (deadline, some old) s →
    s.task.sigmask ≠ task.sigmask →
    ∀ x, Relation.ReflTransGen (Again (ppollLook m (a 0) (a 1).toNat (a 2 ≠ 0) deadline)) (none, s) x →
      ∃ bytes, (m.read (a 0) ((a 1).toNat * 8) x.2.world).1 = .ok bytes

theorem memError_ne (err : MemError) : err.errno ≠ EINTR := by
  cases err <;> decide

theorem ppollLook_still (at_ : UInt64) (n : ℕ) (timed : Bool) (deadline : Option ℕ) (watching : Option Keys) :
    Still (· ≠ EINTR) (ppollLook m at_ n timed deadline watching) :=
  .bind (readMem_still m memError_ne at_ (n * 8)) fun raw => ppollTurn_still m at_ n timed deadline watching raw

theorem ppollStart_armed (a : Fin 6 → UInt64) (task : Task) (world : σ) :
    Ensures (ppollStart m a) { task := task, world := world } (fun r s => Armed task r.2 s) (Ended task) := by
  unfold ppollStart
  split_ifs
  · exact .throw (ended_of_same rfl rfl)
  · refine before_bind (readDeadline_still m _) rfl rfl fun deadline s ht hi => ?_
    refine .bind ((temporaryMask_armed m _ _ ht hi).mono (fun restore s' h => ?_) fun e s' h => ended_of_same h.1 h.2)
    exact .pure h

/-- a look whose read fails ends the call there -/
theorem ppollLook_fails {at_ : UInt64} {n : ℕ} {timed : Bool} {deadline : Option ℕ} {watching : Option Keys} {s : State σ}
    {err : MemError} (h : (m.read at_ (n * 8) s.world).1 = .error err) :
    ppollLook m at_ n timed deadline watching s =
      .error (.errno err.errno) { s with world := (m.read at_ (n * 8) s.world).2 } := by
  simp only [ppollLook, readMem, ask, early, bind, EStateM.bind, h]
  rfl

/-- looks at an array that can be read do not end the call -/
theorem ppollLooks_read {at_ : UInt64} {n : ℕ} {timed : Bool} {deadline : Option ℕ} (fuel : ℕ) (watching : Option Keys)
    (s : State σ) (hread : ∀ x, Relation.ReflTransGen (Again (ppollLook m at_ n timed deadline)) (watching, s) x →
      ∃ bytes, (m.read at_ (n * 8) x.2.world).1 = .ok bytes) :
    Ensures (turns (ppollLook m at_ n timed deadline) fuel watching) s (fun _ s' => Same s s') fun e _ => e = .looking := by
  induction fuel generalizing watching s with
  | zero => exact .throw rfl
  | succ fuel ih =>
    obtain ⟨bytes, hbytes⟩ := hread (watching, s) .refl
    have hlook : ppollLook m at_ n timed deadline watching s =
        ppollTurn m at_ n timed deadline watching bytes { s with world := (m.read at_ (n * 8) s.world).2 } := by
      simp only [ppollLook, readMem, ask, bind, EStateM.bind, hbytes]
      rfl
    have hstill := ppollTurn_still m (p := fun _ => False) at_ n timed deadline watching bytes
      { s with world := (m.read at_ (n * 8) s.world).2 }
    rw [turns]
    refine .bind ⟨fun turn s' h => ?_, fun e s' h => ?_⟩
    · have hsame : Same s s' := hstill.ok turn s' (hlook ▸ h)
      cases turn with
      | done result => exact .pure hsame
      | again w =>
        refine (ih w s' fun x hx => hread x (.head (show Again _ (watching, s) (w, s') from h) hx)).post fun _ s'' hs => ?_
        exact ⟨hs.1.trans hsame.1, hs.2.trans hsame.2⟩
    · have herr := (hstill.error e s' (hlook ▸ h)).2
      cases e with
      | looking => rfl
      | errno e => exact (herr e rfl).elim

/-- every `ppoll` gives the mask back exactly where its array can be read at each look under another mask -/
theorem ppoll_survives_iff (a : Fin 6 → UInt64) (task : Task) (world : σ) :
    (∀ fuel, Survives (sysPpoll m fuel a) task world) ↔ ArrayRead m a task world := by
  have hstart := ppollStart_armed m a task world
  have hlook := fun deadline => ppollLook_still m (a 0) (a 1).toNat (a 2 ≠ 0) deadline
  constructor
  · intro h deadline old s hs hne x hx
    cases hread : (m.read (a 0) ((a 1).toNat * 8) x.2.world).1 with
    | ok bytes => exact ⟨bytes, rfl⟩
    | error err =>
      obtain ⟨k, hk⟩ := turns_again hx
      have hend := hk 1
      rw [turns] at hend
      have hcall : sysPpoll m (1 + k) a { task := task, world := world } =
          .error (.errno err.errno) { x.2 with world := (m.read (a 0) ((a 1).toNat * 8) x.2.world).2 } := by
        have hfails : turns (ppollLook m (a 0) (a 1).toNat (a 2 ≠ 0) deadline) (1 + k) none s =
            .error (.errno err.errno) { x.2 with world := (m.read (a 0) ((a 1).toNat * 8) x.2.world).2 } := by
          rw [hend]
          simp only [bind, EStateM.bind, ppollLook_fails m hread]
        unfold sysPpoll
        rw [bind_of_ok hs]
        dsimp only
        simp only [bind, EStateM.bind, hfails]
      have hended := (h (1 + k)).error _ _ hcall
      simp only [Ended, if_neg (memError_ne err)] at hended
      have hsame := same_again (fun w => fun s => ((hlook deadline w) s).mono (fun _ _ h => h) fun _ _ h =>
        ⟨h.1, fun _ _ => trivial⟩) hx
      rw [hsame.1] at hended
      exact absurd hended hne
  · intro h fuel
    unfold Survives sysPpoll
    refine .bind ⟨fun r s hs => ?_, hstart.error⟩
    obtain ⟨deadline, restore⟩ := r
    have harmed := hstart.ok _ _ hs
    dsimp only at harmed ⊢
    have hturns := Still.turns (hlook deadline) fuel none s
    refine .bind ⟨fun result s' hr => finish_survives (harmed.same (hturns.ok _ _ hr)) result, fun e s' he => ?_⟩
    have hsame := hturns.error e s' he
    cases e with
    | looking => trivial
    | errno e =>
      simp only [Ended, if_neg (hsame.2 e rfl)]
      rw [hsame.1.1]
      by_contra hne
      obtain ⟨-, ht, -⟩ | ⟨rfl, -⟩ := harmed
      · exact hne (by rw [ht])
      · have hlooking := (ppollLooks_read m fuel none s (h deadline _ s hs hne)).error _ _ he
        cases hlooking

end Ppoll

/-- the waits and the mask: `epoll_pwait` and `pselect6` always, `ppoll` exactly where it can read its array at each look -/
theorem waits_survive [DecidableEq File] (a : Fin 6 → UInt64) (task : Task) (world : σ) :
    (∀ fuel, Survives (sysEpollPwait m fuel a) task world) ∧ (∀ fuel, Survives (sysPselect6 m fuel a) task world) ∧
      ((∀ fuel, Survives (sysPpoll m fuel a) task world) ↔ ArrayRead m a task world) :=
  ⟨fun fuel => epollPwait_survives m fuel a task world, fun fuel => pselect6_survives m fuel a task world,
    ppoll_survives_iff m a task world⟩

/-- memory of zeros, but for an array at 0x1000 that is not mapped; nothing is open or posted -/
def unmappedArray : Machine Unit ℕ where
  read at_ len w := (if at_ = 0x1000 then .error .efault else .ok (List.replicate len 0), w)
  write _ _ w := (.ok (), w)
  now w := (0, w)
  checkedAdd now d := some (now + d)
  get _ w := (.error EBADF, w)
  isEpoll _ w := (false, w)
  readiness _ _ w := ((0, none), w)
  alive _ w := (true, w)
  edges _ w := (0, w)
  edgeTriggered w := (true, w)
  interest _ w := ([], w)
  setInterest _ _ w := w
  keyOf _ w := (none, w)
  setKey f := f
  keyed w := (true, w)
  watch _ w := w
  generation w := (0, w)
  pending w := (0, w)
  interrupted w := (false, w)
  slice w := (0, w)
  sleep _ _ w := w

theorem ppoll_leaves_mask :
    sysPpoll unmappedArray 1 ![0x1000, 1, 0, 0x2000, 8, 0] { task := ⟨1, none⟩, world := () } =
        .error (.errno EFAULT) { task := ⟨0, none⟩, world := (), installed := true } ∧
      ¬Survives (sysPpoll unmappedArray 1 ![0x1000, 1, 0, 0x2000, 8, 0]) ⟨1, none⟩ () := by
  have hcall : sysPpoll unmappedArray 1 ![0x1000, 1, 0, 0x2000, 8, 0] { task := ⟨1, none⟩, world := () } =
      .error (.errno EFAULT) { task := ⟨0, none⟩, world := (), installed := true } := rfl
  refine ⟨hcall, fun h => ?_⟩
  have hmask : (0 : UInt64) = 1 := h.error _ _ hcall
  cases hmask

end Omnidroid.Waits
