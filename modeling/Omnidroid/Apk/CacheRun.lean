/-
Runs of the extraction cache: what is under a library's path is whole, and what is answered is there.

- `World.numbered`: no process names 2^64 temporary files. `World.kept`: nor is a file from before the run, of the right length
  and other bytes, kept in place of one that could not be renamed.
- `Served`: complete files, in every numbered run. `Followed`: hints of the run lead to them, in every run of kept steps.
- `cache_serves`: both. `hint_misleads`: without the second condition, not so.
-/
import Omnidroid.Apk.CacheSteps

namespace Omnidroid.Apk

variable {ι ℓ : Type*}

/-! ## The conditions -/

/-- archives of one path, length and time of change have the same bytes -/
def Setting.Faithful (S : Setting ι ℓ) : Prop :=
  ∀ i j, (S.job i).identity = (S.job j).identity → (S.job i).entry = (S.job j).entry → S.job i = S.job j

namespace World

variable (S : Setting ι ℓ) (w : World ι ℓ)

/-- a process has not named 2^64 temporary files -/
def numbered : Act ι → Prop
  | .move c _ _ =>
    match w.calls c with
    | some call => (w.procs call.proc).count < 2 ^ 64
    | none => True
  | _ => True

/-- what a rename could not replace, and is kept for its length, was made in this run or has the entry's bytes -/
def keeps (call : Call ι ℓ) : Prop :=
  match call.pc, w.files.names (S.libraryPath call.job (S.digest call.job)) with
  | .checks _, .file f => (w.files.data f).length = S.size call.job → w.author f = none → w.files.data f = (S.job call.job).data
  | _, _ => True

def kept (a : Act ι) : Prop := w.numbered a ∧
  match a with
  | .move c false _ =>
    match w.calls c with
    | some call => w.keeps S call
    | none => True
  | _ => True

end World

/-! ## Every step -/

section Every

variable {S : Setting ι ℓ} {w : World ι ℓ} {c : ℕ} {call : Call ι ℓ}

theorem inv_start (held : Path ℓ → Option Bytes) (dirs : Path ℓ → Bool) : Inv S (World.start held dirs : World ι ℓ) where
  files := Files.sound_start held dirs
  pids := nofun
  procs := nofun
  calls := fun _ => rfl
  held := nofun
  apart := nofun
  nodup := nofun
  writing := nofun
  written := nofun
  good := nofun
  libs := nofun
  indexes := nofun
  hints := nofun
  found := nofun
  answers := nofun
  checks := nofun
  reused := nofun
  late := nofun
  callers := nofun

theorem Inv.spawn (h : Inv S w) {pid : ℕ} (hfree : w.free pid = true) :
    Inv S { w with procs := Function.update w.procs w.nextProc ⟨pid, true, 0⟩, nextProc := w.nextProc + 1 } := by
  have hold : ∀ p, p ≠ w.nextProc → Function.update w.procs w.nextProc ⟨pid, true, 0⟩ p = w.procs p :=
    fun p hp => Function.update_of_ne hp ..
  have hnew : Function.update w.procs w.nextProc ⟨pid, true, 0⟩ w.nextProc = ⟨pid, true, 0⟩ := Function.update_self ..
  have hcaller : ∀ {c call}, w.calls c = some call →
      Function.update w.procs w.nextProc ⟨pid, true, 0⟩ call.proc = w.procs call.proc := fun hc => hold _ (h.callers hc).ne
  have hlive : ∀ {c : ℕ} {call : Call ι ℓ}, w.calls c = some call →
      (Function.update w.procs w.nextProc ⟨pid, true, 0⟩ call.proc).alive = true → w.live call := by
    intro c call hc hl
    rw [hcaller hc] at hl
    exact hl
  have hpid : ∀ p, (w.procs p).alive = true → (w.procs p).pid ≠ pid := by
    intro p hp heq
    have := List.all_eq_true.mp hfree p (List.mem_range.mpr (h.procs hp))
    simp [hp, heq] at this
  refine { h with pids := ?_, procs := ?_, held := ?_, apart := ?_, writing := ?_, written := ?_, callers := ?_ }
  · intro p q hp hq hpq
    rcases eq_or_ne p w.nextProc with rfl | hp'
    · rcases eq_or_ne q w.nextProc with rfl | hq'
      · rfl
      · simp only [hnew, hold q hq'] at hq hpq
        exact absurd hpq.symm (hpid q hq)
    · rcases eq_or_ne q w.nextProc with rfl | hq'
      · simp only [hnew, hold p hp'] at hp hpq
        exact absurd hpq (hpid p hp)
      · simp only [hold p hp', hold q hq'] at hp hq hpq
        exact h.pids hp hq hpq
  · intro p hp
    rcases eq_or_ne p w.nextProc with rfl | hp'
    · exact Nat.lt_succ_self _
    · simp only [hold p hp'] at hp
      exact Nat.lt_succ_of_lt (h.procs hp)
  · intro c call t hc hl ht
    simp only [hcaller hc]
    exact h.held hc (hlive hc hl) ht
  · intro c c' call call' t hc hl hc' hl'
    exact h.apart hc (hlive hc hl) hc' (hlive hc' hl')
  · intro c call t i left x hc hl
    exact h.writing hc (hlive hc hl)
  · intro c call t x hc hl
    exact h.written hc (hlive hc hl)
  · intro c call hc
    exact Nat.lt_succ_of_lt (h.callers hc)

theorem Inv.crash (h : Inv S w) (p : ℕ) :
    Inv S { w with procs := Function.update w.procs p { w.procs p with alive := false } } := by
  have hsame : ∀ q, (Function.update w.procs p { w.procs p with alive := false } q).pid = (w.procs q).pid ∧
      (Function.update w.procs p { w.procs p with alive := false } q).count = (w.procs q).count ∧
      ((Function.update w.procs p { w.procs p with alive := false } q).alive = true → (w.procs q).alive = true) := by
    intro q
    rcases eq_or_ne q p with rfl | hne
    · rw [Function.update_self]
      exact ⟨rfl, rfl, nofun⟩
    · rw [Function.update_of_ne hne]
      exact ⟨rfl, rfl, id⟩
  refine { h with pids := ?_, procs := ?_, held := ?_, apart := ?_, writing := ?_, written := ?_ }
  · intro q r hq hr hqr
    simp only [(hsame q).1, (hsame r).1] at hqr
    exact h.pids ((hsame q).2.2 hq) ((hsame r).2.2 hr) hqr
  · intro q hq
    exact h.procs ((hsame q).2.2 hq)
  · intro c call t hc hl ht
    simp only [(hsame call.proc).1, (hsame call.proc).2.1]
    exact h.held hc ((hsame _).2.2 hl) ht
  · intro c c' call call' t hc hl hc' hl'
    exact h.apart hc ((hsame _).2.2 hl) hc' ((hsame _).2.2 hl')
  · intro c call t i left x hc hl
    exact h.writing hc ((hsame _).2.2 hl)
  · intro c call t x hc hl
    exact h.written hc ((hsame _).2.2 hl)

/-- a call that begins; it has no file yet -/
theorem Inv.begins (h : Inv S w) {p : ℕ} (hp : (w.procs p).alive = true) (i : ι) (extract : Bool) {pc : Pc ℓ}
    (hpc : pc = .opens ∨ pc = .done (.failed .notANativeLibrary) ∧ nativeLibraryFileName (S.job i).entry = none) :
    Inv S (w.enter p i extract pc) := by
  have hold : ∀ c, c ≠ w.nextCall → Function.update w.calls w.nextCall (some ⟨p, i, extract, pc, false⟩) c = w.calls c :=
    fun c hc => Function.update_of_ne hc ..
  have hnew : Function.update w.calls w.nextCall (some ⟨p, i, extract, pc, false⟩) w.nextCall = some ⟨p, i, extract, pc, false⟩ :=
    Function.update_self ..
  have hback : ∀ {c call}, Function.update w.calls w.nextCall (some ⟨p, i, extract, pc, false⟩) c = some call →
      call = ⟨p, i, extract, pc, false⟩ ∨ w.calls c = some call := by
    intro c call hc
    rcases eq_or_ne c w.nextCall with rfl | hne
    · exact .inl (Option.some.inj (hnew.symm.trans hc)).symm
    · exact .inr ((hold c hne).symm.trans hc)
  have hforth : ∀ {c call}, w.calls c = some call →
      Function.update w.calls w.nextCall (some ⟨p, i, extract, pc, false⟩) c = some call := by
    intro c call hc
    have hne : c ≠ w.nextCall := by
      rintro rfl
      cases (h.calls le_rfl).symm.trans hc
    exact (hold c hne).trans hc
  have hnothing : pc.held = [] ∧ pc.writing = none ∧ pc.written = none ∧ pc.past = false ∧ pc.hint = none ∧ pc.found = none ∧
      pc.late = none ∧ ∀ t, pc ≠ .checks t := by
    rcases hpc with rfl | ⟨rfl, -⟩ <;> exact ⟨rfl, rfl, rfl, rfl, rfl, rfl, rfl, nofun⟩
  obtain ⟨hheld, hwriting, hwritten, hpast, hhint, hfound, hlate, hchecks⟩ := hnothing
  constructor
  case files => exact h.files
  case pids => exact h.pids
  case procs => exact h.procs
  case calls =>
    intro c hc
    exact (hold c (Nat.ne_of_gt hc)).trans (h.calls (Nat.le_of_succ_le hc))
  case held =>
    intro c call t hc hl ht
    rcases hback hc with rfl | hc
    · simp only [hheld] at ht
      cases ht
    · exact h.held hc hl ht
  case apart =>
    intro c c' call call' t hc hl hc' hl' ht ht'
    rcases hback hc with rfl | hc
    · simp only [hheld] at ht
      cases ht
    · rcases hback hc' with rfl | hc'
      · simp only [hheld] at ht'
        cases ht'
      · exact h.apart hc hl hc' hl' ht ht'
  case nodup =>
    intro c call hc
    rcases hback hc with rfl | hc
    · simp only [hheld]
      exact List.nodup_nil
    · exact h.nodup hc
  case writing =>
    intro c call t j left x hc hl hw
    rcases hback hc with rfl | hc
    · cases hwriting.symm.trans hw
    · exact h.writing hc hl hw
  case written =>
    intro c call t x hc hl hw
    rcases hback hc with rfl | hc
    · cases hwritten.symm.trans hw
    · exact h.written hc hl hw
  case good =>
    intro c call hc hp'
    rcases hback hc with rfl | hc
    · cases hpast.symm.trans hp'
    · exact h.good hc hp'
  case libs =>
    intro q j c hq ha
    obtain ⟨call, hc, hrest⟩ := h.libs hq ha
    exact ⟨call, hforth hc, hrest⟩
  case indexes =>
    intro k j c hk ha
    obtain ⟨call, hc, hrest⟩ := h.indexes hk ha
    exact ⟨call, hforth hc, hrest⟩
  case hints =>
    intro c call j hc hj
    rcases hback hc with rfl | hc
    · cases hhint.symm.trans hj
    · obtain ⟨hnot, hknown, hwho⟩ := h.hints hc hj
      refine ⟨hnot, hknown, ?_⟩
      intro c' ha
      obtain ⟨call', hc', hrest⟩ := hwho c' ha
      exact ⟨call', hforth hc', hrest⟩
  case found =>
    intro c call d j hc hf
    rcases hback hc with rfl | hc
    · cases hfound.symm.trans hf
    · exact h.found hc hf
  case answers =>
    intro c call a hc ha
    rcases hback hc with rfl | hc
    · rcases hpc with rfl | ⟨rfl, hnative⟩
      · cases ha
      · cases ha
        exact fun _ => .inr (.inr hnative)
    · exact h.answers hc ha
  case checks =>
    intro c call t hc ht
    rcases hback hc with rfl | hc
    · exact absurd ht (hchecks t)
    · exact h.checks hc ht
  case reused =>
    intro c call d len j hc ha
    rcases hback hc with rfl | hc
    · rcases hpc with rfl | ⟨rfl, -⟩ <;> cases ha
    · exact h.reused hc ha
  case late =>
    intro c call a hc ha
    rcases hback hc with rfl | hc
    · cases hlate.symm.trans ha
    · exact h.late hc ha
  case callers =>
    intro c call hc
    rcases hback hc with rfl | hc
    · exact h.procs hp
    · exact h.callers hc

variable [DecidableEq ℓ]

/-- a call's step changes something, or the call has ended -/
theorem Inv.moves (hS : S.Sound) (h : Inv S w) (hc : w.calls c = some call) (hlive : w.live call)
    (hcount : (w.procs call.proc).count < 2 ^ 64) (fault : Bool) (n : ℕ) :
    w.advance S c call fault n = w ∨ Moved S w c call (w.advance S c call fault n) := by
  by_cases hdone : ∃ a, call.pc = .done a
  · obtain ⟨a, ha⟩ := hdone
    left
    simp only [World.advance, ha]
  · exact .inr (h.advance hS hc hlive hcount (fun a ha => hdone ⟨a, ha⟩) fault n)

theorem step_inv (hS : S.Sound) (h : Inv S w) {a : Act ι} (hok : w.numbered a) : Inv S (World.step S w a) := by
  cases a with
  | spawn pid =>
    simp only [World.step]
    split
    · next hfree => exact h.spawn hfree
    · exact h
  | crash p => exact h.crash p
  | call p i extract =>
    simp only [World.step]
    split
    · next hp =>
      refine h.begins hp i extract ?_
      split
      · exact .inl rfl
      · next hnative => exact .inr ⟨rfl, by simpa using hnative⟩
    · exact h
  | move c fault n =>
    simp only [World.step]
    cases hc : w.calls c with
    | none => exact h
    | some call =>
      simp only [World.numbered, hc] at hok
      simp only
      split
      · next hlive =>
        rcases h.moves hS hc hlive hok fault n with he | ⟨w', pc, refused, he, f, ar⟩
        · rw [he]
          exact h
        · rw [he]
          exact h.change hS hc hlive f ar
      · exact h

end Every

/-! ## Hints of the run -/

/-- the library of the call's entry is in its place -/
def World.led (S : Setting ι ℓ) (w : World ι ℓ) (c : ℕ) : Prop := ∃ call, w.calls c = some call ∧ w.holds S call.job

structure Trusted (S : Setting ι ℓ) (w : World ι ℓ) : Prop where
  raced : ∀ {c call d}, w.calls c = some call → call.pc.answer = some (.raced d) → w.holds S call.job
  indexed : ∀ {k i c}, w.files.names (.index k) = .file i → w.author i = some c → w.led S c
  opened : ∀ {c call i c'}, w.calls c = some call → call.pc.hint = some i → w.author i = some c' → w.led S c'

section Trust

variable {S : Setting ι ℓ} {w w' : World ι ℓ} {c c' : ℕ} {call : Call ι ℓ} {pc : Pc ℓ} {refused : Bool}

theorem Change.led (f : Change S w w' c call pc) (hS : S.Sound) (h : Inv S w) (hc : w.calls c = some call) (hl : w.led S c') :
    (w'.goTo c call pc refused).led S c' := by
  obtain ⟨call', hc', hholds⟩ := hl
  obtain ⟨call₂, h₂, hjob⟩ := calls_after f hc refused hc'
  exact ⟨call₂, h₂, hjob ▸ f.holds hS h hholds⟩

/-- what is kept for its length is the entry -/
theorem Inv.keeps (hS : S.Sound) (h : Inv S w) (hc : w.calls c = some call) (hkeep : w.keeps S call) {t : Temp} {f : Ino (Path ℓ)}
    (hpc : call.pc = .checks t) (hf : w.files.names (S.libraryPath call.job (S.digest call.job)) = .file f)
    (hlen : (w.files.data f).length = S.size call.job) : w.holds S call.job := by
  refine ⟨h.good hc (by rw [hpc]; rfl), f, hf, ?_⟩
  cases hauthor : w.author f with
  | none =>
    simp only [World.keeps, hpc, hf] at hkeep
    exact hkeep hlen hauthor
  | some c' =>
    obtain ⟨call', -, -, hdata, hplace⟩ := h.libs hf hauthor
    rw [hdata]
    exact hS.contents _ _ (hS.places _ _ hplace.symm)

theorem Trusted.change (hS : S.Sound) (h : Inv S w) (ht : Trusted S w) (hc : w.calls c = some call)
    (hkeep : ∀ t d, call.pc = .checks t → pc.answer = some (.raced d) → w.keeps S call) (f : Change S w w' c call pc) (ar : Arrival S w w' c call pc refused) :
    Trusted S (w'.goTo c call pc refused) := by
  constructor
  case raced =>
    intro c₁ call₁ d h₁ ha
    rcases calls_before f h₁ with ⟨-, hcall₁⟩ | ⟨-, h₁⟩
    · subst hcall₁
      refine f.holds hS h ?_
      rcases ar.raced ha with hold | ⟨t, k, hpc, hk, hlen⟩
      · have := ht.raced hc hold
        exact this
      · have := h.keeps hS hc (hkeep t d hpc ha) hpc hk hlen
        exact this
    · exact f.holds hS h (ht.raced h₁ ha)
  case indexed =>
    intro k i c₁ hk ha
    rcases f.indexes k i hk with hold | ⟨hauthor, -, -, held, a, t, hpc⟩
    · have hsame := (f.fixed h (by intro t; exact nofun) hold).2
      exact f.led hS h hc (ht.indexed hold (hsame.symm.trans ha))
    · cases hauthor.symm.trans ha
      have hans : call.pc.answer = some a := by
        rw [hpc]
        rfl
      obtain ⟨d, rfl | rfl⟩ := h.late hc (by rw [hpc]; rfl : call.pc.late = some a)
      · exact f.led hS h hc ⟨call, hc, (h.answers hc hans).2⟩
      · exact f.led hS h hc ⟨call, hc, ht.raced hc hans⟩
  case opened =>
    intro c₁ call₁ i c₂ h₁ hi ha
    obtain ⟨hnot, hknown, hled⟩ : (∀ t, w.files.names (.temp t) ≠ .file i) ∧ (∀ n, i = .new n → n < w.files.next) ∧
        ∀ c', w.author i = some c' → w.led S c' := by
      rcases calls_before f h₁ with ⟨-, hcall₁⟩ | ⟨-, h₁⟩
      · subst hcall₁
        rcases ar.hint hi with hold | hnew
        · exact ⟨(h.hints hc hold).1, (h.hints hc hold).2.1, fun c' => ht.opened hc hold⟩
        · exact ⟨(h.indexed hnew).1, (h.indexed hnew).2.1, fun c' => ht.indexed hnew⟩
      · exact ⟨(h.hints h₁ hi).1, (h.hints h₁ hi).2.1, fun c' => ht.opened h₁ hi⟩
    have hsame := (f.unwritten hnot hknown).2
    exact f.led hS h hc (hled c₂ (hsame.symm.trans ha))

theorem Trusted.begins (h : Inv S w) (ht : Trusted S w) {p : ℕ} (i : ι) (extract : Bool)
    (hpc : pc = .opens ∨ pc = .done (.failed .notANativeLibrary)) :
    Trusted S (w.enter p i extract pc) := by
  have hback : ∀ {c call}, Function.update w.calls w.nextCall (some ⟨p, i, extract, pc, false⟩) c = some call →
      call = ⟨p, i, extract, pc, false⟩ ∨ w.calls c = some call := by
    intro c call hc
    rcases eq_or_ne c w.nextCall with rfl | hne
    · rw [Function.update_self] at hc
      exact .inl (Option.some.inj hc).symm
    · rw [Function.update_of_ne hne] at hc
      exact .inr hc
  have hled : ∀ {c}, w.led S c → (w.enter p i extract pc).led S c := by
    rintro c ⟨call, hc, hholds⟩
    refine ⟨call, ?_, hholds⟩
    have hne : c ≠ w.nextCall := by
      rintro rfl
      cases (h.calls le_rfl).symm.trans hc
    exact (Function.update_of_ne hne ..).trans hc
  constructor
  · intro c call d hc ha
    rcases hback hc with rfl | hc
    · rcases hpc with rfl | rfl <;> cases ha
    · exact ht.raced hc ha
  · intro k j c hk ha
    exact hled (ht.indexed hk ha)
  · intro c call j c' hc hj ha
    rcases hback hc with rfl | hc
    · rcases hpc with rfl | rfl <;> cases hj
    · exact hled (ht.opened hc hj ha)

theorem trusted_start (held : Path ℓ → Option Bytes) (dirs : Path ℓ → Bool) : Trusted S (World.start held dirs : World ι ℓ) :=
  ⟨nofun, nofun, nofun⟩

variable [DecidableEq ℓ]

theorem step_trusted (hS : S.Sound) (h : Inv S w) (ht : Trusted S w) {a : Act ι} (hok : w.kept S a) :
    Trusted S (World.step S w a) := by
  cases a with
  | spawn pid =>
    simp only [World.step]
    split
    · exact ⟨ht.raced, ht.indexed, ht.opened⟩
    · exact ht
  | crash p => exact ⟨ht.raced, ht.indexed, ht.opened⟩
  | call p i extract =>
    simp only [World.step]
    split
    · refine ht.begins h i extract ?_
      split
      · exact .inl rfl
      · exact .inr rfl
    · exact ht
  | move c fault n =>
    obtain ⟨hnumber, hkeep⟩ := hok
    simp only [World.step]
    cases hc : w.calls c with
    | none => exact ht
    | some call =>
      simp only [World.numbered, hc] at hnumber
      simp only
      split
      · next hlive =>
        rcases h.moves hS hc hlive hnumber fault n with he | ⟨w', pc, refused, he, f, ar⟩
        · rw [he]
          exact ht
        · rw [he]
          refine ht.change hS h hc ?_ f ar
          intro t d hpc ha
          cases fault with
          | false =>
            simp only [hc] at hkeep
            exact hkeep
          | true =>
            -- refused, the look at what is there keeps nothing
            simp only [World.advance, hpc] at he
            have hcall := congrFun (congrArg World.calls he) c
            rw [goTo_self, goTo_self] at hcall
            cases congrArg Call.pc (Option.some.inj hcall)
            cases ha
      · exact ht

end Trust

/-! ## The results -/

/-- what is under a library's path, and what an extraction's answer is good for -/
structure Served (S : Setting ι ℓ) (w : World ι ℓ) : Prop where
  /-- made in this run, it is the whole of an entry that belongs there -/
  whole : ∀ {p i c}, w.files.names (.lib p) = .file i → w.author i = some c → ∃ call, w.calls c = some call ∧
    (S.job call.job).good = true ∧ w.files.data i = (S.job call.job).data ∧ .lib p = S.libraryPath call.job (S.digest call.job)
  /-- what is being written is not there -/
  hidden : ∀ {c call t i left x}, w.calls c = some call → w.live call → call.pc.writing = some (t, i, left, x) →
    ∀ p, w.files.names (.lib p) ≠ .file i
  extracted : ∀ {c call d}, w.calls c = some call → call.pc = .done (.extracted d) → d = S.digest call.job ∧ w.holds S call.job
  /-- a hint is used only if it parses, and names a file of the entry's length -/
  reused : ∀ {c call d len i}, w.calls c = some call → call.pc = .done (.reused d len i) →
    readIndex (w.files.data i) = some d ∧ len = S.size call.job
  /-- no hint makes an extraction fail -/
  failed : ∀ {c call e}, w.calls c = some call → call.pc = .done (.failed e) → call.extract = true →
    call.refused = true ∨ (S.job call.job).good = false ∨ nativeLibraryFileName (S.job call.job).entry = none

/-- a hint of the run is of the archive that it is used for, and leads to the entry's bytes -/
def Followed (S : Setting ι ℓ) (w : World ι ℓ) : Prop :=
  ∀ c call d len i c', w.calls c = some call → call.pc = .done (.reused d len i) → w.author i = some c' →
    d = S.digest call.job ∧ w.holds S call.job ∧
      ∃ call', w.calls c' = some call' ∧ (S.job call'.job).identity = (S.job call.job).identity

section Results

variable {S : Setting ι ℓ} {w : World ι ℓ}

theorem Inv.served (h : Inv S w) : Served S w where
  whole := h.libs
  hidden := by
    intro c call t i left x hc hl hw p hp
    cases h.files.apart hp (h.writing hc hl hw).1
  extracted := by
    intro c call d hc hpc
    exact h.answers hc (by rw [hpc]; rfl : call.pc.answer = some (.extracted d))
  reused := by
    intro c call d len i hc hpc
    exact ⟨h.found hc (by rw [hpc]; rfl), h.answers hc (by rw [hpc]; rfl : call.pc.answer = some (.reused d len i))⟩
  failed := by
    intro c call e hc hpc hx
    exact h.answers hc (by rw [hpc]; rfl : call.pc.answer = some (.failed e)) hx

theorem Trusted.followed (ht : Trusted S w) (h : Inv S w) (hS : S.Sound) (hf : S.Faithful) : Followed S w := by
  intro c call d len i c' hc hpc ha
  have hhint : call.pc.hint = some i := by
    rw [hpc]
    rfl
  obtain ⟨-, -, hwho⟩ := h.hints hc hhint
  obtain ⟨call', hc', hdata, hkey⟩ := hwho c' ha
  obtain ⟨hidentity, hentry⟩ := probe_injective (hS.keys _ _ hkey)
  have hjob : S.job call.job = S.job call'.job := hf _ _ hidentity hentry
  have hdigest : S.digest call.job = S.digest call'.job := congrArg (fun j : Job => S.sha j.data) hjob
  have hplace : ∀ e, S.libraryPath call.job e = S.libraryPath call'.job e :=
    fun e => congrArg (fun j : Job => Path.lib (S.place e ((nativeLibraryFileName j.entry).getD []))) hjob
  have hread := h.found hc (by rw [hpc]; rfl : call.pc.found = some (d, i))
  rw [hdata, readIndex_hintText] at hread
  refine ⟨(Option.some.inj hread).symm.trans hdigest.symm, ?_, call', hc', hidentity.symm⟩
  obtain ⟨call₂, hc₂, hholds⟩ := ht.opened hc hhint ha
  cases hc'.symm.trans hc₂
  unfold World.holds
  rw [hplace, hdigest, hjob]
  exact hholds

/-- **The extraction cache.** Whatever was under the cache's root, whatever is refused and whenever a process ends: what an
extraction has extracted is in its place, whole, and stays; nothing in progress is ever there; and no hint makes one fail. In a
run of kept steps, with the archives as their keys say they are, a hint of the run leads to the entry's bytes. -/
theorem cache_serves [DecidableEq ℓ] (hS : S.Sound) (held : Path ℓ → Option Bytes) (dirs : Path ℓ → Bool) :
    (∀ w, Reach (World.step S) World.numbered (World.start held dirs) w → Served S w) ∧
    (S.Faithful → ∀ w, Reach (World.step S) (World.kept S) (World.start held dirs) w → Followed S w) := by
  have hinv : ∀ {w}, Reach (World.step S) World.numbered (World.start held dirs) w → Inv S w :=
    fun h => h.invariant (Inv S) (inv_start held dirs) fun _ _ _ hok hi => step_inv hS hi hok
  constructor
  · intro w h
    exact (hinv h).served
  · intro hf w h
    have hnumbered : ∀ {w}, Reach (World.step S) (World.kept S) (World.start held dirs) w →
        Reach (World.step S) World.numbered (World.start held dirs) w := fun h => h.mono fun _ _ hok => hok.1
    have ht : Trusted S w := h.invariant (Trusted S) (trusted_start held dirs) fun _ _ hr hok ht =>
      step_trusted hS (hinv (hnumbered hr)) ht hok
    exact ht.followed (hinv (hnumbered h)) hS hf

end Results

/-! ## One archive -/

section Example

/-- the first 32 bytes, for a hash -/
def first32 (b : Bytes) : Digest := ⟨(b ++ List.replicate 32 0).take 32, by simp⟩

/-- lib/a/b.so, of three bytes -/
def smallEntry : Entry := ⟨[108, 105, 98, 47, 97, 47, 98, 46, 115, 111], 0, 3, 3, 0, 0, by decide⟩

def smallJob : Job := ⟨⟨[97], 100, none, by decide⟩, smallEntry, [1, 2, 3], true, fun _ => rfl⟩

def small : Setting Unit (Digest × Bytes) := ⟨fun _ => smallJob, first32, Prod.mk⟩

theorem small_sound : small.Sound := ⟨fun _ _ _ => rfl, fun _ _ _ => rfl, fun _ _ _ => rfl⟩

theorem small_faithful : small.Faithful := fun _ _ _ _ => rfl

/-- a process extracts; the rename is refused or not; and it asks again -/
def twice (refused : Bool) : List (Act Unit) :=
  [.spawn 7, .call 0 () true] ++ List.replicate 7 (.move 0 false 2) ++ [.move 0 refused 0] ++ List.replicate 9 (.move 0 false 70) ++
    [.call 0 () true] ++ List.replicate 3 (.move 1 false 0)

/-- nothing under the root -/
def bare : Path (Digest × Bytes) → Option Bytes := fun _ => none

/-- a file in the library's place, of its length and of other bytes -/
def planted : Path (Digest × Bytes) → Option Bytes := fun p => if p = small.libraryPath () (small.digest ()) then some [9, 9, 9] else none

def noDirs : Path (Digest × Bytes) → Bool := fun _ => false

instance decNumbered (w : World Unit (Digest × Bytes)) (a : Act Unit) : Decidable (w.numbered a) := by
  unfold World.numbered
  split
  · split <;> infer_instance
  · infer_instance

instance decKeeps (w : World Unit (Digest × Bytes)) (call : Call Unit (Digest × Bytes)) : Decidable (w.keeps small call) := by
  unfold World.keeps
  split <;> infer_instance

instance decKept (w : World Unit (Digest × Bytes)) (a : Act Unit) : Decidable (w.kept small a) := by
  unfold World.kept
  refine @instDecidableAnd _ _ _ ?_
  split
  · split <;> infer_instance
  · infer_instance

theorem cache_serves_twice : Served small (run (World.step small) (World.start bare noDirs) (twice false)) ∧
    Followed small (run (World.step small) (World.start bare noDirs) (twice false)) ∧
    ((run (World.step small) (World.start bare noDirs) (twice false)).calls 1).map (·.pc) =
      some (.done (.reused (small.digest ()) 3 (.new 1))) ∧
    (run (World.step small) (World.start bare noDirs) (twice false)).author (.new 1) = some 0 :=
  ⟨(cache_serves small_sound bare noDirs).1 _ (.run .start _ (by decide)),
    (cache_serves small_sound bare noDirs).2 small_faithful _ (.run .start _ (by decide)), by decide,
    by decide⟩

/-- **A hint to other bytes.** The library's place holds a file of its length from before, and the rename is refused: that file
is kept as if it were the entry, a hint to it is written, and the next extraction reuses it. -/
theorem hint_misleads : ¬Followed small (run (World.step small) (World.start planted noDirs) (twice true)) := by
  intro h
  have hcall : ∃ call, (run (World.step small) (World.start planted noDirs) (twice true)).calls 1 = some call ∧
      call.pc = .done (.reused (small.digest ()) 3 (.new 1)) :=
    Option.map_eq_some_iff.mp (by decide :
      ((run (World.step small) (World.start planted noDirs) (twice true)).calls 1).map (·.pc) =
        some (.done (.reused (small.digest ()) 3 (.new 1))))
  obtain ⟨call, hc, hpc⟩ := hcall
  obtain ⟨-, ⟨-, f, hf, hdata⟩, -⟩ := h 1 call _ _ _ 0 hc hpc (by decide)
  have hplace : (run (World.step small) (World.start planted noDirs) (twice true)).files.names
      (small.libraryPath () (small.digest ())) = .file (.old (small.libraryPath () (small.digest ()))) := by decide
  cases hplace.symm.trans hf
  have hbytes : (run (World.step small) (World.start planted noDirs) (twice true)).files.data
      (.old (small.libraryPath () (small.digest ()))) = [9, 9, 9] := by decide
  cases hbytes.symm.trans hdata

end Example

end Omnidroid.Apk
