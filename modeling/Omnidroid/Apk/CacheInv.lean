/-
What one step of a call to the extraction cache can do, and what it keeps.

- `Setting.Sound`: SHA-256 tells apart what is hashed, and the host has different digests in different places.
- `Inv`: a temporary file is its call's alone; under a library's path and a hint's there is only what is whole.
- `Change`, `Arrival`: what a step of one call may do to the files, and what is known where the call goes; `Inv.change`: any such
  step keeps the invariant.
-/
import Omnidroid.Apk.Cache

namespace Omnidroid.Apk

variable {ι ℓ : Type*}

/-! ## What is asked of the setting -/

structure Setting.Sound (S : Setting ι ℓ) : Prop where
  contents : ∀ i j, S.digest i = S.digest j → (S.job i).data = (S.job j).data
  keys : ∀ i j, S.key i = S.key j → probe (S.job i).identity (S.job i).entry = probe (S.job j).identity (S.job j).entry
  places : ∀ i j, S.libraryPath i (S.digest i) = S.libraryPath j (S.digest j) → S.digest i = S.digest j

namespace Pc

/-- the temporary files that are the call's -/
def held : Pc ℓ → List Temp
  | .writes t _ _ | .syncs t _ | .makesLib t | .renames t | .checks t | .removes t _ => [t]
  | .makesIndex h _ | .makesIndexTmp h _ | .createsIndex h _ => h.toList
  | .writesIndex h _ x _ _ | .syncsIndex h _ x _ | .renamesIndex h _ x | .removesIndex h _ x => x :: h.toList
  | _ => []

/-- the file it has open, what is still to be written, and whether it is a hint -/
def writing : Pc ℓ → Option (Temp × Ino (Path ℓ) × Bytes × Bool)
  | .writes t i left => some (t, i, left, false)
  | .syncs t i => some (t, i, [], false)
  | .writesIndex _ _ x i left => some (x, i, left, true)
  | .syncsIndex _ _ x i => some (x, i, [], true)
  | _ => none

/-- a temporary file that is written -/
def written : Pc ℓ → Option (Temp × Bool)
  | .makesLib t | .renames t | .checks t => some (t, false)
  | .renamesIndex _ _ x => some (x, true)
  | _ => none

/-- the entry was read to its end -/
def past : Pc ℓ → Bool
  | .syncs .. | .makesLib _ | .renames _ | .checks _ => true
  | _ => false

def hint : Pc ℓ → Option (Ino (Path ℓ))
  | .reads h | .inspects h _ | .done (.reused _ _ h) => some h
  | _ => none

/-- what was read in a hint -/
def found : Pc ℓ → Option (Digest × Ino (Path ℓ))
  | .inspects h d | .done (.reused d _ h) => some (d, h)
  | _ => none

/-- the answer there is to be once the hint is written -/
def late : Pc ℓ → Option (Answer ℓ)
  | .makesIndex _ a | .makesIndexTmp _ a | .createsIndex _ a | .writesIndex _ a _ _ _ | .syncsIndex _ a _ _ | .renamesIndex _ a _
  | .removesIndex _ a _ => some a
  | _ => none

def answer : Pc ℓ → Option (Answer ℓ)
  | .makesIndex _ a | .makesIndexTmp _ a | .createsIndex _ a | .writesIndex _ a _ _ _ | .syncsIndex _ a _ _ | .renamesIndex _ a _
  | .removesIndex _ a _ | .removes _ a | .done a => some a
  | _ => none

end Pc

/-! ## The invariant -/

section Invariant

variable (S : Setting ι ℓ) (w : World ι ℓ)

/-- what a temporary file is to hold -/
def text (i : ι) (index : Bool) : Bytes := if index then hintText (S.digest i) else (S.job i).data

/-- the job's library is in its place, whole -/
def World.holds (i : ι) : Prop := (S.job i).good = true ∧
  ∃ f, w.files.names (S.libraryPath i (S.digest i)) = .file f ∧ w.files.data f = (S.job i).data

/-- what an answer says -/
def World.fair (i : ι) (extract refused : Bool) : Answer ℓ → Prop
  | .reused _ len _ => len = S.size i
  | .extracted d => d = S.digest i ∧ w.holds S i
  | .failed _ => extract = true → refused = true ∨ (S.job i).good = false ∨ nativeLibraryFileName (S.job i).entry = none
  | _ => True

def World.live (call : Call ι ℓ) : Prop := (w.procs call.proc).alive = true

structure Inv : Prop where
  files : w.files.Sound
  pids : ∀ {p q}, (w.procs p).alive = true → (w.procs q).alive = true → (w.procs p).pid = (w.procs q).pid → p = q
  procs : ∀ {p}, (w.procs p).alive = true → p < w.nextProc
  calls : ∀ {c}, w.nextCall ≤ c → w.calls c = none
  held : ∀ {c call t}, w.calls c = some call → w.live call → t ∈ call.pc.held →
    t.pid = (w.procs call.proc).pid ∧ t.sequence < (w.procs call.proc).count
  apart : ∀ {c c' call call' t}, w.calls c = some call → w.live call → w.calls c' = some call' → w.live call' →
    t ∈ call.pc.held → t ∈ call'.pc.held → c = c'
  nodup : ∀ {c call}, w.calls c = some call → call.pc.held.Nodup
  writing : ∀ {c call t i left x}, w.calls c = some call → w.live call → call.pc.writing = some (t, i, left, x) →
    w.files.names (.temp t) = .file i ∧ w.author i = some c ∧ w.files.data i ++ left = text S call.job x
  written : ∀ {c call t x}, w.calls c = some call → w.live call → call.pc.written = some (t, x) →
    ∃ i, w.files.names (.temp t) = .file i ∧ w.author i = some c ∧ w.files.data i = text S call.job x
  good : ∀ {c call}, w.calls c = some call → call.pc.past = true → (S.job call.job).good = true
  libs : ∀ {p i c}, w.files.names (.lib p) = .file i → w.author i = some c → ∃ call, w.calls c = some call ∧
    (S.job call.job).good = true ∧ w.files.data i = (S.job call.job).data ∧ .lib p = S.libraryPath call.job (S.digest call.job)
  indexes : ∀ {k i c}, w.files.names (.index k) = .file i → w.author i = some c → ∃ call, w.calls c = some call ∧
    w.files.data i = hintText (S.digest call.job) ∧ k = S.key call.job
  /-- a hint that was opened is written no more -/
  hints : ∀ {c call i}, w.calls c = some call → call.pc.hint = some i → (∀ t, w.files.names (.temp t) ≠ .file i) ∧
    (∀ n, i = .new n → n < w.files.next) ∧ ∀ c', w.author i = some c' → ∃ call', w.calls c' = some call' ∧
      w.files.data i = hintText (S.digest call'.job) ∧ S.key call.job = S.key call'.job
  found : ∀ {c call d i}, w.calls c = some call → call.pc.found = some (d, i) → readIndex (w.files.data i) = some d
  answers : ∀ {c call a}, w.calls c = some call → call.pc.answer = some a → w.fair S call.job call.extract call.refused a
  checks : ∀ {c call t}, w.calls c = some call → call.pc = .checks t → call.refused = true
  reused : ∀ {c call d len i}, w.calls c = some call → call.pc.answer = some (.reused d len i) → call.pc = .done (.reused d len i)
  late : ∀ {c call a}, w.calls c = some call → call.pc.late = some a → ∃ d, a = .extracted d ∨ a = .raced d
  callers : ∀ {c call}, w.calls c = some call → call.proc < w.nextProc

/-- what a call's step can do to the files, on its way from where it is to `pc` -/
structure Change (w w' : World ι ℓ) (c : ℕ) (call : Call ι ℓ) (pc : Pc ℓ) : Prop where
  procs : ∀ p, (w'.procs p).pid = (w.procs p).pid ∧ (w'.procs p).alive = (w.procs p).alive ∧ (w.procs p).count ≤ (w'.procs p).count
  nextProc : w'.nextProc = w.nextProc
  calls : w'.calls = w.calls
  nextCall : w'.nextCall = w.nextCall
  sound : w'.files.Sound
  next : w.files.next ≤ w'.files.next
  temps : ∀ t i, w'.files.names (.temp t) = .file i → w.files.names (.temp t) = .file i ∨ i = .new w.files.next
  elsewhere : ∀ t, t ∉ call.pc.held → t ∉ pc.held → w'.files.names (.temp t) = w.files.names (.temp t)
  data : ∀ i, (∀ t, t ∈ call.pc.held ∨ t ∈ pc.held → w.files.names (.temp t) ≠ .file i) → i ≠ .new w.files.next →
    w'.files.data i = w.files.data i ∧ w'.author i = w.author i
  libs : ∀ p i, w'.files.names (.lib p) = .file i → w.files.names (.lib p) = .file i ∨ w'.author i = some c ∧
    (S.job call.job).good = true ∧ w'.files.data i = (S.job call.job).data ∧ .lib p = S.libraryPath call.job (S.digest call.job)
  stays : ∀ p i, w.files.names (.lib p) = .file i → w'.files.names (.lib p) = .file i ∨ (∃ j, w'.files.names (.lib p) = .file j ∧
    w'.files.data j = (S.job call.job).data ∧ .lib p = S.libraryPath call.job (S.digest call.job))
  indexes : ∀ k i, w'.files.names (.index k) = .file i → w.files.names (.index k) = .file i ∨ w'.author i = some c ∧
    w'.files.data i = hintText (S.digest call.job) ∧ k = S.key call.job ∧ ∃ held a t, call.pc = .renamesIndex held a t

/-- what is to be known where a call goes -/
structure Arrival (w w' : World ι ℓ) (c : ℕ) (call : Call ι ℓ) (pc : Pc ℓ) (refused : Bool) : Prop where
  held : ∀ t ∈ pc.held, t ∈ call.pc.held ∨ t.pid = (w.procs call.proc).pid ∧ t.sequence = (w.procs call.proc).count ∧
    (w.procs call.proc).count < (w'.procs call.proc).count
  nodup : pc.held.Nodup
  writing : ∀ {t i left x}, pc.writing = some (t, i, left, x) →
    w'.files.names (.temp t) = .file i ∧ w'.author i = some c ∧ w'.files.data i ++ left = text S call.job x
  written : ∀ {t x}, pc.written = some (t, x) →
    ∃ i, w'.files.names (.temp t) = .file i ∧ w'.author i = some c ∧ w'.files.data i = text S call.job x
  good : pc.past = true → (S.job call.job).good = true
  hint : ∀ {i}, pc.hint = some i → call.pc.hint = some i ∨ w.files.names (.index (S.key call.job)) = .file i
  found : ∀ {d i}, pc.found = some (d, i) → readIndex (w.files.data i) = some d
  answers : ∀ {a}, pc.answer = some a → w'.fair S call.job call.extract (call.refused || refused) a
  checks : ∀ {t}, pc = .checks t → refused = true
  reused : ∀ {d len i}, pc.answer = some (.reused d len i) → pc = .done (.reused d len i)
  late : ∀ {a}, pc.late = some a → ∃ d, a = .extracted d ∨ a = .raced d
  raced : ∀ {d}, pc.answer = some (.raced d) → call.pc.answer = some (.raced d) ∨ ∃ t f, call.pc = .checks t ∧
    w.files.names (S.libraryPath call.job (S.digest call.job)) = .file f ∧ (w.files.data f).length = S.size call.job

end Invariant

/-! ## One step of one call -/

section Change

variable {S : Setting ι ℓ} {w w' : World ι ℓ} {c c' : ℕ} {call call' : Call ι ℓ} {pc : Pc ℓ} {refused : Bool} {t : Temp}
  {i : Ino (Path ℓ)}

theorem goTo_self : (w.goTo c call pc refused).calls c = some { call with pc, refused := call.refused || refused } :=
  Function.update_self ..

theorem goTo_other (h : c' ≠ c) : (w.goTo c call pc refused).calls c' = w.calls c' := Function.update_of_ne h ..

theorem held_of_writing {pc : Pc ℓ} {left : Bytes} {x : Bool} (h : pc.writing = some (t, i, left, x)) : t ∈ pc.held := by
  cases pc <;> cases h <;> exact List.mem_cons_self

theorem held_of_written {pc : Pc ℓ} {x : Bool} (h : pc.written = some (t, x)) : t ∈ pc.held := by
  cases pc <;> cases h <;> exact List.mem_cons_self

theorem hint_of_found {pc : Pc ℓ} {d : Digest} (h : pc.found = some (d, i)) : pc.hint = some i := by
  unfold Pc.found at h
  split at h
  · cases h
    rfl
  · cases h
    rfl
  · cases h

/-- the job is the same wherever the call is -/
theorem calls_after (f : Change S w w' c call pc) (hc : w.calls c = some call) (refused : Bool) {c₁ : ℕ} {call₁ : Call ι ℓ}
    (h₁ : w.calls c₁ = some call₁) : ∃ call₂, (w'.goTo c call pc refused).calls c₁ = some call₂ ∧ call₂.job = call₁.job := by
  rcases eq_or_ne c₁ c with rfl | hne
  · cases hc.symm.trans h₁
    exact ⟨_, goTo_self, rfl⟩
  · exact ⟨call₁, by rw [goTo_other hne, f.calls, h₁], rfl⟩

/-- a call after the step is another one, as it was, or the one that took it -/
theorem calls_before (f : Change S w w' c call pc) {c₁ : ℕ} {call₁ : Call ι ℓ}
    (h₁ : (w'.goTo c call pc refused).calls c₁ = some call₁) :
    c₁ = c ∧ call₁ = { call with pc, refused := call.refused || refused } ∨ c₁ ≠ c ∧ w.calls c₁ = some call₁ := by
  rcases eq_or_ne c₁ c with rfl | hne
  · rw [goTo_self] at h₁
    exact .inl ⟨rfl, (Option.some.inj h₁).symm⟩
  · rw [goTo_other hne, f.calls] at h₁
    exact .inr ⟨hne, h₁⟩

theorem Change.live (f : Change S w w' c call pc) {call₁ : Call ι ℓ} : (w'.goTo c call pc refused).live call₁ ↔ w.live call₁ := by
  change (w'.procs call₁.proc).alive = true ↔ _
  rw [(f.procs call₁.proc).2.1]
  rfl

/-- the files of another live call are no part of the step -/
theorem Inv.disjoint (h : Inv S w) (hc : w.calls c = some call) (hlive : w.live call) (ar : Arrival S w w' c call pc refused)
    (hc' : w.calls c' = some call') (hlive' : w.live call') (hne : c' ≠ c) (ht : t ∈ call'.pc.held) :
    t ∉ call.pc.held ∧ t ∉ pc.held := by
  have hold : t ∉ call.pc.held := fun hm => hne (h.apart hc' hlive' hc hlive ht hm)
  refine ⟨hold, ?_⟩
  intro hm
  rcases ar.held t hm with hm | ⟨hpid, hseq, -⟩
  · exact hold hm
  · obtain ⟨hpid', hseq'⟩ := h.held hc' hlive' ht
    have hproc : call.proc = call'.proc := h.pids hlive hlive' (hpid.symm.trans hpid')
    rw [hproc] at hseq
    omega

/-- a file under a name that is not a temporary one is not written -/
theorem Change.fixed (f : Change S w w' c call pc) (h : Inv S w) {p : Path ℓ} (hp : ∀ t, p ≠ .temp t)
    (hi : w.files.names p = .file i) : w'.files.data i = w.files.data i ∧ w'.author i = w.author i := by
  refine f.data i ?_ ?_
  · intro t _ ht
    exact hp t (h.files.apart hi ht)
  · rintro rfl
    exact absurd (h.files.known hi) (lt_irrefl _)

/-- nor is one of another call -/
theorem Change.spared (f : Change S w w' c call pc) (h : Inv S w) (ht : t ∉ call.pc.held) (ht' : t ∉ pc.held)
    (hi : w.files.names (.temp t) = .file i) :
    w'.files.names (.temp t) = .file i ∧ w'.files.data i = w.files.data i ∧ w'.author i = w.author i := by
  refine ⟨(f.elsewhere t ht ht').trans hi, f.data i ?_ ?_⟩
  · intro t' hm hi'
    have := h.files.apart hi hi'
    cases this
    rcases hm with hm | hm
    · exact ht hm
    · exact ht' hm
  · rintro rfl
    exact absurd (h.files.known hi) (lt_irrefl _)

/-- nor is a hint that was opened -/
theorem Change.unwritten (f : Change S w w' c call pc) (hnot : ∀ t, w.files.names (.temp t) ≠ .file i)
    (hknown : ∀ n, i = .new n → n < w.files.next) : w'.files.data i = w.files.data i ∧ w'.author i = w.author i := by
  refine f.data i (fun t _ => hnot t) ?_
  rintro rfl
  exact absurd (hknown _ rfl) (lt_irrefl _)

/-- a library that is in its place stays, whole -/
theorem Change.holds (f : Change S w w' c call pc) (hS : S.Sound) (h : Inv S w) {j : ι} (hj : w.holds S j) : w'.holds S j := by
  obtain ⟨hgood, k, hk, hdata⟩ := hj
  refine ⟨hgood, ?_⟩
  rcases f.stays _ k hk with hk' | ⟨k', hk', hdata', hplace⟩
  · refine ⟨k, hk', ?_⟩
    rw [(f.fixed h (by intro t; exact nofun) hk).1]
    exact hdata
  · refine ⟨k', hk', ?_⟩
    rw [hdata']
    exact hS.contents _ _ (hS.places _ _ hplace.symm)

theorem Change.fair (f : Change S w w' c call pc) (hS : S.Sound) (h : Inv S w) {j : ι} {x r : Bool} {a : Answer ℓ}
    (ha : w.fair S j x r a) : w'.fair S j x r a := by
  cases a with
  | extracted d => exact ⟨ha.1, f.holds hS h ha.2⟩
  | _ => exact ha

/-- what is known of a hint there, and of the call that wrote it -/
theorem Inv.indexed (h : Inv S w) {k : Digest} (hi : w.files.names (.index k) = .file i) :
    (∀ t, w.files.names (.temp t) ≠ .file i) ∧ (∀ n, i = .new n → n < w.files.next) ∧ ∀ c', w.author i = some c' →
      ∃ call', w.calls c' = some call' ∧ w.files.data i = hintText (S.digest call'.job) ∧ k = S.key call'.job := by
  refine ⟨?_, ?_, fun c' => h.indexes hi⟩
  · intro t ht
    cases h.files.apart hi ht
  · rintro n rfl
    exact h.files.known hi

theorem Inv.change (hS : S.Sound) (h : Inv S w) (hc : w.calls c = some call) (hlive : w.live call)
    (f : Change S w w' c call pc) (ar : Arrival S w w' c call pc refused) : Inv S (w'.goTo c call pc refused) := by
  constructor
  case files => exact f.sound
  case pids =>
    intro p q hp hq hpq
    refine h.pids ?_ ?_ ?_
    · rw [← (f.procs p).2.1]
      exact hp
    · rw [← (f.procs q).2.1]
      exact hq
    · rw [← (f.procs p).1, ← (f.procs q).1]
      exact hpq
  case procs =>
    intro p hp
    change p < w'.nextProc
    rw [f.nextProc]
    refine h.procs ?_
    rw [← (f.procs p).2.1]
    exact hp
  case calls =>
    intro c₁ hle
    have hc₁ : w.nextCall ≤ c₁ := f.nextCall ▸ hle
    have hne : c₁ ≠ c := by
      rintro rfl
      cases (h.calls hc₁).symm.trans hc
    rw [goTo_other hne, f.calls]
    exact h.calls hc₁
  case held =>
    intro c₁ call₁ t h₁ hl ht
    change t.pid = (w'.procs call₁.proc).pid ∧ t.sequence < (w'.procs call₁.proc).count
    rw [(f.procs call₁.proc).1]
    have hcount := (f.procs call₁.proc).2.2
    rcases calls_before f h₁ with ⟨-, rfl⟩ | ⟨-, h₁⟩
    · rcases ar.held t ht with hm | ⟨hpid, hseq, hlt⟩
      · obtain ⟨hpid, hseq⟩ := h.held hc hlive hm
        exact ⟨hpid, hseq.trans_le hcount⟩
      · exact ⟨hpid, hseq ▸ hlt⟩
    · obtain ⟨hpid, hseq⟩ := h.held h₁ (f.live.mp hl) ht
      exact ⟨hpid, hseq.trans_le hcount⟩
  case apart =>
    intro c₁ c₂ call₁ call₂ t h₁ hl₁ h₂ hl₂ ht₁ ht₂
    rcases calls_before f h₁ with ⟨hc₁, hcall₁⟩ | ⟨hne₁, hold₁⟩
    · rcases calls_before f h₂ with ⟨hc₂, -⟩ | ⟨hne₂, hold₂⟩
      · rw [hc₁, hc₂]
      · rw [hcall₁] at ht₁
        exact absurd ht₁ (h.disjoint hc hlive ar hold₂ (f.live.mp hl₂) hne₂ ht₂).2
    · rcases calls_before f h₂ with ⟨-, hcall₂⟩ | ⟨hne₂, hold₂⟩
      · rw [hcall₂] at ht₂
        exact absurd ht₂ (h.disjoint hc hlive ar hold₁ (f.live.mp hl₁) hne₁ ht₁).2
      · exact h.apart hold₁ (f.live.mp hl₁) hold₂ (f.live.mp hl₂) ht₁ ht₂
  case nodup =>
    intro c₁ call₁ h₁
    rcases calls_before f h₁ with ⟨-, rfl⟩ | ⟨-, h₁⟩
    · exact ar.nodup
    · exact h.nodup h₁
  case writing =>
    intro c₁ call₁ t i left x h₁ hl hw
    rcases calls_before f h₁ with ⟨rfl, rfl⟩ | ⟨hne, h₁⟩
    · exact ar.writing hw
    · obtain ⟨hname, hauthor, hdata⟩ := h.writing h₁ (f.live.mp hl) hw
      obtain ⟨hout, hout'⟩ := h.disjoint hc hlive ar h₁ (f.live.mp hl) hne (held_of_writing hw)
      obtain ⟨hname', hdata', hauthor'⟩ := f.spared h hout hout' hname
      exact ⟨hname', hauthor'.trans hauthor, hdata' ▸ hdata⟩
  case written =>
    intro c₁ call₁ t x h₁ hl hw
    rcases calls_before f h₁ with ⟨rfl, rfl⟩ | ⟨hne, h₁⟩
    · exact ar.written hw
    · obtain ⟨i, hname, hauthor, hdata⟩ := h.written h₁ (f.live.mp hl) hw
      obtain ⟨hout, hout'⟩ := h.disjoint hc hlive ar h₁ (f.live.mp hl) hne (held_of_written hw)
      obtain ⟨hname', hdata', hauthor'⟩ := f.spared h hout hout' hname
      exact ⟨i, hname', hauthor'.trans hauthor, hdata'.trans hdata⟩
  case good =>
    intro c₁ call₁ h₁ hp
    rcases calls_before f h₁ with ⟨-, rfl⟩ | ⟨-, h₁⟩
    · exact ar.good hp
    · exact h.good h₁ hp
  case libs =>
    intro p i c₁ hp ha
    rcases f.libs p i hp with hold | ⟨hauthor, hgood, hdata, hplace⟩
    · obtain ⟨hdata, hauthor⟩ := f.fixed h (by intro t; exact nofun) hold
      obtain ⟨call₁, h₁, hgood, hdata₁, hplace⟩ := h.libs hold (hauthor.symm.trans ha)
      obtain ⟨call₂, h₂, hjob⟩ := calls_after f hc refused h₁
      exact ⟨call₂, h₂, hjob ▸ hgood, hjob ▸ hdata.trans hdata₁, hjob ▸ hplace⟩
    · cases hauthor.symm.trans ha
      exact ⟨_, goTo_self, hgood, hdata, hplace⟩
  case indexes =>
    intro k i c₁ hk ha
    rcases f.indexes k i hk with hold | ⟨hauthor, hdata, hkey, -⟩
    · obtain ⟨hdata, hauthor⟩ := f.fixed h (by intro t; exact nofun) hold
      obtain ⟨call₁, h₁, hdata₁, hkey⟩ := h.indexes hold (hauthor.symm.trans ha)
      obtain ⟨call₂, h₂, hjob⟩ := calls_after f hc refused h₁
      exact ⟨call₂, h₂, hjob ▸ hdata.trans hdata₁, hjob ▸ hkey⟩
    · cases hauthor.symm.trans ha
      exact ⟨_, goTo_self, hdata, hkey⟩
  case hints =>
    intro c₁ call₁ i h₁ hi
    obtain ⟨hnot, hknown, hwho⟩ : (∀ t, w.files.names (.temp t) ≠ .file i) ∧ (∀ n, i = .new n → n < w.files.next) ∧
        ∀ c', w.author i = some c' → ∃ call', w.calls c' = some call' ∧ w.files.data i = hintText (S.digest call'.job) ∧
          S.key call₁.job = S.key call'.job := by
      rcases calls_before f h₁ with ⟨-, hcall₁⟩ | ⟨-, h₁⟩
      · subst hcall₁
        rcases ar.hint hi with hold | hnew
        · have := h.hints hc hold
          exact this
        · exact h.indexed hnew
      · exact h.hints h₁ hi
    obtain ⟨hdata, hauthor⟩ := f.unwritten hnot hknown
    refine ⟨?_, fun n hn => (hknown n hn).trans_le f.next, ?_⟩
    · intro t ht
      rcases f.temps t i ht with hold | rfl
      · exact hnot t hold
      · exact absurd (hknown _ rfl) (lt_irrefl _)
    · intro c₂ ha
      obtain ⟨call₂, h₂, hdata₂, hkey⟩ := hwho c₂ (hauthor.symm.trans ha)
      obtain ⟨call₃, h₃, hjob⟩ := calls_after f hc refused h₂
      exact ⟨call₃, h₃, hjob ▸ hdata.trans hdata₂, hjob ▸ hkey⟩
  case found =>
    intro c₁ call₁ d i h₁ hf
    obtain ⟨hnot, hknown, hread⟩ : (∀ t, w.files.names (.temp t) ≠ .file i) ∧ (∀ n, i = .new n → n < w.files.next) ∧
        readIndex (w.files.data i) = some d := by
      rcases calls_before f h₁ with ⟨rfl, rfl⟩ | ⟨-, h₁⟩
      · rcases ar.hint (hint_of_found hf) with hi | hi
        · exact ⟨(h.hints hc hi).1, (h.hints hc hi).2.1, ar.found hf⟩
        · exact ⟨(h.indexed hi).1, (h.indexed hi).2.1, ar.found hf⟩
      · exact ⟨(h.hints h₁ (hint_of_found hf)).1, (h.hints h₁ (hint_of_found hf)).2.1, h.found h₁ hf⟩
    change readIndex (w'.files.data i) = some d
    rw [(f.unwritten hnot hknown).1]
    exact hread
  case answers =>
    intro c₁ call₁ a h₁ ha
    change w'.fair S call₁.job call₁.extract call₁.refused a
    rcases calls_before f h₁ with ⟨-, rfl⟩ | ⟨-, h₁⟩
    · exact ar.answers ha
    · exact f.fair hS h (h.answers h₁ ha)
  case checks =>
    intro c₁ call₁ t h₁ ht
    rcases calls_before f h₁ with ⟨-, rfl⟩ | ⟨-, h₁⟩
    · change (call.refused || refused) = true
      rw [ar.checks ht, Bool.or_true]
    · exact h.checks h₁ ht
  case reused =>
    intro c₁ call₁ d len i h₁ ha
    rcases calls_before f h₁ with ⟨-, rfl⟩ | ⟨-, h₁⟩
    · exact ar.reused ha
    · exact h.reused h₁ ha
  case late =>
    intro c₁ call₁ a h₁ ha
    rcases calls_before f h₁ with ⟨-, rfl⟩ | ⟨-, h₁⟩
    · exact ar.late ha
    · exact h.late h₁ ha
  case callers =>
    intro c₁ call₁ h₁
    change call₁.proc < w'.nextProc
    rw [f.nextProc]
    rcases calls_before f h₁ with ⟨-, rfl⟩ | ⟨-, h₁⟩
    · have := h.callers hc
      exact this
    · exact h.callers h₁

end Change

end Omnidroid.Apk
