/-
The bind table that an instance's host processes share through a file: each mount and unmount reads the file again if its time
has changed, changes the table it has, and writes it whole; anyone may read it in between.
- `binds_agree`: the file holds the mounts that returned, made one after the other, and whoever reads it again has them, in
  every run in which a mount's or unmount's three steps come with no other's between, its save is whole and has a time of
  its own, and its strings have no tabs and line ends.
- `binds_disagree`: a mount overtaken, a target that is an entry of its own, a time seen before, and a save that fails.
-/
import Omnidroid.Lib.Run
import Omnidroid.Lib.FinMap
import Omnidroid.Vfs.Binds

namespace Omnidroid.Binds

open Bytes

/-- a host process's table, and the time its file had when it was read or saved -/
structure Proc where
  table : List Bind := []
  seen : Option ℕ := none

/-- how far a mount or unmount under way has come -/
inductive Flight where
  | reloaded (op : Op)
  /-- the table is changed; what it is to save -/
  | changed (op : Op) (table : List Bind)
deriving DecidableEq

structure World where
  /-- the file's bytes and time -/
  file : Option (Bytes × ℕ) := none
  procs : Map ℕ Proc := ∅
  /-- by process and thread -/
  busy : Map (ℕ × ℕ) Flight := ∅
  /-- what has returned success, oldest first -/
  returned : List Op := []

inductive Act where
  | start (p : ℕ)
  | stop (p : ℕ)
  /-- the file read again by one that looks a path up -/
  | look (p : ℕ)
  /-- a mount's or unmount's `reload` -/
  | begin (p t : ℕ) (op : Op)
  | change (p t : ℕ)
  /-- how many bytes are written, if the file can be opened -/
  | save (p t time : ℕ) (wrote : Option ℕ)
deriving DecidableEq

namespace World

def time (w : World) : Option ℕ := w.file.map (·.2)

def bytes (w : World) : Bytes := w.file.elim [] (·.1)

/-- `reload` -/
def reload (w : World) (pr : Proc) : Proc := if w.time = pr.seen then pr else { table := parse w.bytes, seen := w.time }

def setProc (w : World) (p : ℕ) (pr : Proc) : World := { w with procs := w.procs.insert p pr }

/-- what is in the file after `save` -/
def written (w : World) (table : List Bind) (time : ℕ) (wrote : Option ℕ) : Option (Bytes × ℕ) :=
  match wrote with
  | none => w.file
  | some n => some ((format table).take n, time)

def step (w : World) : Act → World
  | .start p =>
    match w.procs.lookup p with
    | none => w.setProc p (w.reload {})
    | some _ => w
  | .stop p => { w with procs := w.procs.erase p, busy := w.busy.retain fun k f => if k.1 = p then none else some f }
  | .look p =>
    match w.procs.lookup p with
    | none => w
    | some pr => w.setProc p (w.reload pr)
  | .begin p t op =>
    match w.procs.lookup p, w.busy.lookup (p, t) with
    | some pr, none => { w.setProc p (w.reload pr) with busy := w.busy.insert (p, t) (.reloaded op) }
    | _, _ => w
  | .change p t =>
    match w.procs.lookup p, w.busy.lookup (p, t) with
    | some pr, some (.reloaded op) =>
      { w.setProc p { pr with table := op.apply pr.table } with
        busy := if op.saves pr.table then w.busy.insert (p, t) (.changed op (op.apply pr.table)) else w.busy.erase (p, t) }
    | _, _ => w
  | .save p t time wrote =>
    match w.procs.lookup p, w.busy.lookup (p, t) with
    | some pr, some (.changed op table) =>
      { w.setProc p { pr with seen := (w.written table time wrote).map (·.2) } with
        file := w.written table time wrote, busy := w.busy.erase (p, t), returned := w.returned ++ [op] }
    | _, _ => w

/-- all of what is to be saved is written -/
def whole (w : World) (p t : ℕ) (wrote : Option ℕ) : Bool :=
  match w.busy.lookup (p, t) with
  | some (.changed _ table) => wrote.any ((format table).length ≤ ·)
  | _ => true

/-- one mount or unmount at a time, of strings that a line holds; a save is whole and its time is no one's yet -/
def steady (w : World) : Act → Prop
  | .begin _ _ op => w.busy.entries = [] ∧ op.Holds
  | .save p t time wrote => (∀ e ∈ w.procs.entries, e.2.seen ≠ some time) ∧ w.whole p t wrote
  | _ => True

/-- the mounts that returned, made one after the other -/
def mounted (w : World) : List Bind := w.returned.foldl Op.apply []

/-- a process with no mount or unmount under way -/
def Idle (w : World) (p : ℕ) : Prop := ∀ t, w.busy.lookup (p, t) = none

end World

/-- what is to hold of the table and its file -/
structure Agreed (w : World) : Prop where
  /-- what is read after a save, with none of the mounts and unmounts that returned lost -/
  saved : parse w.bytes = w.mounted
  /-- whoever reads again sees each path as every other does -/
  same : ∀ p pr, w.procs.lookup p = some pr → w.Idle p →
    (∀ host, redirect (w.reload pr).table host = redirect w.mounted host) ∧
      ∀ path, covering (w.reload pr).table path = covering w.mounted path
  /-- every entry was mounted -/
  made : ∀ b ∈ parse w.bytes, ∃ target host over_, Op.bind target host over_ ∈ w.returned ∧ b = ⟨target, host, overOf host over_⟩

/-! ## One mount at a time -/

/-- what is in the file, and in the table of each process that has seen it -/
structure World.Inv (w : World) : Prop where
  holds : ∀ b ∈ w.mounted, b.Holds
  file : w.bytes = format w.mounted
  none : w.file = none → w.mounted = []
  alone : ∀ k k', (w.busy.lookup k).isSome → (w.busy.lookup k').isSome → k = k'
  flight : ∀ p t f, w.busy.lookup (p, t) = some f → ∃ pr, w.procs.lookup p = some pr ∧ pr.seen = w.time ∧
    match f with
    | .reloaded op => pr.table = w.mounted ∧ op.Holds
    | .changed op table => table = op.apply w.mounted ∧ pr.table = table ∧ op.Holds
  idle : ∀ p pr, w.procs.lookup p = some pr → w.Idle p → pr.seen = w.time → pr.table = w.mounted

namespace World

variable {w : World}

theorem parse_bytes (hi : w.Inv) : parse w.bytes = w.mounted := by rw [hi.file, parse_format hi.holds]

theorem lookup_setProc (w : World) (p q : ℕ) (pr : Proc) :
    (w.setProc p pr).procs.lookup q = if q = p then some pr else w.procs.lookup q := Map.lookup_insert_eq ..

theorem reload_seen (w : World) (pr : Proc) : (w.reload pr).seen = w.time := by
  unfold reload
  split_ifs with h
  · exact h.symm
  · rfl

theorem reload_of_seen {pr : Proc} (h : pr.seen = w.time) : w.reload pr = pr := if_pos h.symm

/-- an idle process that reads again has what is mounted -/
theorem reload_table (hi : w.Inv) {p : ℕ} {pr : Proc} (hp : w.procs.lookup p = some pr) (hidle : w.Idle p) :
    (w.reload pr).table = w.mounted := by
  by_cases h : pr.seen = w.time
  · rw [reload_of_seen h]
    exact hi.idle p pr hp hidle h
  · unfold reload
    rw [if_neg (Ne.symm h)]
    exact parse_bytes hi

/-- a process reads again -/
theorem inv_reload (hi : w.Inv) {p : ℕ} {pr : Proc} (hp : w.procs.lookup p = some pr) : (w.setProc p (w.reload pr)).Inv where
  holds := hi.holds
  file := hi.file
  none := hi.none
  alone := hi.alone
  flight := by
    intro q t f hf
    obtain ⟨pr', hq, hseen, hrest⟩ := hi.flight q t f hf
    rw [lookup_setProc]
    by_cases hqp : q = p
    · -- one under way has just read it
      subst hqp
      rw [hp] at hq
      cases hq
      rw [if_pos rfl, reload_of_seen hseen]
      exact ⟨pr, rfl, hseen, hrest⟩
    · rw [if_neg hqp]
      exact ⟨pr', hq, hseen, hrest⟩
  idle := by
    intro q pr' hq hidle hseen
    rw [lookup_setProc] at hq
    split_ifs at hq with hqp
    · cases hq
      exact reload_table hi hp (hqp ▸ hidle)
    · exact hi.idle q pr' hq hidle hseen

theorem inv_start (hi : w.Inv) {p : ℕ} (hp : w.procs.lookup p = none) : (w.setProc p (w.reload {})).Inv where
  holds := hi.holds
  file := hi.file
  none := hi.none
  alone := hi.alone
  flight := by
    intro q t f hf
    obtain ⟨pr', hq, hrest⟩ := hi.flight q t f hf
    have hqp : q ≠ p := by
      rintro rfl
      rw [hp] at hq
      cases hq
    rw [lookup_setProc, if_neg hqp]
    exact ⟨pr', hq, hrest⟩
  idle := by
    intro q pr' hq hidle hseen
    rw [lookup_setProc] at hq
    split_ifs at hq with hqp
    · cases hq
      unfold reload
      split_ifs with hnone
      · exact (hi.none (Option.map_eq_none_iff.mp hnone)).symm
      · exact parse_bytes hi
    · exact hi.idle q pr' hq hidle hseen

theorem inv_stop (hi : w.Inv) (p : ℕ) : (w.step (.stop p)).Inv := by
  have hbusy : ∀ q t, (w.step (.stop p)).busy.lookup (q, t) = if q = p then none else w.busy.lookup (q, t) := by
    intro q t
    simp only [step]
    rw [Map.lookup_retain]
    by_cases hq : q = p
    · cases w.busy.lookup (q, t) <;> simp [hq]
    · cases w.busy.lookup (q, t) <;> simp [hq]
  have hprocs : ∀ q, (w.step (.stop p)).procs.lookup q = if q = p then none else w.procs.lookup q := fun q => Map.lookup_erase_eq ..
  refine ⟨hi.holds, hi.file, hi.none, ?_, ?_, ?_⟩
  · rintro ⟨q, t⟩ ⟨q', t'⟩ hk hk'
    rw [hbusy] at hk hk'
    by_cases hq : q = p
    · rw [if_pos hq] at hk
      cases hk
    · by_cases hq' : q' = p
      · rw [if_pos hq'] at hk'
        cases hk'
      · rw [if_neg hq] at hk
        rw [if_neg hq'] at hk'
        exact hi.alone _ _ hk hk'
  · intro q t f hf
    rw [hbusy] at hf
    by_cases hq : q = p
    · rw [if_pos hq] at hf
      cases hf
    · rw [if_neg hq] at hf
      rw [hprocs, if_neg hq]
      exact hi.flight q t f hf
  · intro q pr hq hidle hseen
    rw [hprocs] at hq
    by_cases hqp : q = p
    · rw [if_pos hqp] at hq
      cases hq
    · rw [if_neg hqp] at hq
      refine hi.idle q pr hq (fun t => ?_) hseen
      have := hidle t
      rwa [hbusy, if_neg hqp] at this

theorem inv_begin (hi : w.Inv) {p t : ℕ} {op : Op} {pr : Proc} (hp : w.procs.lookup p = some pr) (hempty : w.busy.entries = [])
    (hop : op.Holds) : ({ w.setProc p (w.reload pr) with busy := w.busy.insert (p, t) (.reloaded op) } : World).Inv := by
  have hnone : ∀ k, w.busy.lookup k = none := by
    intro k
    refine AList.lookup_eq_none.mpr fun hk => ?_
    have hkeys : k ∈ w.busy.entries.keys := hk
    rw [hempty] at hkeys
    cases hkeys
  have hi' := inv_reload hi hp
  have htable : (w.reload pr).table = w.mounted := reload_table hi hp fun t => hnone _
  refine ⟨hi'.holds, hi'.file, hi'.none, ?_, ?_, ?_⟩
  · intro k k' hk hk'
    change ((w.busy.insert (p, t) (.reloaded op)).lookup k).isSome at hk
    change ((w.busy.insert (p, t) (.reloaded op)).lookup k').isSome at hk'
    rw [Map.lookup_insert_eq] at hk hk'
    split_ifs at hk with h
    · split_ifs at hk' with h'
      · exact h.trans h'.symm
      · rw [hnone] at hk'
        cases hk'
    · rw [hnone] at hk
      cases hk
  · intro q t' f hf
    change (w.busy.insert (p, t) (.reloaded op)).lookup (q, t') = some f at hf
    rw [Map.lookup_insert_eq] at hf
    split_ifs at hf with h
    · cases hf
      cases h
      refine ⟨w.reload pr, ?_, reload_seen w pr, htable, hop⟩
      change (w.setProc p (w.reload pr)).procs.lookup p = _
      rw [lookup_setProc, if_pos rfl]
    · rw [hnone] at hf
      cases hf
  · intro q pr' hq hidle hseen
    refine hi'.idle q pr' hq (fun t' => ?_) hseen
    exact hnone _

theorem apply_unsaved {table : List Bind} {op : Op} (h : op.saves table = false) : op.apply table = table := by
  cases op with
  | bind target host over_ => cases h
  | unbind target =>
    have hlen : (table.filter (·.target ≠ target)).length = table.length := by
      simpa [Op.saves] using h
    exact List.filter_eq_self.mpr (List.length_filter_eq_length_iff.mp hlen)

theorem inv_change (hi : w.Inv) {p t : ℕ} {op : Op} {pr : Proc} (hp : w.procs.lookup p = some pr)
    (hf : w.busy.lookup (p, t) = some (.reloaded op)) :
    ({ w.setProc p { pr with table := op.apply pr.table } with
        busy := if op.saves pr.table then w.busy.insert (p, t) (.changed op (op.apply pr.table)) else w.busy.erase (p, t) } : World).Inv := by
  obtain ⟨pr₀, hp₀, hseen, htable, hop⟩ := hi.flight p t _ hf
  rw [hp] at hp₀
  cases hp₀
  have hothers : ∀ q t', q ≠ p ∨ t' ≠ t → w.busy.lookup (q, t') = none := by
    intro q t' hne
    by_contra hsome
    have := hi.alone (q, t') (p, t) (Option.isSome_iff_ne_none.mpr hsome) (by rw [hf]; rfl)
    rcases hne with h | h
    · exact h (congrArg Prod.fst this)
    · exact h (congrArg Prod.snd this)
  -- whether or not it goes on to save, nothing else is under way
  have hbusy : ∀ q t' f,
      (if op.saves pr.table then w.busy.insert (p, t) (.changed op (op.apply pr.table)) else w.busy.erase (p, t)).lookup (q, t') = some f →
        q = p ∧ t' = t ∧ op.saves pr.table = true ∧ f = .changed op (op.apply pr.table) := by
    intro q t' f hlook
    split_ifs at hlook with hsaves
    · rw [Map.lookup_insert_eq] at hlook
      split_ifs at hlook with h
      · cases h
        exact ⟨rfl, rfl, hsaves, (Option.some.inj hlook).symm⟩
      · have hne : q ≠ p ∨ t' ≠ t := by
          by_contra hcon
          obtain ⟨h₁, h₂⟩ := not_or.mp hcon
          exact h (by rw [not_not.mp h₁, not_not.mp h₂])
        rw [hothers q t' hne] at hlook
        cases hlook
    · rw [Map.lookup_erase_eq] at hlook
      by_cases h : (q, t') = (p, t)
      · rw [if_pos h] at hlook
        cases hlook
      · rw [if_neg h] at hlook
        have hne : q ≠ p ∨ t' ≠ t := by
          by_contra hcon
          obtain ⟨h₁, h₂⟩ := not_or.mp hcon
          exact h (by rw [not_not.mp h₁, not_not.mp h₂])
        rw [hothers q t' hne] at hlook
        cases hlook
  refine ⟨hi.holds, hi.file, hi.none, ?_, ?_, ?_⟩
  · rintro ⟨q, t₁⟩ ⟨q', t₂⟩ hk hk'
    obtain ⟨f, hk⟩ := Option.isSome_iff_exists.mp hk
    obtain ⟨f', hk'⟩ := Option.isSome_iff_exists.mp hk'
    obtain ⟨rfl, rfl, -⟩ := hbusy q t₁ f hk
    obtain ⟨rfl, rfl, -⟩ := hbusy q' t₂ f' hk'
    rfl
  · intro q t' f hlook
    obtain ⟨rfl, rfl, -, rfl⟩ := hbusy q t' f hlook
    refine ⟨{ pr with table := op.apply pr.table }, ?_, hseen, ?_, rfl, hop⟩
    · exact (lookup_setProc w q q _).trans (if_pos rfl)
    · exact congrArg op.apply htable
  · intro q pr' hq hidle hseen'
    have hq' := (lookup_setProc w p q _).symm.trans hq
    split_ifs at hq' with hqp
    · cases hq'
      subst hqp
      -- it is idle, so it does not go on to save: nothing was removed
      cases hsaves : op.saves pr.table with
      | false => exact (apply_unsaved hsaves).trans htable
      | true =>
        have hbusyq := hidle t
        change (if op.saves pr.table then w.busy.insert (q, t) (.changed op (op.apply pr.table)) else w.busy.erase (q, t)).lookup (q, t) =
          none at hbusyq
        rw [hsaves, if_pos rfl, AList.lookup_insert] at hbusyq
        cases hbusyq
    · refine hi.idle q pr' hq' (fun t' => hothers q t' (.inl hqp)) hseen'

theorem mounted_append (w : World) (op : Op) : (w.returned ++ [op]).foldl Op.apply [] = op.apply w.mounted := List.foldl_append

theorem inv_save (hi : w.Inv) {p t time : ℕ} {op : Op} {table : List Bind} {pr : Proc} (hp : w.procs.lookup p = some pr)
    (hf : w.busy.lookup (p, t) = some (.changed op table)) (hnew : ∀ e ∈ w.procs.entries, e.2.seen ≠ some time) :
    ({ w.setProc p { pr with seen := some time } with
        file := some (format table, time), busy := w.busy.erase (p, t), returned := w.returned ++ [op] } : World).Inv := by
  obtain ⟨pr₀, hp₀, -, htable, hown, hop⟩ := hi.flight p t _ hf
  rw [hp] at hp₀
  cases hp₀
  have hnone : ∀ k, (w.busy.erase (p, t)).lookup k = none := by
    intro k
    rw [Map.lookup_erase_eq]
    by_cases hk : k = (p, t)
    · exact if_pos hk
    · rw [if_neg hk]
      by_contra hsome
      exact hk (hi.alone k (p, t) (Option.isSome_iff_ne_none.mpr hsome) (by rw [hf]; rfl))
  have hmounted : (w.returned ++ [op]).foldl Op.apply [] = table := (mounted_append w op).trans htable.symm
  refine ⟨?_, ?_, ?_, ?_, ?_, ?_⟩
  · change ∀ b ∈ (w.returned ++ [op]).foldl Op.apply [], b.Holds
    rw [mounted_append]
    exact apply_holds hi.holds hop
  · change format table = format ((w.returned ++ [op]).foldl Op.apply [])
    rw [hmounted]
  · intro h
    cases h
  · intro k k' hk
    have hk' : ((w.busy.erase (p, t)).lookup k).isSome := hk
    rw [hnone] at hk'
    cases hk'
  · intro q t' f hlook
    have hlook' : (w.busy.erase (p, t)).lookup (q, t') = some f := hlook
    rw [hnone] at hlook'
    cases hlook'
  · intro q pr' hq _ hseen
    have hq' := (lookup_setProc w p q _).symm.trans hq
    change pr'.table = (w.returned ++ [op]).foldl Op.apply []
    rw [hmounted]
    split_ifs at hq' with hqp
    · cases hq'
      exact hown
    · exact absurd hseen (hnew _ ((Map.mem_entries ..).mpr hq'))

theorem step_inv (hi : w.Inv) (a : Act) (ho : w.steady a) : (w.step a).Inv := by
  cases a with
  | start p =>
    simp only [step]
    cases hp : w.procs.lookup p with
    | none => exact inv_start hi hp
    | some pr => exact hi
  | stop p => exact inv_stop hi p
  | look p =>
    simp only [step]
    cases hp : w.procs.lookup p with
    | none => exact hi
    | some pr => exact inv_reload hi hp
  | begin p t op =>
    simp only [step]
    split
    · next pr hp _ => exact inv_begin hi hp ho.1 ho.2
    · exact hi
  | change p t =>
    simp only [step]
    split
    · next pr op hp hf => exact inv_change hi hp hf
    · exact hi
  | save p t time wrote =>
    simp only [step]
    split
    · next pr op table hp hf =>
      have hwhole := ho.2
      simp only [whole, hf, Option.any_eq_true, decide_eq_true_eq] at hwhole
      obtain ⟨n, rfl, hn⟩ := hwhole
      have hw : w.written table time (some n) = some (format table, time) := by
        simp only [written, List.take_of_length_le hn]
      rw [hw]
      exact inv_save hi hp hf ho.1
    · exact hi

theorem inv_init : ({} : World).Inv where
  holds := fun b hb => (List.not_mem_nil hb).elim
  file := rfl
  none := fun _ => rfl
  alone := fun k k' hk => by cases hk
  flight := fun p t f hf => by cases hf
  idle := fun p pr hp => by cases hp

/-- what mounts and unmounts leave was mounted -/
theorem made_of {ops : List Op} {b : Bind} (h : b ∈ ops.foldl Op.apply []) :
    ∃ target host over_, Op.bind target host over_ ∈ ops ∧ b = ⟨target, host, overOf host over_⟩ := by
  induction ops using List.reverseRecOn with
  | nil => cases h
  | append_singleton ops op ih =>
    rw [List.foldl_append] at h
    change b ∈ op.apply (ops.foldl Op.apply []) at h
    cases op with
    | bind target host over_ =>
      rcases List.mem_append.mp h with h | h
      · obtain ⟨t, h', o, hm, he⟩ := ih (List.mem_of_mem_filter h)
        exact ⟨t, h', o, List.mem_append_left _ hm, he⟩
      · exact ⟨target, host, over_, List.mem_append_right _ (List.mem_singleton.mpr rfl), List.mem_singleton.mp h⟩
    | unbind target =>
      obtain ⟨t, h', o, hm, he⟩ := ih (List.mem_of_mem_filter h)
      exact ⟨t, h', o, List.mem_append_left _ hm, he⟩

end World

/-- **The processes agree.** In every run in which mounts and unmounts come one after the other, each saved whole and at a time of its
own, with strings that a line holds. -/
theorem binds_agree {w : World} (h : Reach World.step World.steady {} w) : Agreed w := by
  have hi : w.Inv := h.invariant World.Inv World.inv_init fun _ a _ ho hs => World.step_inv hs a ho
  refine ⟨World.parse_bytes hi, fun p pr hp hidle => ?_, fun b hb => ?_⟩
  · rw [World.reload_table hi hp hidle]
    exact ⟨fun _ => rfl, fun _ => rfl⟩
  · rw [World.parse_bytes hi] at hb
    exact World.made_of hb

/-! ## Runs -/

instance decText (b : Bytes) : Decidable (Text b) := inferInstanceAs (Decidable (lossy b = b ∧ Owners.TAB ∉ b ∧ Lines.NEWLINE ∉ b))

instance decHoldsOp : (op : Op) → Decidable op.Holds
  | .bind target host over_ =>
    inferInstanceAs (Decidable ((Owners.TAB ∉ target ∧ Lines.NEWLINE ∉ target) ∧ Text host ∧ ∀ o ∈ overOf host over_, Text o ∧ o ≠ []))
  | .unbind _ => .isTrue trivial

instance decSteady (w : World) : (a : Act) → Decidable (w.steady a)
  | .begin _ _ op => decidable_of_iff (w.busy.entries.isEmpty ∧ op.Holds) (and_congr_left' List.isEmpty_iff)
  | .save p t time wrote => inferInstanceAs (Decidable ((∀ e ∈ w.procs.entries, e.2.seen ≠ some time) ∧ w.whole p t wrote))
  | .start _ | .stop _ | .look _ | .change .. => .isTrue trivial

def text (s : String) : Bytes := s.toList.map fun c => UInt8.ofNat c.toNat

def mountData : Op := .bind (text "/data") (text "/i/data") none
def mountMedia : Op := .bind (text "/storage") (text "/i/media") (some (text "/i/storage"))
def mountTmp : Op := .bind (text "/tmp") (text "/i/tmp") none

/-- two processes mount and unmount by turns, and a third comes later -/
def byTurns : List Act :=
  [.start 0, .start 1, .begin 0 0 mountData, .change 0 0, .look 1, .save 0 0 1 (some 100), .begin 1 0 mountMedia, .change 1 0,
    .save 1 0 2 (some 100), .begin 0 1 (.unbind (text "/data")), .change 0 1, .save 0 1 3 (some 100), .start 2, .look 1, .stop 0]

theorem binds_agree_turns : Agreed (run World.step {} byTurns) := binds_agree (.run .start byTurns (by decide))

/-- each reads before the other saves -/
def crossed : List Act :=
  [.start 0, .start 1, .begin 0 0 mountData, .begin 1 0 mountMedia, .change 0 0, .change 1 0, .save 0 0 1 (some 100),
    .save 1 0 2 (some 100)]

/-- a control group whose name has a line end in it -/
def mountGroup : Op := .bind (text "/dev/cpuset/a\n/vendor\t/i") (text "/i/data") none

def injected : List Act := [.start 0, .begin 0 0 mountGroup, .change 0 0, .save 0 0 1 (some 100)]

/-- saved twice at one time, and read in between -/
def sameTime : List Act :=
  [.start 0, .start 1, .begin 0 0 mountData, .change 0 0, .save 0 0 1 (some 100), .look 1, .begin 0 0 mountTmp, .change 0 0,
    .save 0 0 1 (some 100), .begin 1 0 mountMedia, .change 1 0, .save 1 0 2 (some 100)]

def notSaved : List Act := [.start 0, .begin 0 0 mountData, .change 0 0, .save 0 0 1 none]

/-- **What goes wrong.** Two mounts at once, of which one is lost; a target that makes a mount of its own; a mount that the next does
not see; and one whose save fails. -/
theorem binds_disagree :
    ¬Agreed (run World.step {} crossed) ∧ ¬Agreed (run World.step {} injected) ∧ ¬Agreed (run World.step {} sameTime) ∧
      ¬Agreed (run World.step {} notSaved) :=
  ⟨fun h => absurd h.saved (by decide), fun h => absurd h.saved (by decide),
    fun h => absurd h.saved (by decide), fun h => absurd h.saved (by decide)⟩

end Omnidroid.Binds
