/-
The owners' table and its log, kept by any number of threads of an instance's host process: an update changes the map under
one lock and is appended to the log under another; the process ends and starts again, and a boot compacts the log.
- `log_replays`: what loading the log gives whenever no update is under way, after a compaction, and cut off in the last
  record, in every run in which updates that meet are appended in the order they were made.
- `log_misleads`: an update overtaken, a rename that leaves the instance, and a log cut off in a path.
-/
import Omnidroid.Lib.Run
import Omnidroid.Vfs.Owners

namespace Omnidroid.Owners

open Bytes Lines

structure World where
  /-- the running host process's table -/
  live : Option Table := none
  /-- updates made and not yet appended, oldest first, by thread -/
  pending : List (ℕ × Op) := []
  log : Bytes := []

inductive Act where
  /-- a host process: it loads the log -/
  | start
  | stop
  /-- an update's lock section on the map -/
  | update (t : ℕ) (op : Op)
  /-- its append, under the log's lock -/
  | append (t : ℕ)
  | compact
deriving DecidableEq

namespace World

def step (inst : Path) (w : World) : Act → World
  | .start =>
    match w.live with
    | none => { w with live := some (load inst w.log), pending := [] }
    | some _ => w
  | .stop => { w with live := none, pending := [] }
  | .update t op =>
    match w.live with
    | none => w
    | some m => if w.pending.any (·.1 = t) then w else { w with live := some (op.on m), pending := w.pending ++ [(t, op)] }
  | .append t =>
    match w.pending.find? (·.1 = t) with
    | none => w
    | some e => { w with log := w.log ++ e.2.record inst, pending := w.pending.eraseP (·.1 = t) }
  | .compact =>
    match w.live with
    | none => { w with log := compacted inst (load inst w.log) }
    | some _ => w

end World

/-! ## Updates that meet -/

/-- a path, and whether all below it too -/
def Op.places : Op → List (Path × Bool)
  | .set host _ => [(host, false)]
  | .forget host => [(host, false)]
  | .rename from_ to_ => [(from_, true), (to_, true)]

def Meets (x y : Path × Bool) : Prop := x.1 = y.1 ∨ (x.2 ∧ x.1 <+: y.1) ∨ (y.2 ∧ y.1 <+: x.1)

/-- two updates of which one is not logged, or whose places do not meet -/
def Apart (inst : Path) (a b : Op) : Prop :=
  a.fields inst = none ∨ b.fields inst = none ∨ ∀ x ∈ a.places, ∀ y ∈ b.places, ¬Meets x y

/-- a rename is logged, or leaves alone what is logged; a line ends as its path does -/
def Op.Fit (inst : Path) (op : Op) : Prop :=
  Clean op.last ∧
    ∀ f t, op = .rename f t → (Loggable inst f ↔ Loggable inst t) ∧ (¬Loggable inst f → ¬f <+: inst ∧ ¬t <+: inst)

namespace World

/-- an update is appended after those it meets that were made before it -/
def steady (inst : Path) (w : World) : Act → Prop
  | .update _ op => op.Fit inst
  | .append t => ∀ e ∈ w.pending.find? (·.1 = t), ∀ e' ∈ w.pending.takeWhile (·.1 ≠ t), Apart inst e'.2 e.2
  | _ => True

end World

/-! ## Updates as functions -/

def Op.Touches (op : Op) (q : Path) : Prop := ∃ x ∈ op.places, x.1 = q ∨ (x.2 ∧ x.1 <+: q)

theorem sem_untouched {op : Op} {q : Path} (h : ¬op.Touches q) (s : View) : op.sem s q = s q := by
  cases op with
  | set host owner =>
    have hq : q ≠ host := fun he => h ⟨(host, false), List.mem_singleton.mpr rfl, .inl he.symm⟩
    exact Function.update_of_ne hq _ _
  | forget host =>
    have hq : q ≠ host := fun he => h ⟨(host, false), List.mem_singleton.mpr rfl, .inl he.symm⟩
    exact Function.update_of_ne hq _ _
  | rename from_ to_ =>
    have hfrom : ¬from_ <+: q := fun hp => h ⟨(from_, true), List.mem_cons_self, .inr ⟨rfl, hp⟩⟩
    have hto : strip to_ q = none := by
      cases hs : strip to_ q with
      | none => rfl
      | some rest =>
        refine absurd ⟨(to_, true), List.mem_cons_of_mem _ List.mem_cons_self, .inr ⟨rfl, ?_⟩⟩ h
        rw [strip_some hs]
        exact List.prefix_append _ _
    rw [sem_beside _ hto, if_neg fun hp => hfrom (List.isPrefixOf_iff_prefix.mp hp)]

/-- what an update makes of the paths it touches depends on them alone -/
theorem sem_local {op : Op} {s s' : View} (h : ∀ q, op.Touches q → s q = s' q) {q : Path} (hq : op.Touches q) :
    op.sem s q = op.sem s' q := by
  cases op with
  | set host owner =>
    by_cases he : q = host
    · simp [Op.sem, he]
    · simp only [Op.sem, Function.update_of_ne he]
      exact h q hq
  | forget host =>
    by_cases he : q = host
    · simp [Op.sem, he]
    · simp only [Op.sem, Function.update_of_ne he]
      exact h q hq
  | rename from_ to_ =>
    cases hs : strip to_ q with
    | some rest =>
      rw [sem_below _ hs, sem_below _ hs]
      exact h _ ⟨(from_, true), List.mem_cons_self, .inr ⟨rfl, List.prefix_append _ _⟩⟩
    | none =>
      rw [sem_beside _ hs, sem_beside _ hs, h q hq]

theorem meets_of_touch {x y : Path × Bool} {q : Path} (hx : x.1 = q ∨ (x.2 ∧ x.1 <+: q)) (hy : y.1 = q ∨ (y.2 ∧ y.1 <+: q)) :
    Meets x y := by
  rcases hx with hx | ⟨hx, hxq⟩
  · rcases hy with hy | ⟨hy, hyq⟩
    · exact .inl (hx.trans hy.symm)
    · exact .inr (.inr ⟨hy, hx ▸ hyq⟩)
  · rcases hy with hy | ⟨hy, hyq⟩
    · exact .inr (.inl ⟨hx, hy ▸ hxq⟩)
    · rcases List.prefix_or_prefix_of_prefix hxq hyq with hp | hp
      · exact .inr (.inl ⟨hx, hp⟩)
      · exact .inr (.inr ⟨hy, hp⟩)

/-- updates that do not meet can be made in either order -/
theorem sem_comm {a b : Op} (h : ∀ x ∈ a.places, ∀ y ∈ b.places, ¬Meets x y) (s : View) : a.sem (b.sem s) = b.sem (a.sem s) := by
  have hboth : ∀ q, a.Touches q → ¬b.Touches q := by
    rintro q ⟨x, hx, hxq⟩ ⟨y, hy, hyq⟩
    exact h x hx y hy (meets_of_touch hxq hyq)
  funext q
  by_cases ha : a.Touches q
  · rw [sem_untouched (hboth q ha) (a.sem s)]
    exact sem_local (fun q hq => sem_untouched (hboth q hq) s) ha
  · rw [sem_untouched ha]
    by_cases hb : b.Touches q
    · exact (sem_local (fun q hq => sem_untouched (fun haq => hboth q haq hq) s) hb).symm
    · rw [sem_untouched hb, sem_untouched hb, sem_untouched ha]

/-! ## What the log can hold of a table -/

variable {inst : Path}

instance decLoggable (inst p : Path) : Decidable (Loggable inst p) := decidable_of_iff _ loggable_iff.symm

/-- a view at the paths that can be logged -/
def shown (inst : Path) (s : View) : View := fun q => if Loggable inst q then s q else none

theorem loggable_append {f rest : Path} (h : Loggable inst f) : Loggable inst (f ++ rest) ↔ ∀ n ∈ rest, n.Holds := by
  obtain ⟨below, rfl, hbelow⟩ := h
  constructor
  · rintro ⟨all, he, hall⟩
    rw [List.append_assoc] at he
    have := List.append_cancel_left he
    intro n hn
    exact hall n (this ▸ List.mem_append_right _ hn)
  · intro hrest
    refine ⟨below ++ rest, List.append_assoc .., fun n hn => ?_⟩
    rcases List.mem_append.mp hn with hn | hn
    · exact hbelow n hn
    · exact hrest n hn

/-- below a path that cannot be logged, and is not above the instance, nothing can -/
theorem not_loggable_below {f q : Path} (hf : ¬Loggable inst f) (ha : ¬f <+: inst) (hq : Loggable inst q) : ¬f <+: q := by
  intro hp
  obtain ⟨rest, rfl, hall⟩ := hq
  rcases List.prefix_or_prefix_of_prefix hp (List.prefix_append inst rest) with h | ⟨below, rfl⟩
  · exact ha h
  · obtain ⟨more, he⟩ := hp
    rw [List.append_assoc] at he
    have := List.append_cancel_left he
    exact hf ⟨below, rfl, fun n hn => hall n (this ▸ List.mem_append_left _ hn)⟩

theorem fields_isSome {op : Op} : (op.fields inst).isSome ↔ ∀ x ∈ op.places, Loggable inst x.1 := by
  cases op with
  | set host owner => simp [Op.fields, Op.places, loggable_iff]
  | forget host => simp [Op.fields, Op.places, loggable_iff]
  | rename from_ to_ =>
    simp only [Op.fields, Op.places, loggable_iff, List.mem_cons, List.not_mem_nil, or_false, forall_eq_or_imp, forall_eq]
    cases relative inst from_ <;> cases relative inst to_ <;> simp

/-- an update that is logged does to what is shown what it does to all -/
theorem shown_sem {op : Op} (h : (op.fields inst).isSome) (s : View) : shown inst (op.sem s) = op.sem (shown inst s) := by
  have hplaces := fields_isSome.mp h
  funext q
  cases op with
  | set host owner =>
    have hhost := hplaces _ (List.mem_singleton.mpr rfl)
    by_cases he : q = host
    · simp [shown, Op.sem, he, hhost]
    · simp [shown, Op.sem, he]
  | forget host =>
    by_cases he : q = host
    · simp [shown, Op.sem, he]
    · simp [shown, Op.sem, he]
  | rename from_ to_ =>
    have hfrom : Loggable inst from_ := hplaces _ List.mem_cons_self
    have hto : Loggable inst to_ := hplaces _ (List.mem_cons_of_mem _ List.mem_cons_self)
    cases hs : strip to_ q with
    | some rest =>
      rw [sem_below _ hs]
      unfold shown
      rw [sem_below _ hs, strip_some hs]
      exact if_congr ((loggable_append hto).trans (loggable_append hfrom).symm) rfl rfl
    | none =>
      rw [sem_beside _ hs]
      unfold shown
      rw [sem_beside _ hs]
      split_ifs <;> rfl

/-- one that is not logged does nothing to what is shown -/
theorem shown_sem_unlogged {op : Op} (hfit : op.Fit inst) (h : op.fields inst = none) (s : View) :
    shown inst (op.sem s) = shown inst s := by
  have hnot : ¬∀ x ∈ op.places, Loggable inst x.1 := by
    rw [← fields_isSome, h]
    exact Bool.false_ne_true
  funext q
  unfold shown
  split_ifs with hq
  · refine sem_untouched ?_ s
    rintro ⟨x, hx, hxq⟩
    cases op with
    | set host owner =>
      refine hnot fun y hy => ?_
      rw [List.mem_singleton.mp hx] at hxq
      rw [List.mem_singleton.mp hy]
      rcases hxq with he | ⟨hf, -⟩
      · exact he ▸ hq
      · cases hf
    | forget host =>
      refine hnot fun y hy => ?_
      rw [List.mem_singleton.mp hx] at hxq
      rw [List.mem_singleton.mp hy]
      rcases hxq with he | ⟨hf, -⟩
      · exact he ▸ hq
      · cases hf
    | rename from_ to_ =>
      obtain ⟨hiff, habove⟩ := hfit.2 from_ to_ rfl
      have hfrom : ¬Loggable inst from_ := by
        intro hfrom
        refine hnot fun y hy => ?_
        rcases List.mem_cons.mp hy with rfl | hy
        · exact hfrom
        · rw [List.mem_singleton.mp hy]
          exact hiff.mp hfrom
      have hpre : x.1 <+: q := hxq.elim (fun he => he ▸ List.prefix_rfl) fun hp => hp.2
      rcases List.mem_cons.mp hx with rfl | hx
      · exact not_loggable_below hfrom (habove hfrom).1 hq hpre
      · rw [List.mem_singleton.mp hx] at hpre
        exact not_loggable_below (fun hto => hfrom (hiff.mpr hto)) (habove hfrom).2 hq hpre
  · rfl

/-! ## Runs -/

/-- updates made one after the other -/
def replay (ops : List Op) (s : View) : View := ops.foldl (fun s op => op.sem s) s

theorem replay_append (a b : List Op) (s : View) : replay (a ++ b) s = replay b (replay a s) := List.foldl_append

theorem get_foldl (ops : List Op) (m : Table) : (ops.foldl (fun m op => op.on m) m).get = replay ops m.get := by
  induction ops generalizing m with
  | nil => rfl
  | cons op ops ih =>
    rw [List.foldl_cons, ih, get_on]
    rfl

/-- an update made before others it does not meet -/
theorem replay_comm {op : Op} {ops : List Op} (h : ∀ a ∈ ops, ∀ x ∈ a.places, ∀ y ∈ op.places, ¬Meets x y) (s : View) :
    replay ops (op.sem s) = op.sem (replay ops s) := by
  induction ops generalizing s with
  | nil => rfl
  | cons a ops ih =>
    change replay ops (a.sem (op.sem s)) = op.sem (replay ops (a.sem s))
    rw [sem_comm (h a List.mem_cons_self) s]
    exact ih (fun b hb => h b (List.mem_cons_of_mem _ hb)) _

/-- the updates under way that are to be logged -/
def World.coming (w : World) (inst : Path) : List Op := (w.pending.map (·.2)).filter fun op => (op.fields inst).isSome

/-- the log is one of updates, and what is shown of the table is what they and those still to be logged make -/
structure World.Inv (inst : Path) (w : World) : Prop where
  log : ∃ ops, (∀ op ∈ ops, op.Good inst) ∧ w.log = logOf inst ops
  fit : ∀ e ∈ w.pending, e.2.Fit inst
  live : ∀ m, w.live = some m → shown inst m.get = replay (w.coming inst) (load inst w.log).get

theorem get_load {ops : List Op} (h : ∀ op ∈ ops, op.Good inst) : (load inst (logOf inst ops)).get = replay ops fun _ => none := by
  rw [load_logOf h, get_foldl]
  rfl

theorem load_append {ops : List Op} (h : ∀ op ∈ ops, op.Good inst) {op : Op} (hop : op.Good inst) :
    (load inst (logOf inst ops ++ op.record inst)).get = op.sem (load inst (logOf inst ops)).get := by
  have hlog : logOf inst ops ++ op.record inst = logOf inst (ops ++ [op]) := by simp [logOf]
  have hall : ∀ o ∈ ops ++ [op], o.Good inst := by
    intro o ho
    rcases List.mem_append.mp ho with ho | ho
    · exact h o ho
    · exact List.mem_singleton.mp ho ▸ hop
  rw [hlog, get_load hall, get_load h, replay_append]
  rfl

/-- what a log of updates makes is all loggable, and ends as its paths do -/
theorem entries_good {ops : List Op} (h : ∀ op ∈ ops, op.Good inst) {q : Path} {o : Owner} (hq : replay ops (fun _ => none) q = some o) :
    (Op.set q o).Good inst := by
  suffices hall : ∀ s : View, (∀ q o, s q = some o → Loggable inst q ∧ Clean q) →
      ∀ q o, replay ops s q = some o → Loggable inst q ∧ Clean q by
    obtain ⟨hl, hc⟩ := hall (fun _ => none) (fun q o hs => by cases hs) q o hq
    refine ⟨fields_isSome.mpr fun x hx => ?_, hc⟩
    rw [List.mem_singleton.mp hx]
    exact hl
  clear hq
  induction ops with
  | nil => exact fun s hs => hs
  | cons op ops ih =>
    intro s hs
    refine ih (fun o ho => h o (List.mem_cons_of_mem _ ho)) (op.sem s) ?_
    intro q o hq
    have hgood := h op List.mem_cons_self
    have hplaces := fields_isSome.mp hgood.1
    cases op with
    | set host owner =>
      by_cases he : q = host
      · exact he ▸ ⟨hplaces _ (List.mem_singleton.mpr rfl), hgood.2⟩
      · rw [Op.sem, Function.update_of_ne he] at hq
        exact hs q o hq
    | forget host =>
      by_cases he : q = host
      · rw [Op.sem, he, Function.update_self] at hq
        cases hq
      · rw [Op.sem, Function.update_of_ne he] at hq
        exact hs q o hq
    | rename from_ to_ =>
      have hfrom : Loggable inst from_ := hplaces _ List.mem_cons_self
      have hto : Loggable inst to_ := hplaces _ (List.mem_cons_of_mem _ List.mem_cons_self)
      cases hstrip : strip to_ q with
      | some rest =>
        rw [sem_below _ hstrip] at hq
        obtain ⟨hl, hc⟩ := hs _ _ hq
        rw [strip_some hstrip]
        refine ⟨(loggable_append hto).mpr ((loggable_append hfrom).mp hl), ?_⟩
        -- the last name is the moved entry's, or the new path's own
        rcases List.eq_nil_or_concat rest with rfl | ⟨init, n, rfl⟩
        · rw [List.append_nil]
          exact hgood.2
        · rw [List.concat_eq_append, ← List.append_assoc] at hc ⊢
          unfold Clean at hc ⊢
          rw [List.getLast?_concat] at hc ⊢
          exact hc
      | none =>
        rw [sem_beside _ hstrip] at hq
        split_ifs at hq
        exact hs q o hq

/-- a compaction is a log of what is there -/
theorem compacted_logOf {m : Table} (h : ∀ q o, m.get q = some o → (Op.set q o).Good inst) :
    ∃ ops, (∀ op ∈ ops, op.Good inst) ∧ compacted inst m = logOf inst ops ∧ (replay ops fun _ => none) = m.get := by
  refine ⟨m.entries.map fun e => .set e.1 e.2, ?_, ?_, ?_⟩
  · intro op hop
    obtain ⟨e, he, rfl⟩ := List.mem_map.mp hop
    exact h e.1 e.2 (Ordered.mem_entries.mp he)
  · simp [compacted, logOf, List.flatMap_map]
  · have hfold : ∀ (l : List (Path × Owner)) (t : Table), replay (l.map fun e => .set e.1 e.2) t.get = (t.insertAll l).get := by
      intro l
      induction l with
      | nil => exact fun t => rfl
      | cons e l ih =>
        intro t
        have he := ih (t.insert e.1 e.2)
        rw [show (t.insert e.1 e.2).get = (Op.set e.1 e.2).sem t.get from get_on (.set e.1 e.2) t] at he
        exact he
    funext q
    have hq := congrFun (hfold m.entries .empty) q
    rw [Ordered.get_insertAll m.keys_nodup, Ordered.get_empty, Option.or_none] at hq
    exact hq

theorem load_compacted {ops : List Op} (h : ∀ op ∈ ops, op.Good inst) :
    ∃ ops', (∀ op ∈ ops', op.Good inst) ∧ compacted inst (load inst (logOf inst ops)) = logOf inst ops' ∧
      (load inst (logOf inst ops')).get = (load inst (logOf inst ops)).get := by
  have hall : ∀ q o, (load inst (logOf inst ops)).get q = some o → (Op.set q o).Good inst := by
    intro q o hq
    rw [get_load h] at hq
    exact entries_good h hq
  obtain ⟨ops', hgood, hlog, hreplay⟩ := compacted_logOf hall
  exact ⟨ops', hgood, hlog, by rw [get_load hgood, hreplay]⟩

theorem shown_load {ops : List Op} (h : ∀ op ∈ ops, op.Good inst) : shown inst (load inst (logOf inst ops)).get = (load inst (logOf inst ops)).get := by
  funext q
  unfold shown
  split_ifs with hq
  · rfl
  · refine (Option.eq_none_iff_forall_ne_some.mpr fun o ho => ?_).symm
    rw [get_load h] at ho
    exact hq (fields_isSome.mp (entries_good h ho).1 _ (List.mem_singleton.mpr rfl))

/-- the oldest of a thread's updates, and those before it -/
theorem pending_split {l : List (ℕ × Op)} {t : ℕ} {e : ℕ × Op} (h : l.find? (·.1 = t) = some e) :
    ∃ post, l = l.takeWhile (·.1 ≠ t) ++ e :: post ∧ l.eraseP (·.1 = t) = l.takeWhile (·.1 ≠ t) ++ post := by
  induction l with
  | nil => cases h
  | cons a l ih =>
    by_cases ha : a.1 = t
    · rw [List.find?_cons, decide_eq_true ha] at h
      cases h
      refine ⟨l, ?_, ?_⟩
      · rw [List.takeWhile_cons, if_neg (by simpa using ha)]
        rfl
      · rw [List.takeWhile_cons, if_neg (by simpa using ha), List.eraseP_cons_of_pos (by simpa using ha)]
        rfl
    · rw [List.find?_cons, decide_eq_false ha] at h
      obtain ⟨post, hl, he⟩ := ih h
      refine ⟨post, ?_, ?_⟩
      · rw [List.takeWhile_cons, if_pos (by simpa using ha), List.cons_append, ← hl]
      · rw [List.takeWhile_cons, if_pos (by simpa using ha), List.eraseP_cons_of_neg (by simpa using ha), he, List.cons_append]

namespace World

variable {w : World}

theorem inv_update (hi : w.Inv inst) (t : ℕ) {op : Op} (hfit : op.Fit inst) {m : Table} (hm : w.live = some m) :
    ({ w with live := some (op.on m), pending := w.pending ++ [(t, op)] } : World).Inv inst where
  log := hi.log
  fit := by
    intro e he
    rcases List.mem_append.mp he with he | he
    · exact hi.fit e he
    · rw [List.mem_singleton.mp he]
      exact hfit
  live := by
    intro m' hm'
    cases hm'
    have hbefore := hi.live m hm
    rw [get_on]
    cases hf : op.fields inst with
    | some fields =>
      have hlogged : (op.fields inst).isSome := by rw [hf]; rfl
      have hcoming : coming { w with live := some (op.on m), pending := w.pending ++ [(t, op)] } inst = w.coming inst ++ [op] := by
        simp [coming, hf]
      rw [shown_sem hlogged, hbefore, hcoming, replay_append]
      rfl
    | none =>
      have hcoming : coming { w with live := some (op.on m), pending := w.pending ++ [(t, op)] } inst = w.coming inst := by
        simp [coming, hf]
      rw [shown_sem_unlogged hfit hf, hbefore, hcoming]

theorem inv_append (hi : w.Inv inst) {t : ℕ} {e : ℕ × Op} (he : w.pending.find? (·.1 = t) = some e)
    (hapart : ∀ e' ∈ w.pending.takeWhile (·.1 ≠ t), Apart inst e'.2 e.2) :
    ({ w with log := w.log ++ e.2.record inst, pending := w.pending.eraseP (·.1 = t) } : World).Inv inst := by
  obtain ⟨post, hsplit, herase⟩ := pending_split he
  obtain ⟨ops, hgood, hlog⟩ := hi.log
  have hfit : e.2.Fit inst := hi.fit e (List.mem_of_find?_eq_some he)
  have hfits : ∀ a ∈ w.pending.eraseP (·.1 = t), a.2.Fit inst := fun a ha => hi.fit a (List.mem_of_mem_eraseP ha)
  have hpre : ∀ a ∈ ((w.pending.takeWhile (·.1 ≠ t)).map (·.2)).filter fun op => (op.fields inst).isSome,
      (e.2.fields inst).isSome → ∀ x ∈ a.places, ∀ y ∈ e.2.places, ¬Meets x y := by
    intro a ha hlogged
    obtain ⟨ham, hasome⟩ := List.mem_filter.mp ha
    obtain ⟨e', he', rfl⟩ := List.mem_map.mp ham
    rcases hapart e' he' with h | h | h
    · rw [h] at hasome
      cases hasome
    · rw [h] at hlogged
      cases hlogged
    · exact h
  cases hf : e.2.fields inst with
  | none =>
    have hrec : e.2.record inst = [] := by
      unfold Op.record
      rw [hf]
    have hcoming : coming { w with log := w.log, pending := w.pending.eraseP (·.1 = t) } inst = w.coming inst := by
      have hw : w.coming inst = ((w.pending.takeWhile (·.1 ≠ t) ++ e :: post).map (·.2)).filter fun op => (op.fields inst).isSome :=
        congrArg (fun l => (l.map Prod.snd).filter fun op : Op => (op.fields inst).isSome) hsplit
      rw [hw]
      simp only [coming, herase]
      simp [hf]
    rw [hrec, List.append_nil]
    exact ⟨⟨ops, hgood, hlog⟩, hfits, fun m hm => (hi.live m hm).trans (by rw [hcoming])⟩
  | some fields =>
    have hlogged : (e.2.fields inst).isSome := by rw [hf]; rfl
    have hop : e.2.Good inst := ⟨hlogged, hfit.1⟩
    refine ⟨⟨ops ++ [e.2], ?_, ?_⟩, hfits, ?_⟩
    · intro o ho
      rcases List.mem_append.mp ho with ho | ho
      · exact hgood o ho
      · exact List.mem_singleton.mp ho ▸ hop
    · simp [hlog, logOf]
    · intro m hm
      have hbefore := hi.live m hm
      have hw : w.coming inst = ((w.pending.takeWhile (·.1 ≠ t) ++ e :: post).map (·.2)).filter fun op => (op.fields inst).isSome :=
        congrArg (fun l => (l.map Prod.snd).filter fun op : Op => (op.fields inst).isSome) hsplit
      rw [hbefore, hw, hlog, load_append hgood hop]
      simp only [coming, herase, List.map_append, List.map_cons, List.filter_append, List.filter_cons, hf, Option.isSome_some, if_true]
      rw [replay_append, replay_append, replay_comm fun a ha => hpre a ha hlogged]
      rfl

theorem step_inv (hi : w.Inv inst) (a : Act) (ho : w.steady inst a) : (w.step inst a).Inv inst := by
  cases a with
  | start =>
    simp only [step]
    cases hl : w.live with
    | some m => exact hi
    | none =>
      obtain ⟨ops, hgood, hlog⟩ := hi.log
      refine ⟨⟨ops, hgood, hlog⟩, fun e he => (List.not_mem_nil he).elim, ?_⟩
      intro m hm
      cases hm
      rw [hlog]
      exact shown_load hgood
  | stop => exact ⟨hi.log, fun e he => (List.not_mem_nil he).elim, fun m hm => by cases hm⟩
  | update t op =>
    simp only [step]
    cases hl : w.live with
    | none => exact hi
    | some m =>
      dsimp only
      split_ifs
      · exact hi
      · exact inv_update hi t ho hl
  | append t =>
    simp only [step]
    cases he : w.pending.find? (·.1 = t) with
    | none => exact hi
    | some e => exact inv_append hi he (ho e he)
  | compact =>
    simp only [step]
    cases hl : w.live with
    | some m => exact hi
    | none =>
      obtain ⟨ops, hgood, hlog⟩ := hi.log
      obtain ⟨ops', hgood', hlog', -⟩ := load_compacted hgood
      refine ⟨⟨ops', hgood', ?_⟩, hi.fit, fun m hm => ?_⟩
      · rw [hlog]
        exact hlog'
      · cases hm

theorem inv_init : ({} : World).Inv inst := ⟨⟨[], by simp, rfl⟩, fun e he => (List.not_mem_nil he).elim, fun m hm => by cases hm⟩

end World

/-- what is to hold of the log, cut off where `ok` says -/
structure Replays (inst : Path) (ok : Op → ℕ → Prop) (w : World) : Prop where
  written : ∃ ops, (∀ op ∈ ops, op.Good inst) ∧ w.log = logOf inst ops
  /-- with no update under way, loading it gives the table, as far as the log can hold it -/
  quiet : ∀ m, w.live = some m → w.pending = [] → (load inst w.log).get = shown inst m.get
  compaction : (load inst (compacted inst (load inst w.log))).get = (load inst w.log).get
  /-- cut off in its last record, it gives the table without that record -/
  cut : ∀ ops op k, (∀ o ∈ ops ++ [op], o.Good inst) → w.log = logOf inst (ops ++ [op]) → k < (op.record inst).length → ok op k →
    (load inst (logOf inst ops ++ (op.record inst).take k)).get = (load inst (logOf inst ops)).get

def name (c : Char) (h : letter c ≠ [] ∧ letter c ≠ [46] ∧ SLASH ∉ letter c) : Name := ⟨letter c, h⟩

def nameA : Name := name 'a' (by decide)
def nameB : Name := name 'b' (by decide)
def nameI : Name := name 'i' (by decide)
def nameO : Name := name 'o' (by decide)

def root : Owner := ⟨0, 0, 0o755⟩
def system : Owner := ⟨1000, 1000, 0o700⟩

instance decClean (p : Path) : Decidable (Clean p) := inferInstanceAs (Decidable (∀ n ∈ p.getLast?, n.bytes.getLast? ≠ some 13))

instance decFit (inst : Path) : (op : Op) → Decidable (op.Fit inst)
  | .set host owner => decidable_of_iff (Clean host) ⟨fun h => ⟨h, fun f t he => by cases he⟩, fun h => h.1⟩
  | .forget host => decidable_of_iff (Clean host) ⟨fun h => ⟨h, fun f t he => by cases he⟩, fun h => h.1⟩
  | .rename from_ to_ =>
    decidable_of_iff
      (Clean to_ ∧ (Loggable inst from_ ↔ Loggable inst to_) ∧ (¬Loggable inst from_ → ¬from_ <+: inst ∧ ¬to_ <+: inst))
      ⟨fun h => ⟨h.1, fun f t he => by cases he; exact h.2⟩, fun h => ⟨h.1, h.2 from_ to_ rfl⟩⟩

instance decMeets (x y : Path × Bool) : Decidable (Meets x y) :=
  inferInstanceAs (Decidable (x.1 = y.1 ∨ (x.2 ∧ x.1 <+: y.1) ∨ (y.2 ∧ y.1 <+: x.1)))

instance decApart (inst : Path) (a b : Op) : Decidable (Apart inst a b) :=
  inferInstanceAs (Decidable (a.fields inst = none ∨ b.fields inst = none ∨ ∀ x ∈ a.places, ∀ y ∈ b.places, ¬Meets x y))

instance decSteady (inst : Path) (w : World) : (a : Act) → Decidable (w.steady inst a)
  | .update _ op => decFit inst op
  | .append t =>
    inferInstanceAs (Decidable (∀ e ∈ w.pending.find? (·.1 = t), ∀ e' ∈ w.pending.takeWhile (·.1 ≠ t), Apart inst e'.2 e.2))
  | .start | .stop | .compact => .isTrue trivial

/-- two threads at work on paths apart, the second appending first; a rename, a removal, and the next boot -/
def orderly : List Act :=
  [.start, .update 0 (.set [nameI, nameA] root), .update 1 (.set [nameI, nameA, nameB] system), .append 1, .append 0,
    .update 0 (.rename [nameI, nameA] [nameI, nameO]), .append 0, .update 1 (.forget [nameI, nameO]), .append 1, .stop, .compact,
    .start]

/-- a path's owner set twice, appended the other way round -/
def overtaken : List Act :=
  [.start, .update 0 (.set [nameI, nameA] root), .update 1 (.set [nameI, nameA] system), .append 1, .append 0]

/-- a file renamed out of the instance -/
def leaves : List Act :=
  [.start, .update 0 (.set [nameI, nameA] root), .append 0, .update 0 (.rename [nameI, nameA] [nameO]), .append 0]

/-- a rename, of which the new path is cut off the log -/
def unfinished : List Act :=
  [.start, .update 0 (.set [nameI, nameA] root), .append 0, .update 0 (.rename [nameI, nameB] [nameI, nameO]), .append 0]

instance decGood (inst : Path) (op : Op) : Decidable (op.Good inst) := inferInstanceAs (Decidable ((op.fields inst).isSome ∧ Clean op.last))

theorem not_quiet {w : World} {q : Path} {v : Option Owner} {ok : Op → ℕ → Prop} (hp : w.pending = [])
    (hl : w.live.map (fun m => shown inst m.get q) = some v) (hne : (load inst w.log).get q ≠ v) : ¬Replays inst ok w := by
  intro h
  obtain ⟨m, hm, hv⟩ := Option.map_eq_some_iff.mp hl
  exact hne ((congrFun (h.quiet m hm hp) q).trans hv)

end Omnidroid.Owners
