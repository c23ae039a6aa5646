/-
Each call of a careful run keeps the tables sound, frees what it should and changes nothing when it fails
(`call_settled`); so the integrity of handles holds after every careful run (`integrity`), and not after every run.
-/
import Omnidroid.Jni.Integrity

namespace Omnidroid.Jni

variable {α : Type}

/-! ## Counting -/

theorem strong_append (refs : List Ref) (handle : ℕ) (kind : RefKind) (n m : ℕ) :
    strong (refs ++ [⟨handle, kind, n, true⟩]) m = strong refs m + if kind ≠ .weak ∧ n = m then 1 else 0 := by
  unfold strong
  rw [List.countP_append, List.countP_singleton]
  congr 1
  cases kind <;> by_cases h : n = m <;> simp [h]

/-- one reference dead -/
theorem strong_dead {refs : List Ref} (hd : (refs.map Ref.handle).Nodup) {r : Ref} (hr : r ∈ refs) (hl : r.live = true)
    (m : ℕ) : strong (refs.map fun r' => if r'.handle = r.handle then { r' with live := false } else r') m +
      (if r.kind ≠ .weak ∧ r.object = m then 1 else 0) = strong refs m := by
  induction refs with
  | nil => cases hr
  | cons q refs ih =>
    rw [List.map_cons, List.nodup_cons] at hd
    unfold strong at ih ⊢
    rw [List.map_cons, List.countP_cons, List.countP_cons]
    rcases List.mem_cons.1 hr with rfl | hr'
    · have hrest : (refs.map fun r' => if r'.handle = r.handle then { r' with live := false } else r') = refs := by
        refine (List.map_congr_left fun r' hr' => if_neg fun he => hd.1 ?_).trans (List.map_id refs)
        exact he ▸ List.mem_map_of_mem hr'
      rw [hrest, if_pos rfl, hl]
      cases r.kind <;> by_cases h : r.object = m <;> simp [h]
    · have hne : q.handle ≠ r.handle := fun he => hd.1 (he ▸ List.mem_map_of_mem hr')
      rw [if_neg hne, ← ih hd.2 hr']
      omega

/-! ## Slots taken -/

namespace Handles

variable {h h1 : Handles α} {i : ℕ}

/-- the slot of the next object has none in it -/
theorem takeObject_spec {objs : List Obj} {count : ℕ → ℕ} (t : ObjectTable h.objects h.freeObjects objs count)
    (ht : h.takeObject = some (i, h1)) :
    (h1.refs = h.refs ∧ h1.freeRefs = h.freeRefs ∧ h1.cookie = h.cookie) ∧
      (∀ slot, h.objects[i]? = some slot → slot.object = none) ∧ (∀ j, j ≠ i → h1.objects[j]? = h.objects[j]?) ∧
      (∃ slot, h1.objects[i]? = some slot) ∧ h1.freeObjects.Nodup ∧
      ∀ j, j ∈ h1.freeObjects ↔ j ≠ i ∧ j ∈ h.freeObjects := by
  unfold takeObject at ht
  cases hf : h.freeObjects with
  | cons index rest =>
    rw [hf] at ht
    obtain ⟨rfl, rfl⟩ := Prod.mk.inj (Option.some.inj ht)
    obtain ⟨hnot, hrest⟩ := List.nodup_cons.1 (hf ▸ t.nodup)
    obtain ⟨slot, hs, hn⟩ := (t.free index).1 (hf ▸ List.mem_cons_self)
    refine ⟨⟨rfl, rfl, rfl⟩, fun slot' hs' => ?_, fun _ _ => rfl, ⟨slot, hs⟩, hrest, fun j => ?_⟩
    · rw [hs, Option.some.injEq] at hs'
      exact hs' ▸ hn
    · rw [List.mem_cons]
      exact ⟨fun hj => ⟨fun he => hnot (he ▸ hj), .inr hj⟩, fun hj => hj.2.resolve_left hj.1⟩
  | nil =>
    rw [hf] at ht
    dsimp only at ht
    split_ifs at ht
    obtain ⟨rfl, rfl⟩ := Prod.mk.inj (Option.some.inj ht)
    refine ⟨⟨rfl, rfl, rfl⟩, fun slot hs => ?_, fun j hj => ?_, ⟨_, List.getElem?_concat_length⟩, ?_, fun j => ?_⟩
    · exact absurd (List.getElem?_eq_some_iff.1 hs).1 (lt_irrefl _)
    · rcases Nat.lt_or_ge j h.objects.length with hlt | hge
      · exact List.getElem?_append_left hlt
      · rw [List.getElem?_eq_none hge, List.getElem?_eq_none]
        rw [List.length_append, List.length_singleton]
        omega
    · exact List.nodup_nil
    · exact ⟨nofun, fun hj => nomatch hj.2⟩

/-- the slot of the next reference is empty -/
theorem takeRef_spec {check : ℕ → ℕ} {objs : List Obj} {refs : List Ref}
    (t : ReferenceTable h.refs h.freeRefs check objs refs) (ht : h.takeRef = some (i, h1)) :
    (h1.objects = h.objects ∧ h1.freeObjects = h.freeObjects ∧ h1.cookie = h.cookie) ∧
      (∃ slot, h1.refs[i]? = some slot ∧ slot.generation = h.nextGeneration ∧ 1 ≤ slot.generation) ∧
      (∀ slot, h.refs[i]? = some slot → slot.live = none ∧ slot.generation = h.nextGeneration) ∧
      (∀ j, j ≠ i → h1.refs[j]? = h.refs[j]?) ∧ h1.refs.length ≤ maxReferences ∧ h1.freeRefs.Nodup ∧
      ∀ j, j ∈ h1.freeRefs ↔ j ≠ i ∧ j ∈ h.freeRefs := by
  unfold takeRef at ht
  unfold nextGeneration
  cases hf : h.freeRefs with
  | cons index rest =>
    rw [hf] at ht
    obtain ⟨rfl, rfl⟩ := Prod.mk.inj (Option.some.inj ht)
    obtain ⟨hnot, hrest⟩ := List.nodup_cons.1 (hf ▸ t.nodup)
    obtain ⟨slot, hs, hn⟩ := (t.free index).1 (hf ▸ List.mem_cons_self)
    refine ⟨⟨rfl, rfl, rfl⟩, ⟨slot, hs, ?_, t.first slot (List.mem_of_getElem? hs)⟩, fun slot' hs' => ?_, fun _ _ => rfl,
      t.cap, hrest, fun j => ?_⟩
    · dsimp only
      rw [hs]
      rfl
    · rw [hs, Option.some.injEq] at hs'
      subst hs'
      refine ⟨hn, ?_⟩
      dsimp only
      rw [hs]
      rfl
    · rw [List.mem_cons]
      exact ⟨fun hj => ⟨fun he => hnot (he ▸ hj), .inr hj⟩, fun hj => hj.2.resolve_left hj.1⟩
  | nil =>
    rw [hf] at ht
    dsimp only at ht
    split_ifs at ht with hcap
    obtain ⟨rfl, rfl⟩ := Prod.mk.inj (Option.some.inj ht)
    refine ⟨⟨rfl, rfl, rfl⟩, ⟨_, List.getElem?_concat_length, rfl, le_rfl⟩, fun slot hs => ?_, fun j hj => ?_, ?_, ?_,
      fun j => ?_⟩
    · exact absurd (List.getElem?_eq_some_iff.1 hs).1 (lt_irrefl _)
    · rcases Nat.lt_or_ge j h.refs.length with hlt | hge
      · exact List.getElem?_append_left hlt
      · rw [List.getElem?_eq_none hge, List.getElem?_eq_none]
        rw [List.length_append, List.length_singleton]
        omega
    · show (h.refs ++ [_]).length ≤ maxReferences
      rw [List.length_append, List.length_singleton]
      omega
    · exact List.nodup_nil
    · exact ⟨nofun, fun hj => nomatch hj.2⟩

theorem checkWord_congr (he : h1.cookie = h.cookie) : h1.checkWord = h.checkWord := by
  funext g
  unfold checkWord
  rw [he]

theorem cookie_table {slots : List RefSlot} {free : List ℕ} {objs : List Obj} {refs : List Ref}
    (he : h1.cookie = h.cookie) (t : ReferenceTable slots free h.checkWord objs refs) :
    ReferenceTable slots free h1.checkWord objs refs :=
  checkWord_congr he ▸ t

theorem insertObject_error {function : String} {address : ℕ} {object : α} {e : AbiError}
    (hr : h.insertObject function address object = (.error e, h1)) : h1 = h := by
  unfold insertObject at hr
  split at hr
  · exact (Prod.mk.inj hr).2.symm
  · cases (Prod.mk.inj hr).1

theorem referenceTo_error {function : String} {address : ℕ} {kind : RefKind} {id : ObjectId} {e : AbiError}
    (hr : h.referenceTo function address kind id = (.error e, h1)) : h1 = h ∧ h.takeRef = none := by
  unfold referenceTo at hr
  split at hr
  · next hn => exact ⟨(Prod.mk.inj hr).2.symm, hn⟩
  · cases (Prod.mk.inj hr).1

end Handles

/-! ## Calls -/

namespace World.Sound

variable {w : World α} (s : Sound w) {function : String} {address : ℕ}
include s

/-- no live reference is to an object not made yet -/
theorem strong_new : strong w.refs w.objs.length = 0 := by
  unfold strong
  rw [List.countP_eq_zero]
  intro r hr hp
  simp only [Bool.and_eq_true, beq_iff_eq] at hp
  obtain ⟨-, -, -, o, -, ho, -⟩ := s.found hr hp.1.1
  rw [hp.2] at ho
  exact absurd (List.getElem?_eq_some_iff.1 ho).1 (lt_irrefl _)

theorem create {object : α} {id : ObjectId} {h : Handles α}
    (hr : w.h.create function address object = (.ok id, h)) : Sound ⟨h, w.objs ++ [⟨id, true⟩], w.refs⟩ ∧
      h.refs = w.h.refs ∧ h.freeRefs = w.h.freeRefs := by
  unfold Handles.create Handles.insertObject at hr
  split at hr
  · cases (Prod.mk.inj hr).1
  · next i h1 ht =>
    obtain ⟨⟨hrefs, hfree, hcookie⟩, hold, hother, ⟨slot, hi⟩, hnodup, hmem⟩ := Handles.takeObject_spec s.objects ht
    obtain ⟨hid, rfl⟩ := Prod.mk.inj hr
    obtain rfl := Except.ok.inj hid
    rw [hi]
    refine ⟨⟨?_, ?_⟩, hrefs, hfree⟩
    · refine s.objects.insert hold (fun j hj => ?_) (a := object) ?_ hnodup hmem s.strong_new
      · rw [← hother j hj]
        exact List.getElem?_modify_ne _ _ (Ne.symm hj)
      · dsimp only
        rw [List.getElem?_modify_eq, hi]
        rfl
    · refine Handles.cookie_table (h := w.h) hcookie ?_
      dsimp only
      rw [hrefs, hfree]
      refine s.refs.objects fun r hm hl o ho _ => ?_
      rw [List.getElem?_append_left (List.getElem?_eq_some_iff.1 ho).1, ho]

theorem reference {kind : RefKind} {n : ℕ} {o : Obj} {x : ℕ} {h : Handles α} (hf : w.Fresh) (ho : w.objs[n]? = some o)
    (hl : o.live = true) (hr : w.h.referenceTo function address kind o.id = (.ok x, h)) :
    Sound ⟨h, w.objs, w.refs ++ [⟨x, kind, n, true⟩]⟩ := by
  obtain ⟨a, hobj⟩ := s.objects.object n o ho hl
  unfold Handles.referenceTo at hr
  split at hr
  · cases (Prod.mk.inj hr).1
  · next i h1 ht =>
    obtain ⟨⟨hobjs, hfree, hcookie⟩, ⟨⟨g, l⟩, hi, hg, hfirst⟩, hold, hother, hcap, hnodup, hmem⟩ :=
      Handles.takeRef_spec s.refs ht
    dsimp only at hg hfirst
    subst hg
    have hi28 : i < 2 ^ 28 := by
      have hlt := (List.getElem?_eq_some_iff.1 hi).1
      have hle : h1.refs.length ≤ 65536 := hcap
      omega
    have hgen : (h1.refs[i]?.map RefSlot.generation).getD 0 = w.h.nextGeneration := by rw [hi]; rfl
    obtain ⟨hx, rfl⟩ := Prod.mk.inj hr
    have hhandle : x = encode kind (w.h.checkWord w.h.nextGeneration) i := by
      rw [← encode_eq kind (w.h.checkWord_lt _) hi28, ← Except.ok.inj hx, hgen]
      congr 3
      split_ifs
      · exact congrFun (Handles.checkWord_congr (h := w.h) hcookie) _
      · exact congrFun (Handles.checkWord_congr (h := w.h) hcookie) _
    have hrefs : ReferenceTable (h1.refs.modify i fun slot => { slot with live := some (kind, o.id) }) h1.freeRefs
        w.h.checkWord w.objs (w.refs ++ [⟨x, kind, n, true⟩]) := by
      rw [hhandle]
      refine s.refs.add w.h.check hold (fun j hj => ?_) ?_ hnodup hmem ?_ hfirst hf ho hl
      · rw [← hother j hj]
        exact List.getElem?_modify_ne _ _ (Ne.symm hj)
      · rw [List.getElem?_modify_eq, hi]
        rfl
      · rw [List.length_modify]
        exact hcap
    by_cases hk : kind = .weak
    · refine ⟨?_, ?_⟩
      · simp only [if_pos hk]
        rw [hobjs, hfree]
        refine s.objects.congr fun m _ => ?_
        rw [strong_append, if_neg fun h => h.1 hk, Nat.add_zero]
      · simp only [if_pos hk]
        exact Handles.cookie_table (h := w.h) hcookie hrefs
    · refine ⟨?_, ?_⟩
      · simp only [if_neg hk]
        rw [hobjs, hfree]
        refine s.objects.count_set ho hl (a := a) (fun j hj => ?_) ?_ fun m hm => ?_
        · exact List.getElem?_modify_ne _ _ (Ne.symm hj)
        · rw [List.getElem?_modify_eq, hobj, strong_append, if_pos ⟨hk, rfl⟩]
          rfl
        · rw [strong_append, if_neg fun h => hm h.2.symm, Nat.add_zero]
      · simp only [if_neg hk]
        exact Handles.cookie_table (h := w.h) hcookie hrefs

theorem change {o : Obj} (f : α → α) : Sound { w with h := w.h.objectOfMut o.id f } := by
  let after (j : ℕ) (slot : ObjectSlot α) : ObjectSlot α :=
    { slot with object := if j = o.id.index ∧ slot.generation = o.id.generation then slot.object.map f else slot.object }
  have hget : ∀ j, (w.h.objectOfMut o.id f).objects[j]? = w.h.objects[j]?.map (after j) := by
    intro j
    unfold Handles.objectOfMut
    dsimp only
    by_cases hj : o.id.index = j
    · subst hj
      rw [List.getElem?_modify_eq]
      cases w.h.objects[o.id.index]? with
      | none => rfl
      | some slot =>
        by_cases hg : slot.generation = o.id.generation <;> simp [after, hg]
    · rw [List.getElem?_modify_ne _ _ hj]
      cases w.h.objects[j]? with
      | none => rfl
      | some slot =>
        have hne : ¬(j = o.id.index ∧ slot.generation = o.id.generation) := fun h => hj h.1.symm
        rw [Option.map_some]
        dsimp only [after]
        rw [if_neg hne]
  have hsome : ∀ (c : Prop) [Decidable c] (b : Option α), (if c then b.map f else b).isSome = b.isSome := by
    intro c _ b
    split_ifs
    · exact Option.isSome_map
    · rfl
  refine ⟨⟨fun n p hp hl => ?_, fun j slot hj hs => ?_, s.objects.apart, s.objects.nodup, fun j => ?_⟩,
    Handles.cookie_table (h := w.h) rfl s.refs⟩
  · obtain ⟨a, ha⟩ := s.objects.object n p hp hl
    rw [hget, ha, Option.map_some]
    dsimp only [after]
    split_ifs
    · exact ⟨f a, rfl⟩
    · exact ⟨a, rfl⟩
  · rw [hget] at hj
    obtain ⟨slot', hj', rfl⟩ := Option.map_eq_some_iff.1 hj
    exact s.objects.held j slot' hj' (by rwa [hsome] at hs)
  · refine (s.objects.free j).trans ?_
    constructor
    · rintro ⟨slot, hj, hn⟩
      refine ⟨_, (hget j).trans (by rw [hj, Option.map_some]), ?_⟩
      dsimp only [after]
      rw [hn]
      split_ifs <;> rfl
    · rintro ⟨slot, hj, hn⟩
      rw [hget] at hj
      obtain ⟨slot', hj', rfl⟩ := Option.map_eq_some_iff.1 hj
      refine ⟨slot', hj', ?_⟩
      dsimp only [after] at hn
      rw [← Option.not_isSome_iff_eq_none] at hn ⊢
      rwa [hsome] at hn

theorem delete {r : Ref} (hm : r ∈ w.refs) (hl : r.live = true) {expected : RefKind} {h : Handles α}
    (hr : w.h.delete function address expected r.handle = (.ok (), h))
    (hlast : r.kind ≠ .weak → strong w.refs r.object = 1 →
      ∀ r' ∈ w.refs, r'.live = true → r'.object = r.object → r'.kind ≠ .weak) : Sound (w.deleted r h) := by
  obtain ⟨i, g, slot, o, hat, ho, hol, hs, hres⟩ := s.found hm hl
  obtain ⟨a, hobj⟩ := s.objects.object _ o ho hol
  have hi := s.refs.at_index hat
  have hg := (hat.live hl).1
  rw [Handles.delete_eq (by rw [hi, hat.here]) hs (hres function address), hi] at hr
  split_ifs at hr with hk hweak
  · cases (Prod.mk.inj hr).1
  all_goals obtain rfl := (Prod.mk.inj hr).2
  all_goals
    have hcount := strong_dead s.refs.distinct hm hl
    have htake : ReferenceTable (w.h.takeLive i).refs _ w.h.checkWord w.objs _ := s.refs.remove hm hl hat
      (List.length_modify _ _ _) (fun j hj => List.getElem?_modify_ne _ _ (Ne.symm hj))
      ((List.getElem?_modify_eq _ _ _).trans (by rw [hat.here, ← hg]; rfl))
    have hfrom : ∀ q ∈ w.refs.map fun r' => if r'.handle = r.handle then { r' with live := false } else r',
        q.live = true → q ∈ w.refs := by
      intro q hq hql
      obtain ⟨r', hr', rfl⟩ := List.mem_map.1 hq
      split_ifs at hql ⊢
      exact hr'
    unfold deleted
    dsimp only
    generalize (w.refs.map fun r' => if r'.handle = r.handle then { r' with live := false } else r') = refs'
      at hcount htake hfrom ⊢
  · rw [if_neg fun h => h.1 hweak]
    refine ⟨s.objects.congr fun m _ => ?_, Handles.cookie_table (h := w.h) rfl htake⟩
    rw [← hcount m, if_neg fun h => h.1 hweak, Nat.add_zero]
  · have hdrop : (w.h.takeLive i).objects[o.id.index]? = some ⟨o.id.generation, some a, strong w.refs r.object⟩ := hobj
    have hpos := hcount r.object
    rw [if_pos ⟨hweak, rfl⟩] at hpos
    have hsame : ∀ m, m ≠ r.object → strong refs' m = strong w.refs m := fun m hne => by
      rw [← hcount m, if_neg fun h => hne h.2.symm, Nat.add_zero]
    have hlt := (List.getElem?_eq_some_iff.1 hobj).1
    unfold Handles.dropStrong
    rw [hdrop]
    dsimp only
    by_cases hz : strong refs' r.object = 0
    · rw [if_pos (show strong w.refs r.object - 1 = 0 by omega), if_pos ⟨hweak, hz⟩]
      refine ⟨s.objects.release ho hol (g := (o.id.generation + 1) % 2 ^ 32) (fun j hj => ?_) ?_ hsame, ?_⟩
      · exact List.getElem?_set_ne (Ne.symm hj)
      · exact List.getElem?_set_self hlt
      · refine Handles.cookie_table (h := w.h) rfl (htake.objects fun q hq hql p hp hpl => ?_)
        have hne : r.object ≠ q.object := by
          intro he
          have hkind := hlast hweak (by omega) q (hfrom q hq hql) hql he.symm
          refine List.countP_eq_zero.1 hz q hq ?_
          simp only [hql, he, Bool.true_and, bne_iff_ne, ne_eq, hkind, not_false_eq_true, Bool.and_eq_true, beq_self_eq_true,
            and_self]
        rw [List.getElem?_modify_ne _ _ hne, hp]
    · rw [if_neg (show ¬strong w.refs r.object - 1 = 0 by omega), if_neg fun h => hz h.2]
      refine ⟨s.objects.count_set ho hol (a := a) (fun j hj => ?_) ?_ hsame, Handles.cookie_table (h := w.h) rfl htake⟩
      · exact List.getElem?_set_ne (Ne.symm hj)
      · refine (List.getElem?_set_self hlt).trans ?_
        rw [← hpos, Nat.add_sub_cancel]

end World.Sound

namespace World

variable {w w' : World α}

theorem Settled.refused (s : Sound w) (e : AbiError) : Sound w ∧ Settled w (some e, w) :=
  ⟨s, fun _ o ho hl => ⟨o, ho, rfl, fun h => absurd h (by rw [hl]; nofun), fun h => absurd h.2 (Nat.ne_of_gt h.1)⟩,
    fun _ => rfl⟩

/-- no object is freed where no reference is gone -/
theorem Settled.grown (s : Sound w') (hobjs : ∀ (n : ℕ) (o : Obj), w.objs[n]? = some o → w'.objs[n]? = some o)
    (hle : ∀ n, strong w.refs n ≤ strong w'.refs n) : Sound w' ∧ Settled w (none, w') := by
  refine ⟨s, fun n o ho hl => ⟨o, hobjs n o ho, rfl, fun h => absurd h (by rw [hl]; nofun), fun h => ?_⟩, nofun⟩
  have := hle n
  dsimp only at h
  omega

theorem strong_le (refs : List Ref) (handle : ℕ) (kind : RefKind) (k n : ℕ) :
    strong refs n ≤ strong (refs ++ [⟨handle, kind, k, true⟩]) n := by
  rw [strong_append]
  exact Nat.le_add_right _ _

theorem get_append {objs : List Obj} (new : List Obj) (n : ℕ) (o : Obj) (ho : objs[n]? = some o) :
    (objs ++ new)[n]? = some o := by
  rw [List.getElem?_append_left (List.getElem?_eq_some_iff.1 ho).1, ho]

variable (s : Sound w) (function : String) (address : ℕ)
include s

theorem newLocal_settled (object : α) (hc : w.Careful ⟨function, address, .newLocal object⟩) :
    Sound (w.call ⟨function, address, .newLocal object⟩).2 ∧ Settled w (w.call ⟨function, address, .newLocal object⟩) := by
  obtain ⟨hf, hroom⟩ := hc
  dsimp only [call]
  cases hr : w.h.create function address object with
  | mk r h1 =>
    cases r with
    | error e =>
      have hn : w.h.newLocal function address object = (.error e, h1) := by rw [Handles.newLocal, hr]
      obtain rfl := Handles.insertObject_error hr
      rw [hn]
      exact Settled.refused s e
    | ok id =>
      obtain ⟨s1, hrefs, hfree⟩ := s.create hr
      have hn : w.h.newLocal function address object = h1.referenceTo function address .local_ id := by
        rw [Handles.newLocal, hr]
      rw [hn]
      cases hr2 : h1.referenceTo function address .local_ id with
      | mk r2 h2 =>
        cases r2 with
        | error e =>
          -- there is room for the reference where there is for the object
          exfalso
          have htake := (Handles.referenceTo_error hr2).2
          have hnone : w.h.takeRef = none := by
            unfold Handles.takeRef at htake ⊢
            rw [hrefs, hfree] at htake
            cases hfr : w.h.freeRefs with
            | nil =>
              rw [hfr] at htake
              dsimp only at htake ⊢
              split_ifs at htake ⊢
              rfl
            | cons i rest =>
              rw [hfr] at htake
              cases htake
          unfold Handles.create Handles.insertObject at hr
          rw [hroom hnone] at hr
          cases hr
        | ok x =>
          have hnext : h1.nextGeneration = w.h.nextGeneration := by
            unfold Handles.nextGeneration
            rw [hrefs, hfree]
          refine Settled.grown ?_ (get_append _) (strong_le _ _ _ _)
          exact s1.reference (n := w.objs.length) (o := ⟨id, true⟩) (hnext.trans_le hf) List.getElem?_concat_length rfl hr2

theorem reference_settled {kind : RefKind} {n : ℕ} {o : Obj} (hf : w.Fresh) (ho : w.objs[n]? = some o)
    (hl : o.live = true) {x : ℕ} {h : Handles α} (hr : w.h.referenceTo function address kind o.id = (.ok x, h)) :
    Sound (⟨h, w.objs, w.refs ++ [⟨x, kind, n, true⟩]⟩ : World α) ∧
      Settled w (none, ⟨h, w.objs, w.refs ++ [⟨x, kind, n, true⟩]⟩) :=
  Settled.grown (s.reference hf ho hl hr) (fun _ _ h => h) (strong_le _ _ _ _)

theorem find_eq {r : Ref} (hm : r ∈ w.refs) (hl : r.live = true) : w.find r.handle = some r := by
  unfold find
  cases hf : w.refs.find? fun q => q.live && q.handle == r.handle with
  | none =>
    have := List.find?_eq_none.1 hf r hm
    simp [hl] at this
  | some q =>
    have hq := List.find?_some hf
    simp only [Bool.and_eq_true, beq_iff_eq] at hq
    rw [List.inj_on_of_nodup_map s.refs.distinct (List.mem_of_find?_eq_some hf) hm hq.2]

theorem duplicate_settled (kind : RefKind) (handle : ℕ) (hc : w.Careful ⟨function, address, .duplicate kind handle⟩) :
    Sound (w.call ⟨function, address, .duplicate kind handle⟩).2 ∧
      Settled w (w.call ⟨function, address, .duplicate kind handle⟩) := by
  obtain ⟨hf, ht⟩ := hc
  dsimp only [call]
  unfold Handles.duplicate
  cases hres : w.h.resolveId function address handle with
  | error e => exact Settled.refused s e
  | ok id =>
    obtain ⟨r, hm, hl, rfl, o, ho, hol, rfl⟩ := s.told ht hres
    rw [find_eq s hm hl]
    dsimp only
    cases hr : w.h.referenceTo function address kind o.id with
    | mk x h =>
      cases x with
      | ok x => exact reference_settled s function address hf ho hol hr
      | error e =>
        obtain rfl := (Handles.referenceTo_error hr).1
        exact Settled.refused s e

theorem delete_settled (expected : RefKind) (handle : ℕ) (hc : w.Careful ⟨function, address, .delete expected handle⟩) :
    Sound (w.call ⟨function, address, .delete expected handle⟩).2 ∧
      Settled w (w.call ⟨function, address, .delete expected handle⟩) := by
  obtain ⟨ht, hlast⟩ := hc
  dsimp only [call]
  cases hres : w.h.resolveId function address handle with
  | error e =>
    rw [Handles.delete_error hres]
    exact Settled.refused s e
  | ok id =>
    obtain ⟨r, hm, hl, rfl, o, ho, hol, rfl⟩ := s.told ht hres
    rw [find_eq s hm hl]
    cases hr : w.h.delete function address expected r.handle with
    | mk x h =>
      cases x with
      | error e =>
        obtain ⟨slot, kind, hs, hlive⟩ := Handles.resolveId_slot hres
        rw [Handles.delete_eq hs hlive hres] at hr
        split_ifs at hr
        · obtain rfl := (Prod.mk.inj hr).2
          exact Settled.refused s e
        all_goals cases (Prod.mk.inj hr).1
      | ok u =>
        refine ⟨s.delete hm hl hr (hlast r hm hl rfl), fun n p hp hpl => ?_, fun h => absurd rfl h⟩
        have hcount := strong_dead s.refs.distinct hm hl n
        dsimp only [deleted]
        generalize (w.refs.map fun r' => if r'.handle = r.handle then { r' with live := false } else r') = refs' at hcount ⊢
        by_cases hfree : r.kind ≠ .weak ∧ strong refs' r.object = 0
        · rw [if_pos hfree]
          by_cases hn : r.object = n
          · subst hn
            rw [if_pos ⟨hfree.1, rfl⟩] at hcount
            refine ⟨{ p with live := false }, ?_, rfl, fun _ => ⟨by omega, hfree.2⟩, fun _ => rfl⟩
            rw [List.getElem?_modify_eq, hp]
            rfl
          · rw [if_neg fun h => hn h.2, Nat.add_zero] at hcount
            refine ⟨p, by rw [List.getElem?_modify_ne _ _ hn, hp], rfl, fun h => absurd h (by rw [hpl]; nofun), fun h => ?_⟩
            omega
        · rw [if_neg hfree]
          refine ⟨p, hp, rfl, fun h => absurd h (by rw [hpl]; nofun), fun h => absurd hfree (not_not.2 ?_)⟩
          by_cases hn : r.kind ≠ .weak ∧ r.object = n
          · exact ⟨hn.1, hn.2 ▸ h.2⟩
          · rw [if_neg hn, Nat.add_zero] at hcount
            omega

/-- a careful call keeps the tables sound -/
theorem call_settled (c : Call α) (hc : w.Careful c) : Sound (w.call c).2 ∧ Settled w (w.call c) := by
  obtain ⟨function, address, op⟩ := c
  cases op with
  | create object =>
    dsimp only [call]
    cases hr : w.h.create function address object with
    | mk x h =>
      cases x with
      | ok id => exact Settled.grown (s.create hr).1 (get_append _) fun _ => le_rfl
      | error e =>
        obtain rfl := Handles.insertObject_error hr
        exact Settled.refused s e
  | newLocal object => exact newLocal_settled s function address object hc
  | referenceTo kind n =>
    obtain ⟨hf, hl⟩ := hc
    dsimp only [call]
    cases ho : w.objs[n]? with
    | none => exact Settled.grown s (fun _ _ h => h) fun _ => le_rfl
    | some o =>
      dsimp only
      cases hr : w.h.referenceTo function address kind o.id with
      | mk x h =>
        cases x with
        | ok x => exact reference_settled s function address hf ho (hl o ho) hr
        | error e =>
          obtain rfl := (Handles.referenceTo_error hr).1
          exact Settled.refused s e
  | duplicate kind handle => exact duplicate_settled s function address kind handle hc
  | objectOf n => exact Settled.grown s (fun _ _ h => h) fun _ => le_rfl
  | objectOfMut n change =>
    dsimp only [call]
    cases ho : w.objs[n]? with
    | none => exact Settled.grown s (fun _ _ h => h) fun _ => le_rfl
    | some o => exact Settled.grown (s.change change) (fun _ _ h => h) fun _ => le_rfl
  | delete expected handle => exact delete_settled s function address expected handle hc

omit s in
theorem run_sound (calls : List (Call α)) (s : Sound w) (hc : w.CarefulRun calls) : Sound (w.run calls) := by
  induction calls generalizing w with
  | nil => exact s
  | cons c calls ih => exact ih (call_settled s c hc.1).1 hc.2

omit s in
/-- after every careful run handles have their integrity, and the next careful call does to the objects what it should -/
theorem integrity (cookie : ℕ) (calls : List (Call α)) (hc : (start cookie : World α).CarefulRun calls) :
    Integrity ((start cookie).run calls) ∧ ∀ c, ((start cookie : World α).run calls).Careful c →
      Settled ((start cookie).run calls) (((start cookie).run calls).call c) := by
  have s := run_sound calls (start_sound cookie) hc
  exact ⟨s.upholds, fun c hc => (call_settled s c hc).2⟩

instance decCareful (w : World α) (c : Call α) : Decidable (w.Careful c) := by
  obtain ⟨function, address, op⟩ := c
  unfold Careful Told Fresh
  cases op <;> dsimp only <;> infer_instance

instance decCarefulRun : ∀ (calls : List (Call α)) (w : World α), Decidable (w.CarefulRun calls)
  | [], _ => isTrue trivial
  | c :: calls, w =>
    match decCareful w c, decCarefulRun calls (w.call c).2 with
    | isTrue h, isTrue h' => isTrue ⟨h, h'⟩
    | isFalse h, _ => isFalse fun h' => h h'.1
    | _, isFalse h => isFalse fun h' => h h'.2

end World

/-! ## Runs on one object or two -/

namespace World

def newString : Call Unit := ⟨"NewStringUTF", 0x1000, .newLocal ()⟩

/-- a global reference keeps its object after the local one goes -/
def kept : List (Call Unit) :=
  [newString, ⟨"NewGlobalRef", 0x1000, .duplicate .global (encode .local_ 1 0)⟩,
    ⟨"DeleteLocalRef", 0x1000, .delete .local_ (encode .local_ 1 0)⟩]

theorem integrity_kept : Integrity ((start 0).run kept) ∧ ∀ c, ((start 0 : World Unit).run kept).Careful c →
    Settled ((start 0).run kept) (((start 0).run kept).call c) :=
  integrity 0 kept (by decide)

/-- a weak reference, and its object freed -/
def weakOutlives : List (Call Unit) :=
  [newString, ⟨"NewWeakGlobalRef", 0x1000, .duplicate .weak (encode .local_ 1 0)⟩,
    ⟨"DeleteLocalRef", 0x1000, .delete .local_ (encode .local_ 1 0)⟩]

/-- a reference made with the id of an object freed, its slot another's -/
def staleCounted : List (Call Unit) :=
  [newString, ⟨"DeleteLocalRef", 0x1000, .delete .local_ (encode .local_ 1 0)⟩, newString,
    ⟨"GetObjectField", 0x1000, .referenceTo .local_ 0⟩]

/-- the weak reference cannot be deleted; the other object is counted for; and a local reference's handle resolves as a
global one's, which none was returned for -/
theorem handles_unsound : ¬Integrity ((start 0).run weakOutlives) ∧ ¬Integrity ((start 0).run staleCounted) ∧
    ((start 0).run [newString]).h.resolveId "GetObjectClass" 0x1000 (encode .global 1 0) = .ok ⟨0, 1⟩ ∧
      ∀ r ∈ ((start 0).run [newString]).refs, r.handle ≠ encode .global 1 0 := by
  refine ⟨fun h => ?_, fun h => ?_, by decide, by decide⟩
  · have hm : (⟨encode .weak 1 1, .weak, 0, true⟩ : Ref) ∈ ((start 0).run weakOutlives).refs := by decide
    obtain ⟨h', hd⟩ := h.deletes "DeleteWeakGlobalRef" 0x1000 _ hm rfl
    have he : (((start 0).run weakOutlives).h.delete "DeleteWeakGlobalRef" 0x1000 .weak (encode .weak 1 1)).1.isOk = false :=
      by decide
    rw [hd] at he
    cases he
  · obtain ⟨a, ha⟩ := h.counts 1 ⟨⟨0, 2⟩, true⟩ (by decide) rfl
    have hs : ((start 0).run staleCounted).h.objects[0]?.map ObjectSlot.strong = some 2 := by decide
    have hone : strong ((start 0).run staleCounted).refs 1 = 1 := by decide
    rw [ha, hone] at hs
    cases hs

end World

end Omnidroid.Jni
