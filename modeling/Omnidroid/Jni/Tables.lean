/-
What the two tables hold, told by the objects made and the references returned.
- `ObjectTable`: a slot has an object exactly when a live one was made for it, and its count is that object's.
- `ReferenceTable`: a slot has a reference exactly when a live one was made for it; every handle returned has its own
  slot and generation, and a dead reference's slot has gone on to a later generation.

An operation of the code is one change of each (`insert`, `count`, `free`; `add`, `remove`).
-/
import Omnidroid.Jni.Handle

namespace Omnidroid.Jni

variable {α : Type}

/-- an object made -/
structure Obj where
  id : ObjectId
  live : Bool
deriving DecidableEq

/-- a reference returned; its object by its number -/
structure Ref where
  handle : ℕ
  kind : RefKind
  object : ℕ
  live : Bool
deriving DecidableEq

/-! ## Objects -/

structure ObjectTable (slots : List (ObjectSlot α)) (free : List ℕ) (objs : List Obj) (count : ℕ → ℕ) : Prop where
  object : ∀ (n : ℕ) (o : Obj), objs[n]? = some o → o.live = true →
    ∃ a, slots[o.id.index]? = some ⟨o.id.generation, some a, count n⟩
  held : ∀ (i : ℕ) (slot : ObjectSlot α), slots[i]? = some slot → slot.object.isSome →
    ∃ (n : ℕ) (o : Obj), objs[n]? = some o ∧ o.live = true ∧ o.id.index = i
  apart : ∀ (n m : ℕ) (o p : Obj), objs[n]? = some o → objs[m]? = some p → o.live = true → p.live = true →
    o.id.index = p.id.index → n = m
  nodup : free.Nodup
  free : ∀ i, i ∈ free ↔ ∃ slot : ObjectSlot α, slots[i]? = some slot ∧ slot.object = none

namespace ObjectTable

variable {slots : List (ObjectSlot α)} {free : List ℕ} {objs : List Obj} {count count' : ℕ → ℕ}
  (t : ObjectTable slots free objs count)
include t

theorem congr (hc : ∀ n, n < objs.length → count' n = count n) : ObjectTable slots free objs count' :=
  { t with
    object := fun n o ho hl => by
      rw [hc n (List.getElem?_eq_some_iff.1 ho).1]
      exact t.object n o ho hl }

/-- an object put into the slot taken for it -/
theorem insert {i : ℕ} {slots' : List (ObjectSlot α)} {free' : List ℕ} {g : ℕ} {a : α}
    (hold : ∀ slot, slots[i]? = some slot → slot.object = none)
    (hother : ∀ j, j ≠ i → slots'[j]? = slots[j]?) (hi : slots'[i]? = some ⟨g, some a, 0⟩)
    (hnodup : free'.Nodup) (hfree : ∀ j, j ∈ free' ↔ j ≠ i ∧ j ∈ free) (hcount : count objs.length = 0) :
    ObjectTable slots' free' (objs ++ [⟨⟨i, g⟩, true⟩]) count := by
  have hne : ∀ (n : ℕ) (o : Obj), objs[n]? = some o → o.live = true → o.id.index ≠ i := by
    intro n o ho hl he
    obtain ⟨b, hb⟩ := t.object n o ho hl
    cases hold _ (he ▸ hb)
  have hget : ∀ (n : ℕ) (o : Obj), (objs ++ [⟨⟨i, g⟩, true⟩])[n]? = some o →
      objs[n]? = some o ∨ n = objs.length ∧ o = ⟨⟨i, g⟩, true⟩ := by
    intro n o ho
    rw [List.getElem?_append] at ho
    split_ifs at ho with hn
    · exact .inl ho
    · have hlt := (List.getElem?_eq_some_iff.1 ho).1
      rw [List.length_singleton] at hlt
      have hn' : n - objs.length = 0 := by omega
      rw [hn', List.getElem?_cons_zero, Option.some.injEq] at ho
      exact .inr ⟨by omega, ho.symm⟩
  have hlift : ∀ (n : ℕ) (o : Obj), objs[n]? = some o → (objs ++ [⟨⟨i, g⟩, true⟩])[n]? = some o := fun n o ho => by
    rw [List.getElem?_append_left (List.getElem?_eq_some_iff.1 ho).1, ho]
  constructor
  case object =>
    intro n o ho hl
    rcases hget n o ho with ho' | ⟨rfl, rfl⟩
    · rw [hother _ (hne n o ho' hl)]
      exact t.object n o ho' hl
    · exact ⟨a, by rw [hi, hcount]⟩
  case held =>
    intro j slot hj hs
    by_cases hji : j = i
    · exact ⟨objs.length, ⟨⟨i, g⟩, true⟩, by rw [List.getElem?_concat_length], rfl, hji.symm⟩
    · rw [hother j hji] at hj
      obtain ⟨n, o, ho, hl, hix⟩ := t.held j slot hj hs
      exact ⟨n, o, hlift n o ho, hl, hix⟩
  case apart =>
    intro n m o p ho hp hol hpl he
    rcases hget n o ho with ho' | ⟨rfl, rfl⟩ <;> rcases hget m p hp with hp' | ⟨rfl, rfl⟩
    · exact t.apart n m o p ho' hp' hol hpl he
    · exact absurd he (hne n o ho' hol)
    · exact absurd he.symm (hne m p hp' hpl)
    · rfl
  case nodup => exact hnodup
  case free =>
    intro j
    rw [hfree, t.free]
    by_cases hji : j = i
    · subst hji
      constructor
      · rintro ⟨h, -⟩
        exact absurd rfl h
      · rintro ⟨slot, hs, hn⟩
        rw [hi, Option.some.injEq] at hs
        subst hs
        cases hn
    · rw [hother j hji]
      exact ⟨fun h => h.2, fun h => ⟨hji, h⟩⟩

/-- a slot changed where it has an object -/
theorem count_set {n : ℕ} {o : Obj} (ho : objs[n]? = some o) (hl : o.live = true) {slots' : List (ObjectSlot α)} {a : α}
    (hother : ∀ j, j ≠ o.id.index → slots'[j]? = slots[j]?)
    (hi : slots'[o.id.index]? = some ⟨o.id.generation, some a, count' n⟩)
    (hcount : ∀ m, m ≠ n → count' m = count m) : ObjectTable slots' free objs count' := by
  constructor
  case object =>
    intro m p hp hpl
    by_cases hmn : m = n
    · subst hmn
      obtain rfl : o = p := by rw [ho] at hp; exact Option.some.inj hp
      exact ⟨a, hi⟩
    · have hne : p.id.index ≠ o.id.index := fun he => hmn (t.apart m n p o hp ho hpl hl he)
      rw [hother _ hne, hcount m hmn]
      exact t.object m p hp hpl
  case held =>
    intro j slot hj hs
    by_cases hji : j = o.id.index
    · exact ⟨n, o, ho, hl, hji.symm⟩
    · rw [hother j hji] at hj
      exact t.held j slot hj hs
  case apart => exact t.apart
  case nodup => exact t.nodup
  case free =>
    intro j
    rw [t.free]
    by_cases hji : j = o.id.index
    · obtain ⟨b, hb⟩ := t.object n o ho hl
      rw [hji, hi, hb]
      constructor
      · rintro ⟨slot, hs, hn⟩
        cases hs
        cases hn
      · rintro ⟨slot, hs, hn⟩
        cases hs
        cases hn
    · rw [hother j hji]

/-- a live object freed -/
theorem release {n : ℕ} {o : Obj} (ho : objs[n]? = some o) (hl : o.live = true) {slots' : List (ObjectSlot α)} {g : ℕ}
    (hother : ∀ j, j ≠ o.id.index → slots'[j]? = slots[j]?) (hi : slots'[o.id.index]? = some ⟨g, none, 0⟩)
    (hcount : ∀ m, m ≠ n → count' m = count m) :
    ObjectTable slots' (o.id.index :: free) (objs.modify n fun o => { o with live := false }) count' := by
  have hget : ∀ (m : ℕ) (p : Obj), (objs.modify n fun o => { o with live := false })[m]? = some p → p.live = true →
      m ≠ n ∧ objs[m]? = some p := by
    intro m p hp hpl
    by_cases hnm : n = m
    · subst hnm
      rw [List.getElem?_modify_eq, ho] at hp
      cases hp
      cases hpl
    · rw [List.getElem?_modify_ne _ _ hnm] at hp
      exact ⟨fun h => hnm h.symm, hp⟩
  obtain ⟨b, hb⟩ := t.object n o ho hl
  have hnot : o.id.index ∉ free := fun hmem => by
    obtain ⟨slot, hs, hn⟩ := (t.free _).1 hmem
    rw [hb] at hs
    cases hs
    cases hn
  constructor
  case object =>
    intro m p hp hpl
    obtain ⟨hmn, hp'⟩ := hget m p hp hpl
    have hne : p.id.index ≠ o.id.index := fun he => hmn (t.apart m n p o hp' ho hpl hl he)
    rw [hother _ hne, hcount m hmn]
    exact t.object m p hp' hpl
  case held =>
    intro j slot hj hs
    by_cases hji : j = o.id.index
    · rw [hji, hi] at hj
      cases hj
      cases hs
    · rw [hother j hji] at hj
      obtain ⟨m, p, hp, hpl, hix⟩ := t.held j slot hj hs
      have hmn : n ≠ m := by
        rintro rfl
        rw [ho] at hp
        cases hp
        exact hji hix.symm
      exact ⟨m, p, by rw [List.getElem?_modify_ne _ _ hmn, hp], hpl, hix⟩
  case apart =>
    intro m k p q hp hq hpl hql he
    exact t.apart m k p q (hget m p hp hpl).2 (hget k q hq hql).2 hpl hql he
  case nodup => exact List.nodup_cons.2 ⟨hnot, t.nodup⟩
  case free =>
    intro j
    rw [List.mem_cons, t.free]
    by_cases hji : j = o.id.index
    · rw [hji, hi]
      exact ⟨fun _ => ⟨_, rfl, rfl⟩, fun _ => .inl rfl⟩
    · rw [hother j hji]
      exact ⟨fun h => h.resolve_left hji, .inr⟩

end ObjectTable

/-! ## References -/

/-- a reference's slot and the generation it was made in: its own while it lives, an earlier one after -/
structure Ref.At (r : Ref) (slots : List RefSlot) (check : ℕ → ℕ) (objs : List Obj) (i g : ℕ) (slot : RefSlot) : Prop where
  handle : r.handle = encode r.kind (check g) i
  here : slots[i]? = some slot
  first : 1 ≤ g
  last : g ≤ 2 ^ 24
  live : r.live = true →
    slot.generation = g ∧ ∃ o, objs[r.object]? = some o ∧ o.live = true ∧ slot.live = some (r.kind, o.id)
  dead : r.live = false → g < slot.generation

structure ReferenceTable (slots : List RefSlot) (free : List ℕ) (check : ℕ → ℕ) (objs : List Obj) (refs : List Ref) :
    Prop where
  issued : ∀ r ∈ refs, ∃ i g slot, r.At slots check objs i g slot
  held : ∀ (i : ℕ) (slot : RefSlot), slots[i]? = some slot → slot.live.isSome →
    ∃ r ∈ refs, r.live = true ∧ r.handle % 2 ^ 28 = i
  distinct : (refs.map Ref.handle).Nodup
  nodup : free.Nodup
  free : ∀ i, i ∈ free ↔ ∃ slot : RefSlot, slots[i]? = some slot ∧ slot.live = none
  cap : slots.length ≤ maxReferences
  first : ∀ slot ∈ slots, 1 ≤ slot.generation

/-- a check word as wide as it is told apart by -/
structure Check (check : ℕ → ℕ) : Prop where
  lt : ∀ g, check g < 2 ^ 24
  inj : ∀ g g', check g = check g' → g % 2 ^ 24 = g' % 2 ^ 24

theorem Handles.check (h : Handles α) : Check h.checkWord := ⟨h.checkWord_lt, fun _ _ => checkWord_inj⟩

namespace ReferenceTable

variable {slots slots' : List RefSlot} {free free' : List ℕ} {check : ℕ → ℕ} {objs objs' : List Obj} {refs : List Ref}
  (hc : Check check) (t : ReferenceTable slots free check objs refs)
include hc t

omit hc in
theorem index_lt {i : ℕ} {slot : RefSlot} (h : slots[i]? = some slot) : i < 2 ^ 28 := by
  have h1 := (List.getElem?_eq_some_iff.1 h).1
  have h2 : slots.length ≤ 65536 := t.cap
  omega

omit hc in
theorem at_index {r : Ref} {i g : ℕ} {slot : RefSlot} (h : r.At slots check objs i g slot) : r.handle % 2 ^ 28 = i := by
  rw [h.handle]
  exact encode_index _ _ (t.index_lt h.here)

omit hc in
/-- the live references of two slots are two -/
theorem live_unique {r r' : Ref} (hr : r ∈ refs) (hr' : r' ∈ refs) (hl : r.live = true) (hl' : r'.live = true)
    (hi : r.handle % 2 ^ 28 = r'.handle % 2 ^ 28) : r = r' := by
  obtain ⟨i, g, slot, h⟩ := t.issued r hr
  obtain ⟨i', g', slot', h'⟩ := t.issued r' hr'
  rw [t.at_index h, t.at_index h'] at hi
  subst hi
  obtain rfl : slot = slot' := Option.some.inj (h.here.symm.trans h'.here)
  obtain ⟨rfl, o, -, -, hs⟩ := h.live hl
  obtain ⟨rfl, o', -, -, hs'⟩ := h'.live hl'
  have hk : r.kind = r'.kind := congrArg Prod.fst (Option.some.inj (hs.symm.trans hs'))
  have hh : r.handle = r'.handle := by rw [h.handle, h'.handle, hk]
  exact List.inj_on_of_nodup_map t.distinct hr hr' hh

omit hc in
/-- the objects changed, no live reference's with them -/
theorem objects (hobjs : ∀ r ∈ refs, r.live = true → ∀ o, objs[r.object]? = some o → o.live = true →
    objs'[r.object]? = some o) : ReferenceTable slots free check objs' refs :=
  { t with
    issued := fun r hr => by
      obtain ⟨i, g, slot, h⟩ := t.issued r hr
      refine ⟨i, g, slot, { h with live := fun hl => ?_ }⟩
      obtain ⟨hg, o, ho, hol, hs⟩ := h.live hl
      exact ⟨hg, o, hobjs r hr hl o ho hol, hol, hs⟩ }

/-- a reference made in the slot taken for it, one not used as often as the check word can tell -/
theorem add {i g n : ℕ} {o : Obj} {kind : RefKind}
    (hold : ∀ slot, slots[i]? = some slot → slot.live = none ∧ slot.generation = g)
    (hother : ∀ j, j ≠ i → slots'[j]? = slots[j]?) (hi : slots'[i]? = some ⟨g, some (kind, o.id)⟩)
    (hnodup : free'.Nodup) (hfree : ∀ j, j ∈ free' ↔ j ≠ i ∧ j ∈ free) (hcap : slots'.length ≤ maxReferences)
    (hfirst : 1 ≤ g) (hlast : g ≤ 2 ^ 24) (ho : objs[n]? = some o) (hl : o.live = true) :
    ReferenceTable slots' free' check objs (refs ++ [⟨encode kind (check g) i, kind, n, true⟩]) := by
  have hi28 : i < 2 ^ 28 := by
    have h1 := (List.getElem?_eq_some_iff.1 hi).1
    have h2 : slots'.length ≤ 65536 := hcap
    omega
  -- a reference made before in that slot is dead, and of an earlier generation
  have hbefore : ∀ r ∈ refs, ∀ g' slot, r.At slots check objs i g' slot → r.live = false ∧ g' < g := by
    intro r hr g' slot h
    obtain ⟨hnone, hgen⟩ := hold slot h.here
    cases hrl : r.live with
    | true =>
      obtain ⟨-, p, -, -, hs⟩ := h.live hrl
      rw [hnone] at hs
      cases hs
    | false => exact ⟨rfl, hgen ▸ h.dead hrl⟩
  constructor
  case issued =>
    intro r hr
    rcases List.mem_append.1 hr with hold' | hr
    · obtain ⟨j, g', slot, h⟩ := t.issued r hold'
      by_cases hji : j = i
      · subst hji
        obtain ⟨hdead, hlt⟩ := hbefore r hold' g' slot h
        refine ⟨j, g', _, h.handle, hi, h.first, h.last, fun hrl => ?_, fun _ => hlt⟩
        rw [hdead] at hrl
        cases hrl
      · exact ⟨j, g', slot, { h with here := by rw [hother j hji]; exact h.here }⟩
    · obtain rfl := List.mem_singleton.1 hr
      exact ⟨i, g, _, rfl, hi, hfirst, hlast, fun _ => ⟨rfl, o, ho, hl, rfl⟩, nofun⟩
  case held =>
    intro j slot hj hs
    by_cases hji : j = i
    · refine ⟨_, List.mem_append_right _ (List.mem_singleton.2 rfl), rfl, ?_⟩
      rw [hji]
      exact encode_index kind _ hi28
    · rw [hother j hji] at hj
      obtain ⟨r, hr, hrl, hix⟩ := t.held j slot hj hs
      exact ⟨r, List.mem_append_left _ hr, hrl, hix⟩
  case distinct =>
    rw [List.map_append, List.nodup_append]
    refine ⟨t.distinct, List.nodup_singleton _, fun x hx y hy hxy => ?_⟩
    obtain ⟨r, hr, rfl⟩ := List.mem_map.1 hx
    obtain rfl := List.mem_singleton.1 hy
    obtain ⟨j, g', slot, h⟩ := t.issued r hr
    rw [h.handle] at hxy
    have hj := encode_index r.kind (check g') (t.index_lt h.here)
    rw [hxy, encode_index kind _ hi28] at hj
    subst hj
    obtain ⟨-, hlt⟩ := hbefore r hr g' slot h
    have he := encode_check r.kind (hc.lt g') hi28
    rw [hxy, encode_check kind (hc.lt g) hi28] at he
    have hmod := hc.inj g g' he
    have h1 := h.first
    omega
  case nodup => exact hnodup
  case free =>
    intro j
    rw [hfree, t.free]
    by_cases hji : j = i
    · subst hji
      constructor
      · rintro ⟨h, -⟩
        exact absurd rfl h
      · rintro ⟨slot, hs, hn⟩
        rw [hi, Option.some.injEq] at hs
        subst hs
        cases hn
    · rw [hother j hji]
      exact ⟨fun h => h.2, fun h => ⟨hji, h⟩⟩
  case cap => exact hcap
  case first =>
    intro slot hs
    obtain ⟨j, hj⟩ := List.mem_iff_getElem?.1 hs
    by_cases hji : j = i
    · rw [hji, hi] at hj
      cases hj
      exact hfirst
    · rw [hother j hji] at hj
      exact t.first slot (List.mem_of_getElem? hj)

omit hc in
/-- a live reference's slot emptied -/
theorem remove {r : Ref} (hr : r ∈ refs) (hl : r.live = true) {i g : ℕ} {slot : RefSlot}
    (h : r.At slots check objs i g slot) (hlen : slots'.length = slots.length)
    (hother : ∀ j, j ≠ i → slots'[j]? = slots[j]?) (hi : slots'[i]? = some ⟨(g + 1) % 2 ^ 32, none⟩) :
    ReferenceTable slots' (i :: free) check objs
      (refs.map fun r' => if r'.handle = r.handle then { r' with live := false } else r') := by
  have hgen : (g + 1) % 2 ^ 32 = g + 1 := Nat.mod_eq_of_lt (by have := h.last; omega)
  rw [hgen] at hi
  have hhandle : ∀ r' : Ref, (if r'.handle = r.handle then { r' with live := false } else r').handle = r'.handle :=
    fun r' => by split_ifs <;> rfl
  have hsame : ∀ r' ∈ refs, r'.handle = r.handle → r' = r := fun r' hr' he =>
    List.inj_on_of_nodup_map t.distinct hr' hr he
  constructor
  case issued =>
    intro q hq
    obtain ⟨r', hr', rfl⟩ := List.mem_map.1 hq
    by_cases he : r'.handle = r.handle
    · rw [if_pos he]
      obtain rfl := hsame r' hr' he
      exact ⟨i, g, _, h.handle, hi, h.first, h.last, nofun, fun _ => Nat.lt_succ_self g⟩
    · rw [if_neg he]
      obtain ⟨j, g', slot', h'⟩ := t.issued r' hr'
      by_cases hji : j = i
      · subst hji
        obtain rfl : slot = slot' := Option.some.inj (h.here.symm.trans h'.here)
        cases hrl : r'.live with
        | true =>
          refine absurd (congrArg Ref.handle (t.live_unique hr' hr hrl hl ?_)) he
          rw [t.at_index h, t.at_index h']
        | false =>
          have hlt := h'.dead hrl
          rw [(h.live hl).1] at hlt
          refine ⟨j, g', _, h'.handle, hi, h'.first, h'.last, fun h => ?_, fun _ => Nat.lt_succ_of_lt hlt⟩
          rw [hrl] at h
          cases h
      · exact ⟨j, g', slot', { h' with here := by rw [hother j hji]; exact h'.here }⟩
  case held =>
    intro j slot' hj hs
    by_cases hji : j = i
    · rw [hji, hi] at hj
      cases hj
      cases hs
    · rw [hother j hji] at hj
      obtain ⟨r', hr', hrl, hix⟩ := t.held j slot' hj hs
      have he : r'.handle ≠ r.handle := fun he => hji (by rw [← hix, he, t.at_index h])
      exact ⟨r', List.mem_map.2 ⟨r', hr', if_neg he⟩, hrl, hix⟩
  case distinct =>
    rw [List.map_map]
    exact (List.map_congr_left fun r' _ => hhandle r') ▸ t.distinct
  case nodup =>
    refine List.nodup_cons.2 ⟨fun hmem => ?_, t.nodup⟩
    obtain ⟨slot', hs, hn⟩ := (t.free i).1 hmem
    obtain rfl : slot = slot' := Option.some.inj (h.here.symm.trans hs)
    obtain ⟨-, o, -, -, hlive⟩ := h.live hl
    rw [hn] at hlive
    cases hlive
  case free =>
    intro j
    rw [List.mem_cons, t.free]
    by_cases hji : j = i
    · rw [hji, hi]
      exact ⟨fun _ => ⟨_, rfl, rfl⟩, fun _ => .inl rfl⟩
    · rw [hother j hji]
      exact ⟨fun h => h.resolve_left hji, .inr⟩
  case cap =>
    rw [hlen]
    exact t.cap
  case first =>
    intro slot' hs
    obtain ⟨j, hj⟩ := List.mem_iff_getElem?.1 hs
    by_cases hji : j = i
    · rw [hji, hi] at hj
      cases hj
      exact Nat.le_add_left 1 g
    · rw [hother j hji] at hj
      exact t.first slot' (List.mem_of_getElem? hj)

end ReferenceTable

end Omnidroid.Jni
