/-
What translating a parcel asks of the process (`translate_objects` of `omni-linux/src/binder.rs`): the memory it
reserves for each object, and where it panics. Every field of an object is its sender's.
- `demandRun`: the translation with its reservations; but for a panic it is the translation (`demandRun_result`).
- `Held`: the broker's names and the buffers gathered, as an object leaves them; from there neither `expect("a node")`
  nor `sg[parent_sg]` panics (`demand_bounded`).
- `translation_bounded`: what is left is the room for an fd array's files, reserved as large as its sender claims.
-/
import Omnidroid.Binder.Named
import Omnidroid.Binder.Receive

namespace Omnidroid.Binder

open Bytes

/-! ## Reservations and panics -/

/-- the room of an `Arc` -/
def arcSize : ℕ := 8

/-- the most a `Vec` may hold, `isize::MAX` -/
def isizeMax : ℕ := 2 ^ 63 - 1

/-- the object at `off`: what is reserved for it, one number each time, and what becomes of it, `none` for a panic -/
def demand (env : SendEnv) (sender : Thread) (target : ProcId) (index off : ℕ) (x : Translation) :
    List ℕ × Option (Translation × Except Errno Unit) :=
  let done := translateObject env sender target index off x
  match get? x.data off 4 with
  | none => ([], some done)
  | some k =>
    if u32At k 0 = typePtr then
      match get? x.data off 40 with
      | none => ([], some done)
      | some obj =>
        let length := (u64At obj 16).toNat
        (if length > 2 ^ 20 then [40] else [40, length], some done)
    else if u32At k 0 = typeFda then
      match get? x.data off 32 with
      | none => ([], some done)
      | some obj =>
        let (num, parentIndex) := ((u64At obj 8).toNat, (u64At obj 16).toNat)
        match x.objs.sgOfObject.lookup parentIndex with
        | none => ([32], some done)
        | some sg =>
          -- `sg[parent_sg]`, then `Vec::with_capacity(num)`
          if x.objs.sg.length ≤ sg then ([32], none)
          else if num * arcSize > isizeMax then ([32], none)
          else ([32, num * arcSize], some done)
    else
      match get? x.data off 24 with
      | none => ([], some done)
      | some obj =>
        -- `self.nodes.get(&node).expect("a node")`
        if isHandleKind (u32At k 0) &&
            (x.st.nodeForHandle sender.1 (u64At obj 8).toUInt32).any fun n => (x.st.nodes.lookup n).isNone then
          ([24], none)
        else ([24], some done)

/-- the objects at `offs`, as `translateObjects` -/
def demandRun (env : SendEnv) (sender : Thread) (target : ProcId) :
    ℕ → List UInt64 → Translation → List ℕ × Option (Translation × Except Errno Unit)
  | _, [], x => ([], some (x, .ok ()))
  | index, off :: offs, x =>
    match demand env sender target index off.toNat x with
    | (l, none) => (l, none)
    | (l, some (x, .error e)) => (l, some (x, .error e))
    | (l, some (x, .ok ())) =>
      match demandRun env sender target (index + 1) offs x with
      | (l', r) => (l ++ l', r)

/-- how many descriptors the object at `off` claims, if it is an array of them with a buffer for its parent -/
def claimed (off : ℕ) (x : Translation) : Option ℕ :=
  match get? x.data off 4 with
  | none => none
  | some k =>
    if u32At k 0 = typeFda then
      (get? x.data off 32).bind fun obj =>
        (x.objs.sgOfObject.lookup (u64At obj 16).toNat).map fun _ => (u64At obj 8).toNat
    else none

/-- no array of descriptors that is come to claims more than the largest parent has room for -/
def Modest (env : SendEnv) (sender : Thread) (target : ProcId) : ℕ → List UInt64 → Translation → Prop
  | _, [], _ => True
  | index, off :: offs, x =>
    (∀ num ∈ claimed off.toNat x, num ≤ 2 ^ 18) ∧
      match translateObject env sender target index off.toNat x with
      | (_, .error _) => True
      | (x, .ok ()) => Modest env sender target (index + 1) offs x

/-- the most reserved at once: the files of an array that fills its parent -/
def mostReserved : ℕ := 2 ^ 18 * arcSize

variable {env : SendEnv} {sender : Thread} {target : ProcId} {index : ℕ}

theorem demand_some {off : ℕ} {x : Translation} {l : List ℕ} {r : Translation × Except Errno Unit}
    (h : demand env sender target index off x = (l, some r)) : r = translateObject env sender target index off x := by
  unfold demand at h
  dsimp only at h
  repeat' split at h
  all_goals cases h
  all_goals rfl

theorem demandRun_result {offs : List UInt64} {x : Translation} {r : Translation × Except Errno Unit}
    (h : (demandRun env sender target index offs x).2 = some r) :
    r = translateObjects env sender target index offs x := by
  induction offs generalizing index x with
  | nil =>
    cases h
    rfl
  | cons off offs ih =>
    rw [demandRun] at h
    rw [translateObjects]
    split at h
    · cases h
    · rename_i l x' e hd
      cases h
      rw [← demand_some hd]
    · rename_i l x' hd
      rw [← demand_some hd]
      exact ih h

/-! ## No panic but one -/

/-- every name is of a node that is there, every index of a buffer that is -/
structure Held (x : Translation) : Prop where
  named : Named x.st
  gathered : Gathered x.data.length x.objs

theorem Named.translateRef {s : State} (h : Named s) (obj : Bytes) (pins : List NodeId) :
    Named (s.translateRef sender target obj pins).1 := by
  unfold State.translateRef
  dsimp only
  split_ifs
  · exact h.exportLocal _ _ _ _ _ _ _
  · exact h.forwardHandle _ _ _ _ _
  · exact h

theorem translateFlat_named {off : ℕ} {obj : Bytes} {x : Translation} (h : Named x.st) :
    Named (translateFlat sender target off obj x).1.st := by
  have hn : Named (x.st.translateRef sender target obj x.pins).1 := h.translateRef obj x.pins
  unfold translateFlat
  split
  all_goals
    rename_i hr
    rw [hr] at hn
    exact hn

theorem translateObject_held {off : ℕ} {x x' : Translation} (h : Held x)
    (hx : translateObject env sender target index off x = (x', .ok ())) : Held x' := by
  refine ⟨?_, (translateObject_gathered h.gathered hx).2⟩
  have hn : Named (translateObject env sender target index off x).1.st := by
    unfold translateObject
    repeat' split
    all_goals first | exact h.named | exact translateFlat_named h.named
  rw [hx] at hn
  exact hn

/-- no panic, and nothing reserved beyond `mostReserved` -/
def Bounded {α : Type} (d : List ℕ × Option α) : Prop := d.2 ≠ none ∧ ∀ n ∈ d.1, n ≤ mostReserved

theorem bounded_some {α : Type} {l : List ℕ} {r : α} : Bounded (l, some r) ↔ ∀ n ∈ l, n ≤ mostReserved :=
  and_iff_right nofun

theorem not_bounded_none {α : Type} (l : List ℕ) : ¬Bounded ((l, none) : List ℕ × Option α) := fun h => h.1 rfl

/-- one object is bounded exactly where it does not claim too much -/
theorem demand_bounded {off : ℕ} {x : Translation} (h : Held x) :
    Bounded (demand env sender target index off x) ↔ ∀ num ∈ claimed off x, num ≤ 2 ^ 18 := by
  unfold demand claimed
  dsimp only
  cases hk : get? x.data off 4 with
  | none => simp [bounded_some]
  | some k =>
    dsimp only
    by_cases hptr : u32At k 0 = typePtr
    · have hne : u32At k 0 ≠ typeFda := by rw [hptr]; decide
      rw [if_pos hptr, if_neg hne]
      cases get? x.data off 40 with
      | none => simp [bounded_some]
      | some obj =>
        rw [bounded_some]
        refine iff_of_true (fun n hn => ?_) nofun
        split_ifs at hn with hlong
        · rw [List.mem_singleton.1 hn]
          decide
        · rcases List.mem_pair.1 hn with rfl | rfl
          · decide
          · exact (not_lt.1 hlong).trans (by decide)
    · rw [if_neg hptr]
      by_cases hfda : u32At k 0 = typeFda
      · rw [if_pos hfda, if_pos hfda]
        cases get? x.data off 32 with
        | none => simp [bounded_some]
        | some obj =>
          simp only [Option.bind_some]
          cases hsg : x.objs.sgOfObject.lookup (u64At obj 16).toNat with
          | none =>
            rw [bounded_some]
            refine iff_of_true (fun n hn => ?_) nofun
            rw [List.mem_singleton.1 hn]
            decide
          | some sg =>
            dsimp only
            have hin : ¬x.objs.sg.length ≤ sg := not_le.2 (h.gathered.index _ sg hsg)
            have hclaim : (∀ num ∈ some (u64At obj 8).toNat, num ≤ 2 ^ 18) ↔ (u64At obj 8).toNat ≤ 2 ^ 18 := by simp
            rw [if_neg hin, Option.map_some, hclaim]
            split_ifs with hbig
            · refine iff_of_false (not_bounded_none _) fun hle => ?_
              have : (u64At obj 8).toNat * 8 > 2 ^ 63 - 1 := hbig
              omega
            · rw [bounded_some]
              constructor
              · intro hall
                have : (u64At obj 8).toNat * 8 ≤ 2 ^ 18 * 8 := hall _ (by simp [arcSize])
                omega
              · intro hle n hn
                rcases List.mem_pair.1 hn with rfl | rfl
                · decide
                · exact Nat.mul_le_mul_right 8 hle
      · rw [if_neg hfda, if_neg hfda]
        cases get? x.data off 24 with
        | none => simp [bounded_some]
        | some obj =>
          dsimp only
          have hthere : ((x.st.nodeForHandle sender.1 (u64At obj 8).toUInt32).any fun n =>
              (x.st.nodes.lookup n).isNone) = false := by
            cases hn : x.st.nodeForHandle sender.1 (u64At obj 8).toUInt32 with
            | none => rfl
            | some n =>
              obtain ⟨nd, hnd⟩ := Option.isSome_iff_exists.1 (h.named.nodeForHandle hn)
              simp [hnd]
          rw [hthere, Bool.and_false, if_neg Bool.false_ne_true, bounded_some]
          refine iff_of_true (fun n hn => ?_) nofun
          rw [List.mem_singleton.1 hn]
          decide

theorem demand_length {off : ℕ} {x : Translation} : (demand env sender target index off x).1.length ≤ 2 := by
  unfold demand
  dsimp only
  repeat' split
  all_goals simp

theorem demandRun_length {offs : List UInt64} {x : Translation} :
    (demandRun env sender target index offs x).1.length ≤ 2 * offs.length := by
  induction offs generalizing index x with
  | nil => exact Nat.zero_le _
  | cons off offs ih =>
    have hone : (demand env sender target index off.toNat x).1.length ≤ 2 := demand_length
    rw [demandRun, List.length_cons]
    split
    · rename_i hd
      rw [hd] at hone
      exact le_trans hone (by omega)
    · rename_i hd
      rw [hd] at hone
      exact le_trans hone (by omega)
    · rename_i l x' hd
      rw [hd] at hone
      have hrest : (demandRun env sender target (index + 1) offs x').1.length ≤ 2 * offs.length := ih
      dsimp only at hone ⊢
      rw [List.length_append]
      omega

theorem demandRun_bounded {offs : List UInt64} {x : Translation} (h : Held x) :
    Bounded (demandRun env sender target index offs x) ↔ Modest env sender target index offs x := by
  induction offs generalizing index x with
  | nil => exact iff_of_true ⟨nofun, nofun⟩ trivial
  | cons off offs ih =>
    have hone : Bounded (demand env sender target index off.toNat x) ↔ _ := demand_bounded h
    rw [demandRun, Modest, ← hone]
    cases hd : demand env sender target index off.toNat x with
    | mk l r =>
      cases r with
      | none => exact iff_of_false (not_bounded_none l) fun hb => not_bounded_none l hb.1
      | some r =>
        obtain ⟨x', result⟩ := r
        rw [← demand_some hd]
        cases result with
        | error e => exact (and_iff_left trivial).symm
        | ok u =>
          have hx : translateObject env sender target index off.toNat x = (x', .ok ()) := (demand_some hd).symm
          dsimp only
          rw [← ih (translateObject_held h hx)]
          constructor
          · rintro ⟨hr, hl⟩
            exact ⟨bounded_some.2 fun n hn => hl n (List.mem_append_left _ hn), hr,
              fun n hn => hl n (List.mem_append_right _ hn)⟩
          · rintro ⟨hl, hr, hl'⟩
            refine ⟨hr, fun n hn => ?_⟩
            rcases List.mem_append.1 hn with hn | hn
            · exact hl.2 n hn
            · exact hl' n hn

/-! ## What is gathered -/

/-- the entries of the tables, and the nodes held -/
def Translation.entries (x : Translation) : ℕ :=
  x.objs.fds.length + x.objs.sg.length + x.objs.fda.length + x.pins.length

theorem translateRef_pins_length (s : State) (obj : Bytes) (pins : List NodeId) :
    (s.translateRef sender target obj pins).2.1.length ≤ pins.length + 1 := by
  unfold State.translateRef State.exportLocal State.forwardHandle
  dsimp only
  repeat' split
  all_goals simp

theorem translateOther_entries {kind : UInt32} {off : ℕ} {data : Bytes} {o o' : Objects}
    (h : translateOther env kind index off data o = .ok o') :
    o'.fds.length + o'.sg.length + o'.fda.length = o.fds.length + o.sg.length + o.fda.length + 1 := by
  rcases translateOther_cases h with ⟨_, _, _, _, rfl⟩ | ⟨_, _, _, _, rfl⟩ | ⟨_, _, rfl⟩
  all_goals
    dsimp only
    rw [List.length_append, List.length_singleton]
    omega

/-- one entry or one hold for each object at most -/
theorem translateObject_entries (off : ℕ) (x : Translation) :
    (translateObject env sender target index off x).1.entries ≤ x.entries + 1 := by
  unfold translateObject
  split
  · exact Nat.le_succ _
  · split_ifs
    · split
      · exact Nat.le_succ _
      · rename_i obj _
        have hp : (x.st.translateRef sender target obj x.pins).2.1.length ≤ x.pins.length + 1 :=
          translateRef_pins_length x.st obj x.pins
        unfold translateFlat
        split
        all_goals
          rename_i hr
          rw [hr] at hp
          dsimp only [Translation.entries] at hp ⊢
          omega
    · split
      · exact Nat.le_succ _
      · rename_i o ho
        have := translateOther_entries ho
        dsimp only [Translation.entries]
        omega

theorem translateObjects_entries (offs : List UInt64) (x : Translation) :
    (translateObjects env sender target index offs x).1.entries ≤ x.entries + offs.length := by
  induction offs generalizing index x with
  | nil => exact le_rfl
  | cons off offs ih =>
    have hone : (translateObject env sender target index off.toNat x).1.entries ≤ x.entries + 1 :=
      translateObject_entries _ _
    rw [translateObjects, List.length_cons]
    split
    · rename_i ho
      rw [ho] at hone
      exact le_trans hone (by omega)
    · rename_i x₁ ho
      rw [ho] at hone
      have hrest : (translateObjects env sender target (index + 1) offs x₁).1.entries ≤ x₁.entries + offs.length := ih _
      dsimp only at hone
      omega

/-- translating any parcel, from any state a run reaches, neither panics nor reserves more than `mostReserved` at once
(at most twice for each object) exactly where no array of descriptors it comes to claims too much; what it keeps is one
entry for each object at most -/
theorem translation_bounded {refcount : Bool} {w : World} (h : Reach World.step anyStep (World.init refcount) w)
    (env : SendEnv) (sender : Thread) (target : ProcId) (data : Bytes) (offsets : List UInt64) :
    ((Bounded (demandRun env sender target 0 offsets { st := w.st, data := data }) ∧
        (demandRun env sender target 0 offsets { st := w.st, data := data }).1.length ≤ 2 * offsets.length) ↔
      Modest env sender target 0 offsets { st := w.st, data := data }) ∧
    ∀ x, (demandRun env sender target 0 offsets { st := w.st, data := data }).2 = some x →
      x = translateObjects env sender target 0 offsets { st := w.st, data := data } ∧ x.1.entries ≤ offsets.length := by
  have hheld : Held { st := w.st, data := data } := ⟨reach_named h, gathered_nil _⟩
  refine ⟨⟨fun hb => (demandRun_bounded hheld).1 hb.1, fun hm => ⟨(demandRun_bounded hheld).2 hm, demandRun_length⟩⟩,
    fun x hx => ?_⟩
  have he : (translateObjects env sender target 0 offsets { st := w.st, data := data }).1.entries ≤
      0 + offsets.length := translateObjects_entries offsets _
  rw [zero_add, ← demandRun_result hx] at he
  exact ⟨demandRun_result hx, he⟩

/-- a buffer of no bytes, and an array of `num` descriptors in it -/
def arrayParcel (num : ℕ) : Bytes :=
  le32 typePtr ++ List.replicate 36 0 ++ le32 typeFda ++ List.replicate 4 0 ++ leBytes 8 num ++ List.replicate 16 0

theorem translation_bounded_one :
    let w := run World.step (World.init false) [.openFile, .openFile]
    Bounded (demandRun .zeros (.guest 2, 5) (.guest 1) 0 [0, 40] { st := w.st, data := arrayParcel 1 }) :=
  ((translation_bounded (reach_run World.step (World.init false) [.openFile, .openFile]) .zeros (.guest 2, 5) (.guest 1)
    (arrayParcel 1) [0, 40]).1.2 ⟨nofun, by decide, trivial⟩).1

/-- an array that claims 2^60 descriptors: its room is beyond what a vector may have -/
theorem translation_overflows :
    let w := run World.step (World.init false) [.openFile, .openFile]
    (demandRun .zeros (.guest 2, 5) (.guest 1) 0 [0, 40] { st := w.st, data := arrayParcel (2 ^ 60) }).2 = none :=
  rfl

end Omnidroid.Binder
