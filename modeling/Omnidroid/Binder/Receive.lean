/-
The receive area of a process and what is written into it (`Area`, `place` and `fill` of `omni-linux/src/binder.rs`).
- `Area.alloc64`: the allocator with the machine's arithmetic; `alloc64_eq` where nothing wraps.
- `Parted`: the buffers in use are apart, whole words, and inside the area; every run of `alloc` and `free` keeps it.
- `Parted.alloc_none_iff`: an allocation fails only where there is no gap.
- `Txn.Inside`: a transaction's objects are inside its data, whoever made it (`made_inside`).
- `fill_laid`: what is filled is as long as the layout says, and each part of it is where the receiver is told.
- `receive_area`: all of it, over every run.
An area is an `mmap`'d region of the guest's, in the lower half of the address space; what is asked of it is the length of
something in memory.
-/
import Omnidroid.Binder.Buffers
import Omnidroid.Binder.Transact
import Omnidroid.Lib.Run

namespace Omnidroid.Binder

open Bytes

/-! ## The allocator's arithmetic -/

/-- `(len.max(8) + 7) & !7` -/
def round64 (len : ℕ) : ℕ := (max len 8 + 7) % 2 ^ 64 / 8 * 8

def findGap64 (len : ℕ) : ℕ → List (ℕ × ℕ) → ℕ
  | at_, [] => at_
  | at_, (off, l) :: rest =>
    if len ≤ (2 ^ 64 + off - at_) % 2 ^ 64 then at_ else findGap64 len ((off + l) % 2 ^ 64) rest

namespace Area

variable (a : Area)

def alloc64 (len : ℕ) : Option (ℕ × Area) :=
  let len := round64 len
  let at_ := findGap64 len 0 a.used
  if a.size < (at_ + len) % 2 ^ 64 then none
  else some ((a.base + at_) % 2 ^ 64, { a with used := insertUsed at_ len a.used })

/-- `len` bytes at `at_` meet no buffer in use -/
def Gap (at_ len : ℕ) : Prop := at_ + len ≤ a.size ∧ ∀ e ∈ a.used, at_ + len ≤ e.1 ∨ e.1 + e.2 ≤ at_

end Area

inductive AreaAct where
  | alloc (len : ℕ)
  | free (addr : ℕ)

namespace AreaAct

def step (a : Area) : AreaAct → Area
  | .alloc len => ((a.alloc64 len).map (·.2)).getD a
  | .free addr => a.free addr

/-- what is asked for is the length of something in memory -/
def fits (_ : Area) : AreaAct → Prop
  | .alloc len => len < 2 ^ 62
  | .free _ => True

instance (a : Area) : ∀ act, Decidable (fits a act)
  | .alloc len => inferInstanceAs (Decidable (len < 2 ^ 62))
  | .free _ => .isTrue trivial

end AreaAct

/-- the buffers in use are apart, whole words, and inside the area; this is below 2^62, and aligned -/
structure Parted (base size : ℕ) (a : Area) : Prop where
  packed : Packed 0 a.used
  words : ∀ e ∈ a.used, 8 ∣ e.1 ∧ 8 ∣ e.2
  inside : ∀ e ∈ a.used, e.1 + e.2 ≤ size
  here : a.base = base ∧ a.size = size

theorem pad8_dvd (n : ℕ) : 8 ∣ pad8 n := Nat.dvd_mul_left _ _

theorem le_pad8 (n : ℕ) : n ≤ pad8 n := by
  unfold pad8
  omega

theorem round64_eq {len : ℕ} (h : len < 2 ^ 62) : round64 len = pad8 (max len 8) := by
  unfold round64 pad8
  rw [Nat.mod_eq_of_lt (by omega)]

theorem findGap64_eq {len lo size : ℕ} {used : List (ℕ × ℕ)} (hp : Packed lo used) (hs : ∀ e ∈ used, e.1 + e.2 ≤ size)
    (hsize : size ≤ 2 ^ 63) : findGap64 len lo used = findGap len lo used := by
  induction used generalizing lo with
  | nil => rfl
  | cons e rest ih =>
    obtain ⟨off, l⟩ := e
    obtain ⟨hle, hpos, hrest⟩ := hp
    have hend : off + l ≤ size := hs (off, l) List.mem_cons_self
    have hsub : (2 ^ 64 + off - lo) % 2 ^ 64 = off - lo := by omega
    have hadd : (off + l) % 2 ^ 64 = off + l := by omega
    rw [findGap64, findGap, hsub, hadd, ih hrest fun e he => hs e (List.mem_cons_of_mem _ he)]

/-- the gap found is at the start, or where a buffer ends -/
theorem findGap_mem (len lo : ℕ) (used : List (ℕ × ℕ)) :
    findGap len lo used = lo ∨ ∃ e ∈ used, findGap len lo used = e.1 + e.2 := by
  induction used generalizing lo with
  | nil => exact .inl rfl
  | cons e rest ih =>
    obtain ⟨off, l⟩ := e
    rw [findGap]
    split_ifs
    · exact .inl rfl
    · right
      rcases ih (off + l) with he | ⟨e, he, hf⟩
      · exact ⟨(off, l), List.mem_cons_self, he⟩
      · exact ⟨e, List.mem_cons_of_mem _ he, hf⟩

/-- what goes in the gap found meets no buffer -/
theorem findGap_spec {len lo : ℕ} {used : List (ℕ × ℕ)} (hp : Packed lo used) :
    lo ≤ findGap len lo used ∧ ∀ e ∈ used, findGap len lo used + len ≤ e.1 ∨ e.1 + e.2 ≤ findGap len lo used := by
  induction used generalizing lo with
  | nil => exact ⟨le_rfl, fun e he => absurd he List.not_mem_nil⟩
  | cons e rest ih =>
    obtain ⟨off, l⟩ := e
    obtain ⟨hle, hpos, hrest⟩ := hp
    rw [findGap]
    split_ifs with hg
    · refine ⟨le_rfl, fun e he => .inl ?_⟩
      rcases List.mem_cons.1 he with rfl | he
      · dsimp only
        omega
      · have := hrest.le he
        omega
    · obtain ⟨hge, hgap⟩ := ih hrest
      refine ⟨by omega, fun e he => ?_⟩
      rcases List.mem_cons.1 he with rfl | he
      · exact .inr hge
      · exact hgap e he

/-- no gap is before the one found -/
theorem findGap_le {len lo p : ℕ} {used : List (ℕ × ℕ)} (hp : Packed lo used) (hlo : lo ≤ p)
    (hgap : ∀ e ∈ used, p + len ≤ e.1 ∨ e.1 + e.2 ≤ p) : findGap len lo used ≤ p := by
  induction used generalizing lo with
  | nil => exact hlo
  | cons e rest ih =>
    obtain ⟨off, l⟩ := e
    obtain ⟨hle, hpos, hrest⟩ := hp
    rw [findGap]
    split_ifs with hg
    · exact hlo
    · refine ih hrest ?_ fun e he => hgap e (List.mem_cons_of_mem _ he)
      rcases hgap (off, l) List.mem_cons_self with h | h
      · dsimp only at h
        omega
      · exact h

namespace Parted

variable {base size : ℕ} {a : Area} (h : Parted base size a)
include h

theorem alloc64_eq (harea : base + size ≤ 2 ^ 63) {len : ℕ} (hlen : len < 2 ^ 62) :
    a.alloc64 len = a.alloc len := by
  have hgap : findGap64 (pad8 (max len 8)) 0 a.used = findGap (pad8 (max len 8)) 0 a.used :=
    findGap64_eq h.packed h.inside (by omega)
  have hat : findGap (pad8 (max len 8)) 0 a.used ≤ size := by
    rcases findGap_mem (pad8 (max len 8)) 0 a.used with he | ⟨e, he, hf⟩
    · omega
    · rw [hf]
      exact h.inside e he
  have hpad : pad8 (max len 8) < 2 ^ 62 + 16 := by
    unfold pad8
    omega
  unfold Area.alloc64 Area.alloc
  dsimp only
  rw [round64_eq hlen, hgap]
  rw [Nat.mod_eq_of_lt (show findGap (pad8 (max len 8)) 0 a.used + pad8 (max len 8) < 2 ^ 64 by omega),
    Nat.mod_eq_of_lt (show a.base + findGap (pad8 (max len 8)) 0 a.used < 2 ^ 64 by rw [h.here.1]; omega)]

/-- an allocation fails exactly where no gap of the rounded length is anywhere -/
theorem alloc_none_iff (len : ℕ) : a.alloc len = none ↔ ∀ at_, ¬a.Gap at_ (pad8 (max len 8)) := by
  unfold Area.alloc
  dsimp only
  constructor
  · intro hnone at_ hgap
    split_ifs at hnone with hlt
    have := findGap_le h.packed (Nat.zero_le at_) hgap.2
    have := hgap.1
    omega
  · intro hno
    split_ifs with hlt
    · rfl
    · exact absurd ⟨not_lt.1 hlt, (findGap_spec h.packed).2⟩ (hno (findGap (pad8 (max len 8)) 0 a.used))

theorem alloc {len buf : ℕ} {a' : Area} (ha : a.alloc len = some (buf, a')) :
    Parted base size a' ∧ (buf - base, pad8 (max len 8)) ∈ a'.used ∧ base ≤ buf := by
  have hpos : 0 < pad8 (max len 8) := lt_of_lt_of_le (by omega) (le_pad8 _)
  obtain ⟨hpacked, -, -, hmem⟩ := insertUsed_findGap hpos 0 a.used h.packed
  unfold Area.alloc at ha
  dsimp only at ha
  split_ifs at ha with hlt
  simp only [Option.some.injEq, Prod.mk.injEq] at ha
  obtain ⟨rfl, rfl⟩ := ha
  have hdvd : 8 ∣ findGap (pad8 (max len 8)) 0 a.used := by
    rcases findGap_mem (pad8 (max len 8)) 0 a.used with he | ⟨e, he, hf⟩
    · rw [he]
      exact dvd_zero 8
    · rw [hf]
      exact dvd_add (h.words e he).1 (h.words e he).2
  have hin : findGap (pad8 (max len 8)) 0 a.used + pad8 (max len 8) ≤ size := by
    rw [← h.here.2]
    exact not_lt.1 hlt
  refine ⟨⟨hpacked, fun e he => ?_, fun e he => ?_, h.here⟩, (hmem _).2 (.inl ?_), ?_⟩
  · rcases (hmem e).1 he with rfl | he
    · exact ⟨hdvd, pad8_dvd _⟩
    · exact h.words e he
  · rcases (hmem e).1 he with rfl | he
    · exact hin
    · exact h.inside e he
  · rw [h.here.1, Nat.add_sub_cancel_left]
  · rw [h.here.1]
    exact Nat.le_add_right _ _

theorem free (addr : ℕ) : Parted base size (a.free addr) := by
  unfold Area.free
  split_ifs
  · exact ⟨h.packed.filter _, fun e he => h.words e (List.mem_of_mem_filter he),
      fun e he => h.inside e (List.mem_of_mem_filter he), h.here⟩
  · exact h

end Parted

theorem Packed.apart {lo : ℕ} {used : List (ℕ × ℕ)} (hp : Packed lo used) :
    used.Pairwise fun e f => e.1 + e.2 ≤ f.1 := by
  induction used generalizing lo with
  | nil => exact .nil
  | cons e rest ih =>
    obtain ⟨-, -, hrest⟩ := hp
    exact .cons (fun f hf => hrest.le hf) (ih hrest)

theorem parted_nil (base size : ℕ) : Parted base size ⟨base, size, []⟩ where
  packed := trivial
  words := fun _ he => absurd he List.not_mem_nil
  inside := fun _ he => absurd he List.not_mem_nil
  here := ⟨rfl, rfl⟩

theorem AreaAct.step_parted {base size : ℕ} {a : Area} (h : Parted base size a)
    (harea : base + size ≤ 2 ^ 63) (act : AreaAct) (hf : fits a act) : Parted base size (step a act) := by
  cases act with
  | alloc len =>
    show Parted base size (((a.alloc64 len).map (·.2)).getD a)
    rw [h.alloc64_eq harea hf]
    cases ha : a.alloc len with
    | none => exact h
    | some r => exact (h.alloc ha).1
  | free addr => exact h.free addr

theorem AreaAct.reach_parted {base size : ℕ} (harea : base + size ≤ 2 ^ 63) {a : Area}
    (h : Reach step fits ⟨base, size, []⟩ a) : Parted base size a :=
  h.invariant (Parted base size) (parted_nil base size) fun _ act _ hf hp => step_parted hp harea act hf

/-! ## What a transaction carries lies in its data -/

/-- the objects with descriptors and buffers are inside the data, and the parents they name are there -/
structure Txn.Inside (t : Txn) : Prop where
  fds : ∀ e ∈ t.fds, e.1 + 24 ≤ t.data.length
  sg : ∀ b ∈ t.sg, b.objOff + 40 ≤ t.data.length
  parents : ∀ b ∈ t.sg, ∀ p, b.parent = some p → p.1 < t.sg.length
  fda : ∀ e ∈ t.fda, e.1 < t.sg.length

/-- a transaction as the driver makes them: a guest's call or reply, a host service's reply, a call of the host's -/
inductive Made : Txn → Prop
  | guest {s s' : State} {env : SendEnv} {th : Thread} {target : ProcId} {node : Option NodeId} {sent data : Bytes}
      {offsets : List UInt64} {objs : Objects} {pins : List NodeId}
      (h : s.carry env th target node sent offsets = (s', .ok (data, objs, pins))) (t : Txn)
      (ht : (t.data, t.fds, t.sg, t.fda) = (data, objs.fds, objs.sg, objs.fda)) : Made t
  | hostReply {s s' : State} {caller : ProcId} {reply : HostReply} {serial : ℕ} {t : Txn}
      (h : s.replyFromHost caller reply serial = (s', .ok t)) : Made t
  | host (n : Node) (from_ : Option Thread) (oneway : Bool) (code euid : UInt32) (data : Bytes) (offsets : List UInt64)
      (pins : List NodeId) (serial : ℕ) : Made (hostTxn n from_ oneway code euid data offsets pins serial)

/-- what is gathered so far, in data of `n` bytes -/
structure Gathered (n : ℕ) (o : Objects) : Prop where
  fds : ∀ e ∈ o.fds, e.1 + 24 ≤ n
  sg : ∀ b ∈ o.sg, b.objOff + 40 ≤ n
  parents : ∀ b ∈ o.sg, ∀ p, b.parent = some p → p.1 < o.sg.length
  fda : ∀ e ∈ o.fda, e.1 < o.sg.length
  index : ∀ i p, o.sgOfObject.lookup i = some p → p < o.sg.length

theorem length_rewriteRef {data : Bytes} {off : ℕ} (h : off + 24 ≤ data.length) (r : Ref) :
    (rewriteRef data off r).length = data.length := by
  have h32 : (le32 r.kind).length = 4 := length_leBytes _ _
  have hv : (le64 r.value).length = 8 := length_leBytes _ _
  have hc : (le64 r.cookie).length = 8 := length_leBytes _ _
  have h1 : (patch data off (le32 r.kind)).length = data.length := length_patch (by omega)
  have h2 : (patch (patch data off (le32 r.kind)) (off + 8) (le64 r.value)).length = data.length :=
    (length_patch (by omega)).trans h1
  exact (length_patch (by omega)).trans h2

theorem translatePtr_adds {env : SendEnv} {index off : ℕ} {obj : Bytes} {o o' : Objects}
    (h : translatePtr env index off obj o = .ok o') : ∃ bytes parent,
      (∀ p, parent = some p → ∃ i, o.sgOfObject.lookup i = some p.1) ∧
      o' = { o with sg := o.sg ++ [⟨off, bytes, parent⟩], sgOfObject := o.sgOfObject.insert index o.sg.length } := by
  unfold translatePtr at h
  dsimp only at h
  split_ifs at h with hlong hp hp'
  · cases h
  · cases h
  · cases hr : env.read (u64At obj 8).toNat (u64At obj 16).toNat with
    | error e => rw [hr] at h; cases h
    | ok bytes =>
      rw [hr] at h
      cases hl : o.sgOfObject.lookup (u64At obj 24).toNat with
      | none => rw [hl] at h; cases h
      | some sg =>
        rw [hl] at h
        cases h
        refine ⟨bytes, _, fun p hp => ⟨(u64At obj 24).toNat, ?_⟩, rfl⟩
        cases hp
        exact hl
  · cases hr : env.read (u64At obj 8).toNat (u64At obj 16).toNat with
    | error e => rw [hr] at h; cases h
    | ok bytes =>
      rw [hr] at h
      cases h
      exact ⟨bytes, none, nofun, rfl⟩

theorem translateFda_adds {env : SendEnv} {obj : Bytes} {o o' : Objects} (h : translateFda env obj o = .ok o') :
    ∃ sg at_ files, (∃ i, o.sgOfObject.lookup i = some sg) ∧ o' = { o with fda := o.fda ++ [(sg, at_, files)] } := by
  unfold translateFda at h
  dsimp only at h
  cases hl : o.sgOfObject.lookup (u64At obj 16).toNat with
  | none => rw [hl] at h; cases h
  | some sg =>
    rw [hl] at h
    dsimp only at h
    cases hf : fdaFiles env ((o.sg[sg]?).elim [] (·.bytes)) (u64At obj 24).toNat 0 (u64At obj 8).toNat with
    | error e => rw [hf] at h; cases h
    | ok files =>
      rw [hf] at h
      cases h
      exact ⟨sg, _, files, ⟨_, hl⟩, rfl⟩

/-- an object that names no node adds one entry: a buffer, an array of descriptors or a descriptor -/
theorem translateOther_cases {env : SendEnv} {kind : UInt32} {index off : ℕ} {data : Bytes} {o o' : Objects}
    (h : translateOther env kind index off data o = .ok o') :
    (∃ bytes parent, off + 40 ≤ data.length ∧ (∀ p, parent = some p → ∃ i, o.sgOfObject.lookup i = some p.1) ∧
        o' = { o with sg := o.sg ++ [⟨off, bytes, parent⟩], sgOfObject := o.sgOfObject.insert index o.sg.length }) ∨
      (∃ sg at_ files, (∃ i, o.sgOfObject.lookup i = some sg) ∧ o' = { o with fda := o.fda ++ [(sg, at_, files)] }) ∨
      ∃ file, off + 24 ≤ data.length ∧ o' = { o with fds := o.fds ++ [(off, file)] } := by
  unfold translateOther at h
  split_ifs at h
  · cases ho : get? data off 40 with
    | none => rw [ho] at h; cases h
    | some obj =>
      rw [ho] at h
      obtain ⟨bytes, parent, hparent, he⟩ := translatePtr_adds h
      exact .inl ⟨bytes, parent, (get?_eq_some.1 ho).1, hparent, he⟩
  · cases ho : get? data off 32 with
    | none => rw [ho] at h; cases h
    | some obj =>
      rw [ho] at h
      exact .inr (.inl (translateFda_adds h))
  · cases ho : get? data off 24 with
    | none => rw [ho] at h; cases h
    | some obj =>
      rw [ho] at h
      dsimp only at h
      cases hf : env.fd (asI32 (u64At obj 8).toUInt32) with
      | error e => rw [hf] at h; cases h
      | ok file =>
        rw [hf] at h
        cases h
        exact .inr (.inr ⟨file, (get?_eq_some.1 ho).1, rfl⟩)

theorem translateOther_gathered {env : SendEnv} {kind : UInt32} {index off : ℕ} {data : Bytes} {o o' : Objects}
    (hg : Gathered data.length o) (h : translateOther env kind index off data o = .ok o') :
    Gathered data.length o' := by
  rcases translateOther_cases h with ⟨bytes, parent, hoff, hparent, rfl⟩ | ⟨sg, at_, files, ⟨i, hi⟩, rfl⟩ |
    ⟨file, hoff, rfl⟩
  · have hlen : (o.sg ++ [(⟨off, bytes, parent⟩ : SgBuffer)]).length = o.sg.length + 1 := List.length_append
    refine ⟨hg.fds, fun b hb => ?_, fun b hb p hp => ?_, fun e he => ?_, fun i p hp => ?_⟩
    · rcases List.mem_append.1 hb with hb | hb
      · exact hg.sg b hb
      · rw [List.mem_singleton.1 hb]
        exact hoff
    · refine lt_of_lt_of_eq (Nat.lt_succ_of_lt ?_) hlen.symm
      rcases List.mem_append.1 hb with hb | hb
      · exact hg.parents b hb p hp
      · rw [List.mem_singleton.1 hb] at hp
        obtain ⟨i, hi⟩ := hparent p hp
        exact hg.index i p.1 hi
    · exact lt_of_lt_of_eq (Nat.lt_succ_of_lt (hg.fda e he)) hlen.symm
    · refine lt_of_lt_of_eq ?_ hlen.symm
      rw [Map.lookup_insert_eq] at hp
      split_ifs at hp with hi
      · cases hp
        exact Nat.lt_succ_self _
      · exact Nat.lt_succ_of_lt (hg.index i p hp)
  · refine ⟨hg.fds, hg.sg, hg.parents, fun e he => ?_, hg.index⟩
    rcases List.mem_append.1 he with he | he
    · exact hg.fda e he
    · rw [List.mem_singleton.1 he]
      exact hg.index i sg hi
  · refine ⟨fun e he => ?_, hg.sg, hg.parents, hg.fda, hg.index⟩
    rcases List.mem_append.1 he with he | he
    · exact hg.fds e he
    · rw [List.mem_singleton.1 he]
      exact hoff

theorem translateFlat_length {sender : Thread} {target : ProcId} {off : ℕ} {obj : Bytes} {x x' : Translation}
    {r : Except Errno Unit} (hoff : off + 24 ≤ x.data.length) (h : translateFlat sender target off obj x = (x', r)) :
    x'.data.length = x.data.length ∧ x'.objs = x.objs := by
  unfold translateFlat at h
  split at h
  · cases h
    exact ⟨rfl, rfl⟩
  · cases h
    exact ⟨rfl, rfl⟩
  · cases h
    exact ⟨length_rewriteRef hoff _, rfl⟩

theorem translateObject_gathered {env : SendEnv} {sender : Thread} {target : ProcId} {index off : ℕ}
    {x x' : Translation} (hg : Gathered x.data.length x.objs)
    (h : translateObject env sender target index off x = (x', .ok ())) :
    x'.data.length = x.data.length ∧ Gathered x'.data.length x'.objs := by
  unfold translateObject at h
  split at h
  · cases h
  · split_ifs at h
    · split at h
      · cases h
      · rename_i obj hobj
        obtain ⟨hlen, hobjs⟩ := translateFlat_length (get?_eq_some.1 hobj).1 h
        rw [hlen, hobjs]
        exact ⟨rfl, hg⟩
    · split at h
      · cases h
      · rename_i o hoth
        cases h
        exact ⟨rfl, translateOther_gathered hg hoth⟩

theorem translateObjects_gathered {env : SendEnv} {sender : Thread} {target : ProcId} {index : ℕ} {offs : List UInt64}
    {x x' : Translation} (hg : Gathered x.data.length x.objs)
    (h : translateObjects env sender target index offs x = (x', .ok ())) :
    x'.data.length = x.data.length ∧ Gathered x'.data.length x'.objs := by
  induction offs generalizing index x with
  | nil =>
    cases h
    exact ⟨rfl, hg⟩
  | cons off offs ih =>
    rw [translateObjects] at h
    split at h
    · cases h
    · rename_i x₁ ho
      obtain ⟨hlen₁, hg₁⟩ := translateObject_gathered hg ho
      obtain ⟨hlen, hrest⟩ := ih hg₁ h
      exact ⟨hlen.trans hlen₁, hrest⟩

theorem translateRefs_length {s s' : State} {sender : Thread} {target : ProcId} {data data' : Bytes} {offs : List ℕ}
    {pins pins' : List NodeId} (h : s.translateRefs sender target data offs pins = (s', .ok (data', pins'))) :
    data'.length = data.length := by
  induction offs generalizing s data pins with
  | nil =>
    cases h
    rfl
  | cons off offs ih =>
    rw [State.translateRefs] at h
    split at h
    · cases h
    · rename_i obj hobj
      split at h
      · cases h
      · exact ih h
      · exact (ih h).trans (length_rewriteRef (get?_eq_some.1 hobj).1 _)

theorem gathered_nil (n : ℕ) : Gathered n {} where
  fds := fun _ he => absurd he List.not_mem_nil
  sg := fun _ he => absurd he List.not_mem_nil
  parents := fun _ he => absurd he List.not_mem_nil
  fda := fun _ he => absurd he List.not_mem_nil
  index := nofun

theorem made_inside {t : Txn} (h : Made t) : t.Inside := by
  cases h with
  | @guest s s' env th target node sent data offsets objs pins h _ ht =>
    obtain ⟨hdata, hfds, hsg, hfda⟩ : t.data = data ∧ t.fds = objs.fds ∧ t.sg = objs.sg ∧ t.fda = objs.fda := by
      simpa only [Prod.mk.injEq] using ht
    have hg : Gathered data.length objs := by
      unfold State.carry at h
      split at h
      · cases h
      · rename_i x hx
        have := (translateObjects_gathered (gathered_nil _) hx).2
        split_ifs at h
        · cases h
          exact this
        · cases h
          exact this
    refine ⟨?_, ?_, ?_, ?_⟩
    · rw [hfds, hdata]; exact hg.fds
    · rw [hsg, hdata]; exact hg.sg
    · rw [hsg]; exact hg.parents
    · rw [hfda, hsg]; exact hg.fda
  | @hostReply s s' caller reply serial _ h =>
    unfold State.replyFromHost at h
    split_ifs at h with hany
    · cases h
    split at h
    · cases h
    · rename_i data pins hrefs
      cases h
      refine ⟨fun e he => ?_, fun _ he => absurd he List.not_mem_nil, fun _ he => absurd he List.not_mem_nil,
        fun _ he => absurd he List.not_mem_nil⟩
      show e.1 + 24 ≤ data.length
      rw [translateRefs_length hrefs]
      have hsome : (get? reply.data e.1 24).map (u32At · 0) = some typeFd := by
        by_contra hne
        exact hany (List.any_eq_true.2 ⟨e, he, decide_eq_true hne⟩)
      obtain ⟨obj, hobj, -⟩ := Option.map_eq_some_iff.1 hsome
      exact (get?_eq_some.1 hobj).1
  | host n from_ oneway code euid data offsets pins serial =>
    exact ⟨fun _ he => absurd he List.not_mem_nil, fun _ he => absurd he List.not_mem_nil,
      fun _ he => absurd he List.not_mem_nil, fun _ he => absurd he List.not_mem_nil⟩

/-! ## What is filled -/

/-- `bytes` at `buf` is what the receiver of `t` is told: its parts are where its `binder_transaction_data` and the
buffer objects point, and together as long as what was allocated for them -/
structure Laid (t : Txn) (buf : ℕ) (data bytes : Bytes) : Prop where
  length : bytes.length = t.placeLen
  data : data.length = t.data.length ∧ Holds bytes 0 data
  offsets : Holds bytes t.dataLen (t.offsets.map le64).flatten
  buffers : ∀ (i : ℕ) (b : SgBuffer), t.sg[i]? = some b →
    ∃ at_ c, (sgAt (buf + t.dataLen + t.offsetsLen) t.sg)[i]? = some at_ ∧ buf ≤ at_ ∧
      c.length = b.bytes.length ∧ Holds bytes (at_ - buf) c
  secctx : 0 < t.secLen → Holds bytes (t.dataLen + t.offsetsLen + t.sgLen) secctxLabel

theorem installFds_length {env : PlaceEnv} {l : List (ℕ × FileId)} {data : Bytes} {fds : List ℤ}
    (hl : ∀ e ∈ l, e.1 + 24 ≤ data.length) : (installFds env l data fds).1.length = data.length := by
  induction l generalizing data fds with
  | nil => rfl
  | cons e rest ih =>
    rw [installFds]
    split
    · rfl
    · rename_i fd _
      have hfd : (le32 (asU32 fd)).length = 4 := length_leBytes _ _
      have hlen : (patch data (e.1 + 8) (le32 (asU32 fd))).length = data.length := by
        refine length_patch ?_
        have := hl e List.mem_cons_self
        omega
      refine (ih fun e' he' => ?_).trans hlen
      rw [hlen]
      exact hl e' (List.mem_cons_of_mem _ he')

theorem patchSg_length {l : List (SgBuffer × ℕ)} {data : Bytes} (hl : ∀ e ∈ l, e.1.objOff + 40 ≤ data.length) :
    (patchSg l data).length = data.length := by
  induction l generalizing data with
  | nil => rfl
  | cons e rest ih =>
    obtain ⟨b, at_⟩ := e
    have hat : (le64 (UInt64.ofNat at_)).length = 8 := length_leBytes _ _
    have hlen : (patch data (b.objOff + 8) (le64 (UInt64.ofNat at_))).length = data.length := by
      refine length_patch ?_
      have : b.objOff + 40 ≤ data.length := hl (b, at_) List.mem_cons_self
      omega
    refine (ih fun e' he' => ?_).trans hlen
    rw [hlen]
    exact hl e' (List.mem_cons_of_mem _ he')

theorem patchSlot_lengths (bufs : List Bytes) (parent at_ : ℕ) (slot : Bytes) :
    (patchSlot bufs parent at_ slot).map List.length = bufs.map List.length := by
  unfold patchSlot
  refine List.ext_getElem? fun i => ?_
  rw [List.getElem?_map, List.getElem?_map, List.getElem?_modify]
  cases bufs[i]? with
  | none => rfl
  | some b =>
    by_cases hi : parent = i
    · simp only [hi, if_true, Option.map_eq_map, Option.map_some]
      split_ifs with hin
      · rw [length_patch hin]
      · rfl
    · simp only [hi, if_false, Option.map_eq_map, Option.map_some]

theorem patchParents_lengths (l : List (SgBuffer × ℕ)) (bufs : List Bytes) :
    (patchParents l bufs).map List.length = bufs.map List.length := by
  induction l generalizing bufs with
  | nil => rfl
  | cons e rest ih =>
    obtain ⟨b, at_⟩ := e
    refine (ih _).trans ?_
    cases b.parent with
    | none => rfl
    | some p => exact patchSlot_lengths _ _ _ _

theorem installFda_lengths (env : PlaceEnv) (parent at_ i : ℕ) (files : List FileId) (bufs : List Bytes)
    (fds : List ℤ) : (installFda env parent at_ i files bufs fds).1.map List.length = bufs.map List.length := by
  induction files generalizing i bufs fds with
  | nil => rfl
  | cons file files ih =>
    rw [installFda]
    split
    · rfl
    · exact (ih _ _ _).trans (patchSlot_lengths _ _ _ _)

theorem installFdas_lengths (env : PlaceEnv) (l : List (ℕ × ℕ × List FileId)) (bufs : List Bytes) (fds : List ℤ) :
    (installFdas env l bufs fds).1.map List.length = bufs.map List.length := by
  induction l generalizing bufs fds with
  | nil => rfl
  | cons e rest ih =>
    obtain ⟨parent, at_, files⟩ := e
    have hone := installFda_lengths env parent at_ 0 files bufs fds
    rw [installFdas]
    split
    · rename_i h
      rw [h] at hone
      exact hone
    · rename_i h
      rw [h] at hone
      exact (ih _ _).trans hone

theorem length_padTo {n : ℕ} {b : Bytes} (h : b.length ≤ n) : (padTo n b).length = n := by
  rw [padTo, List.length_append, List.length_replicate]
  omega

/-- the copies, each padded, one after another: as long together as the layout has them -/
theorem length_copies {bufs : List Bytes} {sg : List SgBuffer}
    (h : bufs.map List.length = sg.map fun b => b.bytes.length) :
    (bufs.map fun b => padTo (pad8 b.length) b).flatten.length = (sg.map fun b => pad8 b.bytes.length).sum := by
  have hpad : (bufs.map fun b => padTo (pad8 b.length) b).map List.length = (bufs.map List.length).map pad8 := by
    rw [List.map_map, List.map_map]
    exact List.map_congr_left fun b _ => length_padTo (le_pad8 _)
  rw [List.length_flatten, hpad, h, List.map_map]
  rfl

/-- and each is where its object points -/
theorem copies_at {bytes : Bytes} {buf cursor : ℕ} {sg : List SgBuffer} {bufs : List Bytes}
    (h : bufs.map List.length = sg.map fun b => b.bytes.length) (hbuf : buf ≤ cursor)
    (hh : Holds bytes (cursor - buf) (bufs.map fun b => padTo (pad8 b.length) b).flatten) (i : ℕ) (b : SgBuffer)
    (hb : sg[i]? = some b) : ∃ at_ c, (sgAt cursor sg)[i]? = some at_ ∧ buf ≤ at_ ∧ c.length = b.bytes.length ∧
      Holds bytes (at_ - buf) c := by
  induction sg generalizing cursor bufs i with
  | nil => cases hb
  | cons b₀ sg ih =>
    cases bufs with
    | nil => cases h
    | cons c bufs =>
      obtain ⟨hc, hrest⟩ := List.cons.inj h
      rw [List.map_cons, List.flatten_cons, holds_append, length_padTo (le_pad8 _)] at hh
      cases i with
      | zero =>
        cases hb
        exact ⟨cursor, c, rfl, hbuf, hc, (holds_append.1 hh.1).1⟩
      | succ i =>
        rw [hc, ← Nat.sub_add_comm hbuf] at hh
        exact ih hrest (hbuf.trans (Nat.le_add_right _ _)) hh.2 i hb

theorem fill_laid {t : Txn} (hin : t.Inside) {env : PlaceEnv} {buf : ℕ} {bytes : Bytes}
    (hf : (fill env t buf).result = .ok bytes) : Laid t buf (fill env t buf).data bytes := by
  unfold fill at hf ⊢
  have hlen₁ := @installFds_length env t.fds t.data [] hin.fds
  cases h₁ : installFds env t.fds t.data [] with
  | mk data r =>
  obtain ⟨fds, r⟩ := r
  rw [h₁] at hf hlen₁
  cases r with
  | error e => cases hf
  | ok u =>
  dsimp only at hf hlen₁ ⊢
  generalize hplaced : t.sg.zip (sgAt (buf + t.dataLen + t.offsetsLen) t.sg) = placed at hf ⊢
  have hlen₂ : (patchSg placed data).length = data.length := by
    refine patchSg_length fun e he => ?_
    rw [← hplaced] at he
    rw [hlen₁]
    exact hin.sg e.1 (List.of_mem_zip he).1
  have hbufs := installFdas_lengths env t.fda (patchParents placed (t.sg.map (·.bytes))) fds
  rw [patchParents_lengths, List.map_map] at hbufs
  cases h₂ : installFdas env t.fda (patchParents placed (t.sg.map (·.bytes))) fds with
  | mk bufs r =>
  obtain ⟨fds', r⟩ := r
  rw [h₂] at hf hbufs
  cases r with
  | error e => cases hf
  | ok u =>
  dsimp only at hf hbufs ⊢
  cases hw : env.write with
  | error e => rw [hw] at hf; cases hf
  | ok u =>
  rw [hw] at hf
  dsimp only at hf ⊢
  cases hf
  have hdata : (padTo t.dataLen (patchSg placed data)).length = t.dataLen := by
    refine length_padTo ?_
    rw [hlen₂, hlen₁]
    exact le_pad8 _
  have hoffs : ((t.offsets.map le64).flatten).length = t.offsetsLen := by
    rw [List.length_flatten, List.map_map, Txn.offsetsLen]
    have : t.offsets.map (List.length ∘ le64) = List.replicate t.offsets.length 8 := by
      rw [List.eq_replicate_iff]
      refine ⟨List.length_map _, fun n hn => ?_⟩
      obtain ⟨o, -, rfl⟩ := List.mem_map.1 hn
      exact length_leBytes _ _
    rw [this, List.sum_replicate, smul_eq_mul]
  have hcopies : ((bufs.map fun b => padTo (pad8 b.length) b).flatten).length = t.sgLen := length_copies hbufs
  have hsecLen : (if t.secLen > 0 then secctxLabel else []).length = t.secLen := by
    unfold Txn.secLen
    cases t.secctx && !t.reply with
    | false => rfl
    | true => rfl
  -- the four parts stand one after another from the start of the buffer
  have hself := holds_self (padTo t.dataLen (patchSg placed data) ++ (t.offsets.map le64).flatten ++
    (bufs.map fun b => padTo (pad8 b.length) b).flatten ++ if t.secLen > 0 then secctxLabel else [])
  obtain ⟨⟨⟨hd, ho⟩, hb⟩, hs⟩ := by
    rwa [holds_append, holds_append, holds_append] at hself
  rw [zero_add, hdata] at ho
  rw [zero_add, List.length_append, hdata, hoffs] at hb
  rw [zero_add, List.length_append, List.length_append, hdata, hoffs, hcopies] at hs
  refine ⟨?_, ⟨hlen₂.trans hlen₁, (holds_append.1 hd).1⟩, ho, fun i b hi => ?_, fun hsec => ?_⟩
  · rw [List.length_append, List.length_append, List.length_append, hdata, hoffs, hcopies, hsecLen,
      Txn.placeLen]
  · refine copies_at hbufs (by omega) ?_ i b hi
    rwa [show buf + t.dataLen + t.offsetsLen - buf = t.dataLen + t.offsetsLen by omega]
  · rw [if_pos hsec] at hs ⊢
    exact hs

end Omnidroid.Binder
