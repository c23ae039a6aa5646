/-
The names of a guest process's mappings (`Mm::files` of `omni-linux/src/mm.rs`), for `/proc/<pid>/maps`: by start, each with its
length, and the name and file offset that an address in it has. What the space answers to `mmap` and `munmap` is the operation's
input.
- `Apart`: the entries are apart from each other, so a lookup needs the last one that starts at or before an address
  (`nameAt_iff`).
- `Cut`: what `forget` leaves (`forget_cut`), and what that means for a lookup (`Cut.covers`).
- `names_kept`: the entries are apart in every run in which what is mapped without `forget` lands where nothing is named; there
  `forget` and `label` change the names of their range alone exactly where they should.
- `names_lost`: a label of no bytes takes names away; a name put over another; a range that passes 2^64.
-/
import Mathlib
import Omnidroid.Lib.Ordered
import Omnidroid.Lib.Run
import Omnidroid.Mm.Map

namespace Omnidroid.Mm.Names

/-! ## The table -/

structure FileMapping where
  len : ℕ
  guest : List UInt8
  /-- of the first byte; sums of it wrap -/
  offset : UInt64
deriving DecidableEq

abbrev Table := Ordered ℕ FileMapping

inductive Failure where
  | errno (e : Errno)
  | panic
deriving DecidableEq

/-- the name and the file offset of an address -/
def nameAt (m : Table) (addr : ℕ) : Option (List UInt8 × UInt64) :=
  match m.last (· ≤ addr) with
  | some (start, f) => if addr < start + f.len then some (f.guest, f.offset + UInt64.ofNat (addr - start)) else none
  | none => none

/-- the entry before `addr`, if it reaches past it, and those that start inside -/
def hits (m : Table) (addr stop : ℕ) : List ℕ :=
  (match m.last (· < addr) with
    | some (s, f) => if s + f.len > addr then [s] else []
    | none => []) ++
  (m.entries.filter fun e => addr ≤ e.1 && e.1 < stop).map (·.1)

/-- what an entry at `start` leaves after `stop` -/
def tail (stop start : ℕ) (f : FileMapping) : FileMapping :=
  { len := start + f.len - stop, guest := f.guest, offset := f.offset + UInt64.ofNat (stop - start) }

/-- the parts of an entry outside `[addr, stop)` in its place; none where there is no entry -/
def cutOne (addr stop : ℕ) (m : Table) (start : ℕ) : Option Table :=
  match m.get start with
  | none => none
  | some f =>
    let m := m.remove start
    let m := if start < addr then m.insert start { f with len := addr - start } else m
    some (if start + f.len > stop then m.insert stop (tail stop start f) else m)

/-- an end past 2^64 panics, here or at the walk of an empty range -/
def forget (addr len : ℕ) : EStateM Failure Table Unit := fun m =>
  if 2 ^ 64 ≤ addr + len then .error .panic m
  else
    match (hits m addr (addr + len)).foldlM (cutOne addr (addr + len)) m with
    | some m' => .ok () m'
    | none => .error .panic m

def put (start : ℕ) (f : FileMapping) : EStateM Failure Table Unit := fun m => .ok () (m.insert start f)

def label (start len : ℕ) (name : List UInt8) : EStateM Failure Table Unit := do
  forget start len
  put start { len := len, guest := name, offset := 0 }

/-! ## The operations -/

/-- what is mapped, and where; the space may refuse -/
inductive Mapped where
  | refused (e : Errno)
  | anonymous
  /-- a file in memory, copied -/
  | synth (at_ : ℕ) (guest : List UInt8)
  /-- any other file -/
  | file (at_ : ℕ) (guest : List UInt8)

section Operations

variable (S : Space)

/-- `unmaps`: the space gives the range up -/
def unmapLocked (addr len : ℕ) (unmaps : Bool) : EStateM Failure Table Unit :=
  if unmaps then forget addr len else throw (.errno EINVAL)

def unmap (addr len : ℕ) (unmaps : Bool) : EStateM Failure Table Unit :=
  let addr := untag addr
  if addr % S.page ≠ 0 ∨ len = 0 then throw (.errno EINVAL)
  else match S.span addr len with
    | none => throw (.errno EINVAL)
    | some len => unmapLocked addr len unmaps

/-- what is mapped gets its name; a file in memory without `forget` -/
def nameMapped (req : MapRequest) (len : ℕ) : Mapped → EStateM Failure Table Unit
  | .refused e => throw (.errno e)
  | .anonymous => pure ()
  | .synth at_ guest => put at_ { len := len, guest := guest, offset := UInt64.ofNat req.offset }
  | .file at_ guest => do
    forget at_ len
    put at_ { len := len, guest := guest, offset := UInt64.ofNat req.offset }

def map (req : MapRequest) (unmaps : Bool) (what : Mapped) : EStateM Failure Table Unit :=
  if req.len = 0 ∨ req.offset % S.page ≠ 0 then throw (.errno EINVAL)
  else match S.span (untag req.addr) req.len with
    | none => throw (.errno ENOMEM)
    | some len =>
      if req.fixed && decide (req.addr % S.page ≠ 0) then throw (.errno EINVAL)
      else do
        onlyIf req.replaces (unmapLocked req.addr len unmaps)
        nameMapped req len what

end Operations

inductive Act where
  | label (start len : ℕ) (name : List UInt8)
  | forget (addr len : ℕ)
  | unmap (addr len : ℕ) (unmaps : Bool)
  | map (req : MapRequest) (unmaps : Bool) (what : Mapped)

def perform (S : Space) : Act → EStateM Failure Table Unit
  | .label start len name => label start len name
  | .forget addr len => Names.forget addr len
  | .unmap addr len unmaps => Names.unmap S addr len unmaps
  | .map req unmaps what => Names.map S req unmaps what

/-- what an operation leaves, whatever it answers -/
def left (x : EStateM Failure Table Unit) (m : Table) : Table :=
  match x m with
  | .ok _ m' => m'
  | .error _ m' => m'

def step (S : Space) (m : Table) (a : Act) : Table := left (perform S a) m

/-- a file in memory lands where no entry is: `MAP_FIXED` puts it where it has just unmapped -/
def steady (S : Space) (m : Table) : Act → Prop
  | .map req _ (.synth at_ _) => ∀ len, S.span (untag req.addr) req.len = some len → at_ + len < 2 ^ 64 ∧
      (req.replaces ∧ at_ = req.addr ∨ ∀ e ∈ m.entries, e.1 + e.2.len ≤ at_ ∨ at_ + len ≤ e.1)
  | _ => True

/-! ## Lookups -/

/-- the entries are apart, and end below 2^64 -/
structure Apart (m : Table) : Prop where
  order : ∀ s f t g, m.get s = some f → m.get t = some g → s < t → s + f.len ≤ t
  fits : ∀ s f, m.get s = some f → s + f.len < 2 ^ 64

/-- an entry gives the address its name and offset -/
def Covers (m : Table) (x : ℕ) (r : List UInt8 × UInt64) : Prop :=
  ∃ s f, m.get s = some f ∧ s ≤ x ∧ x < s + f.len ∧ r = (f.guest, f.offset + UInt64.ofNat (x - s))

variable {m R : Table} {addr stop start len x : ℕ}

/-- the last entry that starts at or before an address is the one that covers it -/
theorem nameAt_iff (h : Apart m) (r : List UInt8 × UInt64) : nameAt m x = some r ↔ Covers m x r := by
  unfold nameAt
  cases hl : m.last (· ≤ x) with
  | none =>
    have hnone := Ordered.last_none.1 hl
    refine ⟨nofun, ?_⟩
    rintro ⟨s, f, hs, hle, -⟩
    have := hnone s f hs
    rw [decide_eq_true hle] at this
    cases this
  | some e =>
    obtain ⟨s, f⟩ := e
    obtain ⟨hs, hle, hmax⟩ := Ordered.last_some.1 hl
    have hle' : s ≤ x := of_decide_eq_true hle
    dsimp only
    constructor
    · intro hr
      split_ifs at hr with hlt
      cases hr
      exact ⟨s, f, hs, hle', hlt, rfl⟩
    · rintro ⟨t, g, ht, htle, hlt, rfl⟩
      have hts : t ≤ s := hmax t g ht (decide_eq_true htle)
      rcases hts.eq_or_lt with rfl | hts
      · have hfg : f = g := Option.some.inj (hs.symm.trans ht)
        rw [hfg, if_pos hlt]
      · have := h.order t g s f ht hs hts
        omega

theorem nameAt_none (h : Apart m) : nameAt m x = none ↔ ∀ r, ¬Covers m x r := by
  rw [Option.eq_none_iff_forall_ne_some]
  exact forall_congr' fun r => not_congr (nameAt_iff h r)

/-! ## What `forget` leaves -/

/-- what an entry leaves after `stop`, if it reaches there -/
def tailAt (m : Table) (stop start : ℕ) : Option FileMapping :=
  (m.get start).bind fun f => if stop < start + f.len then some (tail stop start f) else none

variable (addr) in
theorem get_cutOne {f : FileMapping} (hf : m.get start = some f) (hlt : start < stop) :
    ∃ m', cutOne addr stop m start = some m' ∧ ∀ k, m'.get k =
      if k = stop then (tailAt m stop start).or (m.get k)
      else if k = start then (if start < addr then some { f with len := addr - start } else none)
      else m.get k := by
  refine ⟨_, by rw [cutOne, hf], fun k => ?_⟩
  rw [tailAt, hf, Option.bind_some]
  have hne : ∀ {k}, k = stop → k ≠ start := by omega
  by_cases htail : stop < start + f.len
  · rw [if_pos htail, if_pos htail, Ordered.get_insert]
    by_cases hk : k = stop
    · rw [if_pos hk, if_pos hk, Option.some_or]
    · rw [if_neg hk, if_neg hk]
      by_cases hs : start < addr
      · rw [if_pos hs, if_pos hs, Ordered.get_insert, Ordered.get_remove]
        split_ifs <;> rfl
      · rw [if_neg hs, if_neg hs, Ordered.get_remove]
  · rw [if_neg htail, if_neg htail, Option.none_or]
    by_cases hs : start < addr
    · rw [if_pos hs, if_pos hs, Ordered.get_insert, Ordered.get_remove]
      by_cases hk : k = stop
      · rw [if_pos hk, if_neg (hne hk), if_neg (hne hk)]
      · rw [if_neg hk]
        split_ifs <;> rfl
    · rw [if_neg hs, if_neg hs, Ordered.get_remove]
      by_cases hk : k = stop
      · rw [if_pos hk, if_neg (hne hk)]
      · rw [if_neg hk]

variable (addr) in
/-- the entries hit, one after the other: each is there when its turn comes -/
theorem get_cutAll {l : List ℕ} (hnodup : l.Nodup) (hlt : ∀ s ∈ l, s < stop) (hm : ∀ s ∈ l, ∃ f, m.get s = some f) :
    ∃ R, l.foldlM (cutOne addr stop) m = some R ∧ ∀ k, R.get k =
      if k = stop then l.foldl (fun acc s => (tailAt m stop s).or acc) (m.get k)
      else if k ∈ l then (if k < addr then (m.get k).map fun f => { f with len := addr - k } else none)
      else m.get k := by
  induction l generalizing m with
  | nil =>
    refine ⟨m, rfl, fun k => ?_⟩
    simp
  | cons s l ih =>
    obtain ⟨hnot, hnodup'⟩ := List.nodup_cons.1 hnodup
    obtain ⟨f, hf⟩ := hm s List.mem_cons_self
    have hs := hlt s List.mem_cons_self
    obtain ⟨m', hm', hget⟩ := get_cutOne addr hf hs
    have hsame : ∀ t ∈ l, m'.get t = m.get t := fun t ht => by
      have hts : t ≠ s := fun he => hnot (he ▸ ht)
      have := hlt t (List.mem_cons_of_mem _ ht)
      rw [hget, if_neg (by omega), if_neg hts]
    obtain ⟨R, hR, hRget⟩ := ih (m := m') hnodup' (fun t ht => hlt t (List.mem_cons_of_mem _ ht))
      fun t ht => by rw [hsame t ht]; exact hm t (List.mem_cons_of_mem _ ht)
    refine ⟨R, by rw [List.foldlM_cons, hm']; exact hR, fun k => ?_⟩
    rw [hRget]
    by_cases hk : k = stop
    · rw [if_pos hk, if_pos hk, List.foldl_cons, hget, if_pos hk]
      refine List.foldl_ext _ _ _ fun acc t ht => ?_
      rw [tailAt, tailAt, hsame t ht]
    · rw [if_neg hk, if_neg hk]
      by_cases hks : k = s
      · rw [if_neg (hks ▸ hnot), if_pos (by rw [hks]; exact List.mem_cons_self), hget, if_neg hk, if_pos hks, hks, hf]
        rfl
      · by_cases hkl : k ∈ l
        · rw [if_pos hkl, if_pos (List.mem_cons_of_mem _ hkl), hsame k hkl]
        · rw [if_neg hkl, if_neg (by simp [hks, hkl]), hget, if_neg hk, if_neg hks]

/-- of a table whose entries are apart: all that reach into the range from before it, or start in it -/
theorem mem_hits (h : Apart m) {s : ℕ} :
    s ∈ hits m addr stop ↔ ∃ f, m.get s = some f ∧ (s < addr ∧ addr < s + f.len ∨ addr ≤ s ∧ s < stop) := by
  have hin : s ∈ (m.entries.filter fun e => addr ≤ e.1 && e.1 < stop).map (·.1) ↔
      ∃ f, m.get s = some f ∧ addr ≤ s ∧ s < stop := by
    simp only [List.mem_map, List.mem_filter, Bool.and_eq_true, decide_eq_true_eq]
    constructor
    · rintro ⟨e, ⟨he, hle⟩, rfl⟩
      exact ⟨e.2, Ordered.mem_entries.1 he, hle⟩
    · rintro ⟨f, hf, hle⟩
      exact ⟨(s, f), ⟨Ordered.mem_entries.2 hf, hle⟩, rfl⟩
  rw [hits, List.mem_append, hin]
  cases hl : m.last (· < addr) with
  | none =>
    have hnone := Ordered.last_none.1 hl
    constructor
    · rintro (hs | ⟨f, hf, hle⟩)
      · cases hs
      · exact ⟨f, hf, .inr hle⟩
    · rintro ⟨f, hf, hlt | hle⟩
      · have := hnone s f hf
        rw [decide_eq_true hlt.1] at this
        cases this
      · exact .inr ⟨f, hf, hle⟩
  | some e =>
    obtain ⟨t, g⟩ := e
    obtain ⟨ht, hlt, hmax⟩ := Ordered.last_some.1 hl
    have hlt' : t < addr := of_decide_eq_true hlt
    dsimp only
    constructor
    · rintro (hs | ⟨f, hf, hle⟩)
      · split_ifs at hs with hreach
        · rw [List.mem_singleton.1 hs]
          exact ⟨g, ht, .inl ⟨hlt', hreach⟩⟩
        · cases hs
      · exact ⟨f, hf, .inr hle⟩
    · rintro ⟨f, hf, ⟨hsa, hreach⟩ | hle⟩
      · left
        -- only the last one before the range can reach into it
        have hst : s = t := by
          rcases (hmax s f hf (decide_eq_true hsa)).eq_or_lt with he | hlt
          · exact he
          · have := h.order s f t g hf ht hlt
            omega
        subst hst
        cases Option.some.inj (hf.symm.trans ht)
        rw [if_pos hreach]
        exact List.mem_singleton_self s
      · exact .inr ⟨f, hf, hle⟩

theorem hits_nodup (m : Table) (addr stop : ℕ) : (hits m addr stop).Nodup := by
  have hin : ((m.entries.filter fun e => addr ≤ e.1 && e.1 < stop).map (·.1)).Nodup :=
    m.keys_nodup.sublist (List.filter_sublist.map _)
  rw [hits]
  refine List.nodup_append.2 ⟨?_, hin, ?_⟩
  · split
    · split_ifs
      · exact List.nodup_singleton _
      · exact List.nodup_nil
    · exact List.nodup_nil
  · intro a ha b hb hab
    subst hab
    obtain ⟨e, he, rfl⟩ := List.mem_map.1 hb
    have hle : addr ≤ e.1 := by
      have := (List.mem_filter.1 he).2
      simp only [Bool.and_eq_true, decide_eq_true_eq] at this
      exact this.1
    split at ha
    · rename_i s f hl
      split_ifs at ha
      · have hlt : s < addr := of_decide_eq_true (Ordered.last_some.1 hl).2.1
        rw [List.mem_singleton.1 ha] at hle
        omega
      · cases ha
    · cases ha

/-- what is left: what was before the range, cut off at it; what reached past it, from its end on; what was after it -/
structure Cut (m R : Table) (addr stop : ℕ) : Prop where
  before : ∀ k g, k < addr → (R.get k = some g ↔ ∃ f, m.get k = some f ∧ g = { f with len := min f.len (addr - k) })
  inside : ∀ k, addr ≤ k → k < stop → R.get k = none
  edge : ∀ g, R.get stop = some g ↔ (∃ s, s < stop ∧ tailAt m stop s = some g) ∨ m.get stop = some g
  after : ∀ k, stop < k → R.get k = m.get k

theorem tailAt_some {s : ℕ} {g : FileMapping} :
    tailAt m stop s = some g ↔ ∃ f, m.get s = some f ∧ stop < s + f.len ∧ g = tail stop s f := by
  rw [tailAt, Option.bind_eq_some_iff]
  refine exists_congr fun f => and_congr_right fun _ => ?_
  split_ifs with hlt
  · simp [hlt, eq_comm]
  · simp [hlt]

/-- the one value that a walk finds, before what there was -/
theorem foldl_or_some {t : ℕ → Option FileMapping} {l : List ℕ} {acc : Option FileMapping} {g : FileMapping}
    (hall : ∀ s ∈ l, t s = none ∨ t s = some g) (h : (∃ s ∈ l, t s = some g) ∨ acc = some g) :
    l.foldl (fun acc s => (t s).or acc) acc = some g := by
  induction l generalizing acc with
  | nil => simpa using h
  | cons s l ih =>
    rw [List.foldl_cons]
    refine ih (fun s' hs' => hall s' (List.mem_cons_of_mem _ hs')) ?_
    rcases hall s List.mem_cons_self with hs | hs
    · rw [hs, Option.none_or]
      rcases h with ⟨s', hs', hg⟩ | hacc
      · rcases List.mem_cons.1 hs' with rfl | hs'
        · rw [hs] at hg
          cases hg
        · exact .inl ⟨s', hs', hg⟩
      · exact .inr hacc
    · rw [hs, Option.some_or]
      exact .inr rfl

theorem foldl_or_none {t : ℕ → Option FileMapping} {l : List ℕ} {acc : Option FileMapping} (hall : ∀ s ∈ l, t s = none) :
    l.foldl (fun acc s => (t s).or acc) acc = acc := by
  induction l generalizing acc with
  | nil => rfl
  | cons s l ih =>
    rw [List.foldl_cons, hall s List.mem_cons_self, Option.none_or]
    exact ih fun s' hs' => hall s' (List.mem_cons_of_mem _ hs')

/-- one entry reaches past the end of the range at most, and then none starts there -/
theorem Apart.edge (h : Apart m) {l : List ℕ} (hl : ∀ s ∈ l, s < stop) (g : FileMapping) :
    l.foldl (fun acc s => (tailAt m stop s).or acc) (m.get stop) = some g ↔
      (∃ s ∈ l, tailAt m stop s = some g) ∨ m.get stop = some g := by
  by_cases hex : ∃ s ∈ l, ∃ a, tailAt m stop s = some a
  · obtain ⟨s, hs, a, ha⟩ := hex
    obtain ⟨f, hf, hfl, -⟩ := tailAt_some.1 ha
    have hone : ∀ t ∈ l, tailAt m stop t = none ∨ tailAt m stop t = some a := by
      intro t ht
      cases hb : tailAt m stop t with
      | none => exact .inl rfl
      | some b =>
        obtain ⟨f', hf', hfl', -⟩ := tailAt_some.1 hb
        have hs' := hl s hs
        have ht' := hl t ht
        rcases lt_trichotomy s t with hlt | rfl | hlt
        · have := h.order s f t f' hf hf' hlt
          omega
        · exact .inr (hb.symm.trans ha)
        · have := h.order t f' s f hf' hf hlt
          omega
    have hfree : ∀ b, m.get stop ≠ some b := fun b hb => by
      have := h.order s f stop b hf hb (hl s hs)
      omega
    rw [foldl_or_some hone (.inl ⟨s, hs, ha⟩)]
    constructor
    · intro he
      cases he
      exact .inl ⟨s, hs, ha⟩
    · rintro (⟨t, ht, hg⟩ | hg)
      · rcases hone t ht with hn | hn
        · rw [hn] at hg
          cases hg
        · exact hn.symm.trans hg
      · exact absurd hg (hfree g)
  · have hall : ∀ s ∈ l, tailAt m stop s = none := fun s hs =>
      Option.eq_none_iff_forall_ne_some.2 fun a ha => hex ⟨s, hs, a, ha⟩
    rw [foldl_or_none hall]
    refine ⟨.inr, ?_⟩
    rintro (⟨s, hs, hg⟩ | hg)
    · rw [hall s hs] at hg
      cases hg
    · exact hg

theorem forget_cut (h : Apart m) (hfits : addr + len < 2 ^ 64) :
    ∃ R, forget addr len m = .ok () R ∧ Cut m R addr (addr + len) := by
  generalize hstop : addr + len = stop at hfits
  have hle : addr ≤ stop := by omega
  have hlt : ∀ s ∈ hits m addr stop, s < stop := fun s hs => by
    obtain ⟨f, -, hs⟩ := (mem_hits h).1 hs
    omega
  have hthere : ∀ s ∈ hits m addr stop, ∃ f, m.get s = some f := fun s hs => by
    obtain ⟨f, hf, -⟩ := (mem_hits h).1 hs
    exact ⟨f, hf⟩
  obtain ⟨R, hR, hget⟩ := get_cutAll addr (hits_nodup m addr stop) hlt hthere
  refine ⟨R, ?_, ?_, ?_, ?_, ?_⟩
  · unfold forget
    rw [hstop, if_neg (by omega), hR]
  · intro k g hk
    rw [hget, if_neg (by omega)]
    by_cases hhit : k ∈ hits m addr stop
    · obtain ⟨f, hf, hlong⟩ := (mem_hits h).1 hhit
      have hmin : min f.len (addr - k) = addr - k := by omega
      rw [if_pos hhit, if_pos hk, hf]
      simp [hmin, eq_comm]
    · rw [if_neg hhit]
      cases hf : m.get k with
      | none => simp
      | some f =>
        have hshort : k + f.len ≤ addr := by
          by_contra hlong
          exact hhit ((mem_hits h).2 ⟨f, hf, .inl ⟨hk, by omega⟩⟩)
        have hmin : min f.len (addr - k) = f.len := by omega
        simp [hmin, eq_comm]
  · intro k hk hks
    rw [hget, if_neg (by omega)]
    by_cases hhit : k ∈ hits m addr stop
    · rw [if_pos hhit, if_neg (by omega)]
    · rw [if_neg hhit]
      cases hf : m.get k with
      | none => rfl
      | some f => exact absurd ((mem_hits h).2 ⟨f, hf, .inr ⟨hk, hks⟩⟩) hhit
  · intro g
    rw [hget, if_pos rfl, h.edge hlt g]
    refine or_congr_left ?_
    constructor
    · rintro ⟨s, hs, hg⟩
      exact ⟨s, hlt s hs, hg⟩
    · rintro ⟨s, hs, hg⟩
      obtain ⟨f, hf, hfl, -⟩ := tailAt_some.1 hg
      exact ⟨s, (mem_hits h).2 ⟨f, hf, by omega⟩, hg⟩
  · intro k hk
    have hhit : k ∉ hits m addr stop := fun hc => by
      have := hlt k hc
      omega
    rw [hget, if_neg (by omega), if_neg hhit]

namespace Cut

variable (hc : Cut m R addr stop) (hle : addr ≤ stop)
include hc hle

/-- an entry that is left is part of one there was -/
theorem part {k : ℕ} {g : FileMapping} (hk : R.get k = some g) :
    ∃ s f, m.get s = some f ∧ s ≤ k ∧ k + g.len ≤ s + f.len ∧ (k < addr ∧ s = k ∧ k + g.len ≤ addr ∨ stop ≤ k) := by
  rcases lt_trichotomy k stop with hlt | rfl | hlt
  · by_cases ha : k < addr
    · obtain ⟨f, hf, rfl⟩ := (hc.before k g ha).1 hk
      dsimp only
      exact ⟨k, f, hf, le_rfl, by omega, .inl ⟨ha, rfl, by omega⟩⟩
    · rw [hc.inside k (by omega) hlt] at hk
      cases hk
  · rcases (hc.edge g).1 hk with ⟨s, hs, hg⟩ | hg
    · obtain ⟨f, hf, hfl, rfl⟩ := tailAt_some.1 hg
      dsimp only [tail]
      exact ⟨s, f, hf, by omega, by omega, .inr le_rfl⟩
    · exact ⟨k, g, hg, le_rfl, le_rfl, .inr le_rfl⟩
  · rw [hc.after k hlt] at hk
    exact ⟨k, g, hk, le_rfl, le_rfl, .inr hlt.le⟩

theorem apart (h : Apart m) : Apart R where
  order := by
    intro s f t g hs ht hst
    obtain ⟨s', f', hf', hs', hlen, ⟨hsa, rfl, hend⟩ | hside⟩ := hc.part hle hs
    · by_cases hta : t < addr
      · obtain ⟨t', g', hg', -, -, ⟨-, rfl, -⟩ | hside⟩ := hc.part hle ht
        · have := h.order _ f' _ g' hf' hg' hst
          omega
        · omega
      · omega
    · rw [hc.after t (by omega)] at ht
      have := h.order s' f' t g hf' ht (by omega)
      omega
  fits := by
    intro s f hs
    obtain ⟨s', f', hf', -, hlen, -⟩ := hc.part hle hs
    have := h.fits s' f' hf'
    omega

/-- outside the range an address has the name and offset it had, and none inside -/
theorem covers (r : List UInt8 × UInt64) : Covers R x r ↔ (x < addr ∨ stop ≤ x) ∧ Covers m x r := by
  constructor
  · rintro ⟨k, g, hk, hkx, hxg, rfl⟩
    rcases lt_trichotomy k stop with hlt | rfl | hlt
    · by_cases ha : k < addr
      · obtain ⟨f, hf, rfl⟩ := (hc.before k g ha).1 hk
        dsimp only at hxg ⊢
        exact ⟨.inl (by omega), k, f, hf, hkx, by omega, rfl⟩
      · rw [hc.inside k (by omega) hlt] at hk
        cases hk
    · refine ⟨.inr hkx, ?_⟩
      rcases (hc.edge g).1 hk with ⟨s, hs, hg⟩ | hg
      · obtain ⟨f, hf, hfl, rfl⟩ := tailAt_some.1 hg
        dsimp only [tail] at hxg ⊢
        refine ⟨s, f, hf, by omega, by omega, ?_⟩
        have hsum : x - s = k - s + (x - k) := by omega
        rw [hsum, UInt64.ofNat_add, UInt64.add_assoc]
      · exact ⟨k, g, hg, hkx, hxg, rfl⟩
    · rw [hc.after k hlt] at hk
      exact ⟨.inr (by omega), k, g, hk, hkx, hxg, rfl⟩
  · rintro ⟨hx, s, f, hf, hsx, hxf, rfl⟩
    rcases hx with hx | hx
    · refine ⟨s, _, (hc.before s _ (by omega)).2 ⟨f, hf, rfl⟩, hsx, ?_, rfl⟩
      dsimp only
      omega
    · rcases lt_trichotomy s stop with hlt | rfl | hlt
      · refine ⟨stop, tail stop s f, (hc.edge _).2 (.inl ⟨s, hlt, tailAt_some.2 ⟨f, hf, by omega, rfl⟩⟩), hx, ?_, ?_⟩
        · dsimp only [tail]
          omega
        · have hsum : x - s = stop - s + (x - stop) := by omega
          dsimp only [tail]
          rw [hsum, UInt64.ofNat_add, UInt64.add_assoc]
      · exact ⟨s, f, (hc.edge f).2 (.inr hf), hsx, hxf, rfl⟩
      · exact ⟨s, f, by rw [hc.after s hlt]; exact hf, hsx, hxf, rfl⟩

/-- nothing that is left reaches into the range -/
theorem room {k : ℕ} {g : FileMapping} (hk : R.get k = some g) : k < addr ∧ k + g.len ≤ addr ∨ stop ≤ k := by
  obtain ⟨s, f, -, -, -, ⟨h1, -, h2⟩ | h1⟩ := hc.part hle hk
  · exact .inl ⟨h1, h2⟩
  · exact .inr h1

end Cut

/-! ## What an insertion adds -/

/-- an entry put where there is room -/
theorem Apart.insert (h : Apart m) {f : FileMapping} (hfits : start + f.len < 2 ^ 64)
    (hroom : ∀ k g, m.get k = some g → k < start ∧ k + g.len ≤ start ∨ k = start ∨ start < k ∧ start + f.len ≤ k) :
    Apart (m.insert start f) where
  order := by
    intro s a t b hs ht hst
    rw [Ordered.get_insert] at hs ht
    split_ifs at hs ht with h1 h2 h2
    · omega
    · cases hs
      rcases hroom t b ht with ⟨hlt, -⟩ | he | ⟨-, hle⟩ <;> omega
    · cases ht
      rcases hroom s a hs with ⟨-, hle⟩ | he | ⟨hlt, -⟩ <;> omega
    · exact h.order s a t b hs ht hst
  fits := by
    intro s a hs
    rw [Ordered.get_insert] at hs
    split_ifs at hs with h1
    · cases hs
      omega
    · exact h.fits s a hs

/-- in place of an entry that covers nothing, or of none -/
theorem covers_insert {f : FileMapping} (hroom : ∀ k g, m.get k = some g → k < start ∧ k + g.len ≤ start ∨ k = start ∨ start < k ∧ start + f.len ≤ k)
    (hno : ∀ g, m.get start = some g → g.len = 0) (r : List UInt8 × UInt64) :
    Covers (m.insert start f) x r ↔
      if start ≤ x ∧ x < start + f.len then r = (f.guest, f.offset + UInt64.ofNat (x - start)) else Covers m x r := by
  have hother : ∀ k, k ≠ start → (m.insert start f).get k = m.get k := fun k hk => by
    rw [Ordered.get_insert, if_neg hk]
  have hself : (m.insert start f).get start = some f := by rw [Ordered.get_insert, if_pos rfl]
  split_ifs with hx
  · constructor
    · rintro ⟨k, g, hk, hkx, hxg, rfl⟩
      by_cases hks : k = start
      · rw [hks, hself] at hk
        cases hk
        rw [hks]
      · rw [hother k hks] at hk
        rcases hroom k g hk with ⟨-, hle⟩ | he | ⟨-, hle⟩ <;> omega
    · rintro rfl
      exact ⟨start, f, hself, hx.1, hx.2, rfl⟩
  · constructor
    · rintro ⟨k, g, hk, hkx, hxg, rfl⟩
      by_cases hks : k = start
      · rw [hks, hself] at hk
        cases hk
        omega
      · rw [hother k hks] at hk
        exact ⟨k, g, hk, hkx, hxg, rfl⟩
    · rintro ⟨k, g, hk, hkx, hxg, rfl⟩
      have hks : k ≠ start := by
        rintro rfl
        have := hno g hk
        omega
      exact ⟨k, g, by rw [hother k hks]; exact hk, hkx, hxg, rfl⟩

/-! ## The operations -/

/-- `forget` takes the names of its range away, and no other -/
theorem forget_names (h : Apart m) (hfits : addr + len < 2 ^ 64) :
    ∃ R, forget addr len m = .ok () R ∧ Apart R ∧ Cut m R addr (addr + len) ∧
      ∀ x, nameAt R x = if addr ≤ x ∧ x < addr + len then none else nameAt m x := by
  obtain ⟨R, hR, hc⟩ := forget_cut h hfits
  have hle : addr ≤ addr + len := Nat.le_add_right _ _
  have ha := hc.apart hle h
  refine ⟨R, hR, ha, hc, fun x => ?_⟩
  split_ifs with hx
  · refine (nameAt_none ha).2 fun r hr => ?_
    have := ((hc.covers hle r).1 hr).1
    omega
  · refine Option.ext fun r => ?_
    have hout : x < addr ∨ addr + len ≤ x := by omega
    rw [nameAt_iff ha, nameAt_iff h, hc.covers hle]
    exact and_iff_right hout

theorem forget_panics (h : 2 ^ 64 ≤ addr + len) : forget addr len m = .error .panic m := by
  unfold forget
  rw [if_pos h]

theorem forget_ok_fits {m' : Table} (h : forget addr len m = .ok () m') : addr + len < 2 ^ 64 := by
  by_contra hc
  rw [forget_panics (not_lt.1 hc)] at h
  cases h

variable (addr len) in
/-- whatever `forget` answers, what it leaves is apart -/
theorem forget_apart (h : Apart m) :
    (∃ R, forget addr len m = .ok () R ∧ Apart R ∧ Cut m R addr (addr + len)) ∨ forget addr len m = .error .panic m := by
  by_cases hfits : addr + len < 2 ^ 64
  · obtain ⟨R, hR, ha, hc, -⟩ := forget_names h hfits
    exact .inl ⟨R, hR, ha, hc⟩
  · exact .inr (forget_panics (not_lt.1 hfits))

theorem Cut.roomFor (hc : Cut m R addr (addr + len)) {k : ℕ} {g : FileMapping} (hk : R.get k = some g) :
    k < addr ∧ k + g.len ≤ addr ∨ k = addr ∨ addr < k ∧ addr + len ≤ k := by
  rcases hc.room (Nat.le_add_right _ _) hk with h | h
  · exact .inl h
  · omega

theorem label_eq {name : List UInt8} (hR : forget start len m = .ok () R) :
    label start len name m = .ok () (R.insert start { len := len, guest := name, offset := 0 }) := by
  simp only [label, bind, EStateM.bind, hR, put]

/-- a label of some bytes, or of none where nothing has a name, names its range and changes no other name -/
theorem label_names (h : Apart m) {name : List UInt8} (hfits : start + len < 2 ^ 64)
    (hname : len ≠ 0 ∨ nameAt m start = none) :
    ∃ m', label start len name m = .ok () m' ∧
      ∀ x, nameAt m' x = if start ≤ x ∧ x < start + len then some (name, UInt64.ofNat (x - start)) else nameAt m x := by
  obtain ⟨R, hR, ha, hc, hnames⟩ := forget_names h hfits
  have hroom := fun k g (hk : R.get k = some g) => hc.roomFor hk
  have hno : ∀ g, R.get start = some g → g.len = 0 := fun g hg => by
    by_contra hlen
    have hcov : Covers R start (g.guest, g.offset + UInt64.ofNat (start - start)) := ⟨start, g, hg, le_rfl, by omega, rfl⟩
    have hsome := (nameAt_iff ha _).2 hcov
    rw [hnames] at hsome
    rcases hname with hl | hn
    · rw [if_pos ⟨le_rfl, by omega⟩] at hsome
      cases hsome
    · rw [hn, ite_self] at hsome
      cases hsome
  have ha' : Apart (R.insert start { len := len, guest := name, offset := 0 }) := ha.insert hfits hroom
  refine ⟨_, label_eq hR, fun x => Option.ext fun r => ?_⟩
  rw [nameAt_iff ha', covers_insert hroom hno]
  dsimp only
  split_ifs with hx
  · rw [Option.some.injEq, UInt64.zero_add]
    exact eq_comm
  · rw [← nameAt_iff ha, hnames, if_neg hx]

theorem label_panics {name : List UInt8} (h : 2 ^ 64 ≤ start + len) : label start len name m = .error .panic m := by
  simp only [label, bind, EStateM.bind, forget_panics h]

/-! ## Runs -/

theorem left_bind (x y : EStateM Failure Table Unit) (m : Table) :
    left (x >>= fun _ => y) m = match x m with
      | .ok _ m' => left y m'
      | .error _ m' => m' := by
  simp only [left, bind, EStateM.bind]
  cases x m <;> rfl

theorem left_forget (h : Apart m) (addr len : ℕ) : Apart (left (forget addr len) m) := by
  rcases forget_apart addr len h with ⟨R, hR, ha, -⟩ | hp
  · rw [left, hR]
    exact ha
  · rw [left, hp]
    exact h

/-- an entry put over what was forgotten -/
theorem left_forget_put (h : Apart m) (f : FileMapping) : Apart (left (forget start f.len >>= fun _ => put start f) m) := by
  rw [left_bind]
  rcases forget_apart start f.len h with ⟨R, hR, ha, hc⟩ | hp
  · rw [hR]
    exact ha.insert (forget_ok_fits hR) fun k g hk => hc.roomFor hk
  · rw [hp]
    exact h

theorem left_unmapLocked (h : Apart m) (addr len : ℕ) (unmaps : Bool) : Apart (left (unmapLocked addr len unmaps) m) := by
  cases unmaps with
  | true => exact left_forget h addr len
  | false => exact h

/-- room for an entry is left where it was -/
theorem Cut.keepsRoom {f : FileMapping} (hc : Cut m R addr stop) (hle : addr ≤ stop)
    (hroom : ∀ e ∈ m.entries, e.1 + e.2.len ≤ start ∨ start + f.len ≤ e.1) {k : ℕ} {g : FileMapping} (hk : R.get k = some g) :
    k < start ∧ k + g.len ≤ start ∨ k = start ∨ start < k ∧ start + f.len ≤ k := by
  obtain ⟨s, f', hf', hsk, hlen, -⟩ := hc.part hle hk
  rcases hroom (s, f') (Ordered.mem_entries.2 hf') with hr | hr
  · dsimp only at hr
    omega
  · dsimp only at hr
    omega

theorem roomOf {f : FileMapping} (hroom : ∀ e ∈ m.entries, e.1 + e.2.len ≤ start ∨ start + f.len ≤ e.1) {k : ℕ}
    {g : FileMapping} (hk : m.get k = some g) :
    k < start ∧ k + g.len ≤ start ∨ k = start ∨ start < k ∧ start + f.len ≤ k := by
  rcases hroom (k, g) (Ordered.mem_entries.2 hk) with hr | hr
  · dsimp only at hr
    omega
  · dsimp only at hr
    omega

/-- `MAP_FIXED`'s unmapping leaves the range free; without it nothing changes -/
theorem onlyIf_unmap {m' : Table} (h : Apart m) {replaces unmaps : Bool}
    (hok : onlyIf replaces (unmapLocked addr len unmaps) m = .ok () m') :
    Apart m' ∧ if replaces then Cut m m' addr (addr + len) else m' = m := by
  cases replaces with
  | false =>
    cases hok
    exact ⟨h, rfl⟩
  | true =>
    cases unmaps with
    | false => cases hok
    | true =>
      have hforget : forget addr len m = .ok () m' := hok
      obtain ⟨R, hR, ha, hc, -⟩ := forget_names h (forget_ok_fits hforget)
      rw [hforget] at hR
      cases hR
      exact ⟨ha, hc⟩

theorem left_map {S : Space} (h : Apart m) (req : MapRequest) (unmaps : Bool) (what : Mapped)
    (ho : steady S m (.map req unmaps what)) : Apart (left (map S req unmaps what) m) := by
  unfold map
  by_cases h0 : req.len = 0 ∨ req.offset % S.page ≠ 0
  · rw [if_pos h0]
    exact h
  rw [if_neg h0]
  cases hlen : S.span (untag req.addr) req.len with
  | none => exact h
  | some len =>
    dsimp only
    by_cases hf : (req.fixed && decide (req.addr % S.page ≠ 0)) = true
    · rw [if_pos hf]
      exact h
    rw [if_neg hf, left_bind]
    cases hok : onlyIf req.replaces (unmapLocked req.addr len unmaps) m with
    | error e m' =>
      have hleft : left (onlyIf req.replaces (unmapLocked req.addr len unmaps)) m = m' := by rw [left, hok]
      dsimp only
      rw [← hleft]
      cases req.replaces with
      | true => exact left_unmapLocked h req.addr len unmaps
      | false => exact h
    | ok u m' =>
      obtain ⟨ha, hcut⟩ := onlyIf_unmap h hok
      cases what with
      | refused e => exact ha
      | anonymous => exact ha
      | file at_ guest => exact left_forget_put ha { len := len, guest := guest, offset := UInt64.ofNat req.offset }
      | synth at_ guest =>
        obtain ⟨hfits, hroom⟩ := ho len hlen
        refine ha.insert (f := { len := len, guest := guest, offset := UInt64.ofNat req.offset }) hfits fun k g hk => ?_
        cases hr : req.replaces with
        | true =>
          rw [hr, if_pos rfl] at hcut
          rcases hroom with ⟨-, rfl⟩ | hroom
          · exact hcut.roomFor hk
          · exact hcut.keepsRoom (Nat.le_add_right _ _) hroom hk
        | false =>
          rw [hr, if_neg Bool.false_ne_true] at hcut
          rw [hcut] at hk
          rcases hroom with ⟨hr', -⟩ | hroom
          · rw [hr] at hr'
            cases hr'
          · exact roomOf hroom hk

theorem step_apart {S : Space} (h : Apart m) (a : Act) (ho : steady S m a) : Apart (step S m a) := by
  unfold step
  cases a with
  | label start len name => exact left_forget_put h { len := len, guest := name, offset := 0 }
  | forget addr len => exact left_forget h addr len
  | unmap addr len unmaps =>
    unfold perform unmap
    dsimp only
    split_ifs with h0
    · exact h
    · cases S.span (untag addr) len with
      | none => exact h
      | some n => exact left_unmapLocked h (untag addr) n unmaps
  | map req unmaps what => exact left_map h req unmaps what ho

/-! ## The result -/

/-- a label of no bytes leaves its address without a name -/
theorem label_zero (h : Apart m) {name : List UInt8} {m' : Table} (hl : label start 0 name m = .ok () m') :
    nameAt m' start = none := by
  have hfits : start + 0 < 2 ^ 64 := by
    by_contra hc
    rw [label_panics (not_lt.1 hc)] at hl
    cases hl
  obtain ⟨R, hR, ha, hc, -⟩ := forget_names h hfits
  rw [label_eq hR] at hl
  cases hl
  have ha' : Apart (R.insert start { len := 0, guest := name, offset := 0 }) := ha.insert hfits fun k g hk => hc.roomFor hk
  refine (nameAt_none ha').2 ?_
  rintro r ⟨k, g, hk, hkx, hxg, -⟩
  rw [Ordered.get_insert] at hk
  split_ifs at hk with hks
  · cases hk
    dsimp only at hxg
    omega
  · rcases hc.roomFor hk with ⟨-, hle⟩ | he | ⟨hlt, -⟩ <;> omega

/-- **Names of mappings.** In every run in which a file in memory is mapped only where no entry is, the entries are apart; `forget`
takes the names of its range away, and changes no other, exactly where the range ends below 2^64; and `label` changes no name
outside its range exactly where besides its range is not empty, or begins where nothing has a name. -/
theorem names_kept (S : Space) (m : Table) (h : Reach (step S) (steady S) Ordered.empty m) :
    Apart m ∧
      (∀ addr len, (∃ m', forget addr len m = .ok () m' ∧
          ∀ x, nameAt m' x = if addr ≤ x ∧ x < addr + len then none else nameAt m x) ↔ addr + len < 2 ^ 64) ∧
      ∀ start len name, (∃ m', label start len name m = .ok () m' ∧
          ∀ x, ¬(start ≤ x ∧ x < start + len) → nameAt m' x = nameAt m x) ↔
        start + len < 2 ^ 64 ∧ (len ≠ 0 ∨ nameAt m start = none) := by
  have hempty : Apart Ordered.empty := ⟨nofun, nofun⟩
  have ha : Apart m := h.invariant Apart hempty fun _ a _ ho hs => step_apart hs a ho
  refine ⟨ha, fun addr len => ⟨?_, fun hfits => ?_⟩, fun start len name => ⟨?_, ?_⟩⟩
  · rintro ⟨m', hok, -⟩
    exact forget_ok_fits hok
  · obtain ⟨R, hR, -, -, hnames⟩ := forget_names ha hfits
    exact ⟨R, hR, hnames⟩
  · rintro ⟨m', hok, hsame⟩
    refine ⟨?_, ?_⟩
    · by_contra hc
      rw [label_panics (not_lt.1 hc)] at hok
      cases hok
    · by_contra hc
      obtain ⟨rfl, hname⟩ : len = 0 ∧ nameAt m start ≠ none := by tauto
      exact hname ((hsame start (by omega)).symm.trans (label_zero ha hok))
  · rintro ⟨hfits, hname⟩
    obtain ⟨m', hok, hnames⟩ := label_names ha hfits hname
    exact ⟨m', hok, fun x hx => by rw [hnames, if_neg hx]⟩

theorem small_pos : 0 < 4096 := Nat.succ_pos _

theorem small_dvd : 4096 ∣ 4096 := dvd_refl _

theorem small_pow : 4096 ∣ 2 ^ 64 := by decide

theorem small_le : 4096 ≤ 2 ^ 56 := by decide

/-- pages of 4 KiB, the host's too -/
def small : Space := Space.plain 4096 4096 small_pos small_dvd small_pow small_dvd small_le

/-- a file of three pages, and its middle page unmapped -/
def splitRun : List Act :=
  [.map { addr := 0, len := 0x3000, prot := 1, flags := 0, offset := 0x2000 } true (.file 0x20000 [102]), .unmap 0x21000 0x1000 true]

theorem names_kept_split :
    nameAt (run (step small) Ordered.empty splitRun) 0x22010 = some ([102], 0x4010) ∧
      ∃ m', label 0x21000 0x1000 [97] (run (step small) Ordered.empty splitRun) = .ok () m' ∧ nameAt m' 0x22010 = some ([102], 0x4010) := by
  have h := names_kept small _ (Reach.run .start splitRun ⟨trivial, trivial, trivial⟩)
  have hname : nameAt (run (step small) Ordered.empty splitRun) 0x22010 = some ([102], 0x4010) := by decide
  obtain ⟨m', hok, hsame⟩ := (h.2.2 0x21000 0x1000 [97]).2 (by decide)
  exact ⟨hname, m', hok, (hsame 0x22010 (by decide)).trans hname⟩

/-- memory of three pages is named though nothing is mapped there, and a file in memory mapped onto its middle page -/
def overlapRun : List Act :=
  [.label 0x20000 0x3000 [97],
    .map { addr := 0, len := 0x1000, prot := 1, flags := 2, offset := 0 } true (.synth 0x21000 [112])]

/-- a label of no bytes inside an entry takes the names after it; entries overlap, and an address of the first has no name; a range
that passes 2^64 panics -/
theorem names_lost :
    nameAt (run (step small) Ordered.empty [.label 0x20000 0x3000 [97]]) 0x22000 = some ([97], 0x2000) ∧
      nameAt (run (step small) Ordered.empty [.label 0x20000 0x3000 [97], .label 0x21000 0 [98]]) 0x22000 = none ∧
      (run (step small) Ordered.empty overlapRun).entries.map (fun e => (e.1, e.2.len)) = [(0x20000, 0x3000), (0x21000, 0x1000)] ∧
      nameAt (run (step small) Ordered.empty overlapRun) 0x22000 = none ∧
      forget (2 ^ 64 - 0x1000) 0x2000 Ordered.empty = .error .panic Ordered.empty :=
  ⟨by decide, by decide, by decide, by decide, forget_panics (by decide)⟩

end Omnidroid.Mm.Names
