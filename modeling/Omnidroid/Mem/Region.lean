/-
What a lookup answers at an address (`omni-mem/src/region.rs`, `subpage.rs`, `space.rs`, `space/subpage_ops.rs`): the entry
there, in the guest's view of it where host pages are kept in 4 KiB parts, and cut where a shared view runs past the end of
its file as the file is now.
- `Split`: the parts of a tracked host page, and the run of equal ones that a part is in (`runAt`).
- `guestViewOf`, `clipAtEndOfFile`: the two cuts.
- `regionAtLocked`: the whole lookup, and whether its answer rests on a file's length now.
- `regionAtLocked_within`: an answer that does not is the answer at every address it covers, whatever the lengths are.
-/
import Omnidroid.Lib.Pages
import Omnidroid.Mem.Entry

namespace Omnidroid.Mem

open Omnidroid.Mm (Protection)

/-! ## Regions -/

inductive RegionKind where
  | free
  | host
  | anonymous
  | file (backing : ℕ) (name : String) (fileOffset : ℕ) (shared guestNamed : Bool)
deriving DecidableEq, Repr

structure RegionInfo where
  start : ℕ
  len : ℕ
  protection : Protection
  kind : RegionKind
  /-- bytes of commit charge in it -/
  committed : ℕ
  mapping : Option ℕ
  mappingStart : ℕ
  mappingLen : ℕ
deriving DecidableEq, Repr

namespace RegionInfo

def stop (r : RegionInfo) : ℕ := r.start + r.len

def isFree (r : RegionInfo) : Bool := r.kind == .free

def isCommitted (r : RegionInfo) : Bool := r.committed == r.len

def fromEntry (start : ℕ) (e : Entry) : RegionInfo :=
  match e.owner with
  | none => ⟨start, e.len, .none, if e.os = .host then .host else .free, 0, none, start, e.len⟩
  | some o =>
    let kind := match o.backing with
      | some b => .file b.id b.name (o.offsetAt start) b.shared b.guestNamed
      | none => .anonymous
    ⟨start, e.len, o.protection, kind, e.committedBytes, some o.id, o.mappingStart, o.mappingLen⟩

@[simp] theorem fromEntry_start (start : ℕ) (e : Entry) : (fromEntry start e).start = start := by
  unfold fromEntry
  split <;> rfl

@[simp] theorem fromEntry_len (start : ℕ) (e : Entry) : (fromEntry start e).len = e.len := by
  unfold fromEntry
  split <;> rfl

/-- its kind where it is cut to start at `start` -/
def rebased (r : RegionInfo) (start : ℕ) : RegionKind :=
  match r.kind with
  | .file backing name fileOffset shared guestNamed => .file backing name (fileOffset + (start - r.start)) shared guestNamed
  | other => other

end RegionInfo

/-! ## Parts of a host page -/

/-- the guest's page -/
def GUEST_PAGE : ℕ := 4096

inductive Part where
  | mapped (protection : Protection)
  | hole
  | strictHole
deriving DecidableEq, Repr

/-- a host page's parts, and by bits those whose bytes are not their own -/
structure Split where
  parts : List Part
  foreign : ℕ
deriving DecidableEq, Repr

namespace Split

variable {s : Split} {i j : ℕ}

def isForeign (s : Split) (i : ℕ) : Bool := s.foreign.testBit i

/-- what a run is made of: the part, and whether it is foreign -/
def key (s : Split) (i : ℕ) : Option Part × Bool := (s.parts[i]?, s.isForeign i)

/-- where the run of parts like part `i` starts, and where it ends -/
def runStart (s : Split) (i : ℕ) : ℕ := ((List.range i).reverse.find? fun j => s.key j ≠ s.key i).elim 0 (· + 1)

def runStop (s : Split) (i : ℕ) : ℕ := ((List.range' i (s.parts.length - i)).find? fun j => s.key j ≠ s.key i).getD s.parts.length

/-- the run of parts equal to part `i`, foreign or not alike: where it starts, how many, and the part -/
def runAt (s : Split) (i : ℕ) : ℕ × ℕ × Option Part := (s.runStart i, s.runStop i - s.runStart i, s.parts[i]?)

/-- after the last number below `i` that `p` holds of -/
theorem elim_find_reverse (p : ℕ → Bool) (i : ℕ) :
    let k := ((List.range i).reverse.find? p).elim 0 (· + 1)
    k ≤ i ∧ (∀ j, k ≤ j → j < i → p j = false) ∧ (k = 0 ∨ p (k - 1) = true) := by
  induction i with
  | zero => simp
  | succ i ih =>
    rw [List.range_succ, List.reverse_append, List.reverse_singleton, List.singleton_append, List.find?_cons]
    cases hp : p i with
    | true => exact ⟨le_refl _, fun j h₁ h₂ => by simp at h₁; omega, .inr hp⟩
    | false =>
      obtain ⟨hle, hj, h0⟩ := ih
      refine ⟨by simpa using Nat.le_succ_of_le hle, ?_, h0⟩
      intro j h₁ h₂
      rcases Nat.lt_succ_iff_lt_or_eq.mp h₂ with h | rfl
      · exact hj j h₁ h
      · exact hp

theorem runStart_spec (s : Split) (i : ℕ) : s.runStart i ≤ i ∧ (∀ j, s.runStart i ≤ j → j ≤ i → s.key j = s.key i) ∧
    (s.runStart i = 0 ∨ s.key (s.runStart i - 1) ≠ s.key i) := by
  obtain ⟨hle, hj, h0⟩ := elim_find_reverse (fun j => decide (s.key j ≠ s.key i)) i
  refine ⟨hle, ?_, h0.imp id of_decide_eq_true⟩
  intro j h₁ h₂
  rcases h₂.lt_or_eq with h | rfl
  · simpa using hj j h₁ h
  · rfl

theorem runStop_spec (s : Split) (hi : i < s.parts.length) : i < s.runStop i ∧ s.runStop i ≤ s.parts.length ∧
    (∀ j, i ≤ j → j < s.runStop i → s.key j = s.key i) ∧ (s.runStop i = s.parts.length ∨ s.key (s.runStop i) ≠ s.key i) := by
  unfold runStop
  cases hf : (List.range' i (s.parts.length - i)).find? fun j => s.key j ≠ s.key i with
  | none =>
    refine ⟨hi, le_refl _, ?_, .inl rfl⟩
    intro j h₁ h₂
    simpa using List.find?_eq_none.mp hf j (List.mem_range'_1.mpr ⟨h₁, by simp at h₂; omega⟩)
  | some k =>
    obtain ⟨hk, hmem, hbefore⟩ := List.find?_range'_eq_some.mp hf
    have hmem := List.mem_range'_1.mp hmem
    have hne : s.key k ≠ s.key i := of_decide_eq_true hk
    have hik : k ≠ i := by rintro rfl; exact hne rfl
    refine ⟨?_, ?_, ?_, .inr hne⟩
    · show i < k
      omega
    · show k ≤ _
      omega
    · intro j h₁ h₂
      simpa using hbefore j h₁ h₂

/-- the run of a part is that of every part in it -/
theorem runAt_same (hi : i < s.parts.length) (h₁ : s.runStart i ≤ j) (h₂ : j < s.runStop i) :
    s.runAt j = s.runAt i ∧ s.key j = s.key i := by
  obtain ⟨hs₁, hs₂, hs₃⟩ := s.runStart_spec i
  obtain ⟨ht₁, ht₂, ht₃, ht₄⟩ := runStop_spec s hi
  have hin : ∀ k, s.runStart i ≤ k → k < s.runStop i → s.key k = s.key i := by
    intro k hk₁ hk₂
    rcases le_or_gt k i with h | h
    · exact hs₂ k hk₁ h
    · exact ht₃ k (by omega) hk₂
  have hj := hin j h₁ h₂
  obtain ⟨js₁, js₂, js₃⟩ := s.runStart_spec j
  obtain ⟨jt₁, jt₂, jt₃, jt₄⟩ := runStop_spec s (h₂.trans_le ht₂)
  have hstart : s.runStart j = s.runStart i := by
    apply le_antisymm
    · by_contra hlt
      rcases js₃ with h | h
      · omega
      · exact h ((hin _ (by omega) (by omega)).trans hj.symm)
    · by_contra hlt
      rcases hs₃ with h | h
      · omega
      · exact h ((js₂ _ (by omega) (by omega)).trans hj)
  have hstop : s.runStop j = s.runStop i := by
    apply le_antisymm
    · by_contra hlt
      rcases ht₄ with h | h
      · omega
      · exact h ((jt₃ _ (by omega) (by omega)).trans hj)
    · by_contra hlt
      rcases jt₄ with h | h
      · omega
      · exact h ((hin _ (by omega) (by omega)).trans hj.symm)
  refine ⟨?_, hj⟩
  have hpart : s.parts[j]? = s.parts[i]? := congrArg Prod.fst hj
  rw [runAt, runAt, hstart, hstop, hpart]

end Split

/-- the tracked host pages, in the order of their addresses -/
structure SubPages where
  split : List (ℕ × Split)
deriving DecidableEq, Repr

namespace SubPages

def get (t : SubPages) (hostPage : ℕ) : Option Split := (t.split.find? fun p => p.1 = hostPage).map Prod.snd

/-- the last tracked page before `hostPage`, and the first from it on -/
def before (t : SubPages) (hostPage : ℕ) : Option ℕ := (t.split.reverse.find? fun p => p.1 < hostPage).map Prod.fst

def after (t : SubPages) (hostPage : ℕ) : Option ℕ := (t.split.find? fun p => hostPage ≤ p.1).map Prod.fst

variable {t : SubPages} {h h' k : ℕ} {p : ℕ × Split} {s : Split}

theorem mem_of_get (hg : t.get h = some s) : (h, s) ∈ t.split := by
  obtain ⟨q, hq, rfl⟩ := Option.map_eq_some_iff.mp hg
  have hk : q.1 = h := by simpa using List.find?_some hq
  rw [← hk]
  exact List.mem_of_find?_eq_some hq

theorem get_eq_none : t.get h = none ↔ ∀ p ∈ t.split, p.1 ≠ h := by simp [get]

theorem mem_of_before (hb : t.before h = some k) : k < h ∧ ∃ s, (k, s) ∈ t.split := by
  obtain ⟨q, hq, rfl⟩ := Option.map_eq_some_iff.mp hb
  exact ⟨by simpa using List.find?_some hq, q.2, List.mem_reverse.mp (List.mem_of_find?_eq_some hq)⟩

theorem mem_of_after (ha : t.after h = some k) : h ≤ k ∧ ∃ s, (k, s) ∈ t.split := by
  obtain ⟨q, hq, rfl⟩ := Option.map_eq_some_iff.mp ha
  exact ⟨by simpa using List.find?_some hq, q.2, List.mem_of_find?_eq_some hq⟩

theorem before_ge (hs : t.split.Pairwise fun p q => p.1 < q.1) (hp : p ∈ t.split) (hlt : p.1 < h) :
    ∃ k, t.before h = some k ∧ p.1 ≤ k := by
  cases hf : t.split.reverse.find? fun p => p.1 < h with
  | none => exact absurd hlt (by simpa using List.find?_eq_none.mp hf p (List.mem_reverse.mpr hp))
  | some q =>
    refine ⟨q.1, by simp [before, hf], ?_⟩
    obtain ⟨-, front, back, hl, hfront⟩ := List.find?_eq_some_iff_append.mp hf
    have hs' := List.pairwise_reverse.mpr (show t.split.Pairwise fun p q => p.1 < q.1 from hs)
    rw [hl, List.pairwise_append] at hs'
    have hp' : p ∈ front ++ q :: back := hl ▸ List.mem_reverse.mpr hp
    rcases List.mem_append.mp hp' with hp' | hp'
    · exact absurd hlt (by simpa using hfront p hp')
    · rcases List.mem_cons.mp hp' with rfl | hp'
      · exact le_refl _
      · exact ((List.pairwise_cons.mp hs'.2.1).1 p hp').le

theorem after_le (hs : t.split.Pairwise fun p q => p.1 < q.1) (hp : p ∈ t.split) (hle : h ≤ p.1) :
    ∃ k, t.after h = some k ∧ k ≤ p.1 := by
  cases hf : t.split.find? fun p => h ≤ p.1 with
  | none => exact absurd hle (by simpa using List.find?_eq_none.mp hf p hp)
  | some q =>
    refine ⟨q.1, by simp [after, hf], ?_⟩
    obtain ⟨-, front, back, hl, hfront⟩ := List.find?_eq_some_iff_append.mp hf
    rw [hl, List.pairwise_append] at hs
    rcases List.mem_append.mp (hl ▸ hp) with hp' | hp'
    · exact absurd hle (by simpa using hfront p hp')
    · rcases List.mem_cons.mp hp' with rfl | hp'
      · exact le_refl _
      · exact ((List.pairwise_cons.mp hs.2.1).1 p hp').le

/-- a lookup by page only asks which tracked pages are before it -/
theorem before_congr (hsame : ∀ p ∈ t.split, p.1 < h ↔ p.1 < h') : t.before h = t.before h' := by
  unfold before
  congr 1
  apply List.find?_congr
  intro p hp
  simpa using hsame p (List.mem_reverse.mp hp)

theorem after_congr (hsame : ∀ p ∈ t.split, p.1 < h ↔ p.1 < h') : t.after h = t.after h' := by
  unfold after
  congr 1
  apply List.find?_congr
  intro p hp
  have := hsame p hp
  simp only [decide_eq_decide]
  omega

end SubPages

/-! ## The lookup -/

/-- what the lock of a space guards, as far as a lookup reads it; a space that has host pages of the guest's size has no
`sub` -/
structure Inner where
  page : ℕ
  map : EntryMap
  sub : Option SubPages
deriving DecidableEq, Repr

namespace RegionInfo

/-- `info` as the run of parts that part `i` of its tracked page is in -/
def ofRun (info : RegionInfo) (hostPage : ℕ) (s : Split) (i : ℕ) : Option RegionInfo :=
  match s.runAt i with
  | (first, count, some (.mapped protection)) =>
    let start := hostPage + first * GUEST_PAGE
    -- a reservation's part over a view's page: anonymous, and it holds nothing
    if s.isForeign first then
      some { info with start, len := count * GUEST_PAGE, protection, committed := 0, kind := .anonymous }
    else
      some { info with
        start, len := count * GUEST_PAGE, protection
        committed := if 0 < info.committed then count * GUEST_PAGE else 0
        kind := info.rebased start }
  | _ => none

/-- `info` between the tracked pages on either side of `hostPage` -/
def ofGap (info : RegionInfo) (page : ℕ) (t : SubPages) (hostPage : ℕ) : RegionInfo :=
  let lo := (t.before hostPage).elim info.start fun p => max (p + page) info.start
  let hi := (t.after hostPage).elim info.stop fun p => min p info.stop
  { info with start := lo, len := hi - lo, committed := if info.isCommitted then hi - lo else 0, kind := info.rebased lo }

end RegionInfo

namespace Inner

variable (m : Inner)

/-- the guest's view of `info`, the entry at `address`: in a tracked page the run of parts there (none for a hole),
elsewhere cut so that it covers no tracked page -/
def guestViewOf (info : RegionInfo) (address : ℕ) : Option RegionInfo :=
  match m.sub with
  | none => some info
  | some t =>
    if t.split.isEmpty then some info
    else
      let hostPage := pageOf m.page address
      match t.get hostPage with
      | some s => info.ofRun hostPage s ((address - hostPage) / GUEST_PAGE)
      | none => some (info.ofGap m.page t hostPage)

/-- `info` cut where a shared view runs past its file's end, and whether the file was asked for its length now -/
def clipAtEndOfFile (lenNow : ℕ → ℕ) (e : Entry) (info : RegionInfo) (address : ℕ) : RegionInfo × Bool :=
  match info.kind, (e.owner.bind Owner.backing).filter Backing.shared with
  | .file backing name fileOffset shared guestNamed, some b =>
    if fileOffset + info.len ≤ roundUp m.page b.len then (info, false)
    else
      let cut := info.start + (roundUp m.page (lenNow b.id) - fileOffset)
      if info.stop ≤ cut then (info, true)
      else if address < cut then ({ info with len := cut - info.start }, true)
      else
        let start := max cut info.start
        ({ info with
          start, len := info.stop - start, protection := .none
          kind := .file backing name (fileOffset + (start - info.start)) shared guestNamed }, true)
  | _, _ => (info, false)

/-- `region_at_locked`: the region an address is in, and whether it rests on a file's length now -/
def regionAtLocked (lenNow : ℕ → ℕ) (address : ℕ) : Option (RegionInfo × Bool) := do
  let (start, e) ← m.map.entryAt address
  if e.isFree then none
  else
    let info ← m.guestViewOf (.fromEntry start e) address
    some (m.clipAtEndOfFile lenNow e info address)

/-- the invariants of the map, and of the pages tracked over it -/
structure Valid (m : Inner) : Prop where
  page_pos : 0 < m.page
  guest_dvd : GUEST_PAGE ∣ m.page
  map : m.map.Valid
  sorted : ∀ t ∈ m.sub, t.split.Pairwise fun p q => p.1 < q.1
  /-- a tracked page is a host page, kept in all its parts, and in one entry -/
  tracked : ∀ t ∈ m.sub, ∀ p ∈ t.split, m.page ∣ p.1 ∧ p.2.parts.length = m.page / GUEST_PAGE ∧
    ∃ q ∈ m.map.entries, q.1 ≤ p.1 ∧ p.1 + m.page ≤ q.1 + q.2.len

end Inner

/-! ## One answer for every address of a region -/

namespace RegionInfo

variable {info r : RegionInfo} {hostPage page i j a b : ℕ} {s : Split} {t : SubPages}

theorem ofRun_range (h : info.ofRun hostPage s i = some r) :
    r.start = hostPage + s.runStart i * GUEST_PAGE ∧ r.len = (s.runStop i - s.runStart i) * GUEST_PAGE := by
  unfold ofRun at h
  split at h
  · rename_i first count protection hrun
    obtain ⟨rfl, hcount⟩ := Prod.mk.inj hrun
    obtain ⟨rfl, -⟩ := Prod.mk.inj hcount
    split at h <;> cases h <;> exact ⟨rfl, rfl⟩
  · cases h

theorem ofRun_congr (h : s.runAt j = s.runAt i) : info.ofRun hostPage s j = info.ofRun hostPage s i := by
  simp only [ofRun, h]

/-- an address of a tracked page is in the region of its run, which is the region of every address in it -/
theorem ofRun_same (hi : i < s.parts.length) (h : info.ofRun hostPage s i = some r) (ha : r.start ≤ a) (ha' : a < r.stop) :
    hostPage ≤ a ∧ a < hostPage + s.parts.length * GUEST_PAGE ∧
      info.ofRun hostPage s ((a - hostPage) / GUEST_PAGE) = some r := by
  obtain ⟨hstart, hlen⟩ := ofRun_range h
  obtain ⟨hle, hend, -, -⟩ := s.runStop_spec hi
  have hfirst := (s.runStart_spec i).1
  simp only [stop, hstart, hlen, GUEST_PAGE] at ha ha' ⊢
  refine ⟨by omega, by omega, ?_⟩
  rw [← h]
  exact ofRun_congr (Split.runAt_same hi (by omega) (by omega)).1

theorem ofRun_mem (hi : i < s.parts.length) (hb : hostPage ≤ b) (hbi : (b - hostPage) / GUEST_PAGE = i)
    (h : info.ofRun hostPage s i = some r) :
    hostPage ≤ r.start ∧ r.start ≤ b ∧ b < r.stop ∧ r.stop ≤ hostPage + s.parts.length * GUEST_PAGE := by
  obtain ⟨hstart, hlen⟩ := ofRun_range h
  obtain ⟨hle, hend, -, -⟩ := s.runStop_spec hi
  have hfirst := (s.runStart_spec i).1
  simp only [stop, hstart, hlen, GUEST_PAGE] at hbi ⊢
  omega

/-- the addresses between the tracked pages on either side are those of the entry that neither bounds -/
theorem ofGap_start : (info.ofGap page t hostPage).start ≤ a ↔ info.start ≤ a ∧ ∀ k, t.before hostPage = some k → k + page ≤ a := by
  cases h : t.before hostPage <;> simp [ofGap, h, and_comm]

theorem ofGap_stop (ha : (info.ofGap page t hostPage).start ≤ a) :
    a < (info.ofGap page t hostPage).stop ↔ a < info.stop ∧ ∀ k, t.after hostPage = some k → a < k := by
  have hlen : ∀ lo hi : ℕ, lo ≤ a → (a < lo + (hi - lo) ↔ a < hi) := by
    intro lo hi h
    omega
  rw [stop, show (info.ofGap page t hostPage).len = (t.after hostPage).elim info.stop (fun p => min p info.stop) -
    (info.ofGap page t hostPage).start from rfl, hlen _ _ ha]
  cases h : t.after hostPage <;> simp [and_comm]

end RegionInfo

namespace Inner

variable {m : Inner} {lenNow lenNow' : ℕ → ℕ} {p : ℕ × Entry} {a b : ℕ} {info r : RegionInfo} {t : SubPages}

/-- between the tracked pages on either side of an address there are no others -/
theorem same_neighbours (hv : m.Valid) (ht : m.sub = some t)
    (hlo : ∀ k, t.before (pageOf m.page b) = some k → k + m.page ≤ a)
    (hhi : ∀ k, t.after (pageOf m.page b) = some k → a < k) :
    ∀ p ∈ t.split, p.1 < pageOf m.page a ↔ p.1 < pageOf m.page b := by
  intro p hp
  have hs := hv.sorted t ht
  have hd := (hv.tracked t ht p hp).1
  constructor
  · intro hlt
    by_contra hge
    obtain ⟨k, hk, hkp⟩ := SubPages.after_le hs hp (not_lt.mp hge)
    have := hhi k hk
    have := pageOf_le m.page a
    omega
  · intro hlt
    obtain ⟨k, hk, hkp⟩ := SubPages.before_ge hs hp hlt
    have := hlo k hk
    by_contra hge
    have := lt_pageOf_add hv.page_pos a
    omega

/-- how a lookup sees an address of an entry: the whole of it, a run of a tracked page's parts, or what is between tracked
pages -/
theorem guestViewOf_cases (h : m.guestViewOf info b = some r) :
    (r = info ∧ ∀ a, m.guestViewOf info a = some info) ∨
    ∃ t, m.sub = some t ∧ ¬t.split.isEmpty ∧
      ((∃ s, t.get (pageOf m.page b) = some s ∧
          info.ofRun (pageOf m.page b) s ((b - pageOf m.page b) / GUEST_PAGE) = some r) ∨
        t.get (pageOf m.page b) = none ∧ r = info.ofGap m.page t (pageOf m.page b)) := by
  unfold guestViewOf at h ⊢
  split at h
  · exact .inl ⟨(Option.some.inj h).symm, fun _ => rfl⟩
  · rename_i t ht
    split at h
    · rename_i hempty
      exact .inl ⟨(Option.some.inj h).symm, fun _ => by simp [hempty]⟩
    · rename_i hempty
      refine .inr ⟨t, ht, hempty, ?_⟩
      cases hs : t.get (pageOf m.page b) with
      | some s =>
        simp only [hs] at h
        exact .inl ⟨s, rfl, h⟩
      | none =>
        simp only [hs] at h
        exact .inr ⟨rfl, (Option.some.inj h).symm⟩

theorem guestViewOf_run {s : Split} (ht : m.sub = some t) (hne : ¬t.split.isEmpty) (hs : t.get (pageOf m.page a) = some s) :
    m.guestViewOf info a = info.ofRun (pageOf m.page a) s ((a - pageOf m.page a) / GUEST_PAGE) := by
  simp [guestViewOf, ht, hne, hs]

theorem guestViewOf_gap (ht : m.sub = some t) (hne : ¬t.split.isEmpty) (hs : t.get (pageOf m.page a) = none) :
    m.guestViewOf info a = some (info.ofGap m.page t (pageOf m.page a)) := by
  simp [guestViewOf, ht, hne, hs]

/-- what a lookup sees at an address of an entry is in the entry, holds the address, and is what it sees at every other
address in it -/
theorem guestViewOf_same (hv : m.Valid) (hp : p ∈ m.map.entries) (hle : p.1 ≤ b) (hlt : b < p.1 + p.2.len)
    (hinfo : info.start = p.1) (hlen : info.len = p.2.len) (hr : m.guestViewOf info b = some r) :
    p.1 ≤ r.start ∧ r.stop ≤ p.1 + p.2.len ∧ (r.start ≤ b ∧ b < r.stop) ∧
      ∀ a, r.start ≤ a → a < r.stop → m.guestViewOf info a = some r := by
  have hb := pageOf_le m.page b
  have hb' := lt_pageOf_add hv.page_pos b
  rcases guestViewOf_cases hr with ⟨rfl, hall⟩ | ⟨t, ht, hne, ⟨s, hs, hrun⟩ | ⟨hs, rfl⟩⟩
  · refine ⟨hinfo.ge, ?_, ⟨by omega, ?_⟩, fun a _ _ => hall a⟩
    · simp [RegionInfo.stop, hinfo, hlen]
    · simpa [RegionInfo.stop, hinfo, hlen] using hlt
  · -- a run of parts: the page is in the entry, and its parts are all of it
    obtain ⟨hd, hparts, q, hq, hq₁, hq₂⟩ := hv.tracked t ht _ (SubPages.mem_of_get hs)
    have hpage : s.parts.length * GUEST_PAGE = m.page := by rw [hparts, Nat.div_mul_cancel hv.guest_dvd]
    have hqp : q = p := Option.some.inj ((EntryMap.entryAt_of_mem hv.map.tiles hq (by omega) (by omega)).symm.trans
      (EntryMap.entryAt_of_mem hv.map.tiles hp hle hlt))
    subst hqp
    have hi : (b - pageOf m.page b) / GUEST_PAGE < s.parts.length := by
      rw [Nat.div_lt_iff_lt_mul (by decide), hpage]
      omega
    obtain ⟨h₁, h₂, h₃, h₄⟩ := RegionInfo.ofRun_mem hi hb rfl hrun
    refine ⟨by omega, by omega, ⟨h₂, h₃⟩, ?_⟩
    intro a ha ha'
    obtain ⟨h₅, h₆, h₇⟩ := RegionInfo.ofRun_same hi hrun ha ha'
    have hpa : pageOf m.page a = pageOf m.page b := pageOf_eq hv.page_pos hd h₅ (by omega)
    rw [guestViewOf_run ht hne (by rw [hpa]; exact hs), hpa]
    exact h₇
  · -- a gap: no tracked page starts between the ones on either side of the address
    have hlo : ∀ k, t.before (pageOf m.page b) = some k → k + m.page ≤ pageOf m.page b := by
      intro k hk
      obtain ⟨hkb, s, hs⟩ := SubPages.mem_of_before hk
      exact add_le_of_page_lt (hv.tracked t ht _ hs).1 (dvd_pageOf _ _) hkb
    have hhi : ∀ k, t.after (pageOf m.page b) = some k → pageOf m.page b + m.page ≤ k := by
      intro k hk
      obtain ⟨hkb, s, hsk⟩ := SubPages.mem_of_after hk
      apply add_le_of_page_lt (dvd_pageOf _ _) (hv.tracked t ht _ hsk).1
      exact hkb.lt_of_ne fun h => SubPages.get_eq_none.mp hs _ hsk h.symm
    have hstop : info.stop = p.1 + p.2.len := by rw [RegionInfo.stop, hinfo, hlen]
    have hstart : (info.ofGap m.page t (pageOf m.page b)).start ≤ b :=
      RegionInfo.ofGap_start.mpr ⟨by omega, fun k hk => (hlo k hk).trans hb⟩
    have hbstop : b < (info.ofGap m.page t (pageOf m.page b)).stop :=
      (RegionInfo.ofGap_stop hstart).mpr ⟨by omega, fun k hk => hb'.trans_le (hhi k hk)⟩
    refine ⟨?_, ?_, ⟨hstart, hbstop⟩, ?_⟩
    · exact hinfo ▸ (RegionInfo.ofGap_start.mp (le_refl _)).1
    · have hlast : (info.ofGap m.page t (pageOf m.page b)).start ≤ (info.ofGap m.page t (pageOf m.page b)).stop - 1 := by omega
      have := ((RegionInfo.ofGap_stop hlast).mp (by omega)).1
      omega
    · intro a ha ha'
      have hsame := same_neighbours hv ht (RegionInfo.ofGap_start.mp ha).2 ((RegionInfo.ofGap_stop ha).mp ha').2
      have hnone : t.get (pageOf m.page a) = none := by
        apply SubPages.get_eq_none.mpr
        intro q hq heq
        have h₁ := hsame q hq
        have h₂ := SubPages.get_eq_none.mp hs q hq
        rcases Nat.lt_or_gt_of_ne h₂ with h | h
        · exact absurd (h₁.mpr h) (by omega)
        · obtain ⟨k, hk, hkq⟩ := SubPages.after_le (hv.sorted t ht) hq h.le
          have := ((RegionInfo.ofGap_stop ha).mp ha').2 k hk
          have := pageOf_le m.page a
          omega
      rw [guestViewOf_gap ht hne hnone, RegionInfo.ofGap, RegionInfo.ofGap, SubPages.before_congr hsame, SubPages.after_congr hsame]

/-- a cut that asked no file its length is none, and none is made anywhere else in the region either -/
theorem clipAtEndOfFile_same {e : Entry} (h : m.clipAtEndOfFile lenNow e info b = (r, false)) :
    r = info ∧ ∀ lenNow' a, m.clipAtEndOfFile lenNow' e info a = (info, false) := by
  unfold clipAtEndOfFile at h ⊢
  split at h
  · rename_i hk hb
    simp only [hk]
    split at h
    · rename_i hle
      exact ⟨(Prod.mk.inj h).1.symm, fun _ _ => if_pos hle⟩
    · simp only at h
      split at h
      · cases h
      · split at h <;> cases h
  · exact ⟨(Prod.mk.inj h).1.symm, fun _ _ => rfl⟩

theorem regionAtLocked_some {o : RegionInfo × Bool} : m.regionAtLocked lenNow b = some o ↔
    ∃ p info, m.map.entryAt b = some p ∧ p.2.isFree = false ∧ m.guestViewOf (.fromEntry p.1 p.2) b = some info ∧
      m.clipAtEndOfFile lenNow p.2 info b = o := by
  simp only [regionAtLocked, Option.bind_eq_bind, Option.bind_eq_some_iff, Option.ite_none_left_eq_some, Option.some.injEq,
    Bool.not_eq_true, Prod.exists]
  tauto

/-- what a lookup answers without asking a file its length is in reach of the address, and is what it answers at every address
that it covers, whatever the files' lengths are by then -/
theorem regionAtLocked_within (hv : m.Valid) (h : m.regionAtLocked lenNow b = some (r, false)) :
    (r.start ≤ b ∧ b < r.stop) ∧ ∀ a, r.start ≤ a → a < r.stop → m.regionAtLocked lenNow' a = some (r, false) := by
  obtain ⟨p, info, hp, hfree, hview, hclip⟩ := regionAtLocked_some.mp h
  obtain ⟨hmem, hle, hlt⟩ := EntryMap.mem_of_entryAt hp
  obtain ⟨rfl, -⟩ := clipAtEndOfFile_same hclip
  obtain ⟨h₁, h₂, hb, hsame⟩ := guestViewOf_same hv hmem hle hlt (RegionInfo.fromEntry_start _ _) (RegionInfo.fromEntry_len _ _) hview
  refine ⟨hb, ?_⟩
  intro a ha ha'
  have hpa : m.map.entryAt a = some p := EntryMap.entryAt_of_mem hv.map.tiles hmem (by omega) (by omega)
  exact regionAtLocked_some.mpr ⟨p, r, hpa, hfree, hsame a ha ha', (clipAtEndOfFile_same hclip).2 _ _⟩

end Inner

end Omnidroid.Mem
