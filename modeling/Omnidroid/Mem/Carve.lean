/-
How the region map changes: an operation puts entries in the place of others that had the same range, and leaves the rest.
- `EntryMap.Swap`: that, with what follows from it for the map's invariants (`Swap.valid`) and what each address is in
  (`Swap.entryAt_outside`).
- `swap_split`, `swap_update`: the operations are such changes.
- `kindAt`: what an address is in, but for where that starts and ends; a cut keeps it (`kindAt_split`).
-/
import Omnidroid.Mem.Entry

namespace Omnidroid.Mem

namespace EntryMap

variable {m m' : EntryMap} {p q : ℕ × Entry} {lo hi start address len x : ℕ} {e e' : Entry} {old new : List (ℕ × Entry)}

theorem entryAt_iff (h : m.Valid) : m.entryAt x = some p ↔ p ∈ m.entries ∧ p.1 ≤ x ∧ x < p.1 + p.2.len :=
  ⟨mem_of_entryAt, fun hp => entryAt_of_mem h.tiles hp.1 hp.2.1 hp.2.2⟩

/-- in `m'` the entries `new` are in the place of `old`, which were all that the range had -/
structure Swap (m m' : EntryMap) (lo hi : ℕ) (old new : List (ℕ × Entry)) : Prop where
  entries : ∃ before after, m.entries = before ++ old ++ after ∧ m'.entries = before ++ new ++ after
  base : m'.base = m.base
  len : m'.len = m.len
  hosts : m'.hosts = m.hosts
  old : TiledFrom lo old hi
  new : TiledFrom lo new hi

/-- what an entry may be -/
structure Fine (p : ℕ × Entry) : Prop where
  inside : ∀ o ∈ p.2.owner, Inside p o ∧ 0 < o.granule
  notHost : p.2.isHost = false
  free : p.2.isFree → p.2.os = .placeholder

theorem tiles_middle {before mid after : List (ℕ × Entry)} {a b : ℕ} (h : TiledFrom a (before ++ mid ++ after) b)
    (hm : TiledFrom lo mid hi) (hne : mid ≠ []) : TiledFrom a before lo ∧ TiledFrom hi after b := by
  obtain ⟨c, h, hafter⟩ := h.of_append
  obtain ⟨d, hbefore, hmid⟩ := h.of_append
  obtain ⟨rfl, rfl⟩ := hm.unique hmid hne
  exact ⟨hbefore, hafter⟩

namespace Swap

variable (s : Swap m m' lo hi old new)

include s

theorem stop : m'.stop = m.stop := by rw [EntryMap.stop, EntryMap.stop, s.base, s.len]

theorem valid (h : m.Valid) (hlt : lo < hi) (hold : ∀ p ∈ old, p.2.isHost = false) (hnew : ∀ p ∈ new, Fine p) : m'.Valid := by
  obtain ⟨before, after, he, he'⟩ := s.entries
  have hne : old ≠ [] := by
    rintro rfl
    exact hlt.ne s.old
  obtain ⟨hb, ha⟩ := tiles_middle (he ▸ h.tiles) s.old hne
  have hmem : ∀ p ∈ m'.entries, p ∈ m.entries ∨ p ∈ new := by
    intro p hp
    rw [he', List.mem_append, List.mem_append] at hp
    rw [he, List.mem_append, List.mem_append]
    tauto
  constructor
  · rw [s.base, s.stop, he']
    exact (hb.append s.new).append ha
  · intro p hp
    rcases hmem p hp with hp | hp
    · exact h.inside p hp
    · exact (hnew p hp).inside
  · have hosts := h.hosts
    rw [he] at hosts
    rw [s.hosts, he', ← hosts]
    have h₁ : old.filter (fun p => p.2.isHost) = [] := List.filter_eq_nil_iff.mpr fun p hp => by simp [hold p hp]
    have h₂ : new.filter (fun p => p.2.isHost) = [] := List.filter_eq_nil_iff.mpr fun p hp => by simp [(hnew p hp).notHost]
    simp only [List.filter_append, h₁, h₂]
  · intro p hp hh
    rcases hmem p hp with hp | hp
    · exact h.unclaimed p hp hh
    · exact absurd hh (by simp [(hnew p hp).notHost])
  · intro p hp hf
    rcases hmem p hp with hp | hp
    · exact h.free p hp hf
    · exact (hnew p hp).free hf

/-- outside the range every address is in the entry it was in -/
theorem entryAt_outside (h : m.Valid) (h' : m'.Valid) (hx : x < lo ∨ hi ≤ x) : m'.entryAt x = m.entryAt x := by
  obtain ⟨before, after, he, he'⟩ := s.entries
  apply Option.ext
  intro p
  rw [entryAt_iff h, entryAt_iff h', he, he']
  simp only [List.mem_append]
  have hout : ∀ mid : List (ℕ × Entry), TiledFrom lo mid hi → p ∈ mid → ¬(p.1 ≤ x ∧ x < p.1 + p.2.len) := by
    intro mid hm hp
    have := hm.bounds hp
    omega
  have h₁ := hout old s.old
  have h₂ := hout new s.new
  tauto

theorem mem_new (hp : p ∈ new) : p ∈ m'.entries := by
  obtain ⟨before, after, -, he⟩ := s.entries
  simp [he, hp]

theorem mem_iff (hp : p ∈ m'.entries) : p ∈ new ∨ p ∈ m.entries := by
  obtain ⟨before, after, he, he'⟩ := s.entries
  rw [he'] at hp
  rw [he]
  simp only [List.mem_append] at hp ⊢
  tauto

theorem cover_new (hx : Within lo (hi - lo) x) : ∃ p ∈ new, Within p.1 p.2.len x :=
  (s.new.cover x).mpr ⟨hx.1, by have := hx.2; have := s.new.le; omega⟩

end Swap

/-! ## The operations are such changes -/

theorem entries_at (h : m.Valid) (hp : (start, e) ∈ m.entries) :
    ∃ before after, m.entries = before ++ [(start, e)] ++ after ∧ (∀ q ∈ before, q.1 ≠ start) ∧ (∀ q ∈ after, q.1 ≠ start) ∧
      0 < e.len := by
  have hpw := h.tiles.pairwise
  have hb := h.tiles.bounds hp
  obtain ⟨before, after, he⟩ := List.append_of_mem hp
  have hpos : ∀ q ∈ m.entries, 0 < q.2.len := fun q hq => (h.tiles.bounds hq).2.2
  rw [he, List.pairwise_append] at hpw
  refine ⟨before, after, by simpa using he, ?_, ?_, hb.2.2⟩
  · intro q hq
    have := hpw.2.2 q hq (start, e) List.mem_cons_self
    have := hpos q (by simp [he, hq])
    simp only at *
    omega
  · intro q hq
    have := (List.pairwise_cons.mp hpw.2.1).1 q hq
    have := hb.2.2
    simp only at *
    omega

theorem get_eq_some (h : m.Valid) : m.get start = some e ↔ (start, e) ∈ m.entries := by
  unfold get
  constructor
  · intro hg
    obtain ⟨q, hq, rfl⟩ := Option.map_eq_some_iff.mp hg
    have : q.1 = start := by simpa using List.find?_some hq
    rw [← this]
    exact List.mem_of_find?_eq_some hq
  · intro hp
    obtain ⟨before, after, he, hb, -, -⟩ := entries_at h hp
    have : before.find? (fun p => p.1 = start) = none := List.find?_eq_none.mpr fun q hq => by simpa using hb q hq
    simp [he, List.find?_append, this]

theorem swap_split (h : m.Valid) (hp : (start, e) ∈ m.entries) {cut : ℕ} (h₁ : start < cut) (h₂ : cut < start + e.len) :
    Swap m (m.splitBookkeeping start cut) start (start + e.len) [(start, e)]
      [(start, { e with len := cut - start }), (cut, { e with len := start + e.len - cut })] := by
  obtain ⟨before, after, he, hb, ha, hpos⟩ := entries_at h hp
  have hkeep : ∀ l : List (ℕ × Entry), (∀ q ∈ l, q.1 ≠ start) →
      l.flatMap (fun p => if p.1 = start then
        [(start, { p.2 with len := cut - start }), (cut, { p.2 with len := start + p.2.len - cut })] else [p]) = l := by
    intro l hl
    rw [List.flatMap_congr fun q hq => if_neg (hl q hq)]
    simp
  refine ⟨⟨before, after, he, ?_⟩, rfl, rfl, rfl, ⟨rfl, hpos, rfl⟩, ?_⟩
  · simp only [splitBookkeeping, he, List.flatMap_append, hkeep before hb, hkeep after ha]
    simp
  · refine ⟨rfl, by simp only; omega, ?_, ?_, ?_⟩
    · simp only
      omega
    · simp only
      omega
    · show _ = _
      simp only
      omega

theorem swap_update (h : m.Valid) (hp : (start, e) ∈ m.entries) {f : Entry → Entry} (hlen : (f e).len = e.len) :
    Swap m (m.update start f) start (start + e.len) [(start, e)] [(start, f e)] := by
  obtain ⟨before, after, he, hb, ha, hpos⟩ := entries_at h hp
  have hkeep : ∀ l : List (ℕ × Entry), (∀ q ∈ l, q.1 ≠ start) → l.map (fun p => if p.1 = start then (p.1, f p.2) else p) = l := by
    intro l hl
    rw [List.map_congr_left fun q hq => if_neg (hl q hq), List.map_id']
  refine ⟨⟨before, after, he, ?_⟩, rfl, rfl, rfl, ⟨rfl, hpos, rfl⟩, ⟨rfl, by simpa [hlen] using hpos, by simp [Tiles, hlen]⟩⟩
  simp only [update, he, List.map_append, hkeep before hb, hkeep after ha]
  simp

/-! ## Entries by their place -/

theorem apart (h : m.Valid) (hp : p ∈ m.entries) (hq : q ∈ m.entries) :
    p = q ∨ p.1 + p.2.len ≤ q.1 ∨ q.1 + q.2.len ≤ p.1 := by
  by_contra hcon
  obtain ⟨hne, hpq, hqp⟩ : p ≠ q ∧ ¬p.1 + p.2.len ≤ q.1 ∧ ¬q.1 + q.2.len ≤ p.1 := by tauto
  have hp' := (h.tiles.bounds hp).2.2
  have hq' := (h.tiles.bounds hq).2.2
  have h₁ : m.entryAt (max p.1 q.1) = some p := entryAt_of_mem h.tiles hp (by omega) (by omega)
  have h₂ : m.entryAt (max p.1 q.1) = some q := entryAt_of_mem h.tiles hq (by omega) (by omega)
  exact hne (Option.some.inj (h₁.symm.trans h₂))

theorem exists_entry (h : m.Valid) (hlo : m.base ≤ x) (hhi : x < m.stop) : ∃ p ∈ m.entries, p.1 ≤ x ∧ x < p.1 + p.2.len :=
  (h.tiles.cover x).mpr ⟨hlo, hhi⟩

/-! ## The entries of a range -/

theorem mem_startsOverlapping (h : m.Valid) (hlo : m.base ≤ address) (hhi : address < m.stop) :
    start ∈ m.startsOverlapping address len ↔
      ∃ e, (start, e) ∈ m.entries ∧ start < address + len ∧ address < start + e.len := by
  obtain ⟨f, hf, hle, hlt⟩ := exists_entry h hlo hhi
  have hat : m.entryAt address = some f := entryAt_of_mem h.tiles hf hle hlt
  have hfirst : ∀ p ∈ m.entries, f.1 ≤ p.1 ↔ address < p.1 + p.2.len := by
    intro p hp
    have := (h.tiles.bounds hp).2.2
    rcases apart h hf hp with rfl | h' | h' <;> omega
  simp only [startsOverlapping, hat, Option.map_some, Option.getD_some, List.mem_map, List.mem_filter, Bool.and_eq_true,
    decide_eq_true_eq]
  constructor
  · rintro ⟨p, ⟨hp, h₁, h₂⟩, rfl⟩
    exact ⟨p.2, hp, h₂, (hfirst p hp).mp h₁⟩
  · rintro ⟨e, he, h₁, h₂⟩
    exact ⟨(start, e), ⟨he, (hfirst _ he).mpr h₂, h₁⟩, rfl⟩

theorem startsOverlapping_sorted (h : m.Valid) (address len : ℕ) : (m.startsOverlapping address len).Pairwise (· < ·) := by
  unfold startsOverlapping
  rw [List.pairwise_map]
  apply List.Pairwise.filter
  refine h.tiles.pairwise.imp_of_mem ?_
  intro p q hp _ hle
  have := (h.tiles.bounds hp).2.2
  omega

theorem Valid.fine (h : m.Valid) (hp : p ∈ m.entries) (hh : p.2.isHost = false) : Fine p := ⟨h.inside p hp, hh, h.free p hp⟩

/-- part of an entry is as fine -/
theorem Fine.part {a n : ℕ} (h : Fine (start, e)) (hle : start ≤ a) (hend : a + n ≤ start + e.len) : Fine (a, { e with len := n }) := by
  refine ⟨?_, h.notHost, h.free⟩
  intro o ho
  obtain ⟨⟨h₁, h₂⟩, h₃⟩ := h.inside o ho
  exact ⟨⟨h₁.trans hle, hend.trans h₂⟩, h₃⟩

/-! ## Kinds -/

/-- what an address is in, but for where that starts and ends -/
def kindAt (m : EntryMap) (x : ℕ) : Option (OsState × Option Owner × Bool) :=
  (m.entryAt x).map fun p => (p.2.os, p.2.owner, p.2.everWritable)

theorem kindAt_of_mem (h : m.Valid) (hp : p ∈ m.entries) (hx : Within p.1 p.2.len x) :
    m.kindAt x = some (p.2.os, p.2.owner, p.2.everWritable) := by
  rw [kindAt, entryAt_of_mem h.tiles hp hx.1 hx.2]
  rfl

theorem kindAt_split {mid : ℕ} (h : m.Valid) (h' : (m.splitBookkeeping start mid).Valid) (hp : (start, e) ∈ m.entries)
    (h₁ : start < mid) (h₂ : mid < start + e.len) (x : ℕ) : (m.splitBookkeeping start mid).kindAt x = m.kindAt x := by
  have sw := swap_split h hp h₁ h₂
  rcases em (Within start (start + e.len - start) x) with hx | hx
  · obtain ⟨q, hq, hqx⟩ := sw.cover_new hx
    have hxe : Within start e.len x := by
      simp only [Within] at hx ⊢
      omega
    rw [kindAt_of_mem h' (sw.mem_new hq) hqx, kindAt_of_mem h hp hxe]
    rcases List.mem_pair.mp hq with rfl | rfl <;> rfl
  · rw [kindAt, kindAt, sw.entryAt_outside h h' (by simp only [Within] at hx; omega)]

end EntryMap
end Omnidroid.Mem
