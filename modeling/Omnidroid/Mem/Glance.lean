/-
What a lookup says of one address, but for where the region that it finds starts and ends.
- `glanceOf`, `overlay`: what the map says of the address, and what a part of a tracked page makes of it.
- `guestViewOf_glance`: a lookup's view of an entry says that; `anonymous_at`: and the lookup itself, where it says that the
  address is anonymous, as no file's end cuts it there.
-/
import Omnidroid.Mem.Scan

namespace Omnidroid.Mem

open Omnidroid.Mm (Protection)

/-! ## What a lookup says of one address -/

/-- what it says but for where the region starts and ends -/
structure Glance where
  protection : Protection
  anonymous : Bool
  committed : Bool
  mapping : Option ℕ
deriving DecidableEq, Repr

def RegionInfo.glance (r : RegionInfo) : Glance := ⟨r.protection, r.kind == .anonymous, r.isCommitted, r.mapping⟩

def OsState.isPriv : OsState → Bool
  | .priv _ => true
  | .placeholder | .view _ | .host => false

/-- what the map says -/
def glanceOf (os : OsState) : Option Owner → Glance
  | none => ⟨.none, false, false, none⟩
  | some o => ⟨o.protection, o.backing.isNone, os.isPriv, some o.id⟩

/-- the part of a tracked page at an address -/
def Inner.partAt (m : Inner) (a : ℕ) : Option (Option Part × Bool) :=
  (m.sub.bind fun t => t.get (pageOf m.page a)).map fun s => s.key ((a - pageOf m.page a) / GUEST_PAGE)

/-- what the map says, where a part of a tracked page says otherwise -/
def overlay : Option (Option Part × Bool) → Glance → Option Glance
  | none, g => some g
  | some (some (.mapped protection), true), g => some { g with protection, anonymous := true, committed := false }
  | some (some (.mapped protection), false), g => some { g with protection }
  | some _, _ => none

section Glance

variable {m : Inner} {s : State} {lenNow : ℕ → ℕ} {info r : RegionInfo} {e : Entry} {p : ℕ × Entry} {start a : ℕ} {g : Glance}

theorem fromEntry_glance (hpos : 0 < e.len) : (RegionInfo.fromEntry start e).glance = glanceOf e.os e.owner := by
  obtain ⟨len, os, owner, ever⟩ := e
  have hne : (0 == len) = false := beq_false_of_ne (by simp only at hpos; omega)
  cases owner with
  | none =>
    have : ∀ c : Prop, [Decidable c] → ((if c then RegionKind.host else .free) == .anonymous) = false := by
      intro c _
      split <;> rfl
    simp [RegionInfo.fromEntry, RegionInfo.glance, RegionInfo.isCommitted, glanceOf, hne, this]
  | some o =>
    cases hb : o.backing <;> cases os <;>
      simp [RegionInfo.fromEntry, RegionInfo.glance, RegionInfo.isCommitted, glanceOf, OsState.isPriv, Entry.committedBytes, hb, hne]

theorem rebased_anonymous (r : RegionInfo) (start : ℕ) : (r.rebased start == .anonymous) = (r.kind == .anonymous) := by
  unfold RegionInfo.rebased
  split <;> simp_all

/-- of an entry, either everything is committed or nothing is -/
theorem fromEntry_committed (hpos : 0 < e.len) :
    0 < (RegionInfo.fromEntry start e).committed ↔ (RegionInfo.fromEntry start e).isCommitted = true := by
  obtain ⟨len, os, owner, ever⟩ := e
  simp only at hpos
  cases owner with
  | none => simp [RegionInfo.fromEntry, RegionInfo.isCommitted]; omega
  | some o => cases os <;> simp [RegionInfo.fromEntry, RegionInfo.isCommitted, Entry.committedBytes] <;> omega

theorem ofRun_glance {s : Split} {hostPage i : ℕ} (hc : 0 < info.committed ↔ info.isCommitted = true) :
    (info.ofRun hostPage s i).map RegionInfo.glance = overlay (some (s.key i)) info.glance := by
  have hfirst : s.isForeign (s.runStart i) = s.isForeign i :=
    congrArg Prod.snd ((s.runStart_spec i).2.1 _ (le_refl _) (s.runStart_spec i).1)
  simp only [RegionInfo.ofRun, Split.runAt, Split.key]
  cases hpart : s.parts[i]? with
  | none => cases s.isForeign i <;> rfl
  | some part =>
    have hi : i < s.parts.length := (List.getElem?_eq_some_iff.mp hpart).1
    have hcount : 0 ≠ (s.runStop i - s.runStart i) * GUEST_PAGE := by
      have h₁ := (s.runStart_spec i).1
      have h₂ := (s.runStop_spec hi).1
      exact (Nat.mul_pos (by omega) (by decide)).ne
    cases part with
    | hole => cases s.isForeign i <;> rfl
    | strictHole => cases s.isForeign i <;> rfl
    | mapped protection =>
      cases hf : s.isForeign i with
      | true =>
        simp only [hfirst, hf, if_true, Option.map_some, RegionInfo.glance, RegionInfo.isCommitted, overlay,
          beq_false_of_ne hcount]
        rfl
      | false =>
        simp only [hfirst, hf, Bool.false_eq_true, if_false, Option.map_some, overlay, RegionInfo.glance, rebased_anonymous]
        congr 2
        rcases Nat.eq_zero_or_pos info.committed with h | h
        · have hno : info.isCommitted = false := by simpa [h] using hc
          rw [hno, h]
          exact beq_false_of_ne hcount
        · rw [hc.mp h, if_pos h]
          exact beq_self_eq_true _

theorem ofGap_glance {page hostPage : ℕ} {t : SubPages} (hpos : 0 < (info.ofGap page t hostPage).len) :
    (info.ofGap page t hostPage).glance = info.glance := by
  have hcommitted : (info.ofGap page t hostPage).isCommitted = info.isCommitted := by
    show ((if info.isCommitted then (info.ofGap page t hostPage).len else 0) == (info.ofGap page t hostPage).len) = _
    cases info.isCommitted with
    | true => exact beq_self_eq_true _
    | false => exact beq_false_of_ne hpos.ne
  have hkind : ((info.ofGap page t hostPage).kind == .anonymous) = (info.kind == .anonymous) := rebased_anonymous _ _
  rw [RegionInfo.glance, RegionInfo.glance, hcommitted, hkind]
  rfl

/-- what a lookup sees of an entry, whatever the system has there -/
theorem guestViewOf_glance (hv : m.Valid) (hp : p ∈ m.map.entries) (hle : p.1 ≤ a) (hlt : a < p.1 + p.2.len)
    (hlen : e.len = p.2.len) :
    (m.guestViewOf (.fromEntry p.1 e) a).map RegionInfo.glance = overlay (m.partAt a) (glanceOf e.os e.owner) := by
  have hpos : 0 < e.len := by omega
  have hsame := fun r => Inner.guestViewOf_same (r := r) hv hp hle hlt (RegionInfo.fromEntry_start _ e)
    ((RegionInfo.fromEntry_len _ e).trans hlen)
  have hglance : (RegionInfo.fromEntry p.1 e).glance = _ := fromEntry_glance hpos
  rw [← hglance]
  have hc : 0 < (RegionInfo.fromEntry p.1 e).committed ↔ _ := fromEntry_committed hpos
  generalize RegionInfo.fromEntry p.1 e = info at hsame hc ⊢
  unfold Inner.partAt
  cases hsub : m.sub with
  | none => simp [Inner.guestViewOf, hsub, overlay]
  | some t =>
    rw [Option.bind_some]
    cases hget : t.get (pageOf m.page a) with
    | some s =>
      have hne : ¬t.split.isEmpty := List.isEmpty_eq_false_iff.mpr (List.ne_nil_of_mem (SubPages.mem_of_get hget)) ▸ Bool.false_ne_true
      rw [Inner.guestViewOf_run hsub hne hget]
      exact ofRun_glance hc
    | none =>
      rcases em (t.split.isEmpty = true) with hempty | hne
      · simp [Inner.guestViewOf, hsub, hempty, overlay]
      · have hgap : m.guestViewOf info a = _ := Inner.guestViewOf_gap hsub hne hget
        obtain ⟨-, -, ⟨h₁, h₂⟩, -⟩ := hsame _ hgap
        rw [hgap, Option.map_some, Option.map_none, ofGap_glance (by simp only [RegionInfo.stop] at h₁ h₂; omega)]
        rfl

/-- a region is anonymous after it is cut at its file's end where it was before, and then it is not cut -/
theorem clipAtEndOfFile_anonymous : (m.clipAtEndOfFile lenNow e info a).1.kind = .anonymous ↔ info.kind = .anonymous ∧
    m.clipAtEndOfFile lenNow e info a = (info, false) := by
  unfold Inner.clipAtEndOfFile
  split
  · rename_i hk _
    simp only [hk, reduceCtorEq, false_and, iff_false]
    split
    · simp [hk]
    · split
      · simp [hk]
      · split <;> simp
  · simp

/-- what a lookup says of an address, where it says that it is anonymous -/
theorem anonymous_at (hv : s.toInner.Valid) (hat : s.map.entryAt a = some p) (hfree : p.2.isFree = false) :
    (∃ r, s.regionAt lenNow a = some r ∧ r.kind = .anonymous ∧ r.glance = g) ↔
      overlay (s.partAt a) (glanceOf p.2.os p.2.owner) = some g ∧ g.anonymous = true := by
  obtain ⟨hp, hle, hlt⟩ := EntryMap.mem_of_entryAt hat
  rw [← guestViewOf_glance hv hp hle hlt rfl]
  constructor
  · rintro ⟨r, hr, hk, rfl⟩
    obtain ⟨o, ho, rfl⟩ := Option.map_eq_some_iff.mp hr
    obtain ⟨q, info, hq, -, hview, rfl⟩ := Inner.regionAtLocked_some.mp ho
    obtain rfl := Option.some.inj (hat.symm.trans hq)
    obtain ⟨hi, hclip⟩ := clipAtEndOfFile_anonymous.mp hk
    rw [hview, hclip]
    exact ⟨rfl, by simp [RegionInfo.glance, hi]⟩
  · rintro ⟨hg, ha⟩
    obtain ⟨info, hview, rfl⟩ := Option.map_eq_some_iff.mp hg
    have hi : info.kind = .anonymous := by simpa [RegionInfo.glance] using ha
    have hclip : s.clipAtEndOfFile lenNow p.2 info a = (info, false) := by
      unfold Inner.clipAtEndOfFile
      rw [hi]
    refine ⟨info, ?_, hi, rfl⟩
    rw [State.regionAt, Inner.regionAtLocked_some.mpr ⟨p, info, hat, hfree, hview, hclip⟩]
    rfl

end Glance

end Omnidroid.Mem
