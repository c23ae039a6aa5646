/-
How far a scan of bytes may go from an address (`omni-mem/src/access.rs`).
- `admitRange`: `admit`, what a thread remembers of the address, or the walk over its regions.
- `scanReach`: the first byte admitted, then the committed regions of the same mapping that follow.
- `Bounded`: what a scan is promised of the bytes up to where it may go.
- `regionAt_covers`: what a lookup finds is what it finds at every address of it; `scanOn_readable`: so the regions that follow
  the first may be read.
- `scanOn_turns`: the turns that the loop is given are enough.
-/
import Omnidroid.Mem.Access
import Omnidroid.Mem.Guest

namespace Omnidroid.Mem

/-! ## The scan -/

section Scan

variable (lenNow : ℕ → ℕ)

/-- `region_at`, while every file is as long as `lenNow` says -/
def State.regionAt (s : State) (address : ℕ) : Option RegionInfo := (s.toInner.regionAtLocked lenNow address).map Prod.fst

/-- a commit for `admit`: whatever stops it is one refusal -/
def commitFor (address len : ℕ) : EStateM Refusal State ℕ := fun s =>
  match ensureCommitted address len s with
  | .ok n s' => .ok n s'
  | .error _ s' => .error .commit s'

def admitRange (remembered : Option Remembered) (address len : ℕ) (access : Access) : EStateM Refusal State Admitted := fun s =>
  match remembered.bind (admittedFrom · address len access) with
  | some admitted => .ok admitted s
  | none => admitWalk commitFor (s.regionAt lenNow) address len access s

/-- from `stop` on over the regions that follow, as long as a scan may read them; none is empty, so there are no more of them
than bytes -/
def scanOn (regionAt : ℕ → Option RegionInfo) (mapping : Option ℕ) (access : Access) (ceiling : ℕ) : ℕ → ℕ → ℕ
  | 0, stop => stop
  | turns + 1, stop =>
    if ceiling ≤ stop then stop
    else
      match regionAt stop with
      | none => stop
      | some next =>
        if next.start ≠ stop ∨ next.mapping ≠ mapping ∨ next.isCommitted = false then stop
        else
          match admitsRegion next stop 1 access with
          | .error _ => stop
          | .ok () => scanOn regionAt mapping access ceiling turns next.stop

/-- the caller's cap; where it overflows, the largest address -/
def capOf (address limit : ℕ) : ℕ := if address + limit < addressLimit then address + limit else usizeMax

def scanReach (remembered : Option Remembered) (address : ℕ) (access : Access) (limit : ℕ) : EStateM Refusal State ℕ := do
  let first ← admitRange lenNow remembered address 1 access
  let s ← get
  match s.regionAt lenNow address with
  -- gone in between: the one byte is all that was vouched for
  | none => return first.stop
  | some region =>
    let ceiling := capOf address limit
    return min (scanOn (s.regionAt lenNow) region.mapping access ceiling (ceiling - first.stop) first.stop) ceiling

/-! ## What it promises -/

/-- a byte of the mapping that permits the access and, where it is anonymous, is committed -/
def Readable (s : State) (mapping : Option ℕ) (access : Access) (a : ℕ) : Prop :=
  ∃ r, s.regionAt lenNow a = some r ∧ r.mapping = mapping ∧ permits r.protection access = true ∧
    (r.kind = .anonymous → r.isCommitted = true)

/-- where the scan is let go to an address, that is within the limit, and every byte before it is one of the mapping that the
scan starts in, permits the access and, where it is anonymous, is committed -/
def Bounded (remembered : Option Remembered) (address : ℕ) (access : Access) (limit : ℕ) (s : State) : Prop :=
  ∀ stop s', scanReach lenNow remembered address access limit s = .ok stop s' →
    stop ≤ address + limit ∧
      ∃ r, s'.regionAt lenNow address = some r ∧ ∀ a, address ≤ a → a < stop → Readable lenNow s' r.mapping access a

end Scan

/-! ## One region, wherever it is asked for -/

section Covers

variable {m : Inner} {s : State} {lenNow : ℕ → ℕ} {e : Entry} {info r : RegionInfo} {o : RegionInfo × Bool} {a b : ℕ}

/-- a region that is cut where its file ends now holds the address it was asked for, and is the one that any address of it is
cut to -/
theorem clipAtEndOfFile_covers (hb : info.start ≤ b ∧ b < info.stop) (h : m.clipAtEndOfFile lenNow e info b = o) :
    info.start ≤ o.1.start ∧ o.1.stop ≤ info.stop ∧ (o.1.start ≤ b ∧ b < o.1.stop) ∧
      ∀ a, o.1.start ≤ a → a < o.1.stop → m.clipAtEndOfFile lenNow e info a = o := by
  subst h
  obtain ⟨hle, hlt⟩ := hb
  unfold Inner.clipAtEndOfFile
  split
  · split
    · exact ⟨le_refl _, le_refl _, ⟨hle, hlt⟩, fun _ _ _ => rfl⟩
    · simp only
      generalize info.start + (roundUp m.page _ - _) = cut
      split
      · exact ⟨le_refl _, le_refl _, ⟨hle, hlt⟩, fun _ _ _ => rfl⟩
      · split
        · rename_i hcut hbcut
          simp only [RegionInfo.stop] at *
          refine ⟨le_refl _, by omega, ⟨hle, by omega⟩, fun a _ ha => ?_⟩
          rw [if_pos (by omega)]
        · rename_i hcut hbcut
          simp only [RegionInfo.stop] at *
          refine ⟨le_max_right _ _, by omega, ⟨by omega, by omega⟩, fun a ha _ => ?_⟩
          rw [if_neg (by omega)]
  · exact ⟨le_refl _, le_refl _, ⟨hle, hlt⟩, fun _ _ _ => rfl⟩

/-- what a lookup finds lies in one entry, holds the address it was asked for, and is what it finds at every other address
of it -/
theorem regionAt_covers (hv : s.toInner.Valid) (h : s.regionAt lenNow b = some r) :
    (r.start ≤ b ∧ b < r.stop) ∧ (∀ a, r.start ≤ a → a < r.stop → s.regionAt lenNow a = some r) ∧
      ∃ p ∈ s.map.entries, p.1 ≤ r.start ∧ r.stop ≤ p.1 + p.2.len := by
  obtain ⟨o, ho, rfl⟩ := Option.map_eq_some_iff.mp h
  obtain ⟨p, info, hp, hfree, hview, hclip⟩ := Inner.regionAtLocked_some.mp ho
  obtain ⟨hmem, hle, hlt⟩ := EntryMap.mem_of_entryAt hp
  obtain ⟨h₁, h₂, hb, hsame⟩ :=
    Inner.guestViewOf_same hv hmem hle hlt (RegionInfo.fromEntry_start _ _) (RegionInfo.fromEntry_len _ _) hview
  obtain ⟨h₃, h₄, ho', hall⟩ := clipAtEndOfFile_covers hb hclip
  refine ⟨ho', ?_, p, hmem, by omega, by omega⟩
  intro a ha ha'
  have hpa : s.map.entryAt a = some p := EntryMap.entryAt_of_mem hv.map.tiles hmem (by omega) (by omega)
  have := Inner.regionAtLocked_some.mpr ⟨p, info, hpa, hfree, hsame a (by omega) (by omega), hall a ha ha'⟩
  rw [State.regionAt, this, Option.map_some]

end Covers

section Loop

variable {s : State} {lenNow : ℕ → ℕ} {r : RegionInfo} {mapping : Option ℕ} {access : Access} {address ceiling stop a : ℕ}

theorem admitsRegion_ok {len : ℕ} (h : admitsRegion r address len access = .ok ()) :
    permits r.protection access = true ∧ address + len ≤ r.stop := by
  unfold admitsRegion at h
  split at h
  · cases h
  · split at h
    · cases h
    · split at h
      · cases h
      · split at h
        · exact ⟨‹_›, by omega⟩
        · cases h

/-- a turn goes on over bytes that may be read, or stops -/
theorem scanOn_readable (hv : s.toInner.Valid) (turns : ℕ)
    (h : ∀ a, address ≤ a → a < stop → a < ceiling → Readable lenNow s mapping access a) :
    ∀ a, address ≤ a → a < scanOn (s.regionAt lenNow) mapping access ceiling turns stop → a < ceiling →
      Readable lenNow s mapping access a := by
  induction turns generalizing stop with
  | zero => exact h
  | succ turns ih =>
    unfold scanOn
    split
    · exact h
    · split
      · exact h
      · rename_i next hnext
        split
        · exact h
        · rename_i hgood
          split
          · exact h
          · rename_i hadmits
            push Not at hgood
            obtain ⟨hstart, hmapping, hcommitted⟩ := hgood
            apply ih
            intro a ha halt hac
            rcases lt_or_ge a stop with hlt | hge
            · exact h a ha hlt hac
            · obtain ⟨-, hall, -⟩ := regionAt_covers hv hnext
              exact ⟨next, hall a (by omega) halt, hmapping, (admitsRegion_ok hadmits).1, fun _ => by simpa using hcommitted⟩

/-- it never comes back -/
theorem le_scanOn (hv : s.toInner.Valid) (turns : ℕ) : stop ≤ scanOn (s.regionAt lenNow) mapping access ceiling turns stop := by
  induction turns generalizing stop with
  | zero => exact le_refl _
  | succ turns ih =>
    unfold scanOn
    split
    · exact le_refl _
    · split
      · exact le_refl _
      · rename_i next hnext
        split
        · exact le_refl _
        · split
          · exact le_refl _
          · have := (regionAt_covers hv hnext).1
            exact (by omega : stop ≤ next.stop).trans ih

/-- as many turns as there are bytes are enough: more change nothing -/
theorem scanOn_turns (hv : s.toInner.Valid) {turns more : ℕ} (h : ceiling - stop ≤ turns) (hle : turns ≤ more) :
    scanOn (s.regionAt lenNow) mapping access ceiling more stop = scanOn (s.regionAt lenNow) mapping access ceiling turns stop := by
  induction turns generalizing stop more with
  | zero =>
    cases more with
    | zero => rfl
    | succ more => rw [scanOn, scanOn, if_pos (by omega)]
  | succ turns ih =>
    obtain ⟨more, rfl⟩ : ∃ n, more = n + 1 := ⟨more - 1, by omega⟩
    rw [scanOn, scanOn]
    split
    · rfl
    · split
      · rfl
      · rename_i next hnext
        split
        · rfl
        · split
          · rfl
          · have := (regionAt_covers hv hnext).1
            exact ih (by omega) (by omega)

theorem capOf_le (address limit : ℕ) : capOf address limit ≤ address + limit := by
  unfold capOf
  split
  · exact le_refl _
  · simp only [addressLimit, usizeMax] at *
    omega

end Loop

end Omnidroid.Mem
