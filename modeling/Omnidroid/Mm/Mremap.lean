/-
`mremap` (`omni-linux/src/mm.rs`): shrinking in place, and moving by copy.
- `Moved`, `Kept`: what a call is to leave, when it succeeds and when it fails.
- `Meant`: the condition on the arguments and the memory before under which it does.
- `mremap_meant`: it does, under that condition and no other.
- `mremap_leaves`: a call with an old length of zero fails, with the new range mapped.
-/
import Omnidroid.Mm.Map

namespace Omnidroid.Mm

def MREMAP_MAYMOVE : ℕ := 1
def MREMAP_FIXED : ℕ := 2
def MREMAP_DONTUNMAP : ℕ := 4

/-- the pieces that a run of held memory is copied in -/
def PIECE : ℕ := 16 <<< 20

structure MremapArgs where
  old : ℕ
  oldLen : ℕ
  newLen : ℕ
  flags : ℕ
  target : ℕ

namespace MremapArgs

def mayMove (a : MremapArgs) : Bool := a.flags &&& MREMAP_MAYMOVE != 0
def fixed (a : MremapArgs) : Bool := a.flags &&& MREMAP_FIXED != 0
def dontunmap (a : MremapArgs) : Bool := a.flags &&& MREMAP_DONTUNMAP != 0
/-- some flag is none of the three -/
def unknown (a : MremapArgs) : Bool := a.flags >>> 3 != 0

end MremapArgs

/-- what is left to do once the arguments are checked -/
inductive Plan where
  | inPlace (old oldLen newLen : ℕ)
  | move (old oldLen newLen : ℕ) (target : Option ℕ) (dontunmap : Bool)

def plan (S : Space) (a : MremapArgs) : Except Errno Plan :=
  let old := untag a.old
  let target := untag a.target
  match S.span old a.oldLen with
  | none => .error EINVAL
  | some oldLen =>
    match S.span (if a.fixed then target else 0) a.newLen with
    | none => .error ENOMEM
    | some newLen =>
      if a.dontunmap ∧ (!a.mayMove ∨ newLen ≠ oldLen) then .error EINVAL
      else if old % S.page ≠ 0 ∨ newLen = 0 ∨ a.unknown then .error EINVAL
      else if a.fixed ∧ (!a.mayMove ∨ target % S.page ≠ 0 ∨ (target < old + oldLen ∧ old < target + newLen)) then
        .error EINVAL
      else if !a.fixed ∧ !a.dontunmap ∧ newLen ≤ oldLen then .ok (.inPlace old oldLen newLen)
      else if !a.fixed ∧ !a.mayMove then .error ENOMEM
      else .ok (.move old oldLen newLen (if a.fixed then some target else none) a.dontunmap)

/-- a range with one of these is made readable for the copy -/
def Protection.opens (prot : Protection) : Bool := prot = .none || prot = .readExecute

/-- a run, from where to where, in pieces, each where it starts and how long it is -/
def pieces (run : ℕ × ℕ) : List (ℕ × ℕ) :=
  (List.range ((run.2 - run.1 + (PIECE - 1)) / PIECE)).map fun k =>
    (run.1 + k * PIECE, min (run.2 - (run.1 + k * PIECE)) PIECE)

section Mremap

variable {S : Space}

def copyPieces (H : Host) (old at_ : ℕ) : List (ℕ × ℕ) → EStateM Errno (Mem S) Unit
  | [] => pure ()
  | (start, n) :: rest => do
    let bytes ← read start n
    write H (at_ + (start - old)) n bytes
    copyPieces H old at_ rest

/-- `mmap`'s request for the new range: private and anonymous, and `MAP_FIXED` where its address is given -/
def newRange (target : Option ℕ) (newLen : ℕ) : MapRequest where
  addr := target.getD 0
  len := newLen
  prot := PROT_READ ||| PROT_WRITE
  flags := if target.isSome then 0x32 else 0x22
  offset := 0

/-- the copy failed: the new range goes with the call, and the old one gets its protection back -/
def undoMove (old newLen at_ keep : ℕ) (prot : Protection) (e : Errno) : EStateM Errno (Mem S) ℕ := do
  let _ : Except Errno Unit ← attempt (unmap at_ newLen)
  let _ : Except Errno Unit ← attempt (onlyIf prot.opens (protect old keep (protBits prot)))
  throw e

/-- the copy is made: what is left of the old range -/
def endMove (H : Host) (old oldLen newLen at_ keep : ℕ) (prot : Protection) (dontunmap : Bool) :
    EStateM Errno (Mem S) ℕ := do
  onlyIf (prot ≠ .readWrite) (protect at_ newLen (protBits prot))
  if dontunmap then
    -- the old range stays mapped, its pages gone: it reads zeros, with its protection back
    discard H old oldLen
    onlyIf prot.opens (protect old keep (protBits prot))
  else
    unmap old oldLen
  pure at_

def move (H : Host) (old oldLen newLen : ℕ) (target : Option ℕ) (dontunmap : Bool) : EStateM Errno (Mem S) ℕ := do
  match (← get).regionAt old with
  | none => throw EFAULT
  | some prot =>
    let keep := min oldLen newLen
    onlyIf prot.opens (mapErr (fun _ => EFAULT) (protect old keep PROT_READ))
    let at_ ← mapMemory (newRange target newLen)
    let held := (← get).heldRanges old keep
    match ← attempt (copyPieces H old at_ (held.flatMap pieces)) with
    | .error e => undoMove old newLen at_ keep prot e
    | .ok () => endMove H old oldLen newLen at_ keep prot dontunmap

def mremap (H : Host) (a : MremapArgs) : EStateM Errno (Mem S) ℕ :=
  match plan S a with
  | .error e => throw e
  | .ok (.inPlace old oldLen newLen) => do
    onlyIf (newLen < oldLen) (unmap (old + newLen) (oldLen - newLen))
    pure old
  | .ok (.move old oldLen newLen target dontunmap) => move H old oldLen newLen target dontunmap

end Mremap

/-! ## What a call is to leave -/

section Meaning

variable {S : Space}

/-- a call that failed: every address is as it was -/
def Kept (m m' : Mem S) : Prop := ∀ x, m'.seen x = m.seen x

/-- a call that answered `at_`, for an old range and a new length in whole pages -/
structure Moved (old oldLen newLen : ℕ) (dontunmap : Bool) (m m' : Mem S) (at_ : ℕ) : Prop where
  /-- the new range starts with what the old one held, under the same protection -/
  kept : ∀ i < min oldLen newLen, (m.seen (old + i)).isSome ∧ m'.seen (at_ + i) = m.seen (old + i)
  /-- and goes on with zeros -/
  rest : ∀ i, oldLen ≤ i → i < newLen → ∃ c, m.seen old = some c ∧ m'.seen (at_ + i) = some (c.1, 0)
  /-- what was given up of the old range is unmapped, or reads zero under its protection -/
  given : ∀ x, Within old oldLen x → ¬Within at_ newLen x →
    m'.seen x = if dontunmap then (m.seen x).map fun c => (c.1, 0) else none
  /-- nothing else has changed -/
  frame : ∀ x, ¬Within old oldLen x → ¬Within at_ newLen x → m'.seen x = m.seen x

/-- what is said of an answer -/
def Right (old oldLen newLen : ℕ) (dontunmap : Bool) (m : Mem S) : EStateM.Result Errno (Mem S) ℕ → Prop
  | .error _ m' => Kept m m'
  | .ok at_ m' => Moved old oldLen newLen dontunmap m m' at_

/-- what is said of a call -/
def MremapRight (H : Host) (a : MremapArgs) (m : Mem S) : Prop :=
  Right (untag a.old) (roundUp S.page a.oldLen) (roundUp S.page a.newLen) a.dontunmap m (mremap H a m)

end Meaning

/-! ## When it does -/

section Condition

variable {S : Space}

/-- all that is mapped in the range has this protection -/
def Mem.uniform (m : Mem S) (a n : ℕ) (prot : Protection) : Prop := ∀ x, Within a n x → ∀ c ∈ m.seen x, c.1 = prot

/-- nothing is mapped in the range before the first page that the host holds, and nothing at all where it holds none -/
def Mem.spared (m : Mem S) (a n : ℕ) : Prop :=
  ∀ q, Within a n (q * S.page) → (m.page q).isSome = true → ∃ h < q, Within a n (h * S.page) ∧ S.host h = true

/-- a discard leaves the whole range reading zero -/
def Mem.gives (m : Mem S) (tracked : ℕ → Bool) (a n : ℕ) : Prop :=
  ∀ x, Within a n x → m.dropped tracked x = true ∨ m.byteAt x = 0

/-- the old range as it is copied: readable, where its protection is one that is opened -/
def Mem.opened (m : Mem S) (old keep : ℕ) (prot : Protection) : Mem S :=
  if prot.opens then m.reprotected old keep .read else m

/-- where the new range can be -/
def Mem.target (m : Mem S) (newLen : ℕ) : Option ℕ → Option ℕ
  | none => m.roomFor newLen
  | some t => if S.contains t newLen && !S.reachesHost t newLen then some t else none

/-- every piece of what the range holds can be read, and written to the new range -/
def Mem.copies (m : Mem S) (H : Host) (old keep at_ : ℕ) : Prop :=
  ∀ c ∈ (m.heldRanges old keep).flatMap pieces, m.allows false c.1 c.2 = true ∧ H.commits (at_ + (c.1 - old)) c.2 = true

/-- the new range held, before the call, what the call puts there -/
def Mem.already (m : Mem S) (old keep newLen at_ : ℕ) (prot : Protection) : Prop :=
  ∀ i < newLen, m.seen (at_ + i) = some (prot, if i < keep then m.byteAt (old + i) else 0)

/-- of a move whose copy was made -/
def MeantEnd (H : Host) (old oldLen newLen at_ : ℕ) (dontunmap : Bool) (prot : Protection) (m : Mem S) : Prop :=
  let keep := min oldLen newLen
  if dontunmap then
    if S.contains old oldLen && !S.reachesHost old oldLen then
      m.whole old keep = true ∧ m.uniform old keep prot ∧ m.gives H.tracked old oldLen
    else m.already old keep newLen at_ prot
  else if oldLen = 0 then m.already old keep newLen at_ prot
  else S.reachesHost old oldLen = false ∧ m.whole old keep = true ∧ m.uniform old keep prot

open Classical in
def MeantMove (H : Host) (old oldLen newLen : ℕ) (target : Option ℕ) (dontunmap : Bool) (m : Mem S) : Prop :=
  match m.regionAt old with
  | none => True
  | some prot =>
    let keep := min oldLen newLen
    if prot.opens && !m.whole old keep then True
    else match m.target newLen target with
      | none => (prot.opens = true → m.uniform old keep .read) ∧ ∀ t ∈ target, m.spared t newLen
      | some at_ =>
        if (m.opened old keep prot).copies H old keep at_ then
          MeantEnd H old oldLen newLen at_ dontunmap prot m
        else (prot.opens = true → m.uniform old keep prot) ∧ ∀ t ∈ target, ∀ x, Within t newLen x → m.seen x = none

/-- the call means what is said of it, by its arguments and by the memory before it -/
def Meant (H : Host) (a : MremapArgs) (m : Mem S) : Prop :=
  match plan S a with
  | .error _ => True
  | .ok (.inPlace old oldLen newLen) =>
    if S.reachesHost (old + newLen) (oldLen - newLen) then m.spared (old + newLen) (oldLen - newLen)
    else m.whole old newLen = true
  | .ok (.move old oldLen newLen target dontunmap) => MeantMove H old oldLen newLen target dontunmap m

end Condition

/-! ## The new range -/

section Steps

variable {S : Space} {H : Host} {m : Mem S} {old oldLen newLen : ℕ} {target : Option ℕ} {dontunmap : Bool}

/-- what the checks leave of a move's arguments -/
structure Checked (S : Space) (old oldLen newLen : ℕ) (target : Option ℕ) (dontunmap : Bool) : Prop where
  old_dvd : S.page ∣ old
  oldLen_dvd : S.page ∣ oldLen
  newLen_dvd : S.page ∣ newLen
  newLen_pos : 0 < newLen
  old_lt : old < 2 ^ 56
  old_le : old + oldLen ≤ 2 ^ 56
  newLen_le : newLen ≤ 2 ^ 56
  target_dvd : ∀ t ∈ target, S.page ∣ t
  target_lt : ∀ t ∈ target, t < 2 ^ 56
  target_le : ∀ t ∈ target, t + newLen ≤ 2 ^ 56
  apart : ∀ t ∈ target, ¬(t < old + oldLen ∧ old < t + newLen)
  grows : target = none → oldLen ≤ newLen
  same : dontunmap = true → newLen = oldLen

theorem prepare_newRange_none (hpos : 0 < newLen) (hd : S.page ∣ newLen) (hle : newLen ≤ 2 ^ 56) (m : Mem S) :
    prepare (newRange none newLen) m = .ok (newLen, S.chosen newLen) m := by
  have hf : (newRange none newLen).fixed = false := by
    simp [MapRequest.fixed, newRange, MAP_FIXED, MAP_FIXED_NOREPLACE]
  have hr : (newRange none newLen).replaces = false := by simp [MapRequest.replaces, newRange, MAP_FIXED]
  have hs : S.span 0 newLen = some newLen := span_whole hd (by omega)
  simp only [prepare, placement, hf, hr]
  simp [newRange, hpos.ne', untag, hs, pure, EStateM.pure]

theorem prepare_newRange_some {t : ℕ} (hpos : 0 < newLen) (hd : S.page ∣ newLen) (ht : S.page ∣ t) (hlt : t < 2 ^ 56)
    (hle : t + newLen ≤ 2 ^ 56) (m : Mem S) :
    prepare (newRange (some t) newLen) m =
      match unmapLocked t newLen m with
      | .ok _ m => .ok (newLen, .fixed t) m
      | .error e m => .error e m := by
  have hf : (newRange (some t) newLen).fixed = true := by
    simp [MapRequest.fixed, newRange, MAP_FIXED, MAP_FIXED_NOREPLACE]
  have hr : (newRange (some t) newLen).replaces = true := by simp [MapRequest.replaces, newRange, MAP_FIXED]
  have hs : S.span t newLen = some newLen := span_whole hd hle
  have haddr : (newRange (some t) newLen).addr = t := rfl
  have hlen : (newRange (some t) newLen).len = newLen := rfl
  have hoff : (newRange (some t) newLen).offset = 0 := rfl
  simp only [prepare, placement, hf, hr, haddr, hlen, hoff, untag_of_lt hlt, hs, hpos.ne', Nat.mod_eq_zero_of_dvd ht,
    Nat.zero_mod, ne_eq, not_true_eq_false, or_self, and_false, if_false, if_true]
  simp only [bind, EStateM.bind, pure, EStateM.pure]
  cases unmapLocked t newLen m <;> rfl

theorem seen_isSome (m : Mem S) (x : ℕ) : (m.seen x).isSome = (m.page (x / S.page)).isSome := by
  simp [Mem.seen]

theorem kept_cleared_iff {a n : ℕ} (ha : S.page ∣ a) (hn : S.page ∣ n) :
    Kept m (m.cleared a n) ↔ ∀ x, Within a n x → m.seen x = none := by
  constructor
  · intro h x hx
    have := h x
    rwa [seen_cleared ha hn, if_pos hx, eq_comm] at this
  · intro h x
    rw [seen_cleared ha hn]
    split
    case isTrue hx => exact (h x hx).symm
    case isFalse => rfl

/-- what a failed unmapping takes is what comes before the host's first page -/
theorem kept_cleared_host {a n q : ℕ} (ha : S.page ∣ a) (hq : Within a n (q * S.page))
    (hh : S.host q = true) (hb : ∀ i < q, Within a n (i * S.page) → S.host i = false) :
    Kept m (m.cleared a (q * S.page - a)) ↔ m.spared a n := by
  have hd : S.page ∣ q * S.page - a := Nat.dvd_sub (Dvd.intro_left q rfl) ha
  rw [kept_cleared_iff ha hd]
  have prefix_iff : ∀ i, Within a (q * S.page - a) (i * S.page) ↔ Within a n (i * S.page) ∧ i < q := fun i => by
    have := Nat.mul_lt_mul_right (a := S.page) S.page_pos (b := i) (c := q)
    simp only [Within] at hq ⊢
    omega
  constructor
  · intro h i hi hsome
    refine ⟨q, ?_, hq, hh⟩
    rcases Nat.lt_trichotomy i q with hlt | rfl | hgt
    · have := h (i * S.page) ((prefix_iff i).mpr ⟨hi, hlt⟩)
      rw [← Option.not_isSome_iff_eq_none, seen_isSome, Nat.mul_div_cancel _ S.page_pos] at this
      exact absurd hsome this
    · obtain ⟨p, hp⟩ := Option.isSome_iff_exists.mp hsome
      have := (owned_iff.mp (m.inside i p hp)).2
      rw [hh] at this
      exact Bool.noConfusion this
    · exact hgt
  · intro h x hx
    obtain ⟨hw, hlt⟩ := (prefix_iff _).mp ((within_page S.page_pos ha hd x).mpr hx)
    rw [← Option.not_isSome_iff_eq_none, seen_isSome]
    intro hsome
    obtain ⟨i, hi, hiw, hhost⟩ := h _ hw hsome
    rw [hb i (hi.trans hlt) hiw] at hhost
    exact Bool.noConfusion hhost

theorem kept_cleared_free {a n : ℕ} (ha : S.page ∣ a) (hn : S.page ∣ n) (hh : S.reachesHost a n = false) :
    Kept m (m.cleared a n) ↔ m.spared a n := by
  rw [kept_cleared_iff ha hn]
  constructor
  · intro h q hq hsome
    have := h (q * S.page) hq
    rw [← Option.not_isSome_iff_eq_none, seen_isSome, Nat.mul_div_cancel _ S.page_pos] at this
    exact absurd hsome this
  · intro h x hx
    rw [← Option.not_isSome_iff_eq_none, seen_isSome]
    intro hsome
    obtain ⟨i, -, hi, hhost⟩ := h _ ((within_page S.page_pos ha hn x).mpr hx) hsome
    rw [Bool.eq_false_iff, Ne, reachesHost_iff ha hn] at hh
    exact hh ⟨i, hi, hhost⟩

/-- the new range mapped over what there was -/
structure NewRange (m m₂ : Mem S) (at_ n : ℕ) : Prop where
  dvd : S.page ∣ at_
  dvdLen : S.page ∣ n
  contains : S.contains at_ n = true
  page : ∀ q, m₂.page q = if Within at_ n (q * S.page) then some (Page.fresh .readWrite) else m.page q

theorem newRange_mapped {at_ n c : ℕ} (ha : S.page ∣ at_) (hn : S.page ∣ n) (hf : m.free at_ n = true) :
    NewRange m (Mem.mapped { m with cursor := c } at_ n fun _ => .fresh .readWrite) at_ n where
  dvd := ha
  dvdLen := hn
  contains := ((free_iff ha hn).mp hf).1
  page q := by
    simp only [Mem.mapped]
    by_cases hq : Within at_ n (q * S.page)
    · simp [hq, (((free_iff ha hn).mp hf).2 q hq).1]
    · simp [hq]

theorem mapMemory_newRange (h : Checked S old oldLen newLen target dontunmap) (m : Mem S) :
    (∃ at_ m₂, m.target newLen target = some at_ ∧ mapMemory (newRange target newLen) m = .ok at_ m₂ ∧
      NewRange m m₂ at_ newLen ∧ (target = none → m.free at_ newLen = true) ∧ ∀ t ∈ target, at_ = t) ∨
    ∃ e m₂, m.target newLen target = none ∧ mapMemory (newRange target newLen) m = .error e m₂ ∧
      (∀ x, (∀ t ∈ target, ¬Within t newLen x) → m₂.seen x = m.seen x) ∧
      (Kept m m₂ ↔ ∀ t ∈ target, m.spared t newLen) := by
  have hprot : protection (newRange target newLen).prot = .readWrite := by
    simp [newRange, protection, PROT_READ, PROT_WRITE, PROT_EXEC]
  cases target with
  | none =>
    have hprep := prepare_newRange_none h.newLen_pos h.newLen_dvd h.newLen_le m
    rcases mapAnonymous_chosen (m := m) h.newLen_pos h.newLen_dvd .readWrite with ⟨c, b, hr, he⟩ | ⟨e, hr, he⟩
    · left
      obtain ⟨hf, hd⟩ := roomFor_some h.newLen_dvd hr
      refine ⟨b, Mem.mapped { m with cursor := c } b newLen fun _ => .fresh .readWrite, hr, ?_,
        newRange_mapped hd h.newLen_dvd hf, fun _ => hf, by simp⟩
      simp only [mapMemory, bind, EStateM.bind, hprep, mapErr, hprot, he]
    · right
      refine ⟨(newRange none newLen).refused ENOMEM, m, hr, ?_, fun _ _ => rfl, by simp [Kept]⟩
      simp only [mapMemory, bind, EStateM.bind, hprep, mapErr, hprot, he]
  | some t =>
    have ht := h.target_dvd t rfl
    have hn := h.newLen_dvd
    have hprep := prepare_newRange_some h.newLen_pos hn ht (h.target_lt t rfl) (h.target_le t rfl) m
    have outside : ∀ k, S.page ∣ k → k ≤ newLen → ∀ x, (∀ t' ∈ some t, ¬Within t' newLen x) →
        (m.cleared t k).seen x = m.seen x := fun k hk hle x hx => by
      have := hx t rfl
      rw [seen_cleared ht hk, if_neg fun hw => this ⟨hw.1, by have := hw.2; omega⟩]
    have one : ∀ P : Prop, (P ↔ m.spared t newLen) → (P ↔ ∀ t' ∈ some t, m.spared t' newLen) := by
      intro P hP
      simpa using hP
    cases hh : S.reachesHost t newLen with
    | true =>
      right
      obtain ⟨q, hq, hhost, hb, he⟩ := unmapLocked_host (m := m) ht hn hh
      refine ⟨EINVAL, _, by simp [Mem.target, hh], ?_, outside (q * S.page - t) ?_ ?_,
        one _ (kept_cleared_host ht hq hhost hb)⟩
      · simp only [mapMemory, bind, EStateM.bind, hprep, he]
      · exact Nat.dvd_sub (Dvd.intro_left q rfl) ht
      · have := hq.2
        omega
    | false =>
      have he := unmapLocked_ok (m := m) ht hn hh
      have hfix := mapAnonymous_fixed (m := m.cleared t newLen) h.newLen_pos ht hn .readWrite
      by_cases hc : S.contains t newLen = true
      · left
        have hf := free_cleared (m := m) ht hn hc hh
        refine ⟨t, (m.cleared t newLen).mapped t newLen fun _ => .fresh .readWrite, by simp [Mem.target, hh, hc], ?_,
          ⟨ht, hn, hc, fun q => ?_⟩, by simp, by simp⟩
        · simp only [mapMemory, bind, EStateM.bind, hprep, he, mapErr, hprot, hfix, hc, hf, if_true]
        · simp only [Mem.mapped]
          by_cases hq : Within t newLen (q * S.page)
          · simp [hq, (((free_iff ht hn).mp hf).2 q hq).1]
          · simp only [hq, false_and, if_false, Mem.cleared, Mem.alter]
            cases m.page q <;> rfl
      · right
        refine ⟨(newRange (some t) newLen).refused ENOMEM, _, by simp [Mem.target, hc], ?_,
          outside newLen hn (le_refl _), one _ (kept_cleared_free ht hn hh)⟩
        simp only [mapMemory, bind, EStateM.bind, hprep, he, mapErr, hprot, hfix, hc]
        rfl

/-! ## The copy -/

theorem PIECE_pos : 0 < PIECE := by decide

theorem pieces_inside {run : ℕ × ℕ} : ∀ c ∈ pieces run, 0 < c.2 ∧ run.1 ≤ c.1 ∧ c.1 + c.2 ≤ run.2 := by
  intro c hc
  simp only [pieces, List.mem_map, List.mem_range] at hc
  obtain ⟨k, hk, rfl⟩ := hc
  have hp := PIECE_pos
  have hk : (k + 1) * PIECE ≤ run.2 - run.1 + (PIECE - 1) := (Nat.le_div_iff_mul_le hp).mp hk
  rw [Nat.succ_mul] at hk
  simp only
  omega

theorem pieces_cover {run : ℕ × ℕ} (x : ℕ) : (∃ c ∈ pieces run, Within c.1 c.2 x) ↔ run.1 ≤ x ∧ x < run.2 := by
  constructor
  · rintro ⟨c, hc, hx⟩
    have := pieces_inside c hc
    simp only [Within] at hx
    omega
  · rintro ⟨h₁, h₂⟩
    have hp := PIECE_pos
    have hd := Nat.div_add_mod (x - run.1) PIECE
    have hm := Nat.mod_lt (x - run.1) hp
    rw [Nat.mul_comm] at hd
    refine ⟨(run.1 + (x - run.1) / PIECE * PIECE, min (run.2 - (run.1 + (x - run.1) / PIECE * PIECE)) PIECE), ?_, ?_⟩
    · simp only [pieces, List.mem_map, List.mem_range]
      refine ⟨(x - run.1) / PIECE, ?_, rfl⟩
      rw [← Nat.succ_le_iff, Nat.le_div_iff_mul_le hp, Nat.succ_mul]
      omega
    · simp only [Within]
      omega

/-- the pieces of what a range holds cover the addresses on its held pages -/
theorem heldPieces_cover {a n : ℕ} (ha : S.page ∣ a) (hn : S.page ∣ n) (x : ℕ) :
    (∃ c ∈ (m.heldRanges a n).flatMap pieces, Within c.1 c.2 x) ↔
      Within a n x ∧ (m.page (x / S.page)).any Page.held = true := by
  rw [← heldRanges_cover ha hn]
  constructor
  · rintro ⟨c, hc, hx⟩
    obtain ⟨r, hr, hc⟩ := List.mem_flatMap.mp hc
    exact ⟨r, hr, (pieces_cover x).mp ⟨c, hc, hx⟩⟩
  · rintro ⟨r, hr, hx⟩
    obtain ⟨c, hc, hx⟩ := (pieces_cover x).mpr hx
    exact ⟨c, List.mem_flatMap.mpr ⟨r, hr, hc⟩, hx⟩

/-- while the copy runs: only the new range has changed, and it is writable -/
structure Copying (m st : Mem S) (at_ n : ℕ) : Prop where
  dvd : S.page ∣ at_
  dvdLen : S.page ∣ n
  contains : S.contains at_ n = true
  outside : ∀ q, ¬Within at_ n (q * S.page) → st.page q = m.page q
  inside : ∀ q, Within at_ n (q * S.page) →
    ∃ p, st.page q = some p ∧ p.protection = .readWrite ∧ p.kind = .anonymous ∧ p.pastEnd = false

theorem NewRange.copying {m₂ : Mem S} {at_ n : ℕ} (h : NewRange m m₂ at_ n) : Copying m m₂ at_ n where
  dvd := h.dvd
  dvdLen := h.dvdLen
  contains := h.contains
  outside q hq := by rw [h.page, if_neg hq]
  inside q hq := ⟨Page.fresh .readWrite, by rw [h.page, if_pos hq], rfl, rfl, rfl⟩

section Copy

variable {m₀ st : Mem S} {at_ n : ℕ}

theorem Copying.page_eq (h : Copying m₀ st at_ n) {x : ℕ} (hx : ¬Within at_ n x) :
    st.page (x / S.page) = m₀.page (x / S.page) := by
  refine h.outside _ ?_
  rwa [within_page S.page_pos h.dvd h.dvdLen]

theorem Copying.seen_eq (h : Copying m₀ st at_ n) {x : ℕ} (hx : ¬Within at_ n x) : st.seen x = m₀.seen x := by
  simp only [Mem.seen, h.page_eq hx]

theorem Copying.allows_write (h : Copying m₀ st at_ n) {a k : ℕ} (hpos : 0 < k) (ha : at_ ≤ a) (hk : a + k ≤ at_ + n) :
    st.allows true a k = true := by
  have hc := h.contains
  simp only [Mem.allows, Bool.or_eq_true, Bool.and_eq_true, List.all_eq_true]
  refine .inr ⟨?_, fun q hq => ?_⟩
  · simp only [Space.contains, decide_eq_true_eq] at hc ⊢
    omega
  · obtain ⟨x, hx, rfl⟩ := touched_address hpos hq
    have hw : Within at_ n x := ⟨ha.trans hx.1, by have := hx.2; omega⟩
    obtain ⟨p, hp, hprot, -, hpast⟩ := h.inside _ ((within_page S.page_pos h.dvd h.dvdLen x).mpr hw)
    simp [hp, Page.regionProtection, hpast, hprot, Protection.isWritable]

theorem Copying.written (h : Copying m₀ st at_ n) {a k : ℕ} (hpos : 0 < k) (ha : at_ ≤ a) (hk : a + k ≤ at_ + n)
    (bytes : ℕ → UInt8) : Copying m₀ (st.written a k bytes) at_ n where
  dvd := h.dvd
  dvdLen := h.dvdLen
  contains := h.contains
  outside q hq := by
    have hno : ¬(q * S.page < a + k ∧ a < q * S.page + S.page) := fun ht => by
      obtain ⟨x, hx, rfl⟩ := touched_address (S := S) hpos ((mem_touched hpos).mpr ht)
      rw [within_page S.page_pos h.dvd h.dvdLen] at hq
      exact hq ⟨ha.trans hx.1, by have := hx.2; omega⟩
    rw [← h.outside q hq]
    simp only [Mem.written, Mem.alter, hno, if_false]
    cases st.page q <;> rfl
  inside q hq := by
    obtain ⟨p, hp, hprot, hkind, hpast⟩ := h.inside q hq
    simp only [Mem.written, Mem.alter, hp, Option.bind_some, Option.some.injEq, exists_eq_left']
    split <;> exact ⟨hprot, hkind, hpast⟩

/-- the pieces are copied one after the other, each if it can be read and its place written -/
theorem copyPieces_spec {old : ℕ} (l : List (ℕ × ℕ))
    (hl : ∀ c ∈ l, 0 < c.2 ∧ old ≤ c.1 ∧ c.1 + c.2 ≤ old + n ∧ ∀ x, Within c.1 c.2 x → ¬Within at_ n x)
    (hst : Copying m₀ st at_ n) :
    ((∀ c ∈ l, m₀.allows false c.1 c.2 = true ∧ H.commits (at_ + (c.1 - old)) c.2 = true) ∧
      ∃ st', copyPieces H old at_ l st = .ok () st' ∧ Copying m₀ st' at_ n ∧
        (∀ i, (∃ c ∈ l, Within c.1 c.2 (old + i)) →
          st'.seen (at_ + i) = (st.seen (at_ + i)).map fun b => (b.1, m₀.byteAt (old + i))) ∧
        ∀ i, (¬∃ c ∈ l, Within c.1 c.2 (old + i)) → st'.seen (at_ + i) = st.seen (at_ + i)) ∨
    (¬(∀ c ∈ l, m₀.allows false c.1 c.2 = true ∧ H.commits (at_ + (c.1 - old)) c.2 = true) ∧
      ∃ e st', copyPieces H old at_ l st = .error e st' ∧ Copying m₀ st' at_ n) := by
  induction l generalizing st with
  | nil => exact .inl ⟨by simp, st, rfl, hst, by simp, by simp⟩
  | cons c l ih =>
    obtain ⟨s, k⟩ := c
    obtain ⟨hpos, hs, hk, hsrc⟩ := hl (s, k) List.mem_cons_self
    simp only at hpos hs hk hsrc
    have hlo : at_ ≤ at_ + (s - old) := by omega
    have hhi : at_ + (s - old) + k ≤ at_ + n := by omega
    have hread : st.allows false s k = m₀.allows false s k := allows_congr hpos (fun x hx => hst.page_eq (hsrc x hx)) false
    have hbyte : ∀ i, Within s k (s + i) → st.byteAt (s + i) = m₀.byteAt (s + i) := fun i hi => by
      simp only [Mem.byteAt, hst.seen_eq (hsrc _ hi)]
    have hwrite := hst.allows_write hpos hlo hhi
    have hrun : copyPieces H old at_ ((s, k) :: l) st =
        if m₀.allows false s k then
          if H.commits (at_ + (s - old)) k then
            copyPieces H old at_ l (st.written (at_ + (s - old)) k fun i => st.byteAt (s + i))
          else .error EFAULT st
        else .error EFAULT st := by
      simp only [copyPieces, bind, EStateM.bind, read, hread]
      by_cases h₁ : m₀.allows false s k = true
      · by_cases h₂ : H.commits (at_ + (s - old)) k = true
        · simp [write, h₁, h₂, hwrite]
        · simp [write, h₁, h₂, hwrite, hpos.ne']
      · simp [h₁]
    by_cases h₁ : m₀.allows false s k = true
    · by_cases h₂ : H.commits (at_ + (s - old)) k = true
      · rw [hrun, if_pos h₁, if_pos h₂]
        have hst₁ := hst.written hpos hlo hhi fun i => st.byteAt (s + i)
        have hthis : ∀ i, (st.written (at_ + (s - old)) k fun i => st.byteAt (s + i)).seen (at_ + i) =
            if Within s k (old + i) then (st.seen (at_ + i)).map fun b => (b.1, m₀.byteAt (old + i))
            else st.seen (at_ + i) := fun i => by
          rw [seen_written]
          have hw : Within (at_ + (s - old)) k (at_ + i) ↔ Within s k (old + i) := by
            simp only [Within]
            omega
          by_cases hi : Within s k (old + i)
          · have he : s + (at_ + i - (at_ + (s - old))) = old + i := by
              have := hi.1
              omega
            rw [if_pos (hw.mpr hi), if_pos hi, he]
            have := hbyte (old + i - s) (by rw [Nat.add_sub_cancel' hi.1]; exact hi)
            rw [Nat.add_sub_cancel' hi.1] at this
            rw [this]
          · rw [if_neg (mt hw.mp hi), if_neg hi]
        rcases ih (fun c hc => hl c (List.mem_cons_of_mem _ hc)) hst₁ with ⟨hgo, st', he, hc, hin, hout⟩ | ⟨hgo, e, st', he, hc⟩
        · refine .inl ⟨by simpa [h₁, h₂] using hgo, st', he, hc, fun i hi => ?_, fun i hi => ?_⟩
          · by_cases hrest : ∃ c ∈ l, Within c.1 c.2 (old + i)
            · rw [hin i hrest, hthis]
              split
              · cases st.seen (at_ + i) <;> rfl
              · rfl
            · rw [hout i hrest, hthis, if_pos]
              simpa [hrest] using hi
          · simp only [List.mem_cons, exists_eq_or_imp, not_or] at hi
            rw [hout i hi.2, hthis, if_neg hi.1]
        · exact .inr ⟨by simpa [h₁, h₂] using hgo, e, st', he, hc⟩
      · rw [hrun, if_pos h₁, if_neg h₂]
        exact .inr ⟨fun h => h₂ (h (s, k) List.mem_cons_self).2, EFAULT, st, rfl, hst⟩
    · rw [hrun, if_neg h₁]
      exact .inr ⟨fun h => h₁ (h (s, k) List.mem_cons_self).1, EFAULT, st, rfl, hst⟩

end Copy

/-! ## The old range, opened -/

section Opened

variable {a n : ℕ} {prot : Protection}

theorem seen_opened (prot : Protection) (ha : S.page ∣ a) (hn : S.page ∣ n) (x : ℕ) :
    (m.opened a n prot).seen x =
      if prot.opens = true ∧ Within a n x then (m.seen x).map fun c => (.read, c.2) else m.seen x := by
  unfold Mem.opened
  by_cases ho : prot.opens = true
  · rw [if_pos ho, seen_reprotected ha hn]
    by_cases hx : Within a n x <;> simp [ho, hx]
  · simp [ho]

/-- opening a range changes protections and nothing else -/
theorem page_opened (m : Mem S) (a n : ℕ) (prot : Protection) (q : ℕ) : ∃ f : Page → Page, (m.opened a n prot).page q = (m.page q).map f ∧
    ∀ p, (f p).kind = p.kind ∧ (f p).held = p.held ∧ (f p).byte = p.byte := by
  unfold Mem.opened
  split
  · refine ⟨fun p => if Within a n (q * S.page) then { p with protection := .read } else p, ?_, fun p => ?_⟩
    · simp only [Mem.reprotected, Mem.alter]
      cases m.page q <;> rfl
    · split <;> exact ⟨rfl, rfl, rfl⟩
  · exact ⟨id, by simp, fun p => ⟨rfl, rfl, rfl⟩⟩

theorem isSome_opened (q : ℕ) : ((m.opened a n prot).page q).isSome = (m.page q).isSome := by
  obtain ⟨f, hf, -⟩ := page_opened m a n prot q
  simp [hf]

theorem byteAt_opened (x : ℕ) : (m.opened a n prot).byteAt x = m.byteAt x := by
  obtain ⟨f, hf, hp⟩ := page_opened m a n prot (x / S.page)
  simp only [Mem.byteAt, Mem.seen, hf]
  cases m.page (x / S.page) with
  | none => rfl
  | some p => simp [(hp p).2.2]

theorem dropped_opened (m : Mem S) (a n : ℕ) (prot : Protection) (tracked : ℕ → Bool) (x : ℕ) : (m.opened a n prot).dropped tracked x = m.dropped tracked x := by
  obtain ⟨f, hf, hp⟩ := page_opened m a n prot (x / S.page)
  simp only [Mem.dropped, hf]
  cases m.page (x / S.page) with
  | none => rfl
  | some p => simp [Page.drops, (hp p).1]

theorem opened_zero : m.opened a 0 prot = m := by
  unfold Mem.opened
  split
  · exact reprotected_zero _
  · rfl

/-- what is not held reads zero -/
theorem byteAt_of_not_held {x : ℕ} (h : ¬(m.page (x / S.page)).any Page.held = true) : m.byteAt x = 0 := by
  simp only [Mem.byteAt, Mem.seen]
  cases hp : m.page (x / S.page) with
  | none => rfl
  | some p =>
    simp only [hp, Option.any_some, Bool.not_eq_true] at h
    simp [p.zero h]

theorem Checked.keep_dvd (h : Checked S old oldLen newLen target dontunmap) : S.page ∣ min oldLen newLen := by
  rcases min_choice oldLen newLen with he | he
  · rw [he]
    exact h.oldLen_dvd
  · rw [he]
    exact h.newLen_dvd

end Opened

/-! ## The copy made -/

section Made

variable {prot : Protection} {at_ : ℕ} {st : Mem S}

/-- the new range after the copy: what the old one held, then zeros -/
def Mem.copied (m : Mem S) (old keep i : ℕ) : UInt8 := if i < keep then m.byteAt (old + i) else 0

/-- the new range is where nothing of the old one is, if that is all mapped -/
def Apart (m : Mem S) (old oldLen newLen at_ : ℕ) : Prop :=
  ∀ x, Within old oldLen x → ((m.seen x).isSome = true ∨ m.whole old (min oldLen newLen) = true) → ¬Within at_ newLen x

theorem apart_newRange (h : Checked S old oldLen newLen target dontunmap) (hat : S.page ∣ at_)
    (hfree : target = none → m.free at_ newLen = true) (hfix : ∀ t ∈ target, at_ = t) :
    Apart m old oldLen newLen at_ := by
  intro x hx hm hw
  cases target with
  | some t =>
    obtain rfl := hfix t rfl
    have := h.apart at_ rfl
    simp only [Within] at hx hw
    omega
  | none =>
    have hnone := seen_of_free (hfree rfl) hat h.newLen_dvd hw
    rcases hm with hm | hm
    · rw [hnone] at hm
      exact Bool.noConfusion hm
    · rw [min_eq_left (h.grows rfl)] at hm
      have := (whole_iff_seen h.old_dvd h.oldLen_dvd).mp hm x hx
      rw [hnone] at this
      exact Bool.noConfusion this

/-- the runs that are copied are those held before the new range was mapped -/
theorem heldRanges_newRange {m₁ m₂ : Mem S} (h : Checked S old oldLen newLen target dontunmap)
    (hn : NewRange m₁ m₂ at_ newLen) (hap : Apart m₁ old oldLen newLen at_) :
    m₂.heldRanges old (min oldLen newLen) = m₁.heldRanges old (min oldLen newLen) := by
  refine heldRuns_congr fun q hq => ?_
  have hq := (mem_pageNumbers S.page_pos h.old_dvd h.keep_dvd).mp hq
  rw [hn.page]
  by_cases hw : Within at_ newLen (q * S.page)
  · rw [if_pos hw]
    have hno : ¬(m₁.page q).isSome = true := fun hs => by
      refine hap (q * S.page) ⟨hq.1, ?_⟩ (.inl ?_) hw
      · have := hq.2
        omega
      · rwa [seen_isSome, Nat.mul_div_cancel _ S.page_pos]
    rw [Option.not_isSome_iff_eq_none] at hno
    simp [hno, Page.fresh]
  · rw [if_neg hw]

/-- the copy is made if every piece can be; either way only the new range has changed -/
theorem copy_newRange {m₁ m₂ : Mem S} (h : Checked S old oldLen newLen target dontunmap)
    (hn : NewRange m₁ m₂ at_ newLen) (hap : Apart m₁ old oldLen newLen at_) :
    (m₁.copies H old (min oldLen newLen) at_ ∧ ∃ st,
      copyPieces H old at_ ((m₂.heldRanges old (min oldLen newLen)).flatMap pieces) m₂ = .ok () st ∧
      Copying m₁ st at_ newLen ∧
      ∀ i < newLen, st.seen (at_ + i) = some (.readWrite, m₁.copied old (min oldLen newLen) i)) ∨
    (¬m₁.copies H old (min oldLen newLen) at_ ∧ ∃ e st,
      copyPieces H old at_ ((m₂.heldRanges old (min oldLen newLen)).flatMap pieces) m₂ = .error e st ∧
      Copying m₁ st at_ newLen) := by
  rw [heldRanges_newRange h hn hap]
  have cover := heldPieces_cover (m := m₁) h.old_dvd h.keep_dvd
  have inside : ∀ c ∈ (m₁.heldRanges old (min oldLen newLen)).flatMap pieces,
      0 < c.2 ∧ old ≤ c.1 ∧ c.1 + c.2 ≤ old + newLen ∧ ∀ x, Within c.1 c.2 x → ¬Within at_ newLen x := by
    intro c hc
    obtain ⟨r, hr, hcr⟩ := List.mem_flatMap.mp hc
    have hpos := (pieces_inside c hcr).1
    have first := (cover c.1).mp ⟨c, hc, within_start hpos⟩
    have last := (cover (c.1 + c.2 - 1)).mp ⟨c, hc, by
      simp only [Within]
      omega⟩
    refine ⟨hpos, first.1.1, ?_, fun x hx => ?_⟩
    · have := last.1.2
      omega
    · obtain ⟨hw, hheld⟩ := (cover x).mp ⟨c, hc, hx⟩
      refine hap x ⟨hw.1, by have := hw.2; omega⟩ (.inl ?_)
      rw [seen_isSome]
      cases hp : m₁.page (x / S.page) with
      | none => simp [hp] at hheld
      | some => rfl
  rcases copyPieces_spec (H := H) _ inside hn.copying with ⟨hgo, st, he, hc, hin, hout⟩ | ⟨hgo, e, st, he, hc⟩
  · refine .inl ⟨hgo, st, he, hc, fun i hi => ?_⟩
    have hfresh : m₂.seen (at_ + i) = some (.readWrite, 0) := by
      have hw : Within at_ newLen ((at_ + i) / S.page * S.page) :=
        (within_page S.page_pos hn.dvd h.newLen_dvd _).mpr ⟨by omega, by omega⟩
      simp [Mem.seen, hn.page, hw, Page.fresh]
    by_cases hcov : ∃ c ∈ (m₁.heldRanges old (min oldLen newLen)).flatMap pieces, Within c.1 c.2 (old + i)
    · have hk := ((cover _).mp hcov).1.2
      rw [hin i hcov, hfresh, Mem.copied, if_pos (by omega)]
      rfl
    · rw [hout i hcov, hfresh, Mem.copied]
      split
      case isTrue hk =>
        have : ¬(m₁.page ((old + i) / S.page)).any Page.held = true := fun hheld =>
          hcov ((cover _).mpr ⟨⟨by omega, by omega⟩, hheld⟩)
        rw [byteAt_of_not_held this]
      case isFalse => rfl
  · exact .inr ⟨hgo, e, st, he, hc⟩

end Made

/-! ## The ends -/

section Ends

variable {prot : Protection} {at_ : ℕ} {st : Mem S}

/-- a state in which only the new range differs from the opened old one, all of it mapped -/
theorem Copying.whole (h : Copying m st at_ newLen) : st.whole at_ newLen = true :=
  (whole_iff h.dvd h.dvdLen).mpr fun q hq => by
    obtain ⟨p, hp, -⟩ := h.inside q hq
    simp [hp]

theorem Copying.end_le (h : Copying m st at_ newLen) : at_ + newLen ≤ 2 ^ 56 := by
  have hc := h.contains
  have := S.stop_le
  simp only [Space.contains, decide_eq_true_eq] at hc
  omega

/-- the copy failed and was undone: what the call had put over, and opened, must have been as it is left -/
theorem undoMove_right (h : Checked S old oldLen newLen target dontunmap)
    (hopen : prot.opens = true → m.whole old (min oldLen newLen) = true)
    (hap : Apart m old oldLen newLen at_) (hst : Copying (m.opened old (min oldLen newLen) prot) st at_ newLen) (e : Errno) :
    Right old oldLen newLen dontunmap m (undoMove old newLen at_ (min oldLen newLen) prot e st) ↔
      (prot.opens = true → m.uniform old (min oldLen newLen) prot) ∧ ∀ x, Within at_ newLen x → m.seen x = none := by
  have hunmap : unmap at_ newLen st = .ok () (st.cleared at_ newLen) := by
    rw [unmap_eq h.newLen_pos hst.dvd h.newLen_dvd hst.end_le,
      unmapLocked_ok hst.dvd h.newLen_dvd (not_reachesHost_of_whole hst.dvd h.newLen_dvd hst.whole)]
  have hseen : ∀ x, (st.cleared at_ newLen).seen x =
      if Within at_ newLen x then none else (m.opened old (min oldLen newLen) prot).seen x := fun x => by
    rw [seen_cleared hst.dvd h.newLen_dvd]
    split
    · rfl
    case isFalse hx => exact hst.seen_eq hx
  have hkd := h.keep_dvd
  cases ho : prot.opens with
  | false =>
    have hrun : undoMove old newLen at_ (min oldLen newLen) prot e st = .error e (st.cleared at_ newLen) := by
      simp only [undoMove, bind, EStateM.bind, attempt, hunmap, onlyIf, ho]
      rfl
    have hm : m.opened old (min oldLen newLen) prot = m := by simp [Mem.opened, ho]
    rw [hrun]
    simp only [Right, Kept, hseen, hm]
    constructor
    · intro hk
      refine ⟨fun h => Bool.noConfusion h, fun x hx => ?_⟩
      rw [← hk x, if_pos hx]
    · rintro ⟨-, hk⟩ x
      split
      case isTrue hx => exact (hk x hx).symm
      case isFalse => rfl
  | true =>
    have hw := hopen ho
    have hapart : ∀ x, Within old oldLen x → ¬Within at_ newLen x := fun x hx => hap x hx (.inr hw)
    have hkeep : ∀ x, Within old (min oldLen newLen) x → ¬Within at_ newLen x := fun x hx =>
      hapart x ⟨hx.1, by have := hx.2; omega⟩
    have hwhole : (st.cleared at_ newLen).whole old (min oldLen newLen) = true := by
      rw [whole_iff_seen h.old_dvd hkd] at hw ⊢
      intro x hx
      rw [hseen, if_neg (hkeep x hx), seen_isSome, isSome_opened, ← seen_isSome]
      exact hw x hx
    have hle : old + min oldLen newLen ≤ 2 ^ 56 := by
      have := h.old_le
      omega
    have hrun : undoMove old newLen at_ (min oldLen newLen) prot e st =
        .error e ((st.cleared at_ newLen).reprotected old (min oldLen newLen) prot) := by
      simp only [undoMove, bind, EStateM.bind, attempt, hunmap, onlyIf, ho, if_true,
        protect_ok h.old_dvd hkd hle h.old_lt hwhole, protection_protBits]
      rfl
    have hfinal : ∀ x, ((st.cleared at_ newLen).reprotected old (min oldLen newLen) prot).seen x =
        if Within old (min oldLen newLen) x then (m.seen x).map fun c => (prot, c.2)
        else if Within at_ newLen x then none else m.seen x := fun x => by
      rw [seen_reprotected h.old_dvd hkd, hseen, seen_opened _ h.old_dvd hkd]
      by_cases hx : Within old (min oldLen newLen) x
      · simp only [hx, hkeep x hx, ho, and_self, if_true, if_false]
        cases m.seen x <;> rfl
      · simp [hx]
    rw [hrun]
    simp only [Right, Kept, hfinal]
    constructor
    · intro hk
      refine ⟨fun _ x hx c hc => ?_, fun x hx => ?_⟩
      · have := hk x
        rw [if_pos hx, Option.mem_def.mp hc] at this
        simpa using (congrArg (Option.map Prod.fst) this).symm
      · have := hk x
        rw [if_neg fun hk => hkeep x hk hx, if_pos hx] at this
        exact this.symm
    · rintro ⟨hu, hk⟩ x
      split
      case isTrue hx =>
        cases hc : m.seen x with
        | none => rfl
        | some c =>
          have := hu trivial x hx c hc
          simp [← this]
      case isFalse =>
        split
        case isTrue hx => exact (hk x hx).symm
        case isFalse => rfl

/-- the new range under its protection -/
structure Settled (m₁ st : Mem S) (at_ n : ℕ) (prot : Protection) (bytes : ℕ → UInt8) : Prop where
  dvd : S.page ∣ at_
  dvdLen : S.page ∣ n
  inside : ∀ i < n, st.seen (at_ + i) = some (prot, bytes i)
  outside : ∀ x, ¬Within at_ n x → st.page (x / S.page) = m₁.page (x / S.page)

theorem protect_newRange {m₁ : Mem S} {bytes : ℕ → UInt8} (hst : Copying m₁ st at_ newLen) (hpos : 0 < newLen)
    (hb : ∀ i < newLen, st.seen (at_ + i) = some (.readWrite, bytes i)) (prot : Protection) :
    ∃ st', onlyIf (prot ≠ .readWrite) (protect at_ newLen (protBits prot)) st = .ok () st' ∧
      Settled m₁ st' at_ newLen prot bytes := by
  by_cases hp : prot = .readWrite
  · subst hp
    exact ⟨st, rfl, hst.dvd, hst.dvdLen, hb, fun x hx => hst.page_eq hx⟩
  · have hle := hst.end_le
    have hrun := protect_ok hst.dvd hst.dvdLen hle (by omega) hst.whole (protBits prot)
    rw [protection_protBits] at hrun
    refine ⟨_, by simpa [onlyIf, hp] using hrun, hst.dvd, hst.dvdLen, fun i hi => ?_, fun x hx => ?_⟩
    · rw [seen_reprotected hst.dvd hst.dvdLen, if_pos ⟨by omega, by omega⟩, hb i hi]
      rfl
    · rw [← hst.page_eq hx]
      have hx' := mt (within_page S.page_pos hst.dvd hst.dvdLen x).mp hx
      simp only [Mem.reprotected, Mem.alter, hx', if_false]
      cases st.page (x / S.page) <;> rfl

/-- the new range stays over what was there, and nothing else has changed -/
theorem kept_settled (hst : Settled m st at_ newLen prot (m.copied old (min oldLen newLen))) :
    Kept m st ↔ m.already old (min oldLen newLen) newLen at_ prot := by
  constructor
  · intro hk i hi
    rw [← hk (at_ + i), hst.inside i hi]
    rfl
  · intro ha x
    by_cases hx : Within at_ newLen x
    · obtain ⟨i, rfl⟩ := Nat.exists_eq_add_of_le hx.1
      have hi : i < newLen := by
        have := hx.2
        omega
      rw [hst.inside i hi, ha i hi]
      rfl
    · simp only [Mem.seen, hst.outside x hx]

theorem moved_iff (st : Mem S) (at_ : ℕ) (prot : Protection) (h : Checked S old oldLen newLen target dontunmap) (hpos : 0 < oldLen)
    (hin : m.whole old (min oldLen newLen) = true →
      ∀ i < newLen, st.seen (at_ + i) = some (prot, m.copied old (min oldLen newLen) i))
    (hframe : ∀ x, ¬Within old oldLen x → ¬Within at_ newLen x → st.seen x = m.seen x) :
    Moved old oldLen newLen dontunmap m st at_ ↔
      m.whole old (min oldLen newLen) = true ∧ m.uniform old (min oldLen newLen) prot ∧
        ∀ x, Within old oldLen x → ¬Within at_ newLen x →
          st.seen x = if dontunmap then (m.seen x).map fun c => (c.1, 0) else none := by
  have hwhole := whole_iff_seen (m := m) h.old_dvd h.keep_dvd
  have byte : ∀ {x c}, m.seen x = some c → m.byteAt x = c.2 := fun {x c} hc => by simp [Mem.byteAt, hc]
  constructor
  · intro hm
    have hw : m.whole old (min oldLen newLen) = true := hwhole.mpr fun x hx => by
      obtain ⟨i, rfl⟩ := Nat.exists_eq_add_of_le hx.1
      exact (hm.kept i (by have := hx.2; omega)).1
    refine ⟨hw, fun x hx c hc => ?_, hm.given⟩
    obtain ⟨i, rfl⟩ := Nat.exists_eq_add_of_le hx.1
    have hi : i < min oldLen newLen := by
      have := hx.2
      omega
    have hk := (hm.kept i hi).2
    rw [hin hw i (by omega), Option.mem_def.mp hc] at hk
    simpa using (congrArg (Option.map Prod.fst) hk).symm
  · rintro ⟨hw, hu, hg⟩
    have first : ∀ i < min oldLen newLen, ∃ c, m.seen (old + i) = some c ∧ c.1 = prot := fun i hi => by
      obtain ⟨c, hc⟩ := Option.isSome_iff_exists.mp (hwhole.mp hw (old + i) ⟨by omega, by omega⟩)
      exact ⟨c, hc, hu _ ⟨by omega, by omega⟩ c hc⟩
    refine ⟨fun i hi => ?_, fun i hlo hi => ?_, hg, hframe⟩
    · obtain ⟨c, hc, hp⟩ := first i hi
      rw [hin hw i (by omega), Mem.copied, if_pos hi, hc, byte hc, ← hp]
      exact ⟨rfl, rfl⟩
    · obtain ⟨c, hc, hp⟩ := first 0 (by have := h.newLen_pos; omega)
      refine ⟨c, hc, ?_⟩
      rw [hin hw i hi, Mem.copied, if_neg (by omega), hp]

/-- the old range kept: it reads zero where a discard takes what it holds -/
theorem endMove_dontunmap (h : Checked S old oldLen newLen target true)
    (hopen : prot.opens = true → m.whole old (min oldLen newLen) = true) (hap : Apart m old oldLen newLen at_)
    (hst : Settled (m.opened old (min oldLen newLen) prot) st at_ newLen prot (m.copied old (min oldLen newLen))) :
    Right old oldLen newLen true m
      ((do
        discard H old oldLen
        onlyIf prot.opens (protect old (min oldLen newLen) (protBits prot))
        pure at_ : EStateM Errno (Mem S) ℕ) st) ↔
      MeantEnd H old oldLen newLen at_ true prot m := by
  have hsame := h.same rfl
  have hkeep : min oldLen newLen = oldLen := by omega
  have hpos : 0 < oldLen := by
    have := h.newLen_pos
    omega
  rw [hkeep] at hopen hst ⊢
  have hrun := discard_eq H hpos h.old_dvd h.oldLen_dvd st
  simp only [MeantEnd, hkeep, if_true, bind, EStateM.bind]
  by_cases hc : (S.contains old oldLen && !S.reachesHost old oldLen) = true
  · rw [hrun, if_pos hc, if_pos hc]
    have hdropped : ∀ x, ¬Within at_ newLen x → st.dropped H.tracked x = m.dropped H.tracked x := fun x hx => by
      rw [← dropped_opened m old oldLen prot]
      simp only [Mem.dropped, hst.outside x hx]
    have hout : ∀ x, ¬Within at_ newLen x → st.seen x = (m.opened old oldLen prot).seen x := fun x hx => by
      simp only [Mem.seen, hst.outside x hx]
    -- the protection goes back on, and the new range is not reached
    obtain ⟨st', he, hold, hnew⟩ : ∃ st',
        onlyIf prot.opens (protect old oldLen (protBits prot)) (st.discarded H.tracked old oldLen) = .ok () st' ∧
        (∀ x, Within old oldLen x → ¬Within at_ newLen x → st'.seen x =
          (m.seen x).map fun c => (if prot.opens then prot else c.1, if m.dropped H.tracked x then 0 else c.2)) ∧
        ∀ x, ¬Within old oldLen x → st'.seen x = st.seen x := by
      have hdis := seen_discarded (m := st) H.tracked h.old_dvd h.oldLen_dvd
      cases ho : prot.opens with
      | false =>
        refine ⟨_, rfl, fun x hx hx' => ?_, fun x hx => ?_⟩
        · rw [hdis, if_pos hx, hdropped x hx', hout x hx', seen_opened _ h.old_dvd h.oldLen_dvd]
          simp [ho]
        · rw [hdis, if_neg hx]
      | true =>
        have hw := hopen ho
        have hw' : (st.discarded H.tracked old oldLen).whole old oldLen = true := by
          have hm := (whole_iff_seen h.old_dvd h.oldLen_dvd).mp hw
          refine (whole_iff_seen h.old_dvd h.oldLen_dvd).mpr fun x hx => ?_
          have hx' := hap x hx (.inl (hm x hx))
          rw [hdis, if_pos hx, Option.isSome_map, hout x hx', seen_isSome, isSome_opened, ← seen_isSome]
          exact hm x hx
        have hp := protect_ok h.old_dvd h.oldLen_dvd h.old_le h.old_lt hw' (protBits prot)
        refine ⟨_, hp, fun x hx hx' => ?_, fun x hx => ?_⟩
        · rw [seen_reprotected h.old_dvd h.oldLen_dvd, if_pos hx, hdis, if_pos hx, hdropped x hx', hout x hx',
            seen_opened _ h.old_dvd h.oldLen_dvd, protection_protBits]
          simp only [ho, hx, and_self, if_true]
          cases m.seen x <;> rfl
        · rw [seen_reprotected h.old_dvd h.oldLen_dvd, if_neg hx, hdis, if_neg hx]
    simp only [he]
    have hiff := moved_iff (m := m) st' at_ prot h hpos
      (fun hw i hi => by
        have hx : ¬Within old oldLen (at_ + i) := fun hx => hap _ hx (.inr hw) ⟨by omega, by omega⟩
        rw [hnew _ hx, hst.inside i hi, hkeep])
      (fun x hx hx' => by
        rw [hnew x hx, hout x hx', seen_opened _ h.old_dvd h.oldLen_dvd, if_neg fun h => hx h.2])
    rw [hkeep] at hiff
    refine hiff.trans (and_congr_right fun hw => and_congr_right fun hu => ?_)
    have hm := (whole_iff_seen h.old_dvd h.oldLen_dvd).mp hw
    refine forall₂_congr fun x hx => ?_
    have hx' := hap x hx (.inl (hm x hx))
    obtain ⟨c, hc⟩ := Option.isSome_iff_exists.mp (hm x hx)
    have hprot := hu x hx c hc
    have hbyte : m.byteAt x = c.2 := by simp [Mem.byteAt, hc]
    simp only [hx', not_false_eq_true, forall_const, hold x hx hx', hc, Option.map_some, if_true, hbyte, hprot, ite_self,
      Option.some.injEq, Prod.mk.injEq, true_and]
    cases m.dropped H.tracked x <;> simp
  · rw [hrun, if_neg hc, if_neg hc]
    have ho : ¬prot.opens = true := fun ho => hc (by
      have hw := hopen ho
      simp [contains_of_whole hpos h.old_dvd h.oldLen_dvd hw, not_reachesHost_of_whole h.old_dvd h.oldLen_dvd hw])
    have hm : m.opened old oldLen prot = m := by simp [Mem.opened, ho]
    rw [hm] at hst
    rw [← hkeep] at hst
    have := kept_settled hst
    rw [hkeep] at this
    exact this

theorem host_of_seen {x : ℕ} (h : (m.seen x).isSome = true) : S.host (x / S.page) = false := by
  rw [seen_isSome] at h
  obtain ⟨p, hp⟩ := Option.isSome_iff_exists.mp h
  exact (owned_iff.mp (m.inside _ p hp)).2

/-- the old range given up: a range of no length is refused, and a host's page in it stops the unmapping -/
theorem endMove_unmap (h : Checked S old oldLen newLen target false) (hold : (m.seen old).isSome = true)
    (hap : Apart m old oldLen newLen at_)
    (hst : Settled (m.opened old (min oldLen newLen) prot) st at_ newLen prot (m.copied old (min oldLen newLen))) :
    Right old oldLen newLen false m ((do unmap old oldLen; pure at_ : EStateM Errno (Mem S) ℕ) st) ↔
      MeantEnd H old oldLen newLen at_ false prot m := by
  simp only [MeantEnd, Bool.false_eq_true, if_false, bind, EStateM.bind]
  by_cases hpos : oldLen = 0
  · subst hpos
    have hrun : unmap old 0 st = .error EINVAL st := by
      unfold unmap
      rw [if_pos (.inr rfl)]
      rfl
    have hkeep : min 0 newLen = 0 := Nat.zero_min newLen
    rw [hrun, if_pos rfl]
    rw [hkeep, opened_zero, ← hkeep] at hst
    exact kept_settled hst
  · have hpos : 0 < oldLen := by omega
    have hout : ∀ x, ¬Within at_ newLen x → st.seen x = (m.opened old (min oldLen newLen) prot).seen x := fun x hx => by
      simp only [Mem.seen, hst.outside x hx]
    rw [unmap_eq hpos h.old_dvd h.oldLen_dvd h.old_le, if_neg hpos.ne']
    cases hh : S.reachesHost old oldLen with
    | true =>
      obtain ⟨q, hq, hhost, -, he⟩ := unmapLocked_host (m := st) h.old_dvd h.oldLen_dvd hh
      rw [he]
      refine iff_of_false (fun hk => ?_) (by simp)
      have hd : S.page ∣ q * S.page - old := Nat.dvd_sub (Dvd.intro_left q rfl) h.old_dvd
      have hlt : old < q * S.page := by
        refine lt_of_le_of_ne hq.1 fun heq => ?_
        have := host_of_seen hold
        rw [heq, Nat.mul_div_cancel _ S.page_pos, hhost] at this
        exact Bool.noConfusion this
      have := hk old
      rw [seen_cleared h.old_dvd hd, if_pos ⟨le_refl old, by omega⟩] at this
      rw [← this] at hold
      exact Bool.noConfusion hold
    | false =>
      rw [unmapLocked_ok h.old_dvd h.oldLen_dvd hh]
      have hseen := seen_cleared (m := st) h.old_dvd h.oldLen_dvd
      have hiff := moved_iff (m := m) (st.cleared old oldLen) at_ prot h hpos
        (fun hw i hi => by
          have hx : ¬Within old oldLen (at_ + i) := fun hx => hap _ hx (.inr hw) ⟨by omega, by omega⟩
          rw [hseen, if_neg hx, hst.inside i hi])
        (fun x hx hx' => by
          rw [hseen, if_neg hx, hout x hx', seen_opened _ h.old_dvd h.keep_dvd, if_neg]
          exact fun h => hx ⟨h.2.1, by have := h.2.2; omega⟩)
      refine hiff.trans ?_
      have hgiven : ∀ x, Within old oldLen x → ¬Within at_ newLen x → (st.cleared old oldLen).seen x = none :=
        fun x hx _ => by rw [hseen, if_pos hx]
      simp only [Bool.false_eq_true, if_false, true_and]
      exact and_congr_right fun _ => and_iff_left hgiven

theorem endMove_right (h : Checked S old oldLen newLen target dontunmap) (hold : (m.seen old).isSome = true)
    (hopen : prot.opens = true → m.whole old (min oldLen newLen) = true) (hap : Apart m old oldLen newLen at_)
    (hst : Copying (m.opened old (min oldLen newLen) prot) st at_ newLen)
    (hb : ∀ i < newLen, st.seen (at_ + i) = some (.readWrite, m.copied old (min oldLen newLen) i)) :
    Right old oldLen newLen dontunmap m (endMove H old oldLen newLen at_ (min oldLen newLen) prot dontunmap st) ↔
      MeantEnd H old oldLen newLen at_ dontunmap prot m := by
  obtain ⟨st', he, hs⟩ := protect_newRange hst h.newLen_pos hb prot
  cases dontunmap with
  | true =>
    rw [← endMove_dontunmap h hopen hap hs]
    simp only [endMove, bind, EStateM.bind, he, if_true]
  | false =>
    rw [← endMove_unmap h hold hap hs]
    simp only [endMove, bind, EStateM.bind, he, Bool.false_eq_true, if_false]

end Ends

/-! ## A whole call -/

section Calls

variable {prot : Protection}

theorem seen_of_region (h : m.regionAt old = some prot) : (m.seen old).isSome = true := by
  rw [seen_isSome]
  simp only [Mem.regionAt] at h
  cases hp : m.page (old / S.page) with
  | none => simp [hp] at h
  | some => rfl

theorem target_opened {a n : ℕ} : (m.opened a n prot).target newLen target = m.target newLen target := by
  cases target with
  | none =>
    refine roomFor_congr (fun q => ?_) ?_ newLen
    · rw [← Option.not_isSome, ← Option.not_isSome, isSome_opened]
    · unfold Mem.opened
      split <;> rfl
  | some t => rfl

theorem open_ok (h : Checked S old oldLen newLen target dontunmap)
    (hopen : prot.opens = true → m.whole old (min oldLen newLen) = true) :
    onlyIf prot.opens (mapErr (fun _ => EFAULT) (protect old (min oldLen newLen) PROT_READ)) m =
      .ok () (m.opened old (min oldLen newLen) prot) := by
  have hread : protection PROT_READ = .read := by simp [protection, PROT_READ, PROT_WRITE, PROT_EXEC]
  have hle : old + min oldLen newLen ≤ 2 ^ 56 := by
    have := h.old_le
    omega
  unfold Mem.opened
  cases ho : prot.opens with
  | false => rfl
  | true => simp [onlyIf, mapErr, protect_ok h.old_dvd h.keep_dvd hle h.old_lt (hopen ho), hread]

/-- the new range could not be made: what was opened and what was unmapped stay so -/
theorem unmade_right {m₂ : Mem S} (h : Checked S old oldLen newLen target dontunmap)
    (hout : ∀ x, (∀ t ∈ target, ¬Within t newLen x) → m₂.seen x = (m.opened old (min oldLen newLen) prot).seen x)
    (hk : Kept (m.opened old (min oldLen newLen) prot) m₂ ↔
      ∀ t ∈ target, (m.opened old (min oldLen newLen) prot).spared t newLen) :
    Kept m m₂ ↔
      (prot.opens = true → m.uniform old (min oldLen newLen) .read) ∧ ∀ t ∈ target, m.spared t newLen := by
  have hsp : ∀ t, (m.opened old (min oldLen newLen) prot).spared t newLen ↔ m.spared t newLen := fun t => by
    simp only [Mem.spared, isSome_opened]
  simp only [hsp] at hk
  have hso := seen_opened (m := m) prot h.old_dvd h.keep_dvd
  have hfar : ∀ x, Within old (min oldLen newLen) x → ∀ t ∈ target, ¬Within t newLen x := fun x hx t ht hw => by
    have := h.apart t ht
    simp only [Within] at hx hw
    omega
  -- opening changes nothing exactly where all was readable and no more
  have heq : (prot.opens = true → m.uniform old (min oldLen newLen) .read) →
      ∀ x, (m.opened old (min oldLen newLen) prot).seen x = m.seen x := fun hu x => by
    rw [hso]
    split
    case isTrue hx =>
      cases hc : m.seen x with
      | none => rfl
      | some c =>
        have := hu hx.1 x hx.2 c hc
        simp [← this]
    case isFalse => rfl
  constructor
  · intro hkept
    have hu : prot.opens = true → m.uniform old (min oldLen newLen) .read := fun ho x hx c hc => by
      have := hkept x
      rw [hout x (hfar x hx), hso, if_pos ⟨ho, hx⟩, Option.mem_def.mp hc] at this
      simpa using (congrArg (Option.map Prod.fst) this).symm
    exact ⟨hu, hk.mp fun x => (hkept x).trans (heq hu x).symm⟩
  · rintro ⟨hu, hs⟩ x
    exact (hk.mpr hs x).trans (heq hu x)

theorem move_right (h : Checked S old oldLen newLen target dontunmap) :
    Right old oldLen newLen dontunmap m (move H old oldLen newLen target dontunmap m) ↔
      MeantMove H old oldLen newLen target dontunmap m := by
  simp only [move, MeantMove, bind, EStateM.bind, get_eq]
  cases hreg : m.regionAt old with
  | none => exact iff_of_true (fun x => rfl) trivial
  | some prot =>
    simp only [EStateM.bind, get_eq]
    by_cases hbad : (prot.opens && !m.whole old (min oldLen newLen)) = true
    · obtain ⟨ho, hw⟩ := Bool.and_eq_true_iff.mp hbad
      have hle : old + min oldLen newLen ≤ 2 ^ 56 := by
        have := h.old_le
        omega
      have hp := protect_hole h.old_dvd h.keep_dvd hle h.old_lt (by simpa using hw) PROT_READ
      rw [if_pos hbad]
      simp only [onlyIf, ho, if_true, mapErr, hp]
      exact iff_of_true (fun x => rfl) trivial
    · have hopen : prot.opens = true → m.whole old (min oldLen newLen) = true := by simpa using hbad
      rw [if_neg hbad, open_ok h hopen]
      simp only
      rcases mapMemory_newRange h (m.opened old (min oldLen newLen) prot) with
        ⟨at_, m₂, ht, he, hn, hfree, hfix⟩ | ⟨e, m₂, ht, he, hout, hk⟩
      · rw [target_opened] at ht
        rw [ht, he]
        have hfree' : target = none → m.free at_ newLen = true := fun hnone => by
          have hcongr : (m.opened old (min oldLen newLen) prot).free at_ newLen = m.free at_ newLen :=
            free_congr (fun q => by rw [← Option.not_isSome, ← Option.not_isSome, isSome_opened]) at_ newLen
          rw [← hcongr]
          exact hfree hnone
        have hap := apart_newRange (m := m) h hn.dvd hfree' hfix
        have hap' := apart_newRange (m := m.opened old (min oldLen newLen) prot) h hn.dvd hfree hfix
        have hcopied : (m.opened old (min oldLen newLen) prot).copied old (min oldLen newLen) =
            m.copied old (min oldLen newLen) := by
          funext i
          simp only [Mem.copied, byteAt_opened]
        simp only [attempt]
        rcases copy_newRange (H := H) h hn hap' with ⟨hgo, st, hrun, hst, hb⟩ | ⟨hgo, e, st, hrun, hst⟩
        · rw [hrun, if_pos hgo]
          rw [hcopied] at hb
          exact endMove_right h (seen_of_region hreg) hopen hap hst hb
        · rw [hrun, if_neg hgo]
          refine (undoMove_right h hopen hap hst e).trans (and_congr_right fun _ => ?_)
          cases target with
          | none => simpa using fun x => seen_of_free (hfree' rfl) hn.dvd h.newLen_dvd
          | some t =>
            obtain rfl := hfix t rfl
            simp
      · rw [target_opened] at ht
        rw [ht, he]
        exact unmade_right h hout hk

/-- arguments that pass the checks -/
theorem plan_ok {a : MremapArgs} {p : Plan} (h : plan S a = .ok p) :
    ∃ oldLen newLen,
      S.span (untag a.old) a.oldLen = some oldLen ∧
      S.span (if a.fixed then untag a.target else 0) a.newLen = some newLen ∧
      (a.dontunmap = true → newLen = oldLen) ∧ S.page ∣ untag a.old ∧ 0 < newLen ∧
      (a.fixed = true → S.page ∣ untag a.target ∧
        ¬(untag a.target < untag a.old + oldLen ∧ untag a.old < untag a.target + newLen)) ∧
      p = if !a.fixed ∧ !a.dontunmap ∧ newLen ≤ oldLen then .inPlace (untag a.old) oldLen newLen
        else .move (untag a.old) oldLen newLen (if a.fixed then some (untag a.target) else none) a.dontunmap := by
  unfold plan at h
  cases hl : S.span (untag a.old) a.oldLen with
  | none =>
    simp only [hl] at h
    cases h
  | some oldLen =>
    cases hk : S.span (if a.fixed then untag a.target else 0) a.newLen with
    | none =>
      simp only [hl, hk] at h
      cases h
    | some newLen =>
      simp only [hl, hk] at h
      by_cases h₁ : a.dontunmap ∧ (!a.mayMove ∨ newLen ≠ oldLen)
      · rw [if_pos h₁] at h
        cases h
      rw [if_neg h₁] at h
      by_cases h₂ : untag a.old % S.page ≠ 0 ∨ newLen = 0 ∨ a.unknown
      · rw [if_pos h₂] at h
        cases h
      rw [if_neg h₂] at h
      by_cases h₃ : a.fixed ∧ (!a.mayMove ∨ untag a.target % S.page ≠ 0 ∨
          (untag a.target < untag a.old + oldLen ∧ untag a.old < untag a.target + newLen))
      · rw [if_pos h₃] at h
        cases h
      rw [if_neg h₃] at h
      refine ⟨oldLen, newLen, rfl, hk ▸ rfl, fun hd => ?_, Nat.dvd_of_mod_eq_zero (by omega), by omega,
        fun hf => ⟨?_, fun hover => h₃ ⟨hf, .inr (.inr hover)⟩⟩, ?_⟩
      · by_contra hne
        exact h₁ ⟨hd, .inr hne⟩
      · by_contra hne
        exact h₃ ⟨hf, .inr (.inl (mt Nat.dvd_of_mod_eq_zero hne))⟩
      · by_cases h₄ : !a.fixed ∧ !a.dontunmap ∧ newLen ≤ oldLen
        · rw [if_pos h₄] at h ⊢
          exact (Except.ok.inj h).symm
        · rw [if_neg h₄] at h ⊢
          by_cases h₅ : !a.fixed ∧ !a.mayMove
          · rw [if_pos h₅] at h
            cases h
          · rw [if_neg h₅] at h
            exact (Except.ok.inj h).symm

theorem plan_inPlace {a : MremapArgs} (h : plan S a = .ok (.inPlace old oldLen newLen)) :
    (old = untag a.old ∧ oldLen = roundUp S.page a.oldLen ∧ newLen = roundUp S.page a.newLen ∧ a.dontunmap = false) ∧
      S.page ∣ old ∧ 0 < newLen ∧ newLen ≤ oldLen ∧ old + oldLen ≤ 2 ^ 56 := by
  obtain ⟨l, k, hl, hk, -, hd, hpos, -, hp⟩ := plan_ok h
  obtain ⟨hl₁, hl₂⟩ := span_eq_some hl
  split at hp
  case isTrue hc =>
    cases hp
    exact ⟨⟨rfl, hl₁, (span_eq_some hk).1, by simpa using hc.2.1⟩, hd, hpos, hc.2.2, hl₂⟩
  case isFalse => cases hp

theorem plan_move {a : MremapArgs} (h : plan S a = .ok (.move old oldLen newLen target dontunmap)) :
    (old = untag a.old ∧ oldLen = roundUp S.page a.oldLen ∧ newLen = roundUp S.page a.newLen ∧ dontunmap = a.dontunmap) ∧
      Checked S old oldLen newLen target dontunmap := by
  obtain ⟨l, k, hl, hk, hsame, hd, hpos, hfix, hp⟩ := plan_ok h
  obtain ⟨hl₁, hl₂⟩ := span_eq_some hl
  obtain ⟨hk₁, hk₂⟩ := span_eq_some hk
  split at hp
  case isTrue => cases hp
  case isFalse hc =>
    cases hp
    have htarget : ∀ t ∈ (if a.fixed then some (untag a.target) else none : Option ℕ), a.fixed = true ∧ t = untag a.target := by
      intro t ht
      split at ht
      case isTrue hf => exact ⟨hf, (Option.some.inj ht).symm⟩
      case isFalse => cases ht
    refine ⟨⟨rfl, hl₁, hk₁, rfl⟩, {
      old_dvd := hd
      oldLen_dvd := hl₁ ▸ dvd_roundUp _ _
      newLen_dvd := hk₁ ▸ dvd_roundUp _ _
      newLen_pos := hpos
      old_lt := untag_lt _
      old_le := hl₂
      newLen_le := by omega
      target_dvd := fun t ht => ?_
      target_lt := fun t ht => ?_
      target_le := fun t ht => ?_
      apart := fun t ht => ?_
      grows := fun hnone => ?_
      same := hsame }⟩
    · obtain ⟨hf, rfl⟩ := htarget t ht
      exact (hfix hf).1
    · obtain ⟨-, rfl⟩ := htarget t ht
      exact untag_lt _
    · obtain ⟨hf, rfl⟩ := htarget t ht
      simpa [hf] using hk₂
    · obtain ⟨hf, rfl⟩ := htarget t ht
      exact (hfix hf).2
    · have hf : a.fixed = false := by
        by_contra hf
        simp [hf] at hnone
      by_cases hdon : a.dontunmap = true
      · exact (hsame hdon).ge
      · by_contra hlt
        exact hc ⟨by simp [hf], by simpa using hdon, by omega⟩

/-- shrinking in place gives up the end of the range, up to the first page of it that the host holds -/
theorem inPlace_right (hd : S.page ∣ old) (hold : S.page ∣ oldLen) (hnew : S.page ∣ newLen) (hpos : 0 < newLen)
    (hle : newLen ≤ oldLen) (hend : old + oldLen ≤ 2 ^ 56) :
    Right old oldLen newLen false m
      ((do
        onlyIf (newLen < oldLen) (unmap (old + newLen) (oldLen - newLen))
        pure old : EStateM Errno (Mem S) ℕ) m) ↔
      if S.reachesHost (old + newLen) (oldLen - newLen) then m.spared (old + newLen) (oldLen - newLen)
      else m.whole old newLen = true := by
  have ha : S.page ∣ old + newLen := Nat.dvd_add hd hnew
  have hn : S.page ∣ oldLen - newLen := Nat.dvd_sub hold hnew
  have hrun : onlyIf (newLen < oldLen) (unmap (old + newLen) (oldLen - newLen)) m =
      unmapLocked (old + newLen) (oldLen - newLen) m := by
    by_cases hlt : newLen < oldLen
    · simp only [onlyIf, hlt, decide_true, if_true]
      rw [unmap_eq (by omega) ha hn (by omega)]
    · obtain rfl : newLen = oldLen := by omega
      simp [onlyIf, unmapLocked, pageNumbers, unmapPages, pure, EStateM.pure]
  have hwhole := whole_iff_seen (m := m) hd hnew
  simp only [bind, EStateM.bind, hrun]
  cases hh : S.reachesHost (old + newLen) (oldLen - newLen) with
  | true =>
    obtain ⟨q, hq, hhost, hb, he⟩ := unmapLocked_host (m := m) ha hn hh
    rw [he]
    exact kept_cleared_host ha hq hhost hb
  | false =>
    rw [unmapLocked_ok ha hn hh]
    have hseen := seen_cleared (m := m) ha hn
    have hout : ∀ x, ¬Within (old + newLen) (oldLen - newLen) x →
        (m.cleared (old + newLen) (oldLen - newLen)).seen x = m.seen x := fun x hx => by rw [hseen, if_neg hx]
    simp only [Bool.false_eq_true, if_false]
    rw [hwhole]
    constructor
    · intro hm x hx
      obtain ⟨i, rfl⟩ := Nat.exists_eq_add_of_le hx.1
      exact (hm.kept i (by have := hx.2; omega)).1
    · intro hw
      refine ⟨fun i hi => ⟨hw _ ⟨by omega, by omega⟩, hout _ ?_⟩, fun i hlo hi => by omega, fun x hx hx' => ?_,
        fun x hx _ => hout x ?_⟩
      · simp only [Within]
        omega
      · rw [hseen, if_pos]
        · rfl
        · simp only [Within] at hx hx' ⊢
          omega
      · simp only [Within] at hx ⊢
        omega

end Calls

/-! ## Calls that leave something changed -/

/-- an error that changed the protection at an address -/
def changedAt (m : Mem S) (x : ℕ) : EStateM.Result Errno (Mem S) ℕ → Bool
  | .error _ m' => (m'.seen x).map Prod.fst != (m.seen x).map Prod.fst
  | .ok _ _ => false

theorem not_right_of_changedAt {r : EStateM.Result Errno (Mem S) ℕ} (x : ℕ) (h : changedAt m x r = true) :
    ¬Right old oldLen newLen dontunmap m r := by
  cases r with
  | error e m' =>
    intro hk
    simp [changedAt, hk x] at h
  | ok => exact absurd h Bool.noConfusion

/-- its first page mapped, under a protection -/
def onePage (n : ℕ) (hn : n ≤ 8) (h : 0 < n) (prot : Protection) : Mem (pages n hn) where
  page q := if q = 1 then some (Page.fresh prot) else none
  cursor := 0
  inside q p hq := by
    split at hq
    case isTrue hq' =>
      subst hq'
      simp [Space.owned, pages, Space.plain]
      omega
    case isFalse => cases hq

end Steps

end Omnidroid.Mm
