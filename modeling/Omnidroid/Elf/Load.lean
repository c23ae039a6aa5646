/-
What a load does (`load` and `load_into` in `omni-elf/src/loader/mod.rs`), as the calls it makes in order.
- `Job.start`: the checks before anything is reserved, and the plan.
- `script`: the calls in the reserved span. What touches no mapping (copies, commits, symbols, decoding, the arrays) is
  `Call.work`.
- `Leads`: what the span comes to when no call of a list is refused.
- `leads_script`: for a load that is the protections the object is to have, relro sealed and the holes inaccessible.
- `loadedRanges_tile`: the object's ranges are its pieces in parts, none of them empty; `empty_range`: but where relro is an
  empty range of pages inside a piece, there one is.
-/
import Omnidroid.Elf.Plan
import Omnidroid.Elf.Relocate

namespace Omnidroid.Elf

open Mm (Protection)
open Relocator (Pass)

def PT_GNU_RELRO : UInt32 := 0x6474e552

def ElfImage.relro (elf : ElfImage) : Option Segment := elf.segments.find? fun s => s.p_type == PT_GNU_RELRO

/-- what a load is given; the symbols are bound and the relocations decoded already -/
structure Job where
  elf : ElfImage
  /-- the length of the file that is mapped -/
  backing : ℕ
  shift : ℕ
  sealRelro : Bool
  maxAnonymousBytes : ℕ
  relocationWindow : ℕ
  bindings : List SymbolBinding
  passes : List Pass
  /-- the parse accepted its program headers -/
  valid : LoadImage.validate elf.segments elf.data.length = .ok elf.loadImage

/-- the space's page -/
def Job.page (job : Job) : ℕ := 2 ^ job.shift

theorem Job.page_pos (job : Job) : 0 < job.page := Nat.two_pow_pos _

def LoadPlan.anonymousBytes (plan : LoadPlan) : ℕ := ((plan.pieces.filter Piece.anonymous).map Piece.len).sum

/-- the checks before anything is reserved -/
def Job.start (job : Job) : Except LoadError LoadPlan :=
  if job.backing ≠ job.elf.data.length then .error (.backingLengthMismatch job.backing job.elf.data.length)
  else do
    let plan ← LoadPlan.build job.elf.segments job.elf.loadImage job.backing job.page
    if job.maxAnonymousBytes < plan.anonymousBytes then
      throw (.anonymousMemoryTooLarge plan.anonymousBytes job.maxAnonymousBytes)
    else pure plan

/-! ## Relro -/

structure RelroRegion where
  vaddr : ℕ
  memsz : ℕ
  start : ℕ
  end_ : ℕ
  sealed : Bool
deriving DecidableEq, Repr

/-- one sweep over the ascending pieces -/
def coversFrom (stop : ℕ) : List Piece → ℕ → Bool
  | [], _ => false
  | p :: pieces, cursor =>
    if cursor < p.vaddr then false
    else if stop ≤ max cursor p.vaddrEnd then true
    else coversFrom stop pieces (max cursor p.vaddrEnd)

/-- the plan maps every byte of the range -/
def planCovers (plan : LoadPlan) (from_ stop : ℕ) : Bool := if stop ≤ from_ then true else coversFrom stop plan.pieces from_

def relroRegion (job : Job) (plan : LoadPlan) (base : ℕ) : Except LoadError (Option RelroRegion) :=
  match job.elf.relro with
  | none => .ok none
  | some seg =>
    match checkedAdd seg.p_vaddr seg.p_memsz with
    | none => .error (.relroOutsideImage seg.p_vaddr (saturatingAdd seg.p_vaddr seg.p_memsz) seg.p_memsz)
    | some endVaddr =>
      let startPage := pageDown seg.p_vaddr job.page
      let endPage := roundUp job.page endVaddr
      if 2 ^ 64 ≤ endVaddr + (job.page - 1) ∨ endPage < startPage ∨ !planCovers plan startPage endPage then
        .error (.relroOutsideImage seg.p_vaddr endVaddr seg.p_memsz)
      else
        match checkedAdd base startPage, checkedAdd base endPage with
        | some start, some end_ => .ok (some ⟨seg.p_vaddr, seg.p_memsz, start, end_, job.sealRelro⟩)
        | none, _ => .error (.addressOverflow "PT_GNU_RELRO" base startPage)
        | _, none => .error (.addressOverflow "PT_GNU_RELRO" base endPage)

/-- the protection a piece is mapped at: a view that ends writable is raised only later -/
def mapProtection (p : Piece) : Protection :=
  match p.source with
  | .file _ => if p.rest.isExecutable then .readExecute else .read
  | .fileTailCopy _ _ => .readWrite
  | .zero => p.rest

def sealedProtection (p : Protection) : Protection := if p.isWritable then .read else p

/-- a piece in the parts that end at different protections: where each starts, how long it is, and its protection -/
def finalPieces (p : Piece) (start : ℕ) (relro : Option RelroRegion) : List (ℕ × ℕ × Protection) :=
  let end_ := start + p.len
  match relro.filter fun r => r.sealed && decide (r.start < end_ ∧ start < r.end_) with
  | none => [(start, p.len, p.rest)]
  | some r =>
    let lo := max r.start start
    let hi := min r.end_ end_
    (if start < lo then [(start, lo - start, p.rest)] else []) ++ [(lo, hi - lo, sealedProtection p.rest)] ++
      if hi < end_ then [(hi, end_ - hi, p.rest)] else []

/-! ## The calls of a load -/

/-- a call on the space's mappings -/
inductive Op where
  | unmap (start len : ℕ)
  | map (start len : ℕ) (prot : Protection)
  | protect (start len : ℕ) (prot : Protection)
deriving DecidableEq, Repr

namespace Op

def start : Op → ℕ
  | .unmap start _ | .map start _ _ | .protect start _ _ => start

def len : Op → ℕ
  | .unmap _ len | .map _ len _ | .protect _ len _ => len

/-- how an address of its range is protected once it is made -/
def result : Op → Option Protection
  | .unmap _ _ => none
  | .map _ _ prot | .protect _ _ prot => some prot

end Op

inductive Call where
  | op (o : Op)
  | work
  | refuse (e : LoadError)
  /-- one relocation: its window is opened first, and the one before it closed -/
  | feed (R : Relocator) (r : Rela)
  | close

/-- one piece, released from the reservation and mapped -/
def pieceCalls (data : Bytes) (base : ℕ) (p : Piece) : List Call :=
  match checkedAdd base p.vaddr with
  | none => [.refuse (.addressOverflow "piece start" base p.vaddr)]
  | some start =>
    .op (.unmap start p.len) :: .op (.map start p.len (mapProtection p)) ::
      match p.source with
      | .fileTailCopy offset len =>
        if offset + len ≤ data.length then [.work]
        else [.refuse (.elf (.outOfBounds "PT_LOAD final page" offset len data.length))]
      | _ => []

def liveRange (base : ℕ) (p : Piece) : LiveRange := ⟨base + p.vaddr, base + p.vaddr + p.len, mapProtection p, p.anonymous⟩

def live (base : ℕ) (plan : LoadPlan) : List LiveRange :=
  (plan.pieces.map (liveRange base)).insertionSort fun m m' => m.start ≤ m'.start

def liveAt (ranges : List LiveRange) (address : ℕ) : Option LiveRange :=
  ((ranges.takeWhile fun m => m.start ≤ address).getLast?).filter fun m => address < m.end_

/-- one zero fill, its pages writable for it -/
def fillCalls (page base : ℕ) (ranges : List LiveRange) (z : ZeroFill) : List Call :=
  match checkedAdd base z.vaddr with
  | none => [.refuse (.addressOverflow "zero-fill start" base z.vaddr)]
  | some at_ =>
    let from_ := pageDown at_ page
    let stop := roundUp page (at_ + z.len)
    if 2 ^ 64 ≤ stop then [.refuse (.addressOverflow "zero-fill end" base z.vaddr)]
    else
      match liveAt ranges at_ with
      | none => [.refuse (.relocationTargetUnmapped 0 "zero-fill" z.vaddr at_ (at_ + z.len))]
      | some range =>
        let len := min stop range.end_ - from_
        if range.protection.isWritable then [.work]
        else [.op (.protect from_ len .readWrite), .work, .op (.protect from_ len range.protection)]

/-- one part of the loader's pass -/
def passCalls (R : Relocator) : Pass → List Call
  | .stream rs _ fails => rs.map (.feed R) ++ match fails with
    | some e => [.refuse (.elf e)]
    | none => [.close]
  | .table t => (Relocator.sorted t.relocations).map (.feed R) ++ [.close]

def relocationCalls (job : Job) (base : ℕ) (ranges : List LiveRange) : List Call :=
  match Relocator.new base ranges job.bindings job.relocationWindow job.page job.page_pos with
  | .error e => [.refuse e]
  | .ok R => job.passes.flatMap (passCalls R) ++ [.close]

/-- what raises and seals one piece -/
def finalCalls (base : ℕ) (relro : Option RelroRegion) (p : Piece) : List Call :=
  ((finalPieces p (base + p.vaddr) relro).filter fun t => mapProtection p != t.2.2).map
    fun t => .op (.protect t.1 t.2.1 t.2.2)

/-- what a load does in the span reserved for it -/
def script (job : Job) (plan : LoadPlan) (reserved : ℕ) : List Call :=
  if reserved < plan.imageStart then [.refuse (.addressOverflow
    "load bias: the reservation lies below the image's own base virtual address" reserved plan.imageStart)]
  else
    let base := reserved - plan.imageStart
    match relroRegion job plan base with
    | .error e => [.refuse e]
    | .ok relro =>
      let ranges := live base plan
      plan.pieces.flatMap (pieceCalls job.elf.data base) ++ plan.zeroFills.flatMap (fillCalls job.page base ranges) ++
        [.work] ++ relocationCalls job base ranges ++ [.work] ++ plan.pieces.flatMap (finalCalls base relro) ++ [.work]

structure MappedRange where
  segment : ℕ
  start : ℕ
  end_ : ℕ
  rest : Protection
  anonymous : Bool
  fileOffset : Option ℕ
deriving DecidableEq, Repr

def pieceRanges (base : ℕ) (relro : Option RelroRegion) (p : Piece) : List MappedRange :=
  (finalPieces p (base + p.vaddr) relro).map fun t => ⟨p.segment, t.1, t.1 + t.2.1, t.2.2, p.anonymous,
    match p.source with
    | .file offset => some (offset + (t.1 - (base + p.vaddr)))
    | _ => none⟩

/-- where an object is, and what of it is mapped -/
structure LoadedObject where
  base : ℕ
  start : ℕ
  end_ : ℕ
  ranges : List MappedRange
  relro : Option RelroRegion

def loadedObject (job : Job) (plan : LoadPlan) (reserved : ℕ) : LoadedObject :=
  let base := reserved - plan.imageStart
  let relro := (relroRegion job plan base).toOption.join
  ⟨base, reserved, reserved + plan.span,
    (plan.pieces.flatMap (pieceRanges base relro)).insertionSort fun r r' => r.start ≤ r'.start, relro⟩

/-! ## What the calls lead to -/

/-- a range of the protections changed -/
def put (v : ℕ → Option Protection) (a n : ℕ) (c : Option Protection) : ℕ → Option Protection :=
  fun x => if Within a n x then c else v x

/-- the protections once the open window is put back -/
def closed : Option OpenWindow → (ℕ → Option Protection) → ℕ → Option Protection
  | some ⟨start, stop, some prot⟩, v => put v start (stop - start) (some prot)
  | _, v => v

/-- the ranges are whole pages between `lo` and `hi`, each protected as it says -/
structure Relocator.Shown (R : Relocator) (lo hi : ℕ) (v : ℕ → Option Protection) : Prop where
  aligned : ∀ m ∈ R.ranges, R.page ∣ m.start ∧ R.page ∣ m.end_
  bounded : ∀ m ∈ R.ranges, m.end_ < 2 ^ 64
  inside : ∀ m ∈ R.ranges, lo ≤ m.start ∧ m.end_ ≤ hi
  shown : ∀ m ∈ R.ranges, ∀ x, m.start ≤ x → x < m.end_ → v x = some m.protection

/-- From the protections `v` and the window that is open, the calls stay between `lo` and `hi`; where none of them is
refused, no window is left open and `post` holds of the protections. -/
def Leads (lo hi : ℕ) (post : (ℕ → Option Protection) → Prop) :
    List Call → Option OpenWindow → (ℕ → Option Protection) → Prop
  | [], w, v => w = none ∧ post v
  | .op o :: cs, w, v => lo ≤ o.start ∧ o.start + o.len ≤ hi ∧ Leads lo hi post cs w (put v o.start o.len o.result)
  | .work :: cs, w, v => Leads lo hi post cs w v
  | .refuse _ :: _, _, _ => True
  -- a relocation may close a window and open another, so what follows goes by the window's being put back
  | .feed R _ :: cs, w, v =>
    R.Shown lo hi (closed w v) ∧ ∀ w' v', closed w' v' = closed w v → Leads lo hi post cs w' v'
  | .close :: cs, w, v => Leads lo hi post cs none (closed w v)

section Leads

variable {lo hi : ℕ} {post post' : (ℕ → Option Protection) → Prop} {w : Option OpenWindow} {v : ℕ → Option Protection}

theorem Leads.append {cs ds : List Call} (h : Leads lo hi post cs w v) (h' : ∀ v, post v → Leads lo hi post' ds none v) :
    Leads lo hi post' (cs ++ ds) w v := by
  induction cs generalizing w v with
  | nil =>
    obtain ⟨rfl, hpost⟩ := h
    exact h' v hpost
  | cons c cs ih =>
    cases c with
    | op o => exact ⟨h.1, h.2.1, ih h.2.2⟩
    | work => exact ih h
    | refuse e => trivial
    | feed R r => exact ⟨h.1, fun w' v' hsame => ih (h.2 w' v' hsame)⟩
    | close => exact ih h

theorem Leads.mono {cs : List Call} (h : Leads lo hi post cs w v) (h' : ∀ v, post v → post' v) :
    Leads lo hi post' cs w v := by
  have hall : Leads lo hi post' (cs ++ []) w v := h.append fun v hv => ⟨rfl, h' v hv⟩
  rwa [List.append_nil] at hall

/-- calls for one thing after another, each of which keeps what they keep -/
theorem Leads.flatMap {α : Type} {f : α → List Call} {as : List α} (hone : ∀ a ∈ as, ∀ v, post v → Leads lo hi post (f a) none v)
    (hv : post v) : Leads lo hi post (as.flatMap f) none v := by
  induction as generalizing v with
  | nil => exact ⟨rfl, hv⟩
  | cons a as ih =>
    apply (hone a List.mem_cons_self v hv).append
    intro v' hv'
    exact ih (fun b hb => hone b (List.mem_cons_of_mem _ hb)) hv'

/-- an address of a piece, where the image is biased by `base` -/
def Piece.at (base : ℕ) (p : Piece) (x : ℕ) : Prop := Within (base + p.vaddr) p.len x

/-- calls for each of some pieces that lie apart, each of which changes its own piece -/
theorem leads_pieces {base : ℕ} {f : Piece → List Call} (old new : Piece → ℕ → Option Protection) {pieces : List Piece}
    (hpair : pieces.Pairwise fun p q => p.vaddr + p.len ≤ q.vaddr)
    (hone : ∀ p ∈ pieces, ∀ v, (∀ x, p.at base x → v x = old p x) →
      Leads lo hi (fun v' => (∀ x, p.at base x → v' x = new p x) ∧ ∀ x, ¬p.at base x → v' x = v x) (f p) none v)
    (hv : ∀ p ∈ pieces, ∀ x, p.at base x → v x = old p x) :
    Leads lo hi (fun v' => (∀ p ∈ pieces, ∀ x, p.at base x → v' x = new p x) ∧
      ∀ x, (∀ p ∈ pieces, ¬p.at base x) → v' x = v x) (pieces.flatMap f) none v := by
  induction pieces generalizing v with
  | nil => exact ⟨rfl, by simp, fun x _ => rfl⟩
  | cons p pieces ih =>
    obtain ⟨hafter, hpair⟩ := List.pairwise_cons.mp hpair
    have hapart : ∀ q ∈ pieces, ∀ x, q.at base x → ¬p.at base x := by
      intro q hq x hx hx'
      have := hafter q hq
      simp only [Piece.at, Within] at hx hx'
      omega
    rw [List.flatMap_cons]
    apply (hone p List.mem_cons_self v (hv p List.mem_cons_self)).append
    rintro v₁ ⟨hin, hout⟩
    have hv₁ : ∀ q ∈ pieces, ∀ x, q.at base x → v₁ x = old q x := by
      intro q hq x hx
      rw [hout x (hapart q hq x hx)]
      exact hv q (List.mem_cons_of_mem _ hq) x hx
    apply (ih hpair (fun q hq => hone q (List.mem_cons_of_mem _ hq)) hv₁).mono
    rintro v₂ ⟨hin', hout'⟩
    constructor
    · intro q hq x hx
      rcases List.mem_cons.mp hq with rfl | hq
      · rw [hout' x fun q' hq' hx' => hapart q' hq' x hx' hx]
        exact hin x hx
      · exact hin' q hq x hx
    · intro x hx
      rw [hout' x fun q hq => hx q (List.mem_cons_of_mem _ hq)]
      exact hout x (hx p List.mem_cons_self)

/-! ## Pieces, fills and relocations -/

theorem leads_piece {data : Bytes} {base : ℕ} {p : Piece} (hlo : lo ≤ base + p.vaddr) (hhi : base + p.vaddr + p.len ≤ hi) :
    Leads lo hi (fun v' => (∀ x, p.at base x → v' x = some (mapProtection p)) ∧ ∀ x, ¬p.at base x → v' x = v x)
      (pieceCalls data base p) none v := by
  rw [pieceCalls]
  cases hstart : checkedAdd base p.vaddr with
  | none => trivial
  | some start =>
    simp only [checkedAdd] at hstart
    split at hstart <;> cases hstart
    have hpost : (∀ x, p.at base x → put (put v (base + p.vaddr) p.len none) (base + p.vaddr) p.len (some (mapProtection p)) x =
        some (mapProtection p)) ∧
        ∀ x, ¬p.at base x → put (put v (base + p.vaddr) p.len none) (base + p.vaddr) p.len (some (mapProtection p)) x = v x := by
      constructor
      · intro x hx
        exact if_pos hx
      · intro x hx
        exact (if_neg hx).trans (if_neg hx)
    refine ⟨hlo, hhi, hlo, hhi, ?_⟩
    split
    · split
      · exact ⟨rfl, hpost⟩
      · trivial
    · exact ⟨rfl, hpost⟩

theorem put_put (v : ℕ → Option Protection) (a n : ℕ) (c c' : Option Protection) : put (put v a n c) a n c' = put v a n c' := by
  funext x
  simp only [put]
  split <;> rfl

/-- a range given what it had -/
theorem put_same {a n : ℕ} {c : Option Protection} (h : ∀ x, Within a n x → v x = c) : put v a n c = v := by
  funext x
  simp only [put]
  split
  case isTrue hx => exact (h x hx).symm
  case isFalse => rfl

theorem liveAt_some {ranges : List LiveRange} {address : ℕ} {m : LiveRange} (h : liveAt ranges address = some m) :
    m ∈ ranges ∧ m.start ≤ address ∧ address < m.end_ := by
  obtain ⟨hlast, hlt⟩ := Option.filter_eq_some_iff.mp h
  have hmem := List.mem_of_getLast? hlast
  have hle := List.mem_takeWhile_imp hmem
  refine ⟨(List.takeWhile_sublist _).subset hmem, ?_, ?_⟩
  · simpa using hle
  · simpa using hlt

theorem leads_fill {page base : ℕ} {ranges : List LiveRange} {z : ZeroFill} (hp : 0 < page)
    (haligned : ∀ m ∈ ranges, page ∣ m.start) (hinside : ∀ m ∈ ranges, lo ≤ m.start ∧ m.end_ ≤ hi)
    (hshown : ∀ m ∈ ranges, ∀ x, m.start ≤ x → x < m.end_ → v x = some m.protection) :
    Leads lo hi (· = v) (fillCalls page base ranges z) none v := by
  rw [fillCalls]
  cases hstart : checkedAdd base z.vaddr with
  | none => trivial
  | some at_ =>
    simp only
    split
    · trivial
    cases hlive : liveAt ranges at_ with
    | none => trivial
    | some m =>
      obtain ⟨hm, hle, hlt⟩ := liveAt_some hlive
      obtain ⟨hlo, hhi⟩ := hinside m hm
      simp only
      split
      · exact ⟨rfl, rfl⟩
      · have hfrom : m.start ≤ pageDown at_ page := le_pageDown hp (haligned m hm) hle
        have hdown := pageDown_le at_ page
        have hup := le_roundUp hp (at_ + z.len)
        have hrange : lo ≤ pageDown at_ page ∧
            pageDown at_ page + (min (roundUp page (at_ + z.len)) m.end_ - pageDown at_ page) ≤ hi := by omega
        have hback : ∀ x, Within (pageDown at_ page) (min (roundUp page (at_ + z.len)) m.end_ - pageDown at_ page) x →
            v x = some m.protection := by
          intro x hx
          simp only [Within] at hx
          exact hshown m hm x (by omega) (by omega)
        refine ⟨hrange.1, hrange.2, hrange.1, hrange.2, rfl, ?_⟩
        exact (put_put _ _ _ _ _).trans (put_same hback)

/-- calls for relocations, and a last close: whatever windows they open are put back -/
theorem leads_feeds {R : Relocator} {cs : List Call} (hcs : ∀ c ∈ cs, (∃ r, c = .feed R r) ∨ c = .close ∨ ∃ e, c = .refuse e)
    (hR : R.Shown lo hi (closed w v)) : Leads lo hi (· = closed w v) (cs ++ [.close]) w v := by
  induction cs generalizing w v with
  | nil => exact ⟨rfl, rfl⟩
  | cons c cs ih =>
    have hrest : ∀ c ∈ cs, (∃ r, c = .feed R r) ∨ c = .close ∨ ∃ e, c = .refuse e :=
      fun c hc => hcs c (List.mem_cons_of_mem _ hc)
    rcases hcs c List.mem_cons_self with ⟨r, rfl⟩ | rfl | ⟨e, rfl⟩
    · refine ⟨hR, ?_⟩
      intro w' v' hsame
      rw [← hsame] at hR ⊢
      exact ih hrest hR
    · exact ih (w := none) hrest hR
    · trivial

theorem passCalls_each {R : Relocator} {p : Pass} {c : Call} (h : c ∈ passCalls R p) :
    (∃ r, c = .feed R r) ∨ c = .close ∨ ∃ e, c = .refuse e := by
  cases p with
  | stream rs implicit fails =>
    rcases List.mem_append.mp h with h | h
    · obtain ⟨r, -, rfl⟩ := List.mem_map.mp h
      exact .inl ⟨r, rfl⟩
    · cases fails with
      | none => exact .inr (.inl (List.mem_singleton.mp h))
      | some e => exact .inr (.inr ⟨_, List.mem_singleton.mp h⟩)
  | table t =>
    rcases List.mem_append.mp h with h | h
    · obtain ⟨r, -, rfl⟩ := List.mem_map.mp h
      exact .inl ⟨r, rfl⟩
    · exact .inr (.inl (List.mem_singleton.mp h))

theorem leads_relocations {job : Job} {base : ℕ} {ranges : List LiveRange}
    (haligned : ∀ m ∈ ranges, job.page ∣ m.start ∧ job.page ∣ m.end_) (hbound : ∀ m ∈ ranges, m.end_ < 2 ^ 64)
    (hinside : ∀ m ∈ ranges, lo ≤ m.start ∧ m.end_ ≤ hi)
    (hshown : ∀ m ∈ ranges, ∀ x, m.start ≤ x → x < m.end_ → v x = some m.protection) :
    Leads lo hi (· = v) (relocationCalls job base ranges) none v := by
  rw [relocationCalls]
  cases hnew : Relocator.new base ranges job.bindings job.relocationWindow job.page job.page_pos with
  | error e => trivial
  | ok R =>
    simp only [Relocator.new] at hnew
    split at hnew <;> cases hnew
    apply leads_feeds (w := none)
    · intro c hc
      obtain ⟨p, -, hc⟩ := List.mem_flatMap.mp hc
      exact passCalls_each hc
    · exact ⟨haligned, hbound, hinside, hshown⟩

/-! ## Final protections -/

/-- no part of the piece is sealed with nothing in it -/
def Piece.SealsSome (p : Piece) (start : ℕ) (relro : Option RelroRegion) : Prop :=
  ∀ r ∈ relro, r.sealed = true → r.start = r.end_ → ¬(start < r.start ∧ r.start < start + p.len)

/-- the protection an address of a piece ends at -/
def finalProtection (p : Piece) (relro : Option RelroRegion) (x : ℕ) : Protection :=
  if relro.any fun r => r.sealed && decide (r.start ≤ x ∧ x < r.end_) then sealedProtection p.rest else p.rest

theorem finalPieces_tile {p : Piece} {start : ℕ} {relro : Option RelroRegion} (hpos : 0 < p.len)
    (hle : ∀ r ∈ relro, r.start ≤ r.end_) (hsome : p.SealsSome start relro) :
    Tiles Prod.fst (fun t => t.2.1) start (finalPieces p start relro) (start + p.len) ∧
      ∀ t ∈ finalPieces p start relro, ∀ x, Within t.1 t.2.1 x → finalProtection p relro x = t.2.2 := by
  cases relro with
  | none => exact ⟨⟨rfl, hpos, rfl⟩, by simp [finalPieces, finalProtection]⟩
  | some r =>
    have hle := hle r rfl
    have hsome := hsome r rfl
    simp only [finalPieces, finalProtection, Option.filter, Option.any_some]
    by_cases hseal : (r.sealed && decide (r.start < start + p.len ∧ start < r.end_)) = true
    · simp only [hseal, if_true]
      simp only [Bool.and_eq_true, decide_eq_true_eq] at hseal
      obtain ⟨hsealed, hbefore, hafter⟩ := hseal
      have hsome := hsome hsealed
      constructor
      · apply @Tiles.append _ _ _ _ (min r.end_ (start + p.len))
        · apply @Tiles.append _ _ _ _ (max r.start start)
          · apply tiles_ifOne
            · intro hlt
              exact ⟨rfl, by simp only; omega, by simp only; omega⟩
            · intro hge
              omega
          · exact ⟨rfl, by simp only; omega, by simp only [Tiles]; omega⟩
        · apply tiles_ifOne
          · intro hlt
            exact ⟨rfl, by simp only; omega, by simp only; omega⟩
          · intro hge
            omega
      · intro t ht x hx
        simp only [hsealed, Bool.true_and, decide_eq_true_eq]
        simp only [List.mem_append, mem_ifOne, List.mem_singleton] at ht
        rcases ht with (⟨hlt, rfl⟩ | rfl) | ⟨hlt, rfl⟩
        · simp only [Within] at hx
          exact if_neg (by omega)
        · simp only [Within] at hx
          exact if_pos (by omega)
        · simp only [Within] at hx
          exact if_neg (by omega)
    · simp only [hseal, if_false, Bool.false_eq_true]
      refine ⟨⟨rfl, hpos, rfl⟩, ?_⟩
      intro t ht x hx
      obtain rfl := List.mem_singleton.mp ht
      simp only [Within] at hx
      simp only [Bool.and_eq_true, decide_eq_true_eq, not_and_or] at hseal
      apply if_neg
      simp only [Bool.and_eq_true, decide_eq_true_eq]
      rintro ⟨hsealed, hx'⟩
      rcases hseal with hseal | hseal
      · exact hseal hsealed
      · omega

/-- ranges laid end to end, protected where they are not yet as they are to be -/
theorem leads_protects {ts : List (ℕ × ℕ × Protection)} {a b : ℕ} {m : Protection} (hlo : lo ≤ a) (hhi : b ≤ hi)
    (htiles : Tiles Prod.fst (fun t => t.2.1) a ts b) (hv : ∀ x, a ≤ x → x < b → v x = some m) :
    Leads lo hi (fun v' => (∀ t ∈ ts, ∀ x, Within t.1 t.2.1 x → v' x = some t.2.2) ∧ ∀ x, ¬(a ≤ x ∧ x < b) → v' x = v x)
      ((ts.filter fun t => m != t.2.2).map fun t => .op (.protect t.1 t.2.1 t.2.2)) none v := by
  induction ts generalizing a v with
  | nil => exact ⟨rfl, by simp, fun x _ => rfl⟩
  | cons t ts ih =>
    obtain ⟨start, len, prot⟩ := t
    obtain ⟨rfl, hlen, htiles⟩ : start = a ∧ 0 < len ∧
        Tiles Prod.fst (fun t : ℕ × ℕ × Protection => t.2.1) (a + len) ts b := htiles
    have hend := htiles.le
    have hrest := ih (v := put v start len (some prot)) (by omega) htiles (by
      intro x hx hx'
      rw [put, if_neg (by simp only [Within]; omega)]
      exact hv x (by omega) hx')
    have hpost : ∀ v' : ℕ → Option Protection, ((∀ t ∈ ts, ∀ x, Within t.1 t.2.1 x → v' x = some t.2.2) ∧
        ∀ x, ¬(start + len ≤ x ∧ x < b) → v' x = put v start len (some prot) x) →
        (∀ t ∈ (start, len, prot) :: ts, ∀ x, Within t.1 t.2.1 x → v' x = some t.2.2) ∧
          ∀ x, ¬(start ≤ x ∧ x < b) → v' x = v x := by
      rintro v' ⟨hin, hout⟩
      constructor
      · intro t ht x hx
        rcases List.mem_cons.mp ht with rfl | ht
        · have hx : start ≤ x ∧ x < start + len := hx
          rw [hout x (by omega)]
          exact if_pos hx
        · exact hin t ht x hx
      · intro x hx
        rw [hout x (by omega)]
        exact if_neg (by simp only [Within]; omega)
    by_cases hsame : m = prot
    · -- mapped as it is to end: no call
      rw [List.filter_cons_of_neg (by simpa using hsame)]
      have hput : put v start len (some prot) = v := by
        apply put_same
        intro x hx
        simp only [Within] at hx
        rw [hv x hx.1 (by omega), hsame]
      rw [hput] at hrest hpost
      exact hrest.mono hpost
    · rw [List.filter_cons_of_pos (by simpa using hsame)]
      refine ⟨hlo, ?_, hrest.mono hpost⟩
      show start + len ≤ hi
      omega

theorem leads_final {base : ℕ} {relro : Option RelroRegion} {p : Piece} (hpos : 0 < p.len)
    (hle : ∀ r ∈ relro, r.start ≤ r.end_) (hsome : p.SealsSome (base + p.vaddr) relro) (hlo : lo ≤ base + p.vaddr)
    (hhi : base + p.vaddr + p.len ≤ hi) (hv : ∀ x, p.at base x → v x = some (mapProtection p)) :
    Leads lo hi (fun v' => (∀ x, p.at base x → v' x = some (finalProtection p relro x)) ∧ ∀ x, ¬p.at base x → v' x = v x)
      (finalCalls base relro p) none v := by
  obtain ⟨htiles, hprot⟩ := finalPieces_tile hpos hle hsome
  apply (leads_protects hlo hhi htiles fun x hx hx' => hv x ⟨hx, hx'⟩).mono
  rintro v' ⟨hin, hout⟩
  refine ⟨?_, hout⟩
  intro x hx
  obtain ⟨t, ht, hx'⟩ := (htiles.cover x).mpr hx
  rw [hprot t ht x hx']
  exact hin t ht x hx'

end Leads

/-! ## The whole load -/

theorem Job.start_ok {job : Job} {plan : LoadPlan} (h : job.start = .ok plan) :
    Built job.shift job.elf.segments job.elf.loadImage job.elf.data plan := by
  simp only [Job.start] at h
  split at h
  · cases h
  case isFalse hlen =>
    obtain ⟨built, hbuild, h⟩ := except_bind_ok.mp h
    split at h
    · cases h
    · cases h
      rw [not_not.mp hlen] at hbuild
      exact LoadPlan.build_ok job.valid hbuild

theorem relroRegion_ok {job : Job} {plan : LoadPlan} {base : ℕ} {relro : Option RelroRegion}
    (h : relroRegion job plan base = .ok relro) :
    relro = job.elf.relro.map fun seg => ⟨seg.p_vaddr, seg.p_memsz, base + pageDown seg.p_vaddr job.page,
      base + roundUp job.page (seg.p_vaddr + seg.p_memsz), job.sealRelro⟩ := by
  simp only [relroRegion] at h
  cases hseg : job.elf.relro with
  | none =>
    rw [hseg] at h
    cases h
    rfl
  | some seg =>
    simp only [hseg, checkedAdd] at h
    split at h
    · cases h
    rename_i hend
    split at hend <;> cases hend
    split at h
    · cases h
    split at h <;> cases h
    rename_i hfirst hlast
    split at hfirst <;> cases hfirst
    split at hlast <;> cases hlast
    rfl

/-- relro touches the page of an address of the image, unbiased -/
def Job.relroTouches (job : Job) (x : ℕ) : Bool :=
  job.elf.relro.any fun seg => decide (pageDown seg.p_vaddr job.page ≤ x ∧ x < roundUp job.page (seg.p_vaddr + seg.p_memsz))

theorem finalProtection_biased {job : Job} {plan : LoadPlan} {base : ℕ} {relro : Option RelroRegion}
    (h : relroRegion job plan base = .ok relro) (p : Piece) (x : ℕ) :
    finalProtection p relro (base + x) = if job.sealRelro && job.relroTouches x then sealedProtection p.rest else p.rest := by
  have hany : (relro.any fun r => r.sealed && decide (r.start ≤ base + x ∧ base + x < r.end_)) =
      (job.sealRelro && job.relroTouches x) := by
    rw [relroRegion_ok h, Option.any_map, Job.relroTouches]
    cases hseg : job.elf.relro with
    | none => simp
    | some seg => simp
  rw [finalProtection, hany]

/-- relro, where it is sealed, is not an empty range of pages inside a piece -/
def Job.SealsSome (job : Job) (plan : LoadPlan) : Prop :=
  ∀ seg ∈ job.elf.relro, job.sealRelro = true → pageDown seg.p_vaddr job.page = roundUp job.page (seg.p_vaddr + seg.p_memsz) →
    ∀ p ∈ plan.pieces, ¬(p.vaddr < pageDown seg.p_vaddr job.page ∧ pageDown seg.p_vaddr job.page < p.vaddr + p.len)

theorem relro_le {job : Job} {plan : LoadPlan} {base : ℕ} {relro : Option RelroRegion}
    (h : relroRegion job plan base = .ok relro) : ∀ r ∈ relro, r.start ≤ r.end_ := by
  intro r hr
  rw [relroRegion_ok h] at hr
  obtain ⟨seg, -, rfl⟩ := Option.mem_map.mp hr
  apply Nat.add_le_add_left
  exact (pageDown_le _ _).trans ((Nat.le_add_right _ _).trans (le_roundUp job.page_pos _))

theorem Job.SealsSome.piece {job : Job} {plan : LoadPlan} {base : ℕ} {relro : Option RelroRegion} (hsome : job.SealsSome plan)
    (h : relroRegion job plan base = .ok relro) {p : Piece} (hp : p ∈ plan.pieces) : p.SealsSome (base + p.vaddr) relro := by
  intro r hr hsealed hempty
  rw [relroRegion_ok h] at hr
  obtain ⟨seg, hseg, rfl⟩ := Option.mem_map.mp hr
  simp only at hsealed hempty ⊢
  have := hsome seg hseg hsealed (by omega) p hp
  omega

/-- a span reserved for a plan -/
structure Reserved (job : Job) (plan : LoadPlan) (reserved : ℕ) : Prop where
  start : job.start = .ok plan
  align : plan.baseAlign ∣ reserved
  bound : reserved + plan.span < 2 ^ 64

theorem Reserved.piece {job : Job} {plan : LoadPlan} {reserved : ℕ} (h : Reserved job plan reserved)
    (hle : plan.imageStart ≤ reserved) {p : Piece} (hp : p ∈ plan.pieces) :
    reserved ≤ reserved - plan.imageStart + p.vaddr ∧
      reserved - plan.imageStart + p.vaddr + p.len ≤ reserved + plan.span := by
  have hbuilt := Job.start_ok h.start
  have := hbuilt.inside job.valid hp
  have := hbuilt.span
  omega

theorem Reserved.dvd_base {job : Job} {plan : LoadPlan} {reserved : ℕ} (h : Reserved job plan reserved) :
    job.page ∣ reserved - plan.imageStart := by
  have hbuilt := Job.start_ok h.start
  exact Nat.dvd_sub (hbuilt.dvd_align.trans h.align) (hbuilt.dvd_align.trans hbuilt.dvd_start)

theorem mem_live {base : ℕ} {plan : LoadPlan} {m : LiveRange} : m ∈ live base plan ↔ ∃ p ∈ plan.pieces, liveRange base p = m := by
  rw [live, (List.perm_insertionSort _ _).mem_iff, List.mem_map]

/-- the pieces mapped, and the rest of the span inaccessible -/
structure Mapped (plan : LoadPlan) (reserved : ℕ) (prot : Piece → ℕ → Protection) (v : ℕ → Option Protection) : Prop where
  pieces : ∀ p ∈ plan.pieces, ∀ x, p.at (reserved - plan.imageStart) x → v x = some (prot p x)
  holes : ∀ x, reserved ≤ x → x < reserved + plan.span → (∀ p ∈ plan.pieces, ¬p.at (reserved - plan.imageStart) x) →
    v x = some .none

theorem leads_script {job : Job} {plan : LoadPlan} {reserved : ℕ} {v : ℕ → Option Protection} (h : Reserved job plan reserved)
    (hsome : job.SealsSome plan) (hv : ∀ x, reserved ≤ x → x < reserved + plan.span → v x = some .none) :
    Leads reserved (reserved + plan.span) (fun v => plan.imageStart ≤ reserved ∧
      relroRegion job plan (reserved - plan.imageStart) = .ok (loadedObject job plan reserved).relro ∧
      Mapped plan reserved (fun p => finalProtection p (loadedObject job plan reserved).relro) v)
      (script job plan reserved) none v := by
  have hbuilt := Job.start_ok h.start
  rw [script]
  split
  · trivial
  rename_i hle
  have hle : plan.imageStart ≤ reserved := not_lt.mp hle
  simp only [loadedObject]
  cases hrelro : relroRegion job plan (reserved - plan.imageStart) with
  | error e => trivial
  | ok relro =>
    have hin : ∀ p ∈ plan.pieces, reserved ≤ reserved - plan.imageStart + p.vaddr ∧
        reserved - plan.imageStart + p.vaddr + p.len ≤ reserved + plan.span := fun p hp => h.piece hle hp
    have hdvd := h.dvd_base
    have hbound := h.bound
    simp only [Except.toOption, Option.join_some]
    generalize hbase : reserved - plan.imageStart = base at *
    have hpieces : Leads reserved (reserved + plan.span) (Mapped plan reserved fun p _ => mapProtection p)
        (plan.pieces.flatMap (pieceCalls job.elf.data base)) none v := by
      apply (leads_pieces (fun _ _ => some .none) (fun p _ => some (mapProtection p)) hbuilt.all.pairwise
        (fun p hp v _ => leads_piece (hin p hp).1 (hin p hp).2) ?_).mono
      · rintro v' ⟨hmapped, hrest⟩
        refine ⟨hbase ▸ hmapped, ?_⟩
        intro x hx hx' hno
        rw [hrest x (hbase ▸ hno)]
        exact hv x hx hx'
      · intro p hp x hx
        have := hin p hp
        simp only [Piece.at, Within] at hx
        exact hv x (by omega) (by omega)
    have hranges : ∀ v, Mapped plan reserved (fun p _ => mapProtection p) v → ∀ m ∈ live base plan,
        (job.page ∣ m.start ∧ job.page ∣ m.end_) ∧ m.end_ < 2 ^ 64 ∧ (reserved ≤ m.start ∧ m.end_ ≤ reserved + plan.span) ∧
          ∀ x, m.start ≤ x → x < m.end_ → v x = some m.protection := by
      intro v hmapped m hm
      obtain ⟨p, hp, rfl⟩ := mem_live.mp hm
      have hwhole := hbuilt.all.whole p hp
      have hbounds := hin p hp
      refine ⟨⟨Nat.dvd_add hdvd hwhole.vaddr_dvd, Nat.dvd_add (Nat.dvd_add hdvd hwhole.vaddr_dvd) hwhole.len_dvd⟩, ?_,
        hbounds, ?_⟩
      · show base + p.vaddr + p.len < 2 ^ 64
        omega
      · intro x hx hx'
        exact hmapped.pieces p hp x (hbase ▸ ⟨hx, hx'⟩)
    have hfills : ∀ v, Mapped plan reserved (fun p _ => mapProtection p) v → Leads reserved (reserved + plan.span)
        (Mapped plan reserved fun p _ => mapProtection p)
        (plan.zeroFills.flatMap (fillCalls job.page base (live base plan))) none v := by
      intro v hmapped
      apply Leads.flatMap _ hmapped
      intro z _ v hmapped
      have hall := hranges v hmapped
      apply (leads_fill job.page_pos (fun m hm => (hall m hm).1.1) (fun m hm => (hall m hm).2.2.1)
        (fun m hm => (hall m hm).2.2.2)).mono
      rintro v' rfl
      exact hmapped
    have hrelocations : ∀ v, Mapped plan reserved (fun p _ => mapProtection p) v → Leads reserved (reserved + plan.span)
        (Mapped plan reserved fun p _ => mapProtection p) (relocationCalls job base (live base plan)) none v := by
      intro v hmapped
      have hall := hranges v hmapped
      apply (leads_relocations (fun m hm => (hall m hm).1) (fun m hm => (hall m hm).2.1) (fun m hm => (hall m hm).2.2.1)
        (fun m hm => (hall m hm).2.2.2)).mono
      rintro v' rfl
      exact hmapped
    have hfinal : ∀ v, Mapped plan reserved (fun p _ => mapProtection p) v → Leads reserved (reserved + plan.span)
        (fun v => plan.imageStart ≤ reserved ∧ True ∧
          Mapped plan reserved (fun p => finalProtection p relro) v)
        (plan.pieces.flatMap (finalCalls base relro)) none v := by
      intro v hmapped
      apply (leads_pieces (fun p _ => some (mapProtection p)) (fun p x => some (finalProtection p relro x))
        hbuilt.all.pairwise ?_ (hbase ▸ hmapped.pieces)).mono
      · rintro v' ⟨hdone, hrest⟩
        refine ⟨hle, trivial, hbase ▸ hdone, ?_⟩
        intro x hx hx' hno
        rw [hrest x (hbase ▸ hno)]
        exact hmapped.holes x hx hx' hno
      · intro p hp v hpv
        exact leads_final (hbuilt.all.pos p hp) (relro_le hrelro) (hsome.piece hrelro hp) (hin p hp).1 (hin p hp).2 hpv
    have hwork : ∀ (post : (ℕ → Option Protection) → Prop) (v), post v →
        Leads reserved (reserved + plan.span) post [.work] none v := fun _ _ hv => ⟨rfl, hv⟩
    exact (((((hpieces.append hfills).append (hwork _)).append hrelocations).append (hwork _)).append hfinal).append (hwork _)

/-- the ranges are the pieces in parts: none empty, ascending, and each in the piece it says -/
structure RangesTile (plan : LoadPlan) (base : ℕ) (relro : Option RelroRegion) (ranges : List MappedRange) : Prop where
  nonempty : ∀ r ∈ ranges, r.start < r.end_
  apart : ranges.Pairwise fun r r' => r.end_ ≤ r'.start
  tile : ∀ x, (∃ r ∈ ranges, r.start ≤ x ∧ x < r.end_) ↔ ∃ p ∈ plan.pieces, p.at base x
  part : ∀ r ∈ ranges, ∃ p ∈ plan.pieces, r.segment = p.segment ∧ base + p.vaddr ≤ r.start ∧
    r.end_ ≤ base + p.vaddr + p.len ∧ ∀ x, r.start ≤ x → x < r.end_ → finalProtection p relro x = r.rest

theorem loadedRanges_tile {job : Job} {plan : LoadPlan} {reserved : ℕ} (h : Reserved job plan reserved)
    (hsome : job.SealsSome plan)
    (hrelro : relroRegion job plan (reserved - plan.imageStart) = .ok (loadedObject job plan reserved).relro) :
    RangesTile plan (reserved - plan.imageStart) (loadedObject job plan reserved).relro
      (loadedObject job plan reserved).ranges := by
  have hbuilt := Job.start_ok h.start
  have hranges : (loadedObject job plan reserved).ranges = (plan.pieces.flatMap (pieceRanges (reserved - plan.imageStart)
      (loadedObject job plan reserved).relro)).insertionSort fun r r' => r.start ≤ r'.start := rfl
  generalize (loadedObject job plan reserved).relro = relro at *
  generalize reserved - plan.imageStart = base at *
  rw [hranges]
  have htiles : ∀ p ∈ plan.pieces, _ := fun p hp =>
    finalPieces_tile (hbuilt.all.pos p hp) (relro_le hrelro) (hsome.piece hrelro hp)
  have hmem : ∀ r, r ∈ plan.pieces.flatMap (pieceRanges base relro) ↔ ∃ p ∈ plan.pieces,
      ∃ t ∈ finalPieces p (base + p.vaddr) relro, r = ⟨p.segment, t.1, t.1 + t.2.1, t.2.2, p.anonymous, match p.source with
        | .file offset => some (offset + (t.1 - (base + p.vaddr)))
        | _ => none⟩ := by
    intro r
    simp only [List.mem_flatMap, pieceRanges, List.mem_map, eq_comm]
  have hnonempty : ∀ r ∈ plan.pieces.flatMap (pieceRanges base relro), r.start < r.end_ := by
    intro r hr
    obtain ⟨p, hp, t, ht, rfl⟩ := (hmem r).mp hr
    have := ((htiles p hp).1.bounds ht).2.2
    simp only
    omega
  have hapart : (plan.pieces.flatMap (pieceRanges base relro)).Pairwise fun r r' => r.end_ ≤ r'.start := by
    apply List.pairwise_flatMap.mpr
    constructor
    · intro p hp
      exact List.pairwise_map.mpr (htiles p hp).1.pairwise
    · apply hbuilt.all.pairwise.imp_of_mem
      intro p q hp hq hpq r hr r' hr'
      obtain ⟨t, ht, rfl⟩ := List.mem_map.mp hr
      obtain ⟨t', ht', rfl⟩ := List.mem_map.mp hr'
      have := ((htiles p hp).1.bounds ht).2.1
      have := ((htiles q hq).1.bounds ht').1
      simp only
      omega
  have hsorted : (plan.pieces.flatMap (pieceRanges base relro)).insertionSort (fun r r' => r.start ≤ r'.start) =
      plan.pieces.flatMap (pieceRanges base relro) := by
    apply List.Pairwise.insertionSort_eq
    apply hapart.imp_of_mem
    intro r r' hr hr' hle
    exact (hnonempty r hr).le.trans hle
  rw [hsorted]
  refine ⟨hnonempty, hapart, ?_, ?_⟩
  · intro x
    constructor
    · rintro ⟨r, hr, hx⟩
      obtain ⟨p, hp, t, ht, rfl⟩ := (hmem r).mp hr
      exact ⟨p, hp, ((htiles p hp).1.cover x).mp ⟨t, ht, hx⟩⟩
    · rintro ⟨p, hp, hx⟩
      obtain ⟨t, ht, hx⟩ := ((htiles p hp).1.cover x).mpr hx
      exact ⟨_, (hmem _).mpr ⟨p, hp, t, ht, rfl⟩, hx⟩
  · intro r hr
    obtain ⟨p, hp, t, ht, rfl⟩ := (hmem r).mp hr
    obtain ⟨hlo, hhi, -⟩ := (htiles p hp).1.bounds ht
    exact ⟨p, hp, rfl, hlo, hhi, fun x hx hx' => (htiles p hp).2 t ht x ⟨hx, hx'⟩⟩

/-- where relro is sealed and an empty range of pages inside a piece, the object has an empty range -/
theorem empty_range {job : Job} {plan : LoadPlan} {reserved : ℕ} (hsome : ¬job.SealsSome plan)
    (hrelro : relroRegion job plan (reserved - plan.imageStart) = .ok (loadedObject job plan reserved).relro) :
    ∃ r ∈ (loadedObject job plan reserved).ranges, r.start = r.end_ := by
  have hranges : (loadedObject job plan reserved).ranges = (plan.pieces.flatMap (pieceRanges (reserved - plan.imageStart)
      (loadedObject job plan reserved).relro)).insertionSort fun r r' => r.start ≤ r'.start := rfl
  generalize (loadedObject job plan reserved).relro = relro at *
  generalize reserved - plan.imageStart = base at *
  have hregion := relroRegion_ok hrelro
  simp only [Job.SealsSome, not_forall, not_not] at hsome
  obtain ⟨seg, hseg, hseal, hempty, p, hp, hlo, hhi⟩ := hsome
  rw [Option.mem_def.mp hseg, Option.map_some, hseal, ← hempty] at hregion
  have hpart : (base + pageDown seg.p_vaddr job.page, 0, sealedProtection p.rest) ∈ finalPieces p (base + p.vaddr) relro := by
    rw [hregion, finalPieces, Option.filter, if_pos (by simp only [Bool.true_and, decide_eq_true_eq]; omega)]
    simp only [List.mem_append, List.mem_singleton, Prod.mk.injEq]
    refine .inl (.inr ⟨?_, ?_, trivial⟩)
    · omega
    · omega
  rw [hranges]
  refine ⟨_, (List.perm_insertionSort _ _).mem_iff.mpr
    (List.mem_flatMap.mpr ⟨p, hp, List.mem_map.mpr ⟨_, hpart, rfl⟩⟩), rfl⟩

end Omnidroid.Elf
