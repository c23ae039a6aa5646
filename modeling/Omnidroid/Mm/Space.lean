/-
A guest's address space (`omni-mem/src/space.rs`, `space/subpage_ops.rs`) as the guest sees it: pages of the guest's size,
each with a protection, what is behind it and its bytes. The host's pages come in only where a placement is rounded to
them; the placeholders, views and aliases that hold the pages up are left out, and the host is taken to carry out what the
space asks of it, a commit apart (`Host.commits`).
- `Mem`: the pages there are, none outside the space or in a range that the host holds.
- `unmap`, `protect`, `discard`, `mapAnonymous`: the operations, each its checks and one change of the pages.
- `read`, `write`: the checked copies of `omni-linux/src/guest.rs`.
- `Mem.seen`: what is at an address. Each change has its `seen_` lemma, and proofs go by these.
-/
import Omnidroid.Lib.Pages
import Omnidroid.Errno

namespace Omnidroid.Mm

/-! ## Pages -/

inductive Protection where
  | none | read | readWrite | readExecute | readWriteExecute
deriving DecidableEq, Repr

def Protection.isReadable : Protection → Bool
  | .none => false
  | _ => true

def Protection.isWritable : Protection → Bool
  | .readWrite | .readWriteExecute => true
  | _ => false

def Protection.isExecutable : Protection → Bool
  | .readExecute | .readWriteExecute => true
  | _ => false

/-- what is behind a page -/
inductive Kind where
  | anonymous
  | file (shared : Bool)
deriving DecidableEq, Repr

structure Page where
  protection : Protection
  kind : Kind
  /-- committed memory or a view: `held_ranges` reports it -/
  held : Bool
  /-- in a shared view, wholly past its file's end as the file is now -/
  pastEnd : Bool
  byte : ℕ → UInt8
  /-- what is not held reads zero -/
  zero : held = false → byte = fun _ => 0

namespace Page

/-- a page of fresh anonymous memory -/
def fresh (prot : Protection) : Page := ⟨prot, .anonymous, false, false, fun _ => 0, fun _ => rfl⟩

/-- the protection `region_at` reports: none past the file's end -/
def regionProtection (p : Page) : Protection := if p.pastEnd then .none else p.protection

/-- bytes written into it; it is held from then on -/
def write (p : Page) (byte : ℕ → UInt8) : Page :=
  { p with byte := byte, held := true, zero := fun h => absurd h Bool.noConfusion }

def zeroed (p : Page) : Page := { p with byte := fun _ => 0, zero := fun _ => rfl }

/-- whether a discard takes its bytes: a file view keeps them, but for a private one whose host page is kept in parts -/
def drops (p : Page) (tracked : Bool) : Bool :=
  match p.kind with
  | .anonymous => true
  | .file shared => tracked && !shared

end Page

/-! ## Spaces -/

/-- what a space is built with -/
structure Space where
  /-- the page the guest maps, protects and unmaps at -/
  page : ℕ
  hostPage : ℕ
  base : ℕ
  stop : ℕ
  /-- a search for room that starts above it does not wrap below it -/
  floor : ℕ
  /-- the pages, by number, that the host holds -/
  host : ℕ → Bool
  page_pos : 0 < page
  page_le : page ≤ 2 ^ 56
  hostPage_pos : 0 < hostPage
  small_dvd : 4096 ∣ page
  page_dvd : page ∣ hostPage
  /-- the host's page is a power of two -/
  hostPage_pow : hostPage ∣ 2 ^ 64
  base_dvd : hostPage ∣ base
  stop_dvd : hostPage ∣ stop
  host_inside : ∀ q, host q = true → base ≤ q * page ∧ q * page < stop
  /-- every address leaves the tag's byte clear -/
  stop_le : stop ≤ 2 ^ 56

namespace Space

variable (S : Space)

def contains (a n : ℕ) : Bool := decide (S.base ≤ a ∧ a ≤ S.stop ∧ n ≤ S.stop - a)

/-- the pages that the guest may have: of the space, and not the host's -/
def owned (q : ℕ) : Bool := decide (S.base ≤ q * S.page ∧ q * S.page < S.stop) && !S.host q

/-- `refuse_host`: some of the range is the host's -/
def reachesHost (a n : ℕ) : Bool := (pageNumbers S.page a n).any S.host

/-- the pages that a copy of `n` bytes at `a` touches -/
def touched (a n : ℕ) : List ℕ := List.range' (a / S.page) ((a + n + (S.page - 1)) / S.page - a / S.page)

end Space

/-- guest pages of 4 KiB from the second host page on, none of them the host's -/
def Space.plain (hostPage stop : ℕ) (hpos : 0 < hostPage) (hpage : 4096 ∣ hostPage) (hpow : hostPage ∣ 2 ^ 64)
    (hstop : hostPage ∣ stop) (hle : stop ≤ 2 ^ 56) : Space where
  page := 4096
  hostPage := hostPage
  base := hostPage
  stop := stop
  floor := 0
  host _ := false
  page_pos := by decide
  page_le := by decide
  hostPage_pos := hpos
  small_dvd := dvd_refl _
  page_dvd := hpage
  hostPage_pow := hpow
  base_dvd := dvd_refl _
  stop_dvd := hstop
  host_inside _ h := absurd h Bool.noConfusion
  stop_le := hle

/-- a space of `n` pages from the second on -/
def pages (n : ℕ) (hn : n ≤ 8) : Space :=
  Space.plain 4096 (4096 * (n + 1)) (by decide) (dvd_refl _) (by decide) (Dvd.intro _ rfl) (by omega)

/-- how the host answers -/
structure Host where
  /-- the memory that a write of so many bytes at an address still needs can be committed -/
  commits : ℕ → ℕ → Bool
  /-- a page's host page is kept in parts, by page number -/
  tracked : ℕ → Bool

/-- one that answers everything -/
def willing : Host := ⟨fun _ _ => true, fun _ => false⟩

/-- the pages of a space, by number -/
structure Mem (S : Space) where
  page : ℕ → Option Page
  /-- where the last search for room ended -/
  cursor : ℕ
  inside : ∀ q p, page q = some p → S.owned q = true

inductive MemError where
  | zeroSize | misaligned | outsideSpace | hostOwned | notMapped | addressTaken | noSpace | platform
deriving DecidableEq, Repr

namespace Mem

variable {S : Space}

/-- what is at an address: its protection and its byte, where a page is mapped -/
def seen (m : Mem S) (x : ℕ) : Option (Protection × UInt8) :=
  (m.page (x / S.page)).map fun p => (p.protection, p.byte (x % S.page))

def byteAt (m : Mem S) (x : ℕ) : UInt8 := ((m.seen x).map Prod.snd).getD 0

/-- a discard takes the byte at an address -/
def dropped (m : Mem S) (tracked : ℕ → Bool) (x : ℕ) : Bool :=
  (m.page (x / S.page)).any fun p => p.drops (tracked (x / S.page))

/-- every page of the range is free, and the guest's to have -/
def free (m : Mem S) (a n : ℕ) : Bool :=
  S.contains a n && (pageNumbers S.page a n).all fun q => S.owned q && (m.page q).isNone

/-- every page of the range is mapped -/
def whole (m : Mem S) (a n : ℕ) : Bool := (pageNumbers S.page a n).all fun q => (m.page q).isSome

/-- every page there is changed or taken away -/
def alter (m : Mem S) (f : ℕ → Page → Option Page) : Mem S where
  page q := (m.page q).bind (f q)
  cursor := m.cursor
  inside q p h := by
    obtain ⟨p', hp', -⟩ := Option.bind_eq_some_iff.mp h
    exact m.inside q p' hp'

/-- the range without its pages -/
def cleared (m : Mem S) (a n : ℕ) : Mem S :=
  m.alter fun q p => if Within a n (q * S.page) then none else some p

def reprotected (m : Mem S) (a n : ℕ) (prot : Protection) : Mem S :=
  m.alter fun q p => some (if Within a n (q * S.page) then { p with protection := prot } else p)

/-- the range's bytes given up, where its pages drop them -/
def discarded (m : Mem S) (tracked : ℕ → Bool) (a n : ℕ) : Mem S :=
  m.alter fun q p => some (if Within a n (q * S.page) ∧ p.drops (tracked q) = true then p.zeroed else p)

def written (m : Mem S) (a n : ℕ) (bytes : ℕ → UInt8) : Mem S :=
  m.alter fun q p => some
    (if q * S.page < a + n ∧ a < q * S.page + S.page then
      p.write fun i => if Within a n (q * S.page + i) then bytes (q * S.page + i - a) else p.byte i
    else p)

/-- the range with pages of its own, where the guest may have them -/
def mapped (m : Mem S) (a n : ℕ) (page : ℕ → Page) : Mem S where
  page q := if Within a n (q * S.page) ∧ S.owned q = true then some (page q) else m.page q
  cursor := m.cursor
  inside q p h := by
    split at h
    case isTrue hq => exact hq.2
    case isFalse => exact m.inside q p h

end Mem

/-! ## The operations -/

section Operations

variable {S : Space}

/-- `check_guest_range`: the length in whole pages -/
def checkGuestRange (S : Space) (a n : ℕ) : Except MemError ℕ :=
  if n = 0 then .error .zeroSize
  else if a % S.page ≠ 0 then .error .misaligned
  else if S.contains a (roundUp S.page n) then .ok (roundUp S.page n)
  else .error .outsideSpace

def Space.unmap (a n : ℕ) : EStateM MemError (Mem S) Unit := fun m =>
  match checkGuestRange S a n with
  | .error e => .error e m
  | .ok n => if S.reachesHost a n then .error .hostOwned m else .ok () (m.cleared a n)

def Space.protect (a n : ℕ) (prot : Protection) : EStateM MemError (Mem S) Unit := fun m =>
  match checkGuestRange S a n with
  | .error e => .error e m
  | .ok n =>
    if S.reachesHost a n then .error .hostOwned m
    else if m.whole a n then .ok () (m.reprotected a n prot)
    else .error .notMapped m

/-- `discard`, at 4 KiB whatever the page -/
def Space.discard (H : Host) (a n : ℕ) : EStateM MemError (Mem S) Unit := fun m =>
  if n = 0 then .error .zeroSize m
  else if a % 4096 ≠ 0 then .error .misaligned m
  else if !S.contains a (roundUp 4096 n) then .error .outsideSpace m
  else if S.reachesHost a (roundUp 4096 n) then .error .hostOwned m
  else .ok () (m.discarded H.tracked a (roundUp 4096 n))

/-- the first free range of the length that starts at a host page from `from_` on -/
def Mem.firstFree (m : Mem S) (n from_ : ℕ) : Option ℕ :=
  ((List.range ((S.stop - from_) / S.hostPage + 1)).map fun i => roundUp S.hostPage from_ + i * S.hostPage).find?
    fun a => m.free a n

/-- `find_free`: from an address on, then from the bottom; a search from above the floor does not go below it -/
def Mem.search (m : Mem S) (n from_ : ℕ) : Option ℕ :=
  (m.firstFree n from_).or (m.firstFree n (if S.floor ≤ from_ then S.floor else S.base))

def findFree (n from_ : ℕ) : EStateM MemError (Mem S) ℕ := fun m =>
  match m.search n from_ with
  | some a => .ok a { m with cursor := a + n }
  | none => .error .noSpace m

/-- where a mapping is to be; one that the space chooses is aligned to a host page -/
inductive Placement where
  | fixed (address : ℕ)
  | hint (address : ℕ)
  | anywhere
deriving DecidableEq, Repr

/-- whole host pages, all free -/
def place (placement : Placement) (n : ℕ) : EStateM MemError (Mem S) ℕ := fun m =>
  match placement with
  | .fixed a =>
    if a % S.hostPage ≠ 0 then .error .misaligned m
    else if !S.contains a n then .error .outsideSpace m
    else if m.free a n then .ok a m
    else .error .addressTaken m
  | .hint a =>
    if a % S.hostPage = 0 ∧ S.contains a n ∧ m.free a n then .ok a m else findFree n a m
  | .anywhere => findFree n m.cursor m

/-- `map_anonymous`: a fixed mapping is exact to the guest's page; another one has host pages of its own, and what it does
not use of the last is a hole -/
def mapAnonymous (placement : Placement) (n : ℕ) (prot : Protection) : EStateM MemError (Mem S) ℕ := fun m =>
  match placement with
  | .fixed a =>
    match checkGuestRange S a n with
    | .error e => .error e m
    | .ok n => if m.free a n then .ok a (m.mapped a n fun _ => .fresh prot) else .error .addressTaken m
  | placed =>
    match checkGuestRange S S.base n with
    | .error e => .error e m
    | .ok n =>
      match place placed (roundUp S.hostPage n) m with
      | .error e m => .error e m
      | .ok a m => .ok a (m.mapped a n fun _ => .fresh prot)

/-- `region_at` -/
def Mem.regionAt (m : Mem S) (x : ℕ) : Option Protection := (m.page (x / S.page)).map Page.regionProtection

/-- the runs of what is held among the pages of a range, in order, each from where to where -/
def Mem.heldRuns (m : Mem S) : List ℕ → List (ℕ × ℕ)
  | [] => []
  | q :: qs =>
    if (m.page q).any Page.held then
      match Mem.heldRuns m qs with
      | [] => [(q * S.page, q * S.page + S.page)]
      | (s, e) :: rest =>
        if s = q * S.page + S.page then (q * S.page, e) :: rest
        else (q * S.page, q * S.page + S.page) :: (s, e) :: rest
    else Mem.heldRuns m qs

def Mem.heldRanges (m : Mem S) (a n : ℕ) : List (ℕ × ℕ) := m.heldRuns (pageNumbers S.page a n)

/-! ## Checked copies -/

/-- `scan`: every page of the copy is mapped and lets it -/
def Mem.allows (m : Mem S) (write : Bool) (a n : ℕ) : Bool :=
  n == 0 || (S.contains a n && (S.touched a n).all fun q => (m.page q).any fun p =>
    if write then p.regionProtection.isWritable else p.regionProtection.isReadable)

/-- `GuestMem::read`; what is not committed is answered as zeros, without a commit -/
def read (a n : ℕ) : EStateM Errno (Mem S) (ℕ → UInt8) := fun m =>
  if m.allows false a n then .ok (fun i => m.byteAt (a + i)) m else .error EFAULT m

/-- `GuestMem::write` -/
def write (H : Host) (a n : ℕ) (bytes : ℕ → UInt8) : EStateM Errno (Mem S) Unit := fun m =>
  if !m.allows true a n then .error EFAULT m
  else if n ≠ 0 ∧ !H.commits a n then .error EFAULT m
  else .ok () (m.written a n bytes)

end Operations

/-! ## What each change leaves at an address -/

section Seen

variable {S : Space} {m : Mem S} {a n : ℕ}

theorem Space.page_mul_add (S : Space) (x : ℕ) : x / S.page * S.page + x % S.page = x := by
  rw [Nat.mul_comm]
  exact Nat.div_add_mod x S.page

theorem seen_cleared (ha : S.page ∣ a) (hn : S.page ∣ n) (x : ℕ) :
    (m.cleared a n).seen x = if Within a n x then none else m.seen x := by
  simp only [Mem.seen, Mem.cleared, Mem.alter, within_page S.page_pos ha hn]
  by_cases hx : Within a n x <;> simp [hx]

theorem seen_reprotected (ha : S.page ∣ a) (hn : S.page ∣ n) (prot : Protection) (x : ℕ) :
    (m.reprotected a n prot).seen x = if Within a n x then (m.seen x).map fun c => (prot, c.2) else m.seen x := by
  simp only [Mem.seen, Mem.reprotected, Mem.alter, within_page S.page_pos ha hn]
  by_cases hx : Within a n x <;> cases m.page (x / S.page) <;> simp [hx]

theorem seen_written (bytes : ℕ → UInt8) (x : ℕ) :
    (m.written a n bytes).seen x = if Within a n x then (m.seen x).map fun c => (c.1, bytes (x - a)) else m.seen x := by
  have hx := S.page_mul_add x
  have hlt := Nat.mod_lt x S.page_pos
  simp only [Mem.seen, Mem.written, Mem.alter]
  cases m.page (x / S.page) with
  | none => simp
  | some p =>
    simp only [Option.bind_some, Option.map_some]
    by_cases ht : x / S.page * S.page < a + n ∧ a < x / S.page * S.page + S.page
    · simp only [ht, and_self, if_true, Page.write, hx]
      by_cases hw : Within a n x <;> simp [hw]
    · have hw : ¬Within a n x := by
        simp only [Within]
        omega
      simp [ht, hw]

theorem seen_discarded (tracked : ℕ → Bool) (ha : S.page ∣ a) (hn : S.page ∣ n) (x : ℕ) :
    (m.discarded tracked a n).seen x =
      if Within a n x then (m.seen x).map fun c => (c.1, if m.dropped tracked x then 0 else c.2) else m.seen x := by
  have hw := within_page S.page_pos ha hn x
  cases hp : m.page (x / S.page) with
  | none => simp [Mem.seen, Mem.discarded, Mem.alter, hp]
  | some p =>
    have hdrop : m.dropped tracked x = p.drops (tracked (x / S.page)) := by simp [Mem.dropped, hp]
    simp only [Mem.seen, Mem.discarded, Mem.alter, hp, hdrop, Option.bind_some, Option.map_some]
    by_cases hx : Within a n x
    · by_cases hd : p.drops (tracked (x / S.page)) = true <;> simp [hw.mpr hx, hx, hd, Page.zeroed]
    · simp [mt hw.mp hx, hx]

theorem free_iff (ha : S.page ∣ a) (hn : S.page ∣ n) :
    m.free a n = true ↔
      S.contains a n = true ∧ ∀ q, Within a n (q * S.page) → S.owned q = true ∧ m.page q = none := by
  simp only [Mem.free, Bool.and_eq_true, List.all_eq_true, mem_pageNumbers S.page_pos ha hn, Option.isNone_iff_eq_none]

theorem whole_iff (ha : S.page ∣ a) (hn : S.page ∣ n) :
    m.whole a n = true ↔ ∀ q, Within a n (q * S.page) → (m.page q).isSome = true := by
  simp only [Mem.whole, List.all_eq_true, mem_pageNumbers S.page_pos ha hn]

theorem whole_iff_seen (ha : S.page ∣ a) (hn : S.page ∣ n) :
    m.whole a n = true ↔ ∀ x, Within a n x → (m.seen x).isSome = true := by
  rw [whole_iff ha hn]
  constructor
  · intro h x hx
    simpa [Mem.seen] using h (x / S.page) ((within_page S.page_pos ha hn x).mpr hx)
  · intro h q hq
    have := h (q * S.page) hq
    simpa [Mem.seen, Nat.mul_div_cancel _ S.page_pos] using this

theorem reachesHost_iff (ha : S.page ∣ a) (hn : S.page ∣ n) :
    S.reachesHost a n = true ↔ ∃ q, Within a n (q * S.page) ∧ S.host q = true := by
  simp only [Space.reachesHost, List.any_eq_true, mem_pageNumbers S.page_pos ha hn]

theorem seen_mapped (hf : m.free a n = true) (ha : S.page ∣ a) (hn : S.page ∣ n) (page : ℕ → Page) (x : ℕ) :
    (m.mapped a n page).seen x =
      if Within a n x then some ((page (x / S.page)).protection, (page (x / S.page)).byte (x % S.page)) else m.seen x := by
  simp only [Mem.seen, Mem.mapped, within_page S.page_pos ha hn]
  by_cases hx : Within a n x
  · have hq := ((free_iff ha hn).mp hf).2 _ ((within_page S.page_pos ha hn x).mpr hx)
    simp [hx, hq.1]
  · simp [hx]

theorem seen_of_free (hf : m.free a n = true) (ha : S.page ∣ a) (hn : S.page ∣ n) {x : ℕ} (hx : Within a n x) :
    m.seen x = none := by
  have hq := ((free_iff ha hn).mp hf).2 _ ((within_page S.page_pos ha hn x).mpr hx)
  simp [Mem.seen, hq.2]

end Seen

/-! ## What is mapped is the guest's -/

section Inside

variable {S : Space} {m : Mem S} {a n : ℕ}

theorem owned_iff {q : ℕ} : S.owned q = true ↔ (S.base ≤ q * S.page ∧ q * S.page < S.stop) ∧ S.host q = false := by
  simp [Space.owned]

/-- a mapped page ends inside the space -/
theorem page_end_le {q : ℕ} (h : S.owned q = true) : q * S.page + S.page ≤ S.stop := by
  obtain ⟨k, hk⟩ := S.page_dvd.trans S.stop_dvd
  have hlt := (owned_iff.mp h).1.2
  rw [hk, Nat.mul_comm] at hlt
  have := Nat.mul_le_mul_left S.page (Nat.lt_of_mul_lt_mul_left hlt)
  rw [hk]
  rw [Nat.succ_eq_add_one, Nat.mul_add, Nat.mul_one, Nat.mul_comm] at this
  exact this

theorem not_reachesHost_of_whole (ha : S.page ∣ a) (hn : S.page ∣ n) (h : m.whole a n = true) :
    S.reachesHost a n = false := by
  rw [Bool.eq_false_iff, Ne, reachesHost_iff ha hn]
  rintro ⟨q, hq, hh⟩
  obtain ⟨p, hp⟩ := Option.isSome_iff_exists.mp ((whole_iff ha hn).mp h q hq)
  have := (owned_iff.mp (m.inside q p hp)).2
  rw [hh] at this
  exact Bool.noConfusion this

theorem contains_of_whole (hpos : 0 < n) (ha : S.page ∣ a) (hn : S.page ∣ n) (h : m.whole a n = true) :
    S.contains a n = true := by
  have mapped : ∀ q, Within a n (q * S.page) → S.owned q = true := fun q hq => by
    obtain ⟨p, hp⟩ := Option.isSome_iff_exists.mp ((whole_iff ha hn).mp h q hq)
    exact m.inside q p hp
  obtain ⟨i, rfl⟩ := ha
  obtain ⟨k, rfl⟩ := hn
  have hk : 0 < k := Nat.pos_of_mul_pos_left hpos
  have first := mapped i ⟨by rw [Nat.mul_comm], by rw [Nat.mul_comm]; omega⟩
  have last := mapped (i + k - 1) (by
    have : S.page * (i + k - 1) + S.page = S.page * i + S.page * k := by
      rw [← Nat.mul_add, ← Nat.mul_succ]
      congr 1
      omega
    have := S.page_pos
    have : S.page * i ≤ S.page * (i + k - 1) := Nat.mul_le_mul_left _ (by omega)
    rw [Nat.mul_comm (i + k - 1)]
    simp only [Within]
    omega)
  have hend := page_end_le last
  have hb := (owned_iff.mp first).1.1
  have : (i + k - 1) * S.page + S.page = S.page * i + S.page * k := by
    rw [← Nat.mul_add, ← Nat.succ_mul, Nat.mul_comm]
    congr 1
    omega
  rw [Nat.mul_comm] at hb
  simp only [Space.contains, decide_eq_true_eq]
  omega

end Inside

/-! ## Copies -/

section Copies

variable {S : Space} {m m' : Mem S} {a n : ℕ}

theorem mem_touched (hpos : 0 < n) {q : ℕ} :
    q ∈ S.touched a n ↔ q * S.page < a + n ∧ a < q * S.page + S.page := by
  have hp := S.page_pos
  have lo : a / S.page ≤ q ↔ a < q * S.page + S.page := by
    rw [← Nat.lt_succ_iff, Nat.div_lt_iff_lt_mul hp, Nat.succ_mul]
  have hi : q < (a + n + (S.page - 1)) / S.page ↔ q * S.page < a + n := by
    rw [← Nat.succ_le_iff, Nat.le_div_iff_mul_le hp, Nat.succ_mul]
    omega
  have hle : a / S.page ≤ (a + n + (S.page - 1)) / S.page := Nat.div_le_div_right (by omega)
  rw [Space.touched, List.mem_range'_1, ← lo, ← hi]
  omega

/-- a touched page has an address of the copy in it -/
theorem touched_address (hpos : 0 < n) {q : ℕ} (h : q ∈ S.touched a n) : ∃ x, Within a n x ∧ x / S.page = q := by
  obtain ⟨h₁, h₂⟩ := (mem_touched hpos).mp h
  have hp := S.page_pos
  refine ⟨max a (q * S.page), ⟨le_max_left _ _, ?_⟩, ?_⟩
  · rw [max_lt_iff]
    omega
  · rw [Nat.div_eq_iff hp]
    omega

/-- a copy goes by the pages it touches -/
theorem allows_congr (hpos : 0 < n) (h : ∀ x, Within a n x → m'.page (x / S.page) = m.page (x / S.page)) (w : Bool) :
    m'.allows w a n = m.allows w a n := by
  have hall : ∀ q ∈ S.touched a n, m'.page q = m.page q := fun q hq => by
    obtain ⟨x, hx, rfl⟩ := touched_address hpos hq
    exact h x hx
  rw [Bool.eq_iff_iff]
  simp only [Mem.allows, Bool.or_eq_true, Bool.and_eq_true, List.all_eq_true]
  refine or_congr Iff.rfl (and_congr Iff.rfl (forall₂_congr fun q hq => ?_))
  rw [hall q hq]

/-- the addresses of the runs are those on the held pages -/
theorem heldRuns_lt (l : List ℕ) : ∀ r ∈ m.heldRuns l, r.1 < r.2 := by
  have hp := S.page_pos
  induction l with
  | nil => simp [Mem.heldRuns]
  | cons q qs ih =>
    simp only [Mem.heldRuns]
    split
    · cases hruns : m.heldRuns qs with
      | nil =>
        simp
        omega
      | cons r rest =>
        obtain ⟨s, e⟩ := r
        rw [hruns] at ih
        have hr := ih (s, e) List.mem_cons_self
        simp only
        split
        · intro r' hr'
          rcases List.mem_cons.mp hr' with rfl | hr'
          · simp only at hr ⊢
            omega
          · exact ih r' (List.mem_cons_of_mem _ hr')
        · intro r' hr'
          rcases List.mem_cons.mp hr' with rfl | hr'
          · simp only
            omega
          · exact ih r' hr'
    · exact ih

theorem heldRuns_cover (l : List ℕ) (x : ℕ) :
    (∃ r ∈ m.heldRuns l, r.1 ≤ x ∧ x < r.2) ↔ x / S.page ∈ l ∧ (m.page (x / S.page)).any Page.held = true := by
  have hp := S.page_pos
  have page_iff : ∀ q, x / S.page = q ↔ q * S.page ≤ x ∧ x < q * S.page + S.page := fun q => by
    rw [Nat.div_eq_iff hp]
    omega
  induction l with
  | nil => simp [Mem.heldRuns]
  | cons q qs ih =>
    simp only [Mem.heldRuns]
    by_cases hq : (m.page q).any Page.held = true
    · have here : x / S.page = q → (x / S.page ∈ q :: qs ∧ (m.page (x / S.page)).any Page.held = true) := by
        intro h
        rw [h]
        exact ⟨List.mem_cons_self, hq⟩
      have split_mem : (x / S.page ∈ q :: qs ∧ (m.page (x / S.page)).any Page.held = true) ↔
          x / S.page = q ∨ ∃ r ∈ m.heldRuns qs, r.1 ≤ x ∧ x < r.2 := by
        rw [List.mem_cons]
        constructor
        · rintro ⟨h | h, hh⟩
          · exact .inl h
          · exact .inr (ih.mpr ⟨h, hh⟩)
        · rintro (h | h)
          · exact ⟨.inl h, (here h).2⟩
          · exact ⟨.inr (ih.mp h).1, (ih.mp h).2⟩
      rw [split_mem, page_iff, if_pos hq]
      have hlt := heldRuns_lt (m := m) qs
      cases hruns : m.heldRuns qs with
      | nil => simp
      | cons r rest =>
        obtain ⟨s, e⟩ := r
        rw [hruns] at hlt
        have hse := hlt (s, e) List.mem_cons_self
        simp only at hse ⊢
        split
        case isTrue hs =>
          -- the page and the run after it are one run
          simp only [List.mem_cons, exists_eq_or_imp]
          rw [← or_assoc]
          refine or_congr ?_ Iff.rfl
          omega
        case isFalse => simp only [List.mem_cons, exists_eq_or_imp]
    · rw [if_neg hq, List.mem_cons]
      constructor
      · intro h
        exact ⟨.inr (ih.mp h).1, (ih.mp h).2⟩
      · rintro ⟨h | h, hh⟩
        · rw [h] at hh
          exact absurd hh hq
        · exact ih.mpr ⟨h, hh⟩

theorem heldRanges_cover (ha : S.page ∣ a) (hn : S.page ∣ n) (x : ℕ) :
    (∃ r ∈ m.heldRanges a n, r.1 ≤ x ∧ x < r.2) ↔
      Within a n x ∧ (m.page (x / S.page)).any Page.held = true := by
  rw [Mem.heldRanges, heldRuns_cover, mem_pageNumbers S.page_pos ha hn, within_page S.page_pos ha hn]

/-- the runs go by which pages are held -/
theorem heldRuns_congr {l : List ℕ} (h : ∀ q ∈ l, (m'.page q).any Page.held = (m.page q).any Page.held) :
    m'.heldRuns l = m.heldRuns l := by
  induction l with
  | nil => rfl
  | cons q qs ih =>
    simp only [Mem.heldRuns, h q List.mem_cons_self, ih fun q' hq' => h q' (List.mem_cons_of_mem _ hq')]

end Copies

end Omnidroid.Mm
