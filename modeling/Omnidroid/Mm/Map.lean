/-
The mappings of a guest process (`omni-linux/src/mm.rs`, `Mm`): what `munmap`, `mprotect`, `MADV_DONTNEED` and `mmap` ask
of the space, with their checks and errors. Every one of them holds the layout lock for as long as it runs, so each is one
change; the names of the mappings, for `/proc/<pid>/maps`, are left out.
- `unmapLocked_ok`, `unmap_eq`, `protect_ok`, `discard_eq`: what each does over whole pages.
- `mapAnonymous_chosen`, `mapAnonymous_fixed`: fresh memory, where there is room.
- `prepare_ok`: the part of `mmap` that is the same for every kind of mapping.
-/
import Omnidroid.Lib.Answers
import Omnidroid.Mm.Space

namespace Omnidroid.Mm

def PROT_READ : ℕ := 1
def PROT_WRITE : ℕ := 2
def PROT_EXEC : ℕ := 4

def MAP_SHARED : ℕ := 0x1
def MAP_FIXED : ℕ := 0x10
def MAP_FIXED_NOREPLACE : ℕ := 0x100000

def protection (prot : ℕ) : Protection :=
  if prot &&& PROT_WRITE ≠ 0 then
    if prot &&& PROT_EXEC ≠ 0 then .readWriteExecute else .readWrite
  else if prot &&& PROT_EXEC ≠ 0 then .readExecute
  else if prot &&& PROT_READ ≠ 0 then .read
  else .none

def protBits : Protection → ℕ
  | .none => 0
  | .read => PROT_READ
  | .readWrite => PROT_READ ||| PROT_WRITE
  | .readExecute => PROT_READ ||| PROT_EXEC
  | .readWriteExecute => PROT_READ ||| PROT_WRITE ||| PROT_EXEC

@[simp] theorem protection_protBits (prot : Protection) : protection (protBits prot) = prot := by
  cases prot <;> decide

/-- an address without its tag -/
def untag (a : ℕ) : ℕ := a % 2 ^ 56

def mapErr {ε ε' σ α : Type} (f : ε → ε') (x : EStateM ε σ α) : EStateM ε' σ α := fun s =>
  match x s with
  | .ok a s => .ok a s
  | .error e s => .error (f e) s

def onlyIf {ε σ : Type} (c : Bool) (x : EStateM ε σ Unit) : EStateM ε σ Unit := if c then x else pure ()

/-- what a step answered, its changes kept either way -/
def attempt {ε ε' σ α : Type} (x : EStateM ε σ α) : EStateM ε' σ (Except ε α) := fun s =>
  match x s with
  | .ok a s => .ok (.ok a) s
  | .error e s => .ok (.error e) s

section Answers

variable {ε ε' σ α : Type} {s s' : σ}

theorem mapErr_ok {f : ε → ε'} {x : EStateM ε σ α} {a : α} : mapErr f x s = .ok a s' ↔ x s = .ok a s' := by
  simp only [mapErr]
  cases x s <;> simp

theorem onlyIf_ok {c : Bool} {x : EStateM ε σ Unit} :
    onlyIf c x s = .ok () s' ↔ if c then x s = .ok () s' else s = s' := by
  cases c with
  | false => simp [onlyIf, pure, EStateM.pure]
  | true => rfl

theorem attempt_ok {x : EStateM ε σ α} {r : Except ε α} :
    (attempt x : EStateM ε' σ (Except ε α)) s = .ok r s' ↔
      match r with
      | .ok a => x s = .ok a s'
      | .error e => x s = .error e s' := by
  simp only [attempt]
  cases x s <;> cases r <;> simp

end Answers

/-- the length in whole pages, where the range fits in the 56 bits of a user address -/
def Space.span (S : Space) (addr len : ℕ) : Option ℕ :=
  if 2 ^ 64 ≤ len + (S.page - 1) then none
  else if addr + roundUp S.page len ≤ 2 ^ 56 then some (roundUp S.page len)
  else none

structure MapRequest where
  addr : ℕ
  len : ℕ
  prot : ℕ
  flags : ℕ
  offset : ℕ

def MapRequest.replaces (req : MapRequest) : Bool := req.flags &&& MAP_FIXED != 0
def MapRequest.fixed (req : MapRequest) : Bool := req.flags &&& (MAP_FIXED ||| MAP_FIXED_NOREPLACE) != 0

section Mappings

variable {S : Space}

/-- the mapped pages of the list given up in order, up to the first that the host holds -/
def unmapPages : List ℕ → EStateM Errno (Mem S) Unit
  | [] => fun m => .ok () m
  | q :: qs => fun m => if S.host q then .error EINVAL m else unmapPages qs (m.cleared (q * S.page) S.page)

def unmapLocked (addr len : ℕ) : EStateM Errno (Mem S) Unit := unmapPages (pageNumbers S.page addr len)

def unmap (addr len : ℕ) : EStateM Errno (Mem S) Unit :=
  let addr := untag addr
  if addr % S.page ≠ 0 ∨ len = 0 then throw EINVAL
  else match S.span addr len with
    | none => throw EINVAL
    | some len => unmapLocked addr len

def protect (addr len prot : ℕ) : EStateM Errno (Mem S) Unit :=
  let addr := untag addr
  if addr % S.page ≠ 0 then throw EINVAL
  else match S.span addr len with
    | none => throw EINVAL
    | some len => if len = 0 then pure () else mapErr (fun _ => ENOMEM) (S.protect addr len (protection prot))

def discard (H : Host) (addr len : ℕ) : EStateM Errno (Mem S) Unit :=
  mapErr (fun _ => EINVAL) (S.discard H addr len)

/-- without a hint: above 4 GiB where the space reaches there -/
def Space.chosen (S : Space) (len : ℕ) : Placement :=
  if S.base < 2 ^ 32 ∧ 2 ^ 32 + len < S.stop then .hint (2 ^ 32) else .anywhere

/-- where `mmap` puts a mapping -/
def placement (S : Space) (req : MapRequest) (len : ℕ) : Except Errno Placement :=
  if req.fixed then .ok (.fixed req.addr)
  else if req.addr ≠ 0 then
    let hint := untag req.addr
    if hint < 2 ^ 32 ∧ !S.contains hint len then .error ENOMEM else .ok (.hint (hint / S.page * S.page))
  else .ok (S.chosen len)

/-- `mmap` up to where it looks at what is to be mapped: its checks, and `MAP_FIXED`'s unmapping -/
def prepare (req : MapRequest) : EStateM Errno (Mem S) (ℕ × Placement) :=
  if req.len = 0 ∨ req.offset % S.page ≠ 0 then throw EINVAL
  else match S.span (untag req.addr) req.len with
    | none => throw ENOMEM
    | some len =>
      if req.fixed ∧ req.addr % S.page ≠ 0 then throw EINVAL
      else match placement S req len with
        | .error e => throw e
        | .ok placement => do
          if req.replaces then unmapLocked req.addr len
          pure (len, placement)

/-- `refused_fixed` -/
def MapRequest.refused (req : MapRequest) (e : Errno) : Errno := if req.fixed then EEXIST else e

/-- `mmap` of anonymous memory -/
def mapMemory (req : MapRequest) : EStateM Errno (Mem S) ℕ := do
  let (len, placement) ← prepare req
  mapErr (fun _ => req.refused ENOMEM) (mapAnonymous placement len (protection req.prot))

end Mappings

/-! ## Over whole pages -/

section Whole

variable {S : Space} {m : Mem S} {a n : ℕ}

/-- two states that have the same pages and look for room from the same place -/
theorem Mem.ext_page {m₁ m₂ : Mem S} (h : m₁.page = m₂.page) (hc : m₁.cursor = m₂.cursor) : m₁ = m₂ := by
  obtain ⟨p₁, c₁, i₁⟩ := m₁
  obtain ⟨p₂, c₂, i₂⟩ := m₂
  simp only at h hc
  subst h hc
  rfl

theorem cleared_cleared {k l : ℕ} : (m.cleared a k).cleared (a + k) l = m.cleared a (k + l) := by
  refine Mem.ext_page (funext fun q => ?_) rfl
  simp only [Mem.cleared, Mem.alter]
  cases hp : m.page q with
  | none => rfl
  | some p =>
    simp only [Option.bind_some]
    by_cases h₁ : Within a k (q * S.page)
    · have : Within a (k + l) (q * S.page) := ⟨h₁.1, by have := h₁.2; omega⟩
      simp [h₁, this]
    · have : Within a (k + l) (q * S.page) ↔ Within (a + k) l (q * S.page) := by
        simp only [Within] at h₁ ⊢
        omega
      simp [h₁, this]

theorem cleared_zero : m.cleared a 0 = m := by
  refine Mem.ext_page (funext fun q => ?_) rfl
  simp only [Mem.cleared, Mem.alter, within_zero, if_false]
  cases m.page q <;> rfl

/-- the pages from the first of a list of neighbours on, until one that the host holds -/
theorem unmapPages_eq (s k : ℕ) (m : Mem S) :
    (∃ j < k, S.host (s + j) = true ∧ (∀ i < j, S.host (s + i) = false) ∧
      unmapPages (List.range' s k) m = .error EINVAL (m.cleared (s * S.page) (j * S.page))) ∨
    ((∀ i < k, S.host (s + i) = false) ∧
      unmapPages (List.range' s k) m = .ok () (m.cleared (s * S.page) (k * S.page))) := by
  induction k generalizing s m with
  | zero =>
    right
    simp [unmapPages, cleared_zero]
  | succ k ih =>
    rw [List.range'_succ]
    simp only [unmapPages]
    cases hh : S.host s with
    | true =>
      left
      exact ⟨0, Nat.succ_pos k, by simpa using hh, by simp, by simp [cleared_zero]⟩
    | false =>
      have shift : ∀ j, (m.cleared (s * S.page) S.page).cleared ((s + 1) * S.page) (j * S.page) =
          m.cleared (s * S.page) ((j + 1) * S.page) := fun j => by
        rw [Nat.succ_mul s, cleared_cleared, Nat.succ_mul j, Nat.add_comm]
      have below : ∀ {j}, (∀ i < j, S.host (s + 1 + i) = false) → ∀ i < j + 1, S.host (s + i) = false := by
        intro j h i hi
        cases i with
        | zero => exact hh
        | succ i => simpa [Nat.add_assoc, Nat.add_comm 1 i] using h i (by omega)
      rcases ih (s + 1) (m.cleared (s * S.page) S.page) with ⟨j, hj, hs, hb, he⟩ | ⟨hb, he⟩
      · left
        refine ⟨j + 1, by omega, by simpa [Nat.add_assoc, Nat.add_comm 1 j] using hs, below hb, ?_⟩
        simp [he, shift]
      · right
        refine ⟨below hb, ?_⟩
        simp [he, shift]

theorem unmapLocked_ok (ha : S.page ∣ a) (hn : S.page ∣ n) (h : S.reachesHost a n = false) :
    unmapLocked a n m = .ok () (m.cleared a n) := by
  have hp := S.page_pos
  have hfree : ∀ q, Within a n (q * S.page) → S.host q = false := fun q hq => by
    by_contra hh
    have := (reachesHost_iff ha hn).mpr ⟨q, hq, by simpa using hh⟩
    rw [h] at this
    exact Bool.noConfusion this
  obtain ⟨i, rfl⟩ := ha
  obtain ⟨k, rfl⟩ := hn
  rw [unmapLocked, pageNumbers, Nat.mul_div_cancel_left _ hp, Nat.mul_div_cancel_left _ hp]
  rcases unmapPages_eq i k m with ⟨j, hj, hs, -, -⟩ | ⟨-, he⟩
  · have hw : Within (S.page * i) (S.page * k) ((i + j) * S.page) := by
      have h₁ := Nat.mul_lt_mul_of_pos_left (k := S.page) hj hp
      simp only [Within]
      rw [Nat.mul_comm (i + j), Nat.mul_add]
      omega
    rw [hfree _ hw] at hs
    exact Bool.noConfusion hs
  · rw [he, Nat.mul_comm i, Nat.mul_comm k]

/-- the error comes at the first page that the host holds, when the pages before it are gone -/
theorem unmapLocked_host (ha : S.page ∣ a) (hn : S.page ∣ n) (h : S.reachesHost a n = true) :
    ∃ q, Within a n (q * S.page) ∧ S.host q = true ∧ (∀ i < q, Within a n (i * S.page) → S.host i = false) ∧
      unmapLocked a n m = .error EINVAL (m.cleared a (q * S.page - a)) := by
  have hp := S.page_pos
  obtain ⟨q, hq, hh⟩ := (reachesHost_iff ha hn).mp h
  obtain ⟨i, rfl⟩ := ha
  obtain ⟨k, rfl⟩ := hn
  rw [unmapLocked, pageNumbers, Nat.mul_div_cancel_left _ hp, Nat.mul_div_cancel_left _ hp]
  have bounds : ∀ {q}, Within (S.page * i) (S.page * k) (q * S.page) ↔ i ≤ q ∧ q < i + k := fun {q} => by
    simp only [Within, ← Nat.mul_add]
    rw [Nat.mul_comm q, Nat.mul_le_mul_left_iff hp, Nat.mul_lt_mul_left hp]
  rcases unmapPages_eq i k m with ⟨j, hj, hs, hb, he⟩ | ⟨hb, -⟩
  · refine ⟨i + j, bounds.mpr ⟨by omega, by omega⟩, hs, fun l hl hw => ?_, ?_⟩
    · have := bounds.mp hw
      have h := hb (l - i) (by omega)
      rwa [show i + (l - i) = l by omega] at h
    · rw [he, Nat.add_mul, Nat.mul_comm i, Nat.add_sub_cancel_left]
  · have := bounds.mp hq
    have h := hb (q - i) (by omega)
    rw [show i + (q - i) = q by omega, hh] at h
    exact Bool.noConfusion h

theorem unmapLocked_inv {m' : Mem S} (ha : S.page ∣ a) (hn : S.page ∣ n) (h : unmapLocked a n m = .ok () m') :
    m' = m.cleared a n := by
  by_cases hh : S.reachesHost a n = true
  · obtain ⟨_, _, _, _, he⟩ := unmapLocked_host (m := m) ha hn hh
    rw [he] at h
    cases h
  · rw [unmapLocked_ok ha hn (by simpa using hh)] at h
    cases h
    rfl

theorem untag_of_lt (h : a < 2 ^ 56) : untag a = a := Nat.mod_eq_of_lt h

theorem untag_lt (a : ℕ) : untag a < 2 ^ 56 := Nat.mod_lt _ (by decide)

theorem span_eq_some {addr len l : ℕ} (h : S.span addr len = some l) :
    l = roundUp S.page len ∧ addr + l ≤ 2 ^ 56 := by
  simp only [Space.span] at h
  split at h
  · cases h
  · split at h
    · cases h
      exact ⟨rfl, ‹_›⟩
    · cases h

/-- a length in whole pages is its own span -/
theorem span_whole (hn : S.page ∣ n) (hle : a + n ≤ 2 ^ 56) : S.span a n = some n := by
  have hr := roundUp_of_dvd S.page_pos hn
  have hsmall : ¬2 ^ 64 ≤ n + (S.page - 1) := by
    have := S.page_le
    omega
  unfold Space.span
  rw [if_neg hsmall, hr, if_pos hle]

/-- a range of whole pages in the space passes the checks of an operation -/
theorem checkGuestRange_whole (hpos : 0 < n) (ha : S.page ∣ a) (hn : S.page ∣ n) :
    checkGuestRange S a n = if S.contains a n then .ok n else .error .outsideSpace := by
  simp [checkGuestRange, Nat.ne_of_gt hpos, Nat.mod_eq_zero_of_dvd ha, roundUp_of_dvd S.page_pos hn]

theorem unmap_eq (hpos : 0 < n) (ha : S.page ∣ a) (hn : S.page ∣ n) (hle : a + n ≤ 2 ^ 56) :
    (unmap a n : EStateM Errno (Mem S) Unit) = unmapLocked a n := by
  simp [unmap, untag_of_lt (show a < 2 ^ 56 by omega), Nat.ne_of_gt hpos, Nat.mod_eq_zero_of_dvd ha, span_whole hn hle]

theorem reprotected_zero (prot : Protection) : m.reprotected a 0 prot = m := by
  refine Mem.ext_page (funext fun q => ?_) rfl
  simp only [Mem.reprotected, Mem.alter, within_zero, if_false]
  cases m.page q <;> rfl

theorem protect_ok (ha : S.page ∣ a) (hn : S.page ∣ n) (hle : a + n ≤ 2 ^ 56) (hlt : a < 2 ^ 56)
    (hw : m.whole a n = true) (prot : ℕ) :
    protect a n prot m = .ok () (m.reprotected a n (protection prot)) := by
  unfold protect
  simp only [untag_of_lt hlt, Nat.mod_eq_zero_of_dvd ha, ne_eq, not_true_eq_false, if_false, span_whole hn hle]
  by_cases hpos : n = 0
  · subst hpos
    simp [reprotected_zero, pure, EStateM.pure]
  · have hpos : 0 < n := by omega
    simp [hpos.ne', mapErr, Space.protect, checkGuestRange_whole hpos ha hn, contains_of_whole hpos ha hn hw,
      not_reachesHost_of_whole ha hn hw, hw]

/-- a hole refuses the whole range -/
theorem protect_hole (ha : S.page ∣ a) (hn : S.page ∣ n) (hle : a + n ≤ 2 ^ 56) (hlt : a < 2 ^ 56)
    (hw : m.whole a n = false) (prot : ℕ) : protect a n prot m = .error ENOMEM m := by
  have hpos : 0 < n := by
    rcases Nat.eq_zero_or_pos n with rfl | h
    · simp [Mem.whole, pageNumbers] at hw
    · exact h
  unfold protect
  simp only [untag_of_lt hlt, Nat.mod_eq_zero_of_dvd ha, ne_eq, not_true_eq_false, if_false, span_whole hn hle, hpos.ne',
    mapErr, Space.protect, checkGuestRange_whole hpos ha hn]
  by_cases hc : S.contains a n = true <;> by_cases hh : S.reachesHost a n = true <;> simp [hc, hh, hw]

theorem discard_eq (H : Host) (hpos : 0 < n) (ha : S.page ∣ a) (hn : S.page ∣ n) (m : Mem S) :
    discard H a n m =
      if S.contains a n && !S.reachesHost a n then .ok () (m.discarded H.tracked a n) else .error EINVAL m := by
  have hr := roundUp_of_dvd (by decide) (S.small_dvd.trans hn)
  have hm := Nat.mod_eq_zero_of_dvd (S.small_dvd.trans ha)
  simp only [discard, mapErr, Space.discard, hpos.ne', hm, hr, ne_eq, not_true_eq_false, if_false]
  by_cases hc : S.contains a n = true <;> by_cases hh : S.reachesHost a n = true <;> simp [hc, hh]

end Whole

/-! ## Room -/

section Room

variable {S : Space} {m : Mem S} {a n : ℕ}

theorem firstFree_some {from_ : ℕ} (h : m.firstFree n from_ = some a) : m.free a n = true ∧ S.hostPage ∣ a := by
  refine ⟨by simpa using List.find?_some h, ?_⟩
  obtain ⟨i, -, rfl⟩ := List.mem_map.mp (List.mem_of_find?_eq_some h)
  exact Nat.dvd_add (dvd_roundUp _ _) (Dvd.intro_left _ rfl)

theorem search_some {from_ : ℕ} (h : m.search n from_ = some a) : m.free a n = true ∧ S.hostPage ∣ a := by
  unfold Mem.search at h
  rcases Option.or_eq_some_iff.mp h with h | ⟨-, h⟩
  · exact firstFree_some h
  · exact firstFree_some h

/-- the host pages that the space chooses for a placement of its own -/
def Mem.room (m : Mem S) (placement : Placement) (n : ℕ) : Option ℕ :=
  match placement with
  | .fixed _ => none
  | .hint a => if a % S.hostPage = 0 ∧ S.contains a n ∧ m.free a n then some a else m.search n a
  | .anywhere => m.search n m.cursor

theorem room_some {placement : Placement} (h : m.room placement n = some a) : m.free a n = true ∧ S.hostPage ∣ a := by
  cases placement with
  | fixed => cases h
  | hint b =>
    simp only [Mem.room] at h
    split at h
    case isTrue hb =>
      cases h
      exact ⟨hb.2.2, Nat.dvd_of_mod_eq_zero hb.1⟩
    case isFalse => exact search_some h
  | anywhere => exact search_some h

/-- where the space puts a mapping of `n` bytes that may be anywhere -/
def Mem.roomFor (m : Mem S) (n : ℕ) : Option ℕ :=
  if S.contains S.base n then m.room (S.chosen n) (roundUp S.hostPage n) else none

theorem free_mono {k : ℕ} (ha : S.page ∣ a) (hn : S.page ∣ n) (hk : S.page ∣ k) (hle : n ≤ k)
    (h : m.free a k = true) : m.free a n = true := by
  obtain ⟨hc, hq⟩ := (free_iff ha hk).mp h
  refine (free_iff ha hn).mpr ⟨?_, fun q hw => hq q ⟨hw.1, by have := hw.2; omega⟩⟩
  simp only [Space.contains, decide_eq_true_eq] at hc ⊢
  omega

theorem roomFor_some (hn : S.page ∣ n) (h : m.roomFor n = some a) : m.free a n = true ∧ S.page ∣ a := by
  simp only [Mem.roomFor] at h
  split at h
  · obtain ⟨hf, hd⟩ := room_some h
    have hd := S.page_dvd.trans hd
    exact ⟨free_mono hd hn (S.page_dvd.trans (dvd_roundUp _ _)) (le_roundUp S.hostPage_pos n) hf, hd⟩
  · cases h

theorem place_eq (placement : Placement) (hp : ∀ b, placement ≠ .fixed b) :
    (∃ c b, m.room placement n = some b ∧ place placement n m = .ok b { m with cursor := c }) ∨
    ∃ e, m.room placement n = none ∧ place placement n m = .error e m := by
  have found : ∀ from_, (∃ c b, m.search n from_ = some b ∧ findFree n from_ m = .ok b { m with cursor := c }) ∨
      ∃ e, m.search n from_ = none ∧ findFree n from_ m = .error e m := fun from_ => by
    unfold findFree
    cases m.search n from_ with
    | some b => exact .inl ⟨_, b, rfl, rfl⟩
    | none => exact .inr ⟨_, rfl, rfl⟩
  cases placement with
  | fixed b => exact absurd rfl (hp b)
  | hint b =>
    simp only [Mem.room, place]
    split
    · exact .inl ⟨m.cursor, b, rfl, rfl⟩
    · exact found b
  | anywhere => exact found m.cursor

theorem chosen_ne_fixed (n b : ℕ) : S.chosen n ≠ .fixed b := by
  unfold Space.chosen
  split <;> simp

/-- memory where the space chooses -/
theorem mapAnonymous_chosen (hpos : 0 < n) (hn : S.page ∣ n) (prot : Protection) :
    (∃ c b, m.roomFor n = some b ∧ mapAnonymous (S.chosen n) n prot m =
      .ok b (Mem.mapped { m with cursor := c } b n fun _ => .fresh prot)) ∨
    ∃ e, m.roomFor n = none ∧ mapAnonymous (S.chosen n) n prot m = .error e m := by
  have hc := checkGuestRange_whole hpos (S.page_dvd.trans S.base_dvd) hn
  have hp := place_eq (m := m) (n := roundUp S.hostPage n) (S.chosen n) (chosen_ne_fixed n)
  unfold mapAnonymous Mem.roomFor
  cases hch : S.chosen n with
  | fixed b => exact absurd hch (chosen_ne_fixed n b)
  | hint b =>
    rw [hch] at hp
    simp only [hc]
    by_cases hcon : S.contains S.base n = true
    · simp only [hcon, if_true]
      rcases hp with ⟨c, b, hr, he⟩ | ⟨e, hr, he⟩
      · exact .inl ⟨c, b, hr, by rw [he]⟩
      · exact .inr ⟨e, hr, by rw [he]⟩
    · exact .inr ⟨.outsideSpace, by simp [hcon], by simp [hcon]⟩
  | anywhere =>
    rw [hch] at hp
    simp only [hc]
    by_cases hcon : S.contains S.base n = true
    · simp only [hcon, if_true]
      rcases hp with ⟨c, b, hr, he⟩ | ⟨e, hr, he⟩
      · exact .inl ⟨c, b, hr, by rw [he]⟩
      · exact .inr ⟨e, hr, by rw [he]⟩
    · exact .inr ⟨.outsideSpace, by simp [hcon], by simp [hcon]⟩

/-- memory at an address whose range is free -/
theorem mapAnonymous_fixed (hpos : 0 < n) (ha : S.page ∣ a) (hn : S.page ∣ n) (prot : Protection) :
    mapAnonymous (.fixed a) n prot m =
      if S.contains a n then
        if m.free a n then .ok a (m.mapped a n fun _ => .fresh prot) else .error .addressTaken m
      else .error .outsideSpace m := by
  simp only [mapAnonymous, checkGuestRange_whole hpos ha hn]
  by_cases hc : S.contains a n = true <;> simp [hc]

/-- a range given up is free, where it is of the space and none of it the host's -/
theorem free_cleared (ha : S.page ∣ a) (hn : S.page ∣ n) (hc : S.contains a n = true)
    (hh : S.reachesHost a n = false) : (m.cleared a n).free a n = true := by
  refine (free_iff ha hn).mpr ⟨hc, fun q hq => ⟨owned_iff.mpr ⟨?_, ?_⟩, ?_⟩⟩
  · simp only [Space.contains, decide_eq_true_eq] at hc
    simp only [Within] at hq
    omega
  · by_contra h
    rw [Bool.eq_false_iff, Ne, reachesHost_iff ha hn] at hh
    exact hh ⟨q, hq, by simpa using h⟩
  · simp only [Mem.cleared, Mem.alter, hq, if_true]
    cases m.page q <;> rfl

/-- the room there is goes by which pages there are -/
theorem free_congr {m' : Mem S} (h : ∀ q, (m'.page q).isNone = (m.page q).isNone) (a n : ℕ) : m'.free a n = m.free a n := by
  simp only [Mem.free, h]

theorem roomFor_congr {m' : Mem S} (h : ∀ q, (m'.page q).isNone = (m.page q).isNone) (hc : m'.cursor = m.cursor)
    (n : ℕ) : m'.roomFor n = m.roomFor n := by
  have hfree := free_congr h
  have hsearch : ∀ k from_, m'.search k from_ = m.search k from_ := fun k from_ => by
    simp only [Mem.search, Mem.firstFree, hfree]
  have hroom : ∀ pl k, m'.room pl k = m.room pl k := fun pl k => by
    cases pl <;> simp only [Mem.room, hfree, hsearch, hc]
  simp only [Mem.roomFor, hroom]

end Room

/-! ## The checks of a mapping -/

section Checks

variable {S : Space} {m m' : Mem S} {len : ℕ} {placed : Placement} {req : MapRequest}

theorem MapRequest.fixed_of_replaces (h : req.replaces = true) : req.fixed = true := by
  simp only [MapRequest.replaces, MapRequest.fixed, Nat.and_or_distrib_left, bne_iff_ne, ne_eq, Nat.or_eq_zero_iff] at h ⊢
  exact fun hor => h hor.1

theorem placement_ok (h : placement S req len = .ok placed) :
    (req.fixed = true → placed = .fixed req.addr) ∧ (req.fixed = false → ∀ c, placed ≠ .fixed c) := by
  unfold placement at h
  by_cases hf : req.fixed = true
  · rw [if_pos hf] at h
    cases h
    exact ⟨fun _ => rfl, fun hn => absurd hf (by simp [hn])⟩
  · refine ⟨fun h => absurd h hf, fun _ c hc => ?_⟩
    subst hc
    rw [if_neg hf] at h
    by_cases ha : req.addr ≠ 0
    · rw [if_pos ha] at h
      simp only at h
      split_ifs at h
      cases h
    · rw [if_neg ha] at h
      exact chosen_ne_fixed len c (Except.ok.inj h)

/-- what the checks of a mapping leave to be made -/
structure Prepared (req : MapRequest) (m : Mem S) (len : ℕ) (placed : Placement) (m' : Mem S) : Prop where
  dvdOffset : S.page ∣ req.offset
  pos : 0 < req.len
  len_eq : len = roundUp S.page req.len
  atFixed : req.fixed = true → placed = .fixed req.addr ∧ S.page ∣ req.addr
  atChosen : req.fixed = false → ∀ c, placed ≠ .fixed c
  state : m' = if req.replaces then m.cleared req.addr len else m

theorem prepare_ok (h : prepare req m = .ok (len, placed) m') : Prepared req m len placed m' := by
  unfold prepare at h
  split at h
  · exact absurd h throw_ok
  case isFalse hargs =>
    cases hs : S.span (untag req.addr) req.len with
    | none =>
      rw [hs] at h
      exact absurd h throw_ok
    | some l =>
      obtain ⟨rfl, -⟩ := span_eq_some hs
      simp only [hs] at h
      split at h
      · exact absurd h throw_ok
      case isFalse hal =>
        cases hpl : placement S req (roundUp S.page req.len) with
        | error e =>
          rw [hpl] at h
          exact absurd h throw_ok
        | ok pl =>
          simp only [hpl] at h
          obtain ⟨hfix, hch⟩ := placement_ok hpl
          have haddr : req.fixed = true → S.page ∣ req.addr := fun hf => Nat.dvd_of_mod_eq_zero (by
            by_contra hm
            exact hal ⟨hf, hm⟩)
          have prepared : ∀ {m₁ : Mem S}, m₁ = (if req.replaces then m.cleared req.addr (roundUp S.page req.len) else m) →
              Prepared req m (roundUp S.page req.len) pl m₁ := fun hst =>
            ⟨Nat.dvd_of_mod_eq_zero (by omega), by omega, rfl, fun hf => ⟨hfix hf, haddr hf⟩, hch, hst⟩
          by_cases hr : req.replaces = true
          · rw [if_pos hr] at h
            obtain ⟨⟨⟩, m₁, hu, h⟩ := bind_ok.mp h
            obtain ⟨hp, rfl⟩ := pure_ok.mp h
            cases hp
            refine prepared ?_
            rw [if_pos hr]
            exact unmapLocked_inv (haddr (MapRequest.fixed_of_replaces hr)) (dvd_roundUp _ _) hu
          · rw [if_neg hr] at h
            obtain ⟨hp, rfl⟩ := pure_ok.mp h
            cases hp
            exact prepared (if_neg hr).symm

end Checks

end Omnidroid.Mm
