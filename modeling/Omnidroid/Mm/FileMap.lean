/-
A private mapping of a host file (`omni-linux/src/mm.rs`): a view of the file where the host's pages agree with the
guest's, and a private copy for the rest.
- `View`: what a host view shows, the file's bytes and zeros to the end of its last host page.
- `mapFile`, `mapFileExact`: the space's views (`omni-mem/src/space.rs`); `placeView`, `copyIn`, `mapPrivateView`,
  `mapHostFile`: the mapping.
- `Reads`: a state differs from another by one mapping of the file's bytes. Each step has its `_reads` lemma.
- `file_map_reads`: a mapping that succeeds reads as the file, however it was made, and as a plain copy would.
-/
import Omnidroid.Mm.Map

namespace Omnidroid.Mm

/-- a file behind a descriptor, as it is while it is mapped -/
structure HostFile where
  data : ℕ → UInt8
  len : ℕ
  /-- of the system image -/
  sysroot : Bool
  /-- of an installed package, or an installed library -/
  installed : Bool
  library : Bool

/-- the byte of the file at an offset, zero past its end -/
def HostFile.byteAt (f : HostFile) (y : ℕ) : UInt8 := if y < f.len then f.data y else 0

/-- what a host view of the file shows, moved on by a shift: zeros before it, and after it to the end of its last page -/
structure View (S : Space) (f : HostFile) (shift : ℕ) where
  shows : ℕ → UInt8
  law : ∀ y < roundUp S.hostPage (shift + f.len), shift ≤ y → shows y = f.byteAt (y - shift)

/-- how the host answers for a file -/
structure FileHost (S : Space) (f : HostFile) where
  /-- a view may end inside the file's last page -/
  endsInLastPage : Bool
  /-- a view from a file offset, at an address, of so many bytes can be made -/
  views : ℕ → ℕ → ℕ → Bool
  /-- the host page at an address can be the view's, though only a part of it is the mapping's -/
  edge : ℕ → Bool
  /-- so many bytes can be read at an offset -/
  reads : ℕ → ℕ → Bool
  /-- the image's or the installed file opened for views -/
  image : Except Errno (View S f 0)
  package : Option (View S f 0)
  /-- the file moved on -/
  shifted : (shift : ℕ) → Option (View S f shift)

section Views

variable {S : Space} {f : HostFile}

/-- a page of a private view at `base` from `offset` -/
def viewPage (S : Space) (shows : ℕ → UInt8) (offset base : ℕ) (prot : Protection) (q : ℕ) : Page where
  protection := prot
  kind := .file false
  held := true
  pastEnd := false
  byte i := shows (offset + (q * S.page + i - base))
  zero h := absurd h Bool.noConfusion

/-- `map_file`: whole host pages -/
def mapFile {shift : ℕ} (F : FileHost S f) (v : View S f shift) (offset : ℕ) (placement : Placement) (n : ℕ)
    (prot : Protection) : EStateM MemError (Mem S) ℕ := fun m =>
  if n = 0 then .error .zeroSize m
  else if offset % S.hostPage ≠ 0 then .error .misaligned m
  else match place placement (roundUp S.hostPage n) m with
    | .error e m => .error e m
    | .ok a m =>
      if F.views offset a (roundUp S.hostPage n) then
        .ok a (m.mapped a (roundUp S.hostPage n) (viewPage S v.shows offset a prot))
      else .error .platform m

/-- from where to where a range can be a view, by whether its edge host pages can -/
def viewPart (F : FileHost S f) (a n : ℕ) : ℕ × ℕ :=
  let stop := a + n
  let first := a / S.hostPage * S.hostPage
  let last := (stop - 1) / S.hostPage * S.hostPage
  let single := first = last ∧ a % S.hostPage ≠ 0 ∧ stop % S.hostPage ≠ 0
  (if a % S.hostPage = 0 ∨ F.edge first then a else first + S.hostPage,
    if stop % S.hostPage = 0 ∨ single ∨ F.edge last then stop else last)

/-- `map_file_edges` -/
def mapFileEdges {shift : ℕ} (F : FileHost S f) (v : View S f shift) (offset a n : ℕ) (prot : Protection) :
    EStateM MemError (Mem S) (ℕ × ℕ) := fun m =>
  if !m.free a n then .error .addressTaken m
  else if (viewPart F a n).2 ≤ (viewPart F a n).1 then .ok (a, 0) m
  else if F.views offset a n then
    .ok ((viewPart F a n).1, (viewPart F a n).2 - (viewPart F a n).1)
      (m.mapped (viewPart F a n).1 ((viewPart F a n).2 - (viewPart F a n).1) (viewPage S v.shows offset a prot))
  else .error .platform m

/-- `map_file_exact` -/
def mapFileExact {shift : ℕ} (F : FileHost S f) (v : View S f shift) (offset a n : ℕ) (prot : Protection) :
    EStateM MemError (Mem S) (ℕ × ℕ) := fun m =>
  if S.page = S.hostPage ∨ (a % S.hostPage = 0 ∧ n % S.hostPage = 0) then
    match mapFile F v offset (.fixed a) n prot m with
    | .error e m => .error e m
    | .ok a m => .ok (a, n) m
  else match checkGuestRange S a n with
    | .error e => .error e m
    | .ok n =>
      if (a + 2 ^ 64 - offset % 2 ^ 64) % 2 ^ 64 % S.hostPage ≠ 0 then .error .misaligned m
      else mapFileEdges F v offset a n prot m

/-- `place_view`: a view placed where all the mapping's host pages are free, found by mapping them and giving them back -/
def placeView {shift : ℕ} (F : FileHost S f) (v : View S f shift) (offset : ℕ) (placement : Placement)
    (viewed extent : ℕ) (prot : Protection) : EStateM MemError (Mem S) ℕ := do
  let placement ← match placement with
    | .fixed a => pure (.fixed a)
    | placed =>
      if extent ≤ viewed then pure placed
      else do
        let room ← mapAnonymous placed extent .none
        S.unmap room extent
        pure (Placement.fixed room)
  mapFile F v offset placement viewed prot

/-- `pread_all`: to the buffer's end or the file's -/
def preadAll (F : FileHost S f) (n offset : ℕ) : EStateM Errno (Mem S) (ℕ × (ℕ → UInt8)) :=
  if F.reads n offset then pure (min n (f.len - offset), fun i => f.data (offset + i)) else throw EIO

/-- `copy_in`: a private copy, given the mapping's protection when it is filled; past the file's end, memory alone -/
def copyIn (H : Host) (F : FileHost S f) (placement : Placement) (n offset : ℕ) (prot : Protection) (refused : Errno) :
    EStateM Errno (Mem S) ℕ :=
  let bytes := min (f.len - offset) n
  if bytes = 0 then mapErr (fun _ => refused) (mapAnonymous placement n prot)
  else do
    let a ← mapErr (fun _ => refused) (mapAnonymous placement n .readWrite)
    let filled ← attempt (do
      let (got, data) ← preadAll F bytes offset
      write H a got data
      onlyIf (prot ≠ .readWrite) (mapErr (fun _ => ENOMEM) (S.protect a n prot)))
    match filled with
    | .ok () => pure a
    | .error e =>
      let _ : Except MemError Unit ← attempt (S.unmap a n)
      throw e

/-- how many bytes of the file a view covers -/
def viewedLen (S : Space) (endsInLastPage : Bool) (head avail len : ℕ) : ℕ :=
  if endsInLastPage then roundUp S.hostPage (head + min avail len)
  else min ((head + avail) / S.hostPage * S.hostPage) (roundUp S.hostPage (head + len))

/-- the view of `map_private_view`: where it starts, the mapping's address, and how long it is; none if it cannot be made -/
def makeView {shift : ℕ} (F : FileHost S f) (v : View S f shift) (offset : ℕ) (placement : Placement)
    (head viewed len : ℕ) (prot : Protection) : EStateM Errno (Mem S) (Option (ℕ × ℕ × ℕ)) :=
  match placement with
  | .fixed a => do
    let want := min (a - head + viewed) (a + len) - a
    match ← attempt (mapFileExact F v (offset + shift) a want prot) with
    | .ok (from_, n) => pure (if 0 < n then some (from_, a, n) else none)
    | .error _ => pure none
  | placed => do
    -- the hint's own host page
    let placed := match placed with
      | .hint address => .hint (address / S.hostPage * S.hostPage)
      | placed => placed
    match ← attempt (placeView F v (offset + shift - head) placed viewed (roundUp S.hostPage (head + len)) prot) with
    | .ok base => pure (some (base, base + head, viewed))
    | .error _ => pure none

/-- the mapping up to the view's end: what is of the view alone goes, and what is before it is copied -/
def fillFront (H : Host) (F : FileHost S f) (offset base at_ viewEnd stop : ℕ) (prot : Protection) (refused : Errno) :
    EStateM Errno (Mem S) Unit := do
  onlyIf (base < at_) (mapErr (fun _ => ENOMEM) (S.unmap base (at_ - base)))
  onlyIf (stop < viewEnd) (mapErr (fun _ => ENOMEM) (S.unmap stop (viewEnd - stop)))
  onlyIf (at_ < base) (do
    let _ ← copyIn H F (.fixed at_) (base - at_) offset prot refused)

/-- and what is after it -/
def fillBack (H : Host) (F : FileHost S f) (offset at_ viewEnd stop : ℕ) (prot : Protection) (refused : Errno) :
    EStateM Errno (Mem S) Unit :=
  onlyIf (viewEnd < stop) (do
    let _ ← copyIn H F (.fixed viewEnd) (stop - viewEnd) (offset + (viewEnd - at_)) prot refused)

/-- `map_private_view`: the view's parts outside the mapping given back, and the mapping's parts outside the view copied -/
def mapPrivateView {shift : ℕ} (H : Host) (F : FileHost S f) (v : View S f shift) (offset : ℕ) (placement : Placement)
    (len : ℕ) (prot : Protection) (refused : Errno) : EStateM Errno (Mem S) (Option ℕ) := do
  let head := (offset + shift) % S.hostPage
  let viewed := viewedLen S F.endsInLastPage head (f.len - offset) len
  if viewed = 0 then pure none
  else match ← makeView F v offset placement head viewed len prot with
    | none => pure none
    | some (base, at_, viewLen) =>
      let viewEnd := base + viewLen
      let stop := at_ + len
      match ← attempt (fillFront H F offset base at_ viewEnd stop prot refused) with
      | .error e =>
        let _ : Except MemError Unit ← attempt (S.unmap base viewLen)
        throw e
      | .ok () =>
        match ← attempt (fillBack H F offset at_ viewEnd stop prot refused) with
        | .error e =>
          let _ : Except MemError Unit ← attempt (S.unmap base viewLen)
          let _ : Except MemError Unit ← attempt (onlyIf (at_ < base) (S.unmap at_ (base - at_)))
          throw e
        | .ok () => pure (some at_)

/-- a view to map the file by, moved on where a fixed address does not agree with its offset -/
def backing (F : FileHost S f) (shift : ℕ) : Except Errno (Option (View S f shift)) :=
  match shift with
  | 0 =>
    if f.sysroot then
      match F.image with
      | .ok v => .ok (some v)
      | .error e => .error e
    else if f.installed then .ok F.package
    else .ok none
  | shift + 1 => if f.sysroot ∨ (f.installed ∧ f.library) then .ok (F.shifted (shift + 1)) else .ok none

/-- `mmap` of a host file, privately -/
def mapHostFile (H : Host) (F : FileHost S f) (req : MapRequest) : EStateM Errno (Mem S) ℕ := do
  let (len, placement) ← prepare req
  let prot := protection req.prot
  let inFile := min (roundUp S.page (f.len - req.offset)) len
  let shift := if req.fixed then (req.addr + 2 ^ 64 - req.offset % 2 ^ 64) % 2 ^ 64 % S.hostPage else 0
  let viewed ← if inFile = 0 then pure none
    else match backing F shift with
      | .error e => throw e
      | .ok none => pure none
      | .ok (some v) => mapPrivateView H F v req.offset placement len prot (req.refused ENOMEM)
  match viewed with
  | some at_ => pure at_
  | none => copyIn H F placement len req.offset prot (req.refused ENOMEM)

end Views

/-! ## One mapping more -/

section Reads

variable {S : Space} {f : HostFile} {m m₁ m₂ : Mem S} {a k l n : ℕ} {prot : Protection} {b c : ℕ → UInt8}

/-- a range that was free is mapped and reads these bytes, and nothing else has changed -/
structure Reads (m m' : Mem S) (a n : ℕ) (prot : Protection) (bytes : ℕ → UInt8) : Prop where
  dvd : S.page ∣ a
  dvdLen : S.page ∣ n
  free : ∀ x, Within a n x → m.seen x = none
  seen : ∀ x, m'.seen x = if Within a n x then some (prot, bytes (x - a)) else m.seen x

namespace Reads

theorem congr (h : Reads m m₁ a n prot b) (hb : ∀ i < n, b i = c i) : Reads m m₁ a n prot c where
  dvd := h.dvd
  dvdLen := h.dvdLen
  free := h.free
  seen x := by
    rw [h.seen]
    split
    case isTrue hx =>
      have := hx.1
      have := hx.2
      rw [hb (x - a) (by omega)]
    case isFalse => rfl

/-- from a state that shows the same -/
theorem from_same (h : Reads m m₁ a n prot b) (hs : ∀ x, m.seen x = m₂.seen x) : Reads m₂ m₁ a n prot b where
  dvd := h.dvd
  dvdLen := h.dvdLen
  free x hx := by rw [← hs, h.free x hx]
  seen x := by rw [h.seen, hs]

/-- two mappings side by side, in either order -/
theorem append (h₁ : Reads m m₁ a k prot b) (h₂ : Reads m₁ m₂ (a + k) l prot c) :
    Reads m m₂ a (k + l) prot fun i => if i < k then b i else c (i - k) where
  dvd := h₁.dvd
  dvdLen := Nat.dvd_add h₁.dvdLen h₂.dvdLen
  free x hx := by
    by_cases hk : Within a k x
    · exact h₁.free x hk
    · have := h₂.free x (by simp only [Within] at hx hk ⊢; omega)
      rwa [h₁.seen, if_neg hk] at this
  seen x := by
    rw [h₂.seen, h₁.seen]
    by_cases hk : Within a k x
    · have hl : ¬Within (a + k) l x := by
        simp only [Within] at hk ⊢
        omega
      have hw : Within a (k + l) x := by
        simp only [Within] at hk ⊢
        omega
      have hlt : x - a < k := by
        have := hk.1
        have := hk.2
        omega
      simp [hk, hl, hw, hlt]
    · by_cases hl : Within (a + k) l x
      · have hw : Within a (k + l) x := by
          simp only [Within] at hl ⊢
          omega
        have hlt : ¬x - a < k := by
          have := hl.1
          omega
        simp [hl, hw, hlt, Nat.sub_sub]
      · have hw : ¬Within a (k + l) x := by
          simp only [Within] at hk hl ⊢
          omega
        simp [hk, hl, hw]

theorem prepend (h₁ : Reads m m₁ (a + k) l prot c) (h₂ : Reads m₁ m₂ a k prot b) :
    Reads m m₂ a (k + l) prot fun i => if i < k then b i else c (i - k) where
  dvd := h₂.dvd
  dvdLen := Nat.dvd_add h₂.dvdLen h₁.dvdLen
  free x hx := by
    by_cases hl : Within (a + k) l x
    · exact h₁.free x hl
    · have := h₂.free x (by simp only [Within] at hx hl ⊢; omega)
      rwa [h₁.seen, if_neg hl] at this
  seen x := by
    rw [h₂.seen, h₁.seen]
    by_cases hk : Within a k x
    · have hw : Within a (k + l) x := by
        simp only [Within] at hk ⊢
        omega
      have hlt : x - a < k := by
        have := hk.1
        have := hk.2
        omega
      simp [hk, hw, hlt]
    · by_cases hl : Within (a + k) l x
      · have hw : Within a (k + l) x := by
          simp only [Within] at hl ⊢
          omega
        have hlt : ¬x - a < k := by
          have := hl.1
          omega
        simp [hk, hl, hw, hlt, Nat.sub_sub]
      · have hw : ¬Within a (k + l) x := by
          simp only [Within] at hk hl ⊢
          omega
        simp [hk, hl, hw]

/-- the front given back -/
theorem drop (h : Reads m m₁ a (k + l) prot b) (hk : S.page ∣ k) :
    Reads m (m₁.cleared a k) (a + k) l prot fun i => b (k + i) where
  dvd := Nat.dvd_add h.dvd hk
  dvdLen := (Nat.dvd_add_right hk).mp h.dvdLen
  free x hx := h.free x (by simp only [Within] at hx ⊢; omega)
  seen x := by
    rw [seen_cleared h.dvd hk, h.seen]
    by_cases hx : Within a k x
    · have hl : ¬Within (a + k) l x := by
        simp only [Within] at hx ⊢
        omega
      have := h.free x (by simp only [Within] at hx ⊢; omega)
      simp [hx, hl, this]
    · by_cases hl : Within (a + k) l x
      · have hw : Within a (k + l) x := by
          simp only [Within] at hl ⊢
          omega
        have hi : k + (x - (a + k)) = x - a := by
          have := hl.1
          omega
        simp [hx, hl, hw, hi]
      · have hw : ¬Within a (k + l) x := by
          simp only [Within] at hx hl ⊢
          omega
        simp [hx, hl, hw]

/-- the back given back -/
theorem take (h : Reads m m₁ a (k + l) prot b) (hk : S.page ∣ k) : Reads m (m₁.cleared (a + k) l) a k prot b where
  dvd := h.dvd
  dvdLen := hk
  free x hx := h.free x (by simp only [Within] at hx ⊢; omega)
  seen x := by
    have hl : S.page ∣ l := (Nat.dvd_add_right hk).mp h.dvdLen
    rw [seen_cleared (Nat.dvd_add h.dvd hk) hl, h.seen]
    by_cases hx : Within (a + k) l x
    · have hk : ¬Within a k x := by
        simp only [Within] at hx ⊢
        omega
      have := h.free x (by simp only [Within] at hx ⊢; omega)
      simp [hx, hk, this]
    · have hiff : Within a (k + l) x ↔ Within a k x := by
        simp only [Within] at hx ⊢
        omega
      simp only [hx, if_false, hiff]

/-- all of it given back -/
theorem undo (h : Reads m m₁ a n prot b) (x : ℕ) : (m₁.cleared a n).seen x = m.seen x := by
  rw [seen_cleared h.dvd h.dvdLen, h.seen]
  split
  case isTrue hx => exact (h.free x hx).symm
  case isFalse => rfl

/-- a mapping leaves its range mapped -/
theorem whole (h : Reads m m₁ a n prot b) : m₁.whole a n = true :=
  (whole_iff_seen h.dvd h.dvdLen).mpr fun x hx => by rw [h.seen, if_pos hx]; rfl

end Reads

end Reads

/-! ## The space's operations -/

section Operations

variable {S : Space} {f : HostFile} {m m' : Mem S} {a n : ℕ} {prot : Protection} {placed : Placement}

theorem checkGuestRange_ok {k : ℕ} (h : checkGuestRange S a n = .ok k) :
    0 < n ∧ S.page ∣ a ∧ k = roundUp S.page n ∧ S.contains a k = true := by
  unfold checkGuestRange at h
  split_ifs at h with h₁ h₂ h₃
  cases h
  exact ⟨by omega, Nat.dvd_of_mod_eq_zero (by omega), rfl, h₃⟩

theorem search_ok {from_ : ℕ} (h : findFree n from_ m = .ok a m') :
    m.free a n = true ∧ S.hostPage ∣ a ∧ m'.page = m.page := by
  simp only [findFree] at h
  split at h
  case _ hs =>
    cases h
    exact ⟨(search_some hs).1, (search_some hs).2, rfl⟩
  case _ => cases h

theorem place_ok (h : place placed n m = .ok a m') :
    m.free a n = true ∧ S.hostPage ∣ a ∧ m'.page = m.page ∧ ∀ c, placed = .fixed c → a = c := by
  cases placed with
  | fixed c =>
    simp only [place] at h
    split_ifs at h with h₁ h₂ h₃
    cases h
    exact ⟨h₃, Nat.dvd_of_mod_eq_zero (by omega), rfl, fun c hc => by cases hc; rfl⟩
  | hint c =>
    simp only [place] at h
    split_ifs at h with h₁
    · cases h
      exact ⟨h₁.2.2, Nat.dvd_of_mod_eq_zero h₁.1, rfl, fun c hc => by cases hc⟩
    · obtain ⟨hf, hd, hp⟩ := search_ok h
      exact ⟨hf, hd, hp, fun c hc => by cases hc⟩
  | anywhere =>
    obtain ⟨hf, hd, hp⟩ := search_ok h
    exact ⟨hf, hd, hp, fun c hc => by cases hc⟩

/-- pages mapped over a free range -/
theorem reads_mapped {m₁ : Mem S} {page : ℕ → Page} {bytes : ℕ → UInt8} (hp : m₁.page = m.page)
    (hf : m.free a n = true) (ha : S.page ∣ a) (hn : S.page ∣ n) (hprot : ∀ q, (page q).protection = prot)
    (hb : ∀ x, Within a n x → (page (x / S.page)).byte (x % S.page) = bytes (x - a)) :
    Reads m (m₁.mapped a n page) a n prot bytes where
  dvd := ha
  dvdLen := hn
  free x hx := seen_of_free hf ha hn hx
  seen x := by
    have hf₁ : m₁.free a n = true := by
      rw [free_congr (m := m) (fun q => by rw [hp])]
      exact hf
    have hs : m₁.seen x = m.seen x := by simp only [Mem.seen, hp]
    rw [seen_mapped hf₁ ha hn, hs]
    split
    case isTrue hx => rw [hprot, hb x hx]
    case isFalse => rfl

theorem mapAnonymous_reads (hn : S.page ∣ n) (h : mapAnonymous placed n prot m = .ok a m') :
    Reads m m' a n prot (fun _ => 0) ∧ ∀ c, placed = .fixed c → a = c := by
  have hr := roundUp_of_dvd S.page_pos hn
  have hfresh : ∀ k {m₁ : Mem S}, m₁.page = m.page → m.free a k = true → n ≤ k → S.page ∣ k → S.page ∣ a →
      Reads m (m₁.mapped a n fun _ => .fresh prot) a n prot fun _ => 0 := fun k m₁ hp hf hle hk ha =>
    reads_mapped hp (free_mono ha hn hk hle hf) ha hn (fun _ => rfl) fun _ _ => rfl
  have hchosen : ∀ {pl}, (∀ c, pl ≠ .fixed c) →
      (match checkGuestRange S S.base n with
        | .error e => .error e m
        | .ok n => match place pl (roundUp S.hostPage n) m with
          | .error e m => .error e m
          | .ok a m => .ok a (m.mapped a n fun _ => .fresh prot) : EStateM.Result MemError (Mem S) ℕ) = .ok a m' →
      Reads m m' a n prot fun _ => 0 := by
    intro pl hne h
    split at h
    · cases h
    case _ k hk =>
      obtain ⟨-, -, rfl, -⟩ := checkGuestRange_ok hk
      rw [hr] at h
      split at h
      · cases h
      case _ b m₁ hpl =>
        cases h
        obtain ⟨hf, hd, hp, -⟩ := place_ok hpl
        exact hfresh _ hp hf (le_roundUp S.hostPage_pos n) (S.page_dvd.trans (dvd_roundUp _ _)) (S.page_dvd.trans hd)
  cases placed with
  | fixed c =>
    simp only [mapAnonymous] at h
    split at h
    · cases h
    case _ k hk =>
      obtain ⟨-, hd, rfl, -⟩ := checkGuestRange_ok hk
      rw [hr] at h
      split_ifs at h with hf
      cases h
      exact ⟨hfresh n rfl hf le_rfl hn hd, fun c hc => by cases hc; rfl⟩
  | hint c => exact ⟨hchosen (fun _ => by simp) h, fun c hc => by cases hc⟩
  | anywhere => exact ⟨hchosen (fun _ => by simp) h, fun c hc => by cases hc⟩

theorem unmap_ok (h : S.unmap a n m = .ok () m') :
    S.page ∣ a ∧ m' = m.cleared a (roundUp S.page n) := by
  simp only [Space.unmap] at h
  split at h
  · cases h
  case _ k hk =>
    obtain ⟨-, hd, rfl, -⟩ := checkGuestRange_ok hk
    split_ifs at h
    cases h
    exact ⟨hd, rfl⟩

theorem protectSpace_ok (h : S.protect a n prot m = .ok () m') :
    S.page ∣ a ∧ m' = m.reprotected a (roundUp S.page n) prot := by
  simp only [Space.protect] at h
  split at h
  · cases h
  case _ k hk =>
    obtain ⟨-, hd, rfl, -⟩ := checkGuestRange_ok hk
    split_ifs at h
    cases h
    exact ⟨hd, rfl⟩

theorem write_ok {H : Host} {bytes : ℕ → UInt8} (h : write H a n bytes m = .ok () m') : m' = m.written a n bytes := by
  simp only [write] at h
  split_ifs at h
  cases h
  rfl

variable {shift offset : ℕ} {F : FileHost S f} {v : View S f shift}

theorem mapFile_reads (h : mapFile F v offset placed n prot m = .ok a m') :
    Reads m m' a (roundUp S.hostPage n) prot (fun i => v.shows (offset + i)) ∧ ∀ c, placed = .fixed c → a = c := by
  simp only [mapFile] at h
  split_ifs at h
  split at h
  · cases h
  case _ b m₁ hpl =>
    split_ifs at h
    cases h
    obtain ⟨hf, hd, hp, hfix⟩ := place_ok hpl
    refine ⟨reads_mapped hp hf (S.page_dvd.trans hd) (S.page_dvd.trans (dvd_roundUp _ _)) (fun _ => rfl)
      fun x hx => ?_, hfix⟩
    simp only [viewPage, S.page_mul_add]

theorem free_sub {b k : ℕ} (ha : S.page ∣ a) (hn : S.page ∣ n) (hb : S.page ∣ b) (hk : S.page ∣ k) (hlo : a ≤ b)
    (hhi : b + k ≤ a + n) (h : m.free a n = true) : m.free b k = true := by
  obtain ⟨hc, hq⟩ := (free_iff ha hn).mp h
  refine (free_iff hb hk).mpr ⟨?_, fun q hw => hq q ⟨hlo.trans hw.1, by have := hw.2; omega⟩⟩
  simp only [Space.contains, decide_eq_true_eq] at hc ⊢
  omega

theorem viewPart_inside (F : FileHost S f) (ha : S.page ∣ a) (hn : S.page ∣ n) :
    (a ≤ (viewPart F a n).1 ∧ S.page ∣ (viewPart F a n).1) ∧
      (viewPart F a n).2 ≤ a + n ∧ S.page ∣ (viewPart F a n).2 := by
  have hmod := Nat.mod_lt a S.hostPage_pos
  have hfloor := Nat.div_add_mod a S.hostPage
  rw [Nat.mul_comm] at hfloor
  have hlast := Nat.div_mul_le_self (a + n - 1) S.hostPage
  simp only [viewPart]
  constructor
  · split
    · exact ⟨le_rfl, ha⟩
    · exact ⟨by omega, Nat.dvd_add (S.page_dvd.mul_left _) S.page_dvd⟩
  · split
    · exact ⟨le_rfl, Nat.dvd_add ha hn⟩
    · exact ⟨by omega, S.page_dvd.mul_left _⟩

/-- the part of the range that became a view lies in it -/
theorem mapFileEdges_reads {from_ k : ℕ} (ha : S.page ∣ a) (hn : S.page ∣ n)
    (h : mapFileEdges F v offset a n prot m = .ok (from_, k) m') (hk : 0 < k) :
    a ≤ from_ ∧ from_ + k ≤ a + n ∧ Reads m m' from_ k prot fun i => v.shows (offset + (from_ - a) + i) := by
  obtain ⟨⟨hlo, hlod⟩, hhi, hhid⟩ := viewPart_inside F ha hn
  simp only [mapFileEdges] at h
  split_ifs at h with hfree hlt
  · cases h
    exact absurd hk (lt_irrefl 0)
  · cases h
    have hd := Nat.dvd_sub hhid hlod
    refine ⟨hlo, by omega, reads_mapped rfl (free_sub ha hn hlod hd hlo (by omega) (by simpa using hfree)) hlod hd
      (fun _ => rfl) fun x hx => ?_⟩
    have := hx.1
    simp only [viewPage, S.page_mul_add]
    congr 1
    omega

theorem mapFileExact_reads {from_ k : ℕ} (ha : S.page ∣ a) (hn : S.page ∣ n)
    (h : mapFileExact F v offset a n prot m = .ok (from_, k) m') (hk : 0 < k) :
    a ≤ from_ ∧ from_ + k ≤ a + n ∧ Reads m m' from_ k prot fun i => v.shows (offset + (from_ - a) + i) := by
  simp only [mapFileExact] at h
  split at h
  case isTrue hw =>
    -- whole host pages
    split at h
    · cases h
    case _ c m₁ hf =>
      cases h
      obtain ⟨hr, hfix⟩ := mapFile_reads hf
      obtain rfl := hfix a rfl
      have hround : roundUp S.hostPage n = n := by
        refine roundUp_of_dvd S.hostPage_pos ?_
        rcases hw with hw | hw
        · exact hw ▸ hn
        · exact Nat.dvd_of_mod_eq_zero hw.2
      rw [hround] at hr
      exact ⟨le_rfl, le_rfl, hr.congr fun i _ => by simp⟩
  case isFalse =>
    split at h
    · cases h
    case _ l hl =>
      obtain ⟨-, -, rfl, -⟩ := checkGuestRange_ok hl
      rw [roundUp_of_dvd S.page_pos hn] at h
      split at h
      · cases h
      · exact mapFileEdges_reads ha hn h hk

theorem place_error {e : MemError} (h : place placed n m = .error e m') : m' = m := by
  have hfind : ∀ k from_, findFree k from_ m = .error e m' → m' = m := fun k from_ h => by
    simp only [findFree] at h
    split at h <;> cases h
    rfl
  cases placed with
  | fixed c =>
    simp only [place] at h
    split_ifs at h <;> cases h <;> rfl
  | hint c =>
    simp only [place] at h
    split at h
    · cases h
    · exact hfind _ _ h
  | anywhere => exact hfind _ _ h

/-- a view that cannot be made leaves every address as it was -/
theorem mapFile_error {e : MemError} (h : mapFile F v offset placed n prot m = .error e m') (x : ℕ) :
    m'.seen x = m.seen x := by
  simp only [mapFile] at h
  split at h
  · cases h; rfl
  split at h
  · cases h; rfl
  split at h
  case _ hpl =>
    cases h
    rw [place_error hpl]
  case _ hpl =>
    split at h
    · cases h
    · cases h
      simp only [Mem.seen, (place_ok hpl).2.2.1]

theorem mapFileEdges_error {e : MemError} (h : mapFileEdges F v offset a n prot m = .error e m') : m' = m := by
  simp only [mapFileEdges] at h
  split_ifs at h <;> cases h <;> rfl

theorem mapFileEdges_none {from_ k : ℕ} (h : mapFileEdges F v offset a n prot m = .ok (from_, k) m') (hk : k = 0) :
    m' = m := by
  simp only [mapFileEdges] at h
  split_ifs at h with h₁ h₂ h₃
  · cases h
    rfl
  · cases h
    omega

theorem mapFileExact_error {e : MemError} (h : mapFileExact F v offset a n prot m = .error e m') (x : ℕ) :
    m'.seen x = m.seen x := by
  simp only [mapFileExact] at h
  split at h
  · split at h
    case _ hf =>
      cases h
      exact mapFile_error hf x
    case _ => cases h
  · split at h
    · cases h
      rfl
    split at h
    · cases h
      rfl
    · rw [mapFileEdges_error h]

/-- a view of nothing changes nothing -/
theorem mapFileExact_none {from_ k : ℕ} (h : mapFileExact F v offset a n prot m = .ok (from_, k) m') (hk : k = 0) :
    m' = m := by
  simp only [mapFileExact] at h
  split at h
  · split at h
    case _ => cases h
    case _ hf =>
      cases h
      simp [mapFile, hk] at hf
  · split at h
    · cases h
    split at h
    · cases h
    · exact mapFileEdges_none h hk

theorem mapAnonymous_error {e : MemError} (h : mapAnonymous placed n prot m = .error e m') : m' = m := by
  have hchosen : ∀ pl, (match checkGuestRange S S.base n with
      | .error e => .error e m
      | .ok n => match place pl (roundUp S.hostPage n) m with
        | .error e m => .error e m
        | .ok a m => .ok a (m.mapped a n fun _ => .fresh prot) : EStateM.Result MemError (Mem S) ℕ) = .error e m' →
      m' = m := by
    intro pl h
    split at h
    · cases h
      rfl
    split at h
    case _ hpl =>
      cases h
      exact place_error hpl
    case _ => cases h
  cases placed with
  | fixed c =>
    simp only [mapAnonymous] at h
    split at h
    · cases h
      rfl
    · split_ifs at h
      cases h
      rfl
  | hint c => exact hchosen _ h
  | anywhere => exact hchosen _ h

/-- what was just mapped can be given back -/
theorem unmap_reads {b : ℕ → UInt8} (h : Reads m m' a n prot b) (hpos : 0 < n) :
    S.unmap a n m' = .ok () (m'.cleared a n) := by
  have hw := h.whole
  simp [Space.unmap, checkGuestRange_whole hpos h.dvd h.dvdLen, contains_of_whole hpos h.dvd h.dvdLen hw,
    not_reachesHost_of_whole h.dvd h.dvdLen hw]

theorem mapAnonymous_pos (h : mapAnonymous placed n prot m = .ok a m') : 0 < n := by
  rcases Nat.eq_zero_or_pos n with rfl | hn
  · cases placed <;> simp [mapAnonymous, checkGuestRange] at h
  · exact hn

/-- the room found by mapping it and giving it back -/
theorem findRoom_ok (placed : Placement) (prot : Protection) (m : Mem S) (hn : S.page ∣ n) :
    (∃ e, mapAnonymous placed n prot m = .error e m) ∨
    ∃ a m₁, mapAnonymous placed n prot m = .ok a m₁ ∧ S.unmap a n m₁ = .ok () (m₁.cleared a n) ∧
      ∀ x, (m₁.cleared a n).seen x = m.seen x := by
  cases h : mapAnonymous placed n prot m with
  | error e m₁ =>
    left
    rw [mapAnonymous_error h]
    exact ⟨e, rfl⟩
  | ok a m₁ =>
    right
    have hr := (mapAnonymous_reads hn h).1
    exact ⟨a, m₁, rfl, unmap_reads hr (mapAnonymous_pos h), hr.undo⟩

variable {viewed extent : ℕ}

/-- a view that is placed is made at an address in a state that shows the same, or not at all -/
theorem placeView_cases {r : EStateM.Result MemError (Mem S) ℕ} (hext : S.page ∣ extent)
    (h : placeView F v offset placed viewed extent prot m = r) :
    (∃ e, r = .error e m) ∨
    ∃ pl m₁, (∀ x, m₁.seen x = m.seen x) ∧ mapFile F v offset pl viewed prot m₁ = r := by
  have hroom : ∀ pl, (do
        let room ← mapAnonymous pl extent .none
        S.unmap room extent
        mapFile F v offset (.fixed room) viewed prot : EStateM MemError (Mem S) ℕ) m = r →
      (∃ e, r = .error e m) ∨
      ∃ pl m₁, (∀ x, m₁.seen x = m.seen x) ∧ mapFile F v offset pl viewed prot m₁ = r := by
    intro pl h
    rcases findRoom_ok pl .none m hext with ⟨e, he⟩ | ⟨a, m₁, hm, hu, hs⟩
    · left
      exact ⟨e, by simpa [bind, EStateM.bind, he] using h.symm⟩
    · right
      exact ⟨.fixed a, m₁.cleared a extent, hs, by simpa [bind, EStateM.bind, hm, hu] using h⟩
  cases placed with
  | fixed c => exact .inr ⟨.fixed c, m, fun _ => rfl, h⟩
  | hint c =>
    by_cases hle : extent ≤ viewed
    · exact .inr ⟨.hint c, m, fun _ => rfl, by simpa [placeView, hle] using h⟩
    · exact hroom (.hint c) (by simpa [placeView, hle] using h)
  | anywhere =>
    by_cases hle : extent ≤ viewed
    · exact .inr ⟨.anywhere, m, fun _ => rfl, by simpa [placeView, hle] using h⟩
    · exact hroom .anywhere (by simpa [placeView, hle] using h)

theorem placeView_reads (hext : S.page ∣ extent)
    (h : placeView F v offset placed viewed extent prot m = .ok a m') :
    Reads m m' a (roundUp S.hostPage viewed) prot fun i => v.shows (offset + i) := by
  rcases placeView_cases hext h with ⟨e, he⟩ | ⟨pl, m₁, hs, he⟩
  · cases he
  · exact (mapFile_reads he).1.from_same hs

theorem placeView_error {e : MemError} (hext : S.page ∣ extent)
    (h : placeView F v offset placed viewed extent prot m = .error e m') (x : ℕ) : m'.seen x = m.seen x := by
  rcases placeView_cases hext h with ⟨e, he⟩ | ⟨pl, m₁, hs, he⟩
  · cases he
    rfl
  · rw [mapFile_error he, hs]

theorem preadAll_ok {k got : ℕ} {data : ℕ → UInt8} (h : preadAll F k offset m = .ok (got, data) m') :
    m' = m ∧ got = min k (f.len - offset) ∧ data = fun i => f.data (offset + i) := by
  unfold preadAll at h
  split at h
  · obtain ⟨hp, rfl⟩ := pure_ok.mp h
    cases hp
    exact ⟨rfl, rfl, rfl⟩
  · exact absurd h throw_ok

/-- the bytes written into fresh memory, and then the mapping's protection -/
theorem Reads.filled {k : ℕ} (h : Reads m m' a n .readWrite fun _ => 0) (hk : k ≤ n) (data : ℕ → UInt8) :
    Reads m (m'.written a k data) a n .readWrite fun i => if i < k then data i else 0 where
  dvd := h.dvd
  dvdLen := h.dvdLen
  free := h.free
  seen x := by
    rw [seen_written, h.seen]
    by_cases hx : Within a k x
    · have hw : Within a n x := ⟨hx.1, by have := hx.2; omega⟩
      have hlt : x - a < k := by
        have := hx.1
        have := hx.2
        omega
      simp [hx, hw, hlt]
    · by_cases hw : Within a n x
      · have hlt : ¬x - a < k := by
          simp only [Within] at hx hw
          omega
        simp [hx, hw, hlt]
      · simp [hx, hw]

theorem Reads.reprotected {p : Protection} {b : ℕ → UInt8} (h : Reads m m' a n p b) (prot : Protection) :
    Reads m (m'.reprotected a n prot) a n prot b where
  dvd := h.dvd
  dvdLen := h.dvdLen
  free := h.free
  seen x := by
    rw [seen_reprotected h.dvd h.dvdLen, h.seen]
    by_cases hx : Within a n x <;> simp [hx]

/-- what a private copy reads -/
theorem copyIn_reads {H : Host} {refused : Errno} (hn : S.page ∣ n)
    (h : copyIn H F placed n offset prot refused m = .ok a m') :
    Reads m m' a n prot (fun i => f.byteAt (offset + i)) ∧ ∀ c, placed = .fixed c → a = c := by
  unfold copyIn at h
  simp only at h
  split at h
  case isTrue hzero =>
    -- nothing of the file is in the range
    obtain ⟨hr, hfix⟩ := mapAnonymous_reads hn (mapErr_ok.mp h)
    refine ⟨hr.congr fun i hi => ?_, hfix⟩
    rw [HostFile.byteAt, if_neg (by omega)]
  case isFalse hbytes =>
    obtain ⟨b, m₁, hm, h⟩ := bind_ok.mp h
    obtain ⟨hr, hfix⟩ := mapAnonymous_reads hn (mapErr_ok.mp hm)
    obtain ⟨r, m₂, hf, h⟩ := bind_ok.mp h
    cases r with
    | error e =>
      obtain ⟨_, _, _, hthrow⟩ := bind_ok.mp h
      exact absurd hthrow throw_ok
    | ok u =>
      obtain ⟨rfl, rfl⟩ := pure_ok.mp h
      obtain ⟨⟨got, data⟩, m₃, hp, hf⟩ := bind_ok.mp (attempt_ok.mp hf)
      obtain ⟨rfl, hgot, rfl⟩ := preadAll_ok hp
      obtain ⟨u', m₄, hw, hf⟩ := bind_ok.mp hf
      have hw := write_ok hw
      subst hw
      have hfill := hr.filled (show got ≤ n by omega) fun i => f.data (offset + i)
      have hbyte : ∀ i < n, (if i < got then f.data (offset + i) else 0) = f.byteAt (offset + i) := fun i hi => by
        have hiff : i < got ↔ offset + i < f.len := by omega
        simp only [HostFile.byteAt, hiff]
      refine ⟨?_, hfix⟩
      have hp := onlyIf_ok.mp hf
      split at hp
      case isTrue =>
        obtain ⟨-, rfl⟩ := protectSpace_ok (mapErr_ok.mp hp)
        rw [roundUp_of_dvd S.page_pos hn]
        exact (hfill.reprotected prot).congr hbyte
      case isFalse hrw =>
        subst hp
        have hprot : prot = .readWrite := by simpa using hrw
        subst hprot
        exact hfill.congr hbyte

end Operations

/-! ## A view and its edges -/

section Edges

variable {S : Space} {f : HostFile} {m m' : Mem S} {F : FileHost S f} {shift : ℕ} {v : View S f shift}
  {offset head viewed len base at_ viewLen : ℕ} {placed : Placement} {prot : Protection}

theorem dvd_viewedLen (S : Space) (ends : Bool) (head avail len : ℕ) : S.hostPage ∣ viewedLen S ends head avail len := by
  unfold viewedLen
  split
  · exact dvd_roundUp _ _
  · rcases min_choice ((head + avail) / S.hostPage * S.hostPage) (roundUp S.hostPage (head + len)) with h | h <;> rw [h]
    · exact Dvd.intro_left _ rfl
    · exact dvd_roundUp _ _

theorem viewedLen_le (S : Space) (ends : Bool) (head avail len : ℕ) :
    viewedLen S ends head avail len ≤ roundUp S.hostPage (head + avail) := by
  unfold viewedLen
  split
  · exact roundUp_mono S.hostPage_pos (Nat.add_le_add_left (min_le_left _ _) _)
  · calc min ((head + avail) / S.hostPage * S.hostPage) (roundUp S.hostPage (head + len))
      _ ≤ (head + avail) / S.hostPage * S.hostPage := min_le_left _ _
      _ ≤ head + avail := Nat.div_mul_le_self _ _
      _ ≤ roundUp S.hostPage (head + avail) := le_roundUp S.hostPage_pos _

/-- what a view covers ends with the file's last host page -/
theorem viewed_shows {ends : Bool} {i : ℕ} (v : View S f shift) (hoff : offset < f.len)
    (hi : (offset + shift) % S.hostPage + i <
      viewedLen S ends ((offset + shift) % S.hostPage) (f.len - offset) len) :
    v.shows (offset + shift + i) = f.byteAt (offset + i) := by
  have hfloor := Nat.div_add_mod (offset + shift) S.hostPage
  have hle := viewedLen_le S ends ((offset + shift) % S.hostPage) (f.len - offset) len
  have hlast : roundUp S.hostPage (shift + f.len) = S.hostPage * ((offset + shift) / S.hostPage) +
      roundUp S.hostPage ((offset + shift) % S.hostPage + (f.len - offset)) := by
    rw [← roundUp_add S.hostPage_pos (Dvd.intro _ rfl)]
    congr 1
    omega
  rw [v.law _ (by omega) (by omega)]
  congr 1
  omega

/-- a view made for a mapping at `at_`: it shows the file moved on, from `at_` on no more than was asked -/
structure Made (m m' : Mem S) (v : View S f shift) (offset head viewed len : ℕ) (placed : Placement) (prot : Protection)
    (base at_ viewLen : ℕ) : Prop where
  reads : Reads m m' base viewLen prot fun i => v.shows (offset + shift + base + i - at_)
  dvd : S.page ∣ at_
  covers : at_ ≤ base + viewLen
  asked : base + viewLen + head ≤ at_ + viewed
  /-- one that starts inside the mapping ends inside it -/
  inside : at_ < base → base + viewLen ≤ at_ + len
  fixed : ∀ c, placed = .fixed c → at_ = c

theorem placeView_made (hhead : head = (offset + shift) % S.hostPage) (hd : S.page ∣ head) (hv : S.hostPage ∣ viewed)
    (hpos : 0 < viewed) {extent : ℕ} (hext : S.page ∣ extent) {pl : Placement} (hpl : ∀ c, placed ≠ .fixed c)
    (h : placeView F v (offset + shift - head) pl viewed extent prot m = .ok base m') :
    Made m m' v offset head viewed len placed prot base (base + head) viewed where
  reads := by
    have hr := placeView_reads hext h
    rw [roundUp_of_dvd S.hostPage_pos hv] at hr
    refine hr.congr fun i _ => ?_
    have := Nat.mod_le (offset + shift) S.hostPage
    congr 1
    omega
  dvd := Nat.dvd_add (placeView_reads hext h).dvd hd
  covers := by
    have := Nat.mod_lt (offset + shift) S.hostPage_pos
    have := Nat.le_of_dvd hpos hv
    omega
  asked := by omega
  inside h := absurd h (by omega)
  fixed c hc := absurd hc (hpl c)

theorem mapFileExact_made {a from_ k : ℕ} (ha : S.page ∣ a) (hhead : head ≤ a) (hd : S.page ∣ head)
    (hv : S.page ∣ viewed) (hlen : S.page ∣ len) (hk : 0 < k)
    (h : mapFileExact F v (offset + shift) a (min (a - head + viewed) (a + len) - a) prot m = .ok (from_, k) m') :
    Made m m' v offset head viewed len (.fixed a) prot from_ a k := by
  have hn : S.page ∣ min (a - head + viewed) (a + len) - a := by
    rcases min_choice (a - head + viewed) (a + len) with hm | hm <;> rw [hm]
    · exact Nat.dvd_sub (Nat.dvd_add (Nat.dvd_sub ha hd) hv) ha
    · exact Nat.dvd_sub (Nat.dvd_add ha hlen) ha
  obtain ⟨hlo, hhi, hr⟩ := mapFileExact_reads ha hn h hk
  refine ⟨hr.congr fun i _ => ?_, ha, by omega, by omega, by omega, fun c hc => by cases hc; rfl⟩
  congr 1
  omega

theorem makeView_some (hhead : head = (offset + shift) % S.hostPage) (hd : S.page ∣ head) (hlen : S.page ∣ len)
    (hv : S.hostPage ∣ viewed) (hpos : 0 < viewed) (hfix : ∀ c, placed = .fixed c → S.page ∣ c ∧ head ≤ c)
    (h : makeView F v offset placed head viewed len prot m = .ok (some (base, at_, viewLen)) m') :
    Made m m' v offset head viewed len placed prot base at_ viewLen := by
  have hext : S.page ∣ roundUp S.hostPage (head + len) := S.page_dvd.trans (dvd_roundUp _ _)
  cases placed with
  | fixed a =>
    obtain ⟨r, m₁, hm, h⟩ := bind_ok.mp h
    cases r with
    | error e => cases (pure_ok.mp h).1
    | ok p =>
      obtain ⟨from_, k⟩ := p
      obtain ⟨hp, rfl⟩ := pure_ok.mp h
      split at hp
      case isTrue hk =>
        obtain ⟨ha, hle⟩ := hfix a rfl
        cases hp
        exact mapFileExact_made ha hle hd (S.page_dvd.trans hv) hlen hk (attempt_ok.mp hm)
      case isFalse => cases hp
  | hint address =>
    obtain ⟨r, m₁, hm, h⟩ := bind_ok.mp h
    cases r with
    | error e => cases (pure_ok.mp h).1
    | ok b =>
      obtain ⟨hp, rfl⟩ := pure_ok.mp h
      cases hp
      exact placeView_made hhead hd hv hpos hext (fun _ => by simp) (attempt_ok.mp hm)
  | anywhere =>
    obtain ⟨r, m₁, hm, h⟩ := bind_ok.mp h
    cases r with
    | error e => cases (pure_ok.mp h).1
    | ok b =>
      obtain ⟨hp, rfl⟩ := pure_ok.mp h
      cases hp
      exact placeView_made hhead hd hv hpos hext (fun _ => by simp) (attempt_ok.mp hm)

/-- a view that was not made has changed nothing -/
theorem makeView_none (h : makeView F v offset placed head viewed len prot m = .ok none m') (x : ℕ) :
    m'.seen x = m.seen x := by
  have hext : S.page ∣ roundUp S.hostPage (head + len) := S.page_dvd.trans (dvd_roundUp _ _)
  cases placed with
  | fixed a =>
    obtain ⟨r, m₁, hm, h⟩ := bind_ok.mp h
    cases r with
    | error e =>
      obtain ⟨-, rfl⟩ := pure_ok.mp h
      exact mapFileExact_error (attempt_ok.mp hm) x
    | ok p =>
      obtain ⟨from_, k⟩ := p
      obtain ⟨hp, rfl⟩ := pure_ok.mp h
      split at hp
      case isTrue hk => cases hp
      case isFalse hk => rw [mapFileExact_none (attempt_ok.mp hm) (by omega)]
  | hint address =>
    obtain ⟨r, m₁, hm, h⟩ := bind_ok.mp h
    cases r with
    | error e =>
      obtain ⟨-, rfl⟩ := pure_ok.mp h
      exact placeView_error hext (attempt_ok.mp hm) x
    | ok b => cases (pure_ok.mp h).1
  | anywhere =>
    obtain ⟨r, m₁, hm, h⟩ := bind_ok.mp h
    cases r with
    | error e =>
      obtain ⟨-, rfl⟩ := pure_ok.mp h
      exact placeView_error hext (attempt_ok.mp hm) x
    | ok b => cases (pure_ok.mp h).1

variable {m₁ m₂ : Mem S} {H : Host} {refused : Errno}

/-- the part of the view that is the mapping's alone: before the mapping and after it, it is given back -/
theorem Made.trim {l : ℕ} (h : Made m m₁ v offset head viewed len placed prot base at_ viewLen) (hlen : S.page ∣ len)
    (hle : base ≤ at_) (hl : at_ + l = base + viewLen)
    (h₁ : onlyIf (base < at_) (mapErr (fun _ => ENOMEM) (S.unmap base (at_ - base))) m₁ = .ok () m₂)
    (h₂ : onlyIf (at_ + len < at_ + l) (mapErr (fun _ => ENOMEM) (S.unmap (at_ + len) (at_ + l - (at_ + len)))) m₂ =
      .ok () m') :
    Reads m m' at_ (min l len) prot fun i => v.shows (offset + shift + i) := by
  obtain ⟨k, rfl⟩ := Nat.exists_eq_add_of_le hle
  obtain rfl : viewLen = k + l := by omega
  have hk : S.page ∣ k := (Nat.dvd_add_right h.reads.dvd).mp h.dvd
  have hd : S.page ∣ l := (Nat.dvd_add_right hk).mp h.reads.dvdLen
  have hfront : Reads m m₂ (base + k) l prot fun i => v.shows (offset + shift + i) := by
    have hdrop : Reads m (m₁.cleared base k) (base + k) l prot fun i => v.shows (offset + shift + i) :=
      (h.reads.drop hk).congr fun i _ => by
        congr 1
        omega
    have hfirst := onlyIf_ok.mp h₁
    split at hfirst
    case isTrue =>
      obtain ⟨-, rfl⟩ := unmap_ok (mapErr_ok.mp hfirst)
      rwa [Nat.add_sub_cancel_left, roundUp_of_dvd S.page_pos hk]
    case isFalse hlt =>
      obtain rfl : k = 0 := by
        simp only [decide_eq_true_eq] at hlt
        omega
      rw [cleared_zero] at hdrop
      rwa [← hfirst]
  have hsecond := onlyIf_ok.mp h₂
  split at hsecond
  case isTrue hlt =>
    simp only [decide_eq_true_eq] at hlt
    obtain ⟨r, rfl⟩ := Nat.exists_eq_add_of_le (show len ≤ l by omega)
    obtain ⟨-, rfl⟩ := unmap_ok (mapErr_ok.mp hsecond)
    have hr : S.page ∣ r := (Nat.dvd_add_right hlen).mp hd
    rw [show base + k + (len + r) - (base + k + len) = r by omega, roundUp_of_dvd S.page_pos hr,
      Nat.min_eq_right (by omega)]
    exact hfront.take hlen
  case isFalse hlt =>
    simp only [decide_eq_true_eq] at hlt
    rw [Nat.min_eq_left (by omega), ← hsecond]
    exact hfront

/-- the mapping as far as the view goes -/
theorem fillFront_reads (h : Made m m₁ v offset head viewed len placed prot base at_ viewLen) (hlen : S.page ∣ len)
    (hshows : ∀ i, head + i < viewed → v.shows (offset + shift + i) = f.byteAt (offset + i))
    (hf : fillFront H F offset base at_ (base + viewLen) (at_ + len) prot refused m₁ = .ok () m₂) :
    Reads m m₂ at_ (min (base + viewLen - at_) len) prot fun i => f.byteAt (offset + i) := by
  obtain ⟨⟨⟩, m₃, h₁, hf⟩ := bind_ok.mp hf
  obtain ⟨⟨⟩, m₄, h₂, h₃⟩ := bind_ok.mp hf
  have hasked := h.asked
  have hcovers := h.covers
  by_cases hlt : at_ < base
  · -- the view starts inside the mapping: nothing is given back, and what is before it is a copy
    have hin := h.inside hlt
    have h₁ := onlyIf_ok.mp h₁
    rw [if_neg (by simp only [decide_eq_true_eq]; omega)] at h₁
    subst h₁
    have h₂ := onlyIf_ok.mp h₂
    rw [if_neg (by simp only [decide_eq_true_eq]; omega)] at h₂
    subst h₂
    have h₃ := onlyIf_ok.mp h₃
    rw [if_pos (by simpa using hlt)] at h₃
    obtain ⟨a, m₅, hcopy, hdone⟩ := bind_ok.mp h₃
    obtain ⟨-, rfl⟩ := pure_ok.mp hdone
    obtain ⟨k, rfl⟩ := Nat.exists_eq_add_of_le hlt.le
    have hk : S.page ∣ k := (Nat.dvd_add_right h.dvd).mp h.reads.dvd
    rw [Nat.add_sub_cancel_left] at hcopy
    obtain ⟨hr, hfix⟩ := copyIn_reads hk hcopy
    obtain rfl := hfix at_ rfl
    rw [show min (a + k + viewLen - a) len = k + viewLen by omega]
    refine (h.reads.prepend hr).congr fun i hi => ?_
    split
    case isTrue => rfl
    case isFalse hik =>
      rw [← hshows i (by omega)]
      congr 1
      omega
  · have h₃ := onlyIf_ok.mp h₃
    rw [if_neg (by simpa using hlt)] at h₃
    subst h₃
    obtain ⟨l, hl⟩ := Nat.exists_eq_add_of_le hcovers
    rw [hl] at h₂ ⊢
    rw [Nat.add_sub_cancel_left]
    refine (h.trim hlen (by omega) hl.symm h₁ h₂).congr fun i hi => hshows i ?_
    have := Nat.lt_of_lt_of_le hi (Nat.min_le_left l len)
    omega

/-- and to its end -/
theorem fillBack_reads {viewEnd : ℕ} (hle : at_ ≤ viewEnd) (hlen : S.page ∣ len)
    (h : Reads m m₁ at_ (min (viewEnd - at_) len) prot fun i => f.byteAt (offset + i))
    (hf : fillBack H F offset at_ viewEnd (at_ + len) prot refused m₁ = .ok () m₂) :
    Reads m m₂ at_ len prot fun i => f.byteAt (offset + i) := by
  obtain ⟨k, rfl⟩ := Nat.exists_eq_add_of_le hle
  rw [Nat.add_sub_cancel_left] at h
  have hf := onlyIf_ok.mp hf
  split at hf
  case isTrue hlt =>
    simp only [decide_eq_true_eq] at hlt
    obtain ⟨r, rfl⟩ := Nat.exists_eq_add_of_le (show k ≤ len by omega)
    rw [Nat.min_eq_left (by omega)] at h
    have hr : S.page ∣ r := (Nat.dvd_add_right h.dvdLen).mp hlen
    obtain ⟨a, m₃, hcopy, hdone⟩ := bind_ok.mp hf
    obtain ⟨-, rfl⟩ := pure_ok.mp hdone
    rw [show at_ + (k + r) - (at_ + k) = r by omega, Nat.add_sub_cancel_left] at hcopy
    obtain ⟨hc, hfix⟩ := copyIn_reads hr hcopy
    obtain rfl := hfix _ rfl
    refine (h.append hc).congr fun i _ => ?_
    split
    case isTrue => rfl
    case isFalse =>
      congr 1
      omega
  case isFalse hlt =>
    simp only [decide_eq_true_eq] at hlt
    rw [Nat.min_eq_right (by omega)] at h
    rwa [← hf]

/-- what a private view reads -/
theorem mapPrivateView_reads (hoff : offset < f.len) (hdo : S.page ∣ offset) (hds : S.page ∣ shift) (hlen : S.page ∣ len)
    (hfix : ∀ c, placed = .fixed c → S.page ∣ c ∧ (offset + shift) % S.hostPage ≤ c)
    (h : mapPrivateView H F v offset placed len prot refused m = .ok (some at_) m') :
    Reads m m' at_ len prot (fun i => f.byteAt (offset + i)) ∧ ∀ c, placed = .fixed c → at_ = c := by
  simp only [mapPrivateView] at h
  split at h
  · cases (pure_ok.mp h).1
  case isFalse hv =>
    obtain ⟨r, m₁, hm, h⟩ := bind_ok.mp h
    cases r with
    | none => cases (pure_ok.mp h).1
    | some p =>
      obtain ⟨base, b, viewLen⟩ := p
      have hhead : S.page ∣ (offset + shift) % S.hostPage := (Nat.dvd_mod_iff S.page_dvd).mpr (Nat.dvd_add hdo hds)
      have hmade := makeView_some rfl hhead hlen (dvd_viewedLen _ _ _ _ _) (Nat.pos_of_ne_zero hv) hfix hm
      obtain ⟨front, m₂, hfront, h⟩ := bind_ok.mp h
      cases front with
      | error e =>
        obtain ⟨_, _, _, hthrow⟩ := bind_ok.mp h
        exact absurd hthrow throw_ok
      | ok u =>
        obtain ⟨back, m₃, hback, h⟩ := bind_ok.mp h
        cases back with
        | error e =>
          obtain ⟨_, _, _, h⟩ := bind_ok.mp h
          obtain ⟨_, _, _, hthrow⟩ := bind_ok.mp h
          exact absurd hthrow throw_ok
        | ok u' =>
          obtain ⟨hp, rfl⟩ := pure_ok.mp h
          cases hp
          have hr := fillFront_reads hmade hlen (fun i hi => viewed_shows v hoff hi) (attempt_ok.mp hfront)
          exact ⟨fillBack_reads hmade.covers hlen hr (attempt_ok.mp hback), hmade.fixed⟩

theorem mapPrivateView_none (h : mapPrivateView H F v offset placed len prot refused m = .ok none m') (x : ℕ) :
    m'.seen x = m.seen x := by
  simp only [mapPrivateView] at h
  split at h
  · obtain ⟨-, rfl⟩ := pure_ok.mp h
    rfl
  · obtain ⟨r, m₁, hm, h⟩ := bind_ok.mp h
    cases r with
    | none =>
      obtain ⟨-, rfl⟩ := pure_ok.mp h
      exact makeView_none hm x
    | some p =>
      obtain ⟨base, b, viewLen⟩ := p
      obtain ⟨front, m₂, hfront, h⟩ := bind_ok.mp h
      cases front with
      | error e =>
        obtain ⟨_, _, _, hthrow⟩ := bind_ok.mp h
        exact absurd hthrow throw_ok
      | ok u =>
        obtain ⟨back, m₃, hback, h⟩ := bind_ok.mp h
        cases back with
        | error e =>
          obtain ⟨_, _, _, h⟩ := bind_ok.mp h
          obtain ⟨_, _, _, hthrow⟩ := bind_ok.mp h
          exact absurd hthrow throw_ok
        | ok u' => cases (pure_ok.mp h).1

end Edges

/-! ## The mapping -/

section Mapping

variable {S : Space} {f : HostFile} {m m' : Mem S} {F : FileHost S f} {H : Host} {a n at_ offset : ℕ} {prot : Protection}
  {refused : Errno}

/-- fresh memory may be written whole -/
theorem allows_fresh {k : ℕ} (hf : m.free a n = true) (ha : S.page ∣ a) (hn : S.page ∣ n) (hk : k ≤ n) :
    (m.mapped a n fun _ => .fresh .readWrite).allows true a k = true := by
  rcases Nat.eq_zero_or_pos k with rfl | hpos
  · rfl
  obtain ⟨hc, hq⟩ := (free_iff ha hn).mp hf
  have hck : S.contains a k = true := by
    simp only [Space.contains, decide_eq_true_eq] at hc ⊢
    omega
  simp only [Mem.allows, hck, Bool.true_and, Bool.or_eq_true, List.all_eq_true]
  refine .inr fun q ht => ?_
  obtain ⟨x, hx, rfl⟩ := touched_address hpos ht
  have hw := (within_page S.page_pos ha hn x).mpr ⟨hx.1, by have := hx.2; omega⟩
  simp [Mem.mapped, hw, (hq _ hw).1, Page.fresh, Page.regionProtection, Protection.isWritable]

/-- a copy into a free range, where the file can be read and the memory is given -/
theorem copyIn_free (ha : S.page ∣ a) (hn : S.page ∣ n) (hpos : 0 < n) (hf : m.free a n = true)
    (hreads : ∀ k, F.reads k offset = true) (hcommits : ∀ k, H.commits a k = true) :
    ∃ m', copyIn H F (.fixed a) n offset prot refused m = .ok a m' := by
  have hc := ((free_iff ha hn).mp hf).1
  have hmap : ∀ p, mapAnonymous (.fixed a) n p m = .ok a (m.mapped a n fun _ => .fresh p) := fun p => by
    rw [mapAnonymous_fixed hpos ha hn, if_pos hc, if_pos hf]
  unfold copyIn
  simp only
  split
  case isTrue => exact ⟨_, mapErr_ok.mpr (hmap prot)⟩
  case isFalse =>
    obtain ⟨got, hgot⟩ : ∃ got, got = min (min (f.len - offset) n) (f.len - offset) := ⟨_, rfl⟩
    obtain ⟨m₂, hm₂⟩ : ∃ m₂, m₂ = (m.mapped a n fun _ => .fresh .readWrite).written a got fun i => f.data (offset + i) :=
      ⟨_, rfl⟩
    have hk : got ≤ n := by omega
    have hfill := (mapAnonymous_reads hn (hmap .readWrite)).1.filled hk fun i => f.data (offset + i)
    rw [← hm₂] at hfill
    have hpread : ∀ m₁ : Mem S, preadAll F (min (f.len - offset) n) offset m₁ =
        .ok (got, fun i => f.data (offset + i)) m₁ := fun m₁ => by
      rw [preadAll, if_pos (hreads _), hgot]
      rfl
    have hwrite : write H a got (fun i => f.data (offset + i)) (m.mapped a n fun _ => .fresh .readWrite) = .ok () m₂ := by
      simp [write, allows_fresh hf ha hn hk, hcommits, hm₂]
    have hprotect : S.protect a n prot m₂ = .ok () (m₂.reprotected a n prot) := by
      simp [Space.protect, checkGuestRange_whole hpos ha hn, hc, not_reachesHost_of_whole ha hn hfill.whole, hfill.whole]
    have hlast : ∃ m₃, onlyIf (prot ≠ .readWrite) (mapErr (fun _ => ENOMEM) (S.protect a n prot)) m₂ = .ok () m₃ := by
      by_cases hp : prot = .readWrite
      · exact ⟨m₂, onlyIf_ok.mpr (by simp [hp])⟩
      · exact ⟨_, onlyIf_ok.mpr (by simpa [hp] using mapErr_ok.mpr hprotect)⟩
    obtain ⟨m₃, hlast⟩ := hlast
    exact ⟨m₃, bind_ok.mpr ⟨a, _, mapErr_ok.mpr (hmap .readWrite), bind_ok.mpr ⟨.ok (), _, attempt_ok.mpr
      (bind_ok.mpr ⟨_, _, hpread _, bind_ok.mpr ⟨(), _, hwrite, hlast⟩⟩), rfl⟩⟩⟩

/-- the shift brings an address to agree with its offset -/
theorem shift_agrees (S : Space) (addr : ℕ) {offset : ℕ} :
    (offset + (addr + 2 ^ 64 - offset % 2 ^ 64) % 2 ^ 64 % S.hostPage) % S.hostPage = addr % S.hostPage := by
  have hlt := Nat.mod_lt offset (show 0 < 2 ^ 64 by decide)
  have hoff : offset % 2 ^ 64 % S.hostPage = offset % S.hostPage := Nat.mod_mod_of_dvd _ S.hostPage_pow
  have hpow : 2 ^ 64 % S.hostPage = 0 := Nat.mod_eq_zero_of_dvd S.hostPage_pow
  rw [Nat.mod_mod_of_dvd _ S.hostPage_pow]
  calc (offset + (addr + 2 ^ 64 - offset % 2 ^ 64) % S.hostPage) % S.hostPage
      _ = (offset % 2 ^ 64 + (addr + 2 ^ 64 - offset % 2 ^ 64)) % S.hostPage := by
        rw [Nat.add_mod, ← hoff, Nat.mod_mod, ← Nat.add_mod]
      _ = (addr + 2 ^ 64) % S.hostPage := by
        congr 1
        omega
      _ = addr % S.hostPage := by rw [Nat.add_mod, hpow, Nat.add_zero, Nat.mod_mod]

theorem dvd_shift (S : Space) {addr offset : ℕ} (ha : S.page ∣ addr) (ho : S.page ∣ offset) :
    S.page ∣ (addr + 2 ^ 64 - offset % 2 ^ 64) % 2 ^ 64 % S.hostPage := by
  have hpow := S.page_dvd.trans S.hostPage_pow
  refine (Nat.dvd_mod_iff S.page_dvd).mpr ((Nat.dvd_mod_iff hpow).mpr ?_)
  exact Nat.dvd_sub (Nat.dvd_add ha hpow) ((Nat.dvd_mod_iff hpow).mpr ho)

/-- what a private mapping of a host file reads, after the checks -/
theorem mapHostFile_reads {req : MapRequest} (h : mapHostFile H F req m = .ok at_ m') :
    ∃ m₁, (m₁ = if req.replaces then m.cleared req.addr (roundUp S.page req.len) else m) ∧ 0 < req.len ∧
      Reads m₁ m' at_ (roundUp S.page req.len) (protection req.prot) (fun i => f.byteAt (req.offset + i)) ∧
      (req.fixed = true → at_ = req.addr) := by
  obtain ⟨⟨len, placed⟩, m₁, hprep, h⟩ := bind_ok.mp h
  have hp := prepare_ok hprep
  obtain rfl := hp.len_eq
  have hlen : S.page ∣ roundUp S.page req.len := dvd_roundUp _ _
  have hat : ∀ {b}, (∀ c, placed = .fixed c → b = c) → req.fixed = true → b = req.addr := fun hb hf =>
    hb _ (hp.atFixed hf).1
  have copied : ∀ {b m₂ m₃}, (∀ x, m₂.seen x = m₁.seen x) →
      copyIn H F placed (roundUp S.page req.len) req.offset (protection req.prot) (req.refused ENOMEM) m₂ = .ok b m₃ →
      Reads m₁ m₃ b (roundUp S.page req.len) (protection req.prot) (fun i => f.byteAt (req.offset + i)) ∧
        (req.fixed = true → b = req.addr) := fun {b m₂ m₃} hs hc => by
    obtain ⟨hr, hfix⟩ := copyIn_reads hlen hc
    exact ⟨hr.from_same hs, hat hfix⟩
  refine ⟨m₁, hp.state, hp.pos, ?_⟩
  have hshift : S.page ∣ (if req.fixed then (req.addr + 2 ^ 64 - req.offset % 2 ^ 64) % 2 ^ 64 % S.hostPage else 0) ∧
      ∀ c, placed = .fixed c → S.page ∣ c ∧
        (req.offset + if req.fixed then (req.addr + 2 ^ 64 - req.offset % 2 ^ 64) % 2 ^ 64 % S.hostPage else 0) %
          S.hostPage ≤ c := by
    by_cases hf : req.fixed = true
    · obtain ⟨rfl, ha⟩ := hp.atFixed hf
      rw [if_pos hf, shift_agrees]
      exact ⟨dvd_shift S ha hp.dvdOffset, fun c hc => by cases hc; exact ⟨ha, Nat.mod_le _ _⟩⟩
    · rw [if_neg hf]
      exact ⟨Nat.dvd_zero _, fun c hc => absurd hc (hp.atChosen (by simpa using hf) c)⟩
  simp only [pure_bind] at h
  obtain ⟨hds, hfix⟩ := hshift
  generalize (if req.fixed then (req.addr + 2 ^ 64 - req.offset % 2 ^ 64) % 2 ^ 64 % S.hostPage else 0) = shift
    at h hds hfix
  split at h
  case isTrue => exact copied (fun _ => rfl) h
  case isFalse hin =>
    cases hb : backing F shift with
    | error e =>
      rw [hb] at h
      obtain ⟨_, _, hthrow, _⟩ := bind_ok.mp h
      exact absurd hthrow throw_ok
    | ok view =>
      cases view with
      | none =>
        rw [hb] at h
        exact copied (fun _ => rfl) h
      | some v =>
        rw [hb] at h
        obtain ⟨viewed, m₂, hview, h⟩ := bind_ok.mp h
        cases viewed with
        | none => exact copied (mapPrivateView_none hview) h
        | some b =>
          obtain ⟨rfl, rfl⟩ := pure_ok.mp h
          have hoff : req.offset < f.len := by
            by_contra hle
            exact hin (by simp [show f.len - req.offset = 0 by omega])
          obtain ⟨hr, hfixed⟩ := mapPrivateView_reads hoff hp.dvdOffset hds hlen hfix hview
          exact ⟨hr, hat hfixed⟩

/-- **A private mapping of a file reads as the file, whichever way it is made.** Its range shows the file's bytes from the
offset and zeros past its end, under the protection asked for; every other address is as it was; and a plain copy at the
same address shows the same everywhere. -/
theorem file_map_reads (H : Host) (F : FileHost S f) (req : MapRequest) (m m' : Mem S) (at_ : ℕ)
    (h : mapHostFile H F req m = .ok at_ m') :
    (∀ i < roundUp S.page req.len, m'.seen (at_ + i) =
      some (protection req.prot, if req.offset + i < f.len then f.data (req.offset + i) else 0)) ∧
    (∀ x, ¬Within at_ (roundUp S.page req.len) x → m'.seen x = m.seen x) ∧
    (req.replaces = false → ∀ x, Within at_ (roundUp S.page req.len) x → m.seen x = none) ∧
    (req.fixed = true → at_ = req.addr) ∧
    ∀ (H' : Host) (F' : FileHost S f) (refused : Errno), (∀ k, F'.reads k req.offset = true) →
      (∀ k, H'.commits at_ k = true) →
      ∃ m'', copyIn H' F' (.fixed at_) (roundUp S.page req.len) req.offset (protection req.prot) refused
          (m.cleared at_ (roundUp S.page req.len)) = .ok at_ m'' ∧
        ∀ x, m''.seen x = m'.seen x := by
  obtain ⟨m₁, hm₁, hpos, hr, hfix⟩ := mapHostFile_reads h
  have hlen : 0 < roundUp S.page req.len := lt_of_lt_of_le hpos (le_roundUp S.page_pos _)
  -- before the mapping: what was there, less what it replaces
  have before : ∀ x, m₁.seen x = (m.cleared at_ (roundUp S.page req.len)).seen x := fun x => by
    by_cases hrep : req.replaces = true
    · rw [if_pos hrep] at hm₁
      rw [hm₁, hfix (MapRequest.fixed_of_replaces hrep)]
    · rw [if_neg hrep] at hm₁
      rw [seen_cleared hr.dvd hr.dvdLen, hm₁]
      split
      case isTrue hx =>
        rw [← hm₁]
        exact hr.free x hx
      case isFalse => rfl
  refine ⟨fun i hi => ?_, fun x hx => ?_, fun hrep x hx => ?_, hfix, fun H' F' refused hreads hcommits => ?_⟩
  · rw [hr.seen, if_pos ⟨by omega, by omega⟩, Nat.add_sub_cancel_left]
    rfl
  · rw [hr.seen, if_neg hx, before, seen_cleared hr.dvd hr.dvdLen, if_neg hx]
  · rw [if_neg (by simp [hrep])] at hm₁
    rw [← hm₁]
    exact hr.free x hx
  · have hfree := free_cleared (m := m) hr.dvd hr.dvdLen (contains_of_whole hlen hr.dvd hr.dvdLen hr.whole)
      (not_reachesHost_of_whole hr.dvd hr.dvdLen hr.whole)
    obtain ⟨m'', hc⟩ := copyIn_free hr.dvd hr.dvdLen hlen hfree hreads hcommits
    exact ⟨m'', hc, fun x => by rw [(copyIn_reads hr.dvdLen hc).1.seen, hr.seen, before]⟩

/-- three host pages of four guest pages each -/
def fourfold : Space :=
  Space.plain 16384 65536 (by decide) (by decide) (by decide) (by decide) (by decide)

def unmapped (S : Space) : Mem S := ⟨fun _ => none, 0, fun _ _ h => by cases h⟩

/-- a library of the image, five bytes long -/
def fiveBytes : HostFile := ⟨fun _ => 7, 5, true, false, true⟩

/-- a host that shows it moved on, its edges too -/
def showing (S : Space) (f : HostFile) : FileHost S f where
  endsInLastPage := true
  views _ _ _ := true
  edge _ := true
  reads _ _ := true
  image := .ok ⟨fun y => f.byteAt y, fun _ _ _ => rfl⟩
  package := none
  shifted shift := some ⟨fun y => f.byteAt (y - shift), fun _ _ _ => rfl⟩

/-- two pages of it at an address that does not agree with its offset: a view of the file moved on -/
theorem file_map_reads_shifted :
    ∃ m', mapHostFile willing (showing fourfold fiveBytes) ⟨20480, 8192, PROT_READ, 0x12, 0⟩ (unmapped fourfold) =
        .ok 20480 m' ∧
      ∀ i < 8192, m'.seen (20480 + i) = some (.read, if 0 + i < 5 then 7 else 0) := by
  refine ⟨_, rfl, fun i hi => ?_⟩
  exact (file_map_reads willing (showing fourfold fiveBytes) ⟨20480, 8192, PROT_READ, 0x12, 0⟩ (unmapped fourfold) _
    20480 rfl).1 i hi

end Mapping

end Omnidroid.Mm
