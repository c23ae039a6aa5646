/-
A whole image of ETC1 (`decode`, `decoded_len`, `compressed_len` and `block_grid` of `omni-texture/src/lib.rs`).

- `decode`: the code's loops over blocks, rows and columns. Every operation on a size is checked, as a debug build checks it;
  `Stop.overflow` is one that leaves its type.
- `texelAt`: the specification's texel of an image. `Painted`: the blocks up to one are in the output, and nothing else is touched.
- `decode_texels`: no size wraps, nothing past the image is read or written; the image is the specification's, or the block named is
  the first that is of ETC2.
-/
import Omnidroid.Texture.Etc1

namespace Omnidroid.Texture

open Bytes

/-! ## The code -/

inductive CompressedFormat
  | Etc1Rgb8
deriving DecidableEq

def CompressedFormat.blockExtent : CompressedFormat → ℕ × ℕ
  | .Etc1Rgb8 => (4, 4)

def CompressedFormat.blockBytes : CompressedFormat → ℕ
  | .Etc1Rgb8 => 8

/-- the largest `usize`, on a host where a `u32` is one -/
structure Host where
  usizeMax : ℕ
  wide : 2 ^ 32 ≤ usizeMax + 1

inductive Stop
  | refused (e : TextureError)
  | overflow
deriving DecidableEq

/-- a `u32` that was computed; a sum's parts are no greater -/
def u32 (n : ℕ) : Except Stop ℕ := if n < 2 ^ 32 then .ok n else .error .overflow

/-- a `usize` that was computed -/
def Host.usize (host : Host) (n : ℕ) : Except Stop ℕ := if n ≤ host.usizeMax then .ok n else .error .overflow

/-- `u64::checked_mul` -/
def checkedMul (a b : ℕ) : Option ℕ := if a * b < 2 ^ 64 then some (a * b) else none

/-- `usize::try_from` -/
def Host.tryFrom (host : Host) (n : ℕ) : Option ℕ := if n ≤ host.usizeMax then some n else none

def decodedLen (host : Host) (width height : UInt32) : Except Stop ℕ :=
  if width = 0 ∨ height = 0 then .error (.refused (.ZeroExtent width.toNat height.toNat))
  else match (checkedMul width.toNat height.toNat).bind fun texels => (checkedMul texels 4).bind host.tryFrom with
    | some n => .ok n
    | none => .error (.refused (.ExtentTooLarge width.toNat height.toNat))

def blockGrid (format : CompressedFormat) (width height : UInt32) : Except Stop (ℕ × ℕ) :=
  if width = 0 ∨ height = 0 then .error (.refused (.ZeroExtent width.toNat height.toNat))
  else do
    let extent := format.blockExtent
    let blocksX ← u32 (width.toNat / extent.1 + if width.toNat % extent.1 ≠ 0 then 1 else 0)
    let blocksY ← u32 (height.toNat / extent.2 + if height.toNat % extent.2 ≠ 0 then 1 else 0)
    .ok (blocksX, blocksY)

def compressedLen (host : Host) (format : CompressedFormat) (width height : UInt32) : Except Stop ℕ := do
  let grid ← blockGrid format width height
  match (checkedMul grid.1 grid.2).bind fun blocks => (checkedMul blocks format.blockBytes).bind host.tryFrom with
  | some n => .ok n
  | none => .error (.refused (.ExtentTooLarge width.toNat height.toNat))

/-- a texel copied, if both ends are inside their buffers -/
def copyTexel (out : Bytes) (dst : ℕ) (texels : Bytes) (src : ℕ) : Bytes :=
  match get? out dst 4, get? texels src 4 with
  | some _, some s => patch out dst s
  | _, _ => out

section
variable (host : Host) (width height : ℕ) (texels : Bytes)

/-- the columns of a row of a block; past the image's edge the loop breaks -/
def colLoop (y bx row : ℕ) : List ℕ → Bytes → Except Stop Bytes
  | [], out => .ok out
  | col :: rest, out => do
    let x ← u32 (bx * BLOCK_EXTENT + col)
    if width ≤ x then .ok out
    else do
      let src ← u32 ((row * BLOCK_EXTENT + col) * 4)
      let stride ← host.usize (width * 4)
      let dst ← host.usize (y * stride + x * 4)
      let _ ← host.usize (dst + 4)
      colLoop y bx row rest (copyTexel out dst texels src)

/-- the rows of a block -/
def rowLoop (by_ bx : ℕ) : List ℕ → Bytes → Except Stop Bytes
  | [], out => .ok out
  | row :: rest, out => do
    let y ← u32 (by_ * BLOCK_EXTENT + row)
    if height ≤ y then .ok out
    else do
      let out ← colLoop host width texels y bx row (List.range BLOCK_EXTENT) out
      rowLoop by_ bx rest out

end

/-- `data.get(at..at + BLOCK_BYTES)`, copied into a block -/
def blockAt (data : Bytes) (at_ : ℕ) : Option Block :=
  if h : at_ + 8 ≤ data.length then some ⟨slice data at_ 8, length_slice h⟩ else none

/-- where a stop leaves the output as it is -/
def leaving {α : Type} (out : Bytes) : Except Stop α → Except (Stop × Bytes) α
  | .ok a => .ok a
  | .error e => .error (e, out)

/-- the body of `decode`'s loop over blocks -/
def decodeOne (host : Host) (data : Bytes) (width height blocksX neededIn by_ bx : ℕ) (out : Bytes) : Except (Stop × Bytes) Bytes := do
  let blockIndex ← leaving out (host.usize (by_ * blocksX + bx))
  let at_ ← leaving out (host.usize (blockIndex * BLOCK_BYTES))
  let _ ← leaving out (host.usize (at_ + BLOCK_BYTES))
  match blockAt data at_ with
  | none => .error (.refused (.TruncatedBlockData neededIn data.length), out)
  | some block =>
    match decodeBlock block blockIndex with
    | .error e => .error (.refused e, out)
    | .ok texels => leaving out (rowLoop host width height texels by_ bx (List.range BLOCK_EXTENT) out)

/-- `decode`: the output as it leaves it, with a refusal too -/
def decode (host : Host) (format : CompressedFormat) (data : Bytes) (width height : UInt32) (out : Bytes) :
    Except (Stop × Bytes) Bytes := do
  let grid ← leaving out (blockGrid format width height)
  let neededIn ← leaving out (compressedLen host format width height)
  if data.length < neededIn then .error (.refused (.TruncatedBlockData neededIn data.length), out)
  else do
    let neededOut ← leaving out (decodedLen host width height)
    if out.length < neededOut then .error (.refused (.OutputTooSmall neededOut out.length), out)
    else (List.range grid.2).foldlM (fun out by_ => (List.range grid.1).foldlM
      (fun out bx => decodeOne host data width.toNat height.toNat grid.1 neededIn by_ bx out) out) out

/-! ## The image the specification has -/

/-- blocks in a row, the last one cut off where the image ends -/
def blocksAcross (n : ℕ) : ℕ := (n + 3) / 4


/-- the number of a cell of a grid, row after row -/
def cell (width x y : ℕ) : ℕ := y * width + x

/-- which block a texel is of, in row order -/
def blockOf (width x y : ℕ) : ℕ := cell (blocksAcross width) (x / 4) (y / 4)

/-- a block of the data, as a word -/
def wordAt (data : Bytes) (i : ℕ) : ℕ := (slice data (8 * i) 8).foldl (fun n b => n * 256 + b.toNat) 0

/-- a texel of an image -/
def texelAt (data : Bytes) (width x y : ℕ) : Bytes := Spec.texel (wordAt data (blockOf width x y)) (x % 4) (y % 4)

/-- a block is of one of ETC2's modes -/
def IsEtc2 (data : Bytes) (i : ℕ) : Prop := ∃ c < 3, Spec.Escapes (wordAt data i) c

/-- the first channel of a block that leaves its range, and so its mode -/
def EscapesBy (data : Bytes) (i c : ℕ) : Prop :=
  c < 3 ∧ Spec.Escapes (wordAt data i) c ∧ ∀ c' < c, ¬Spec.Escapes (wordAt data i) c'

/-- bytes of an image, and of its blocks -/
def imageBytes (width height : ℕ) : ℕ := 4 * (width * height)

def blockCount (width height : ℕ) : ℕ := blocksAcross width * blocksAcross height

/-- sizes that a host can hold, and that the buffers have -/
structure Fits (host : Host) (data out : Bytes) (width height : ℕ) : Prop where
  width_pos : 0 < width
  height_pos : 0 < height
  blocks : 8 * blockCount width height ≤ host.usizeMax
  blocks64 : 8 * blockCount width height < 2 ^ 64
  data : 8 * blockCount width height ≤ data.length
  image : imageBytes width height ≤ host.usizeMax
  image64 : imageBytes width height < 2 ^ 64
  out : imageBytes width height ≤ out.length

/-! ## Cells of an image -/

theorem cell_lt {width height x y : ℕ} (hx : x < width) (hy : y < height) : cell width x y < width * height := by
  calc y * width + x < y * width + width := by omega
    _ = (y + 1) * width := by ring
    _ ≤ height * width := Nat.mul_le_mul_right _ hy
    _ = width * height := Nat.mul_comm _ _

theorem four_cell_le {width height x y : ℕ} (hx : x < width) (hy : y < height) :
    4 * cell width x y + 4 ≤ imageBytes width height := by
  have := cell_lt hx hy
  rw [imageBytes]
  omega

theorem cell_inj {width x y x' y' : ℕ} (hx : x < width) (hx' : x' < width) (h : cell width x y = cell width x' y') :
    x = x' ∧ y = y' := by
  have hw : 0 < width := by omega
  have hmod := congrArg (· % width) h
  have hdiv := congrArg (· / width) h
  simp only [cell, Nat.mul_add_mod', Nat.mod_eq_of_lt hx, Nat.mod_eq_of_lt hx'] at hmod
  exact ⟨hmod, by simpa [cell, Nat.mul_comm _ width, Nat.mul_add_div hw, Nat.div_eq_of_lt hx, Nat.div_eq_of_lt hx'] using hdiv⟩

/-- a texel written is read back, and no other is written -/
theorem slice_copyTexel {out texels : Bytes} {width x y x' y' src : ℕ} (hx : x < width) (hx' : x' < width)
    (hsrc : src + 4 ≤ texels.length) (hdst : 4 * cell width x y + 4 ≤ out.length) :
    slice (copyTexel out (4 * cell width x y) texels src) (4 * cell width x' y') 4 =
      if x' = x ∧ y' = y then slice texels src 4 else slice out (4 * cell width x' y') 4 := by
  have hlen : (slice texels src 4).length = 4 := length_slice hsrc
  have hput : copyTexel out (4 * cell width x y) texels src = patch out (4 * cell width x y) (slice texels src 4) := by
    simp only [copyTexel, get?, if_pos hdst, if_pos hsrc]
  rw [hput]
  split_ifs with hsame
  · obtain ⟨rfl, rfl⟩ := hsame
    have := @slice_patch_same out (4 * cell width x' y') (slice texels src 4) (by rw [hlen]; exact hdst)
    rwa [hlen] at this
  · have hne : cell width x' y' ≠ cell width x y := fun h => hsame (cell_inj hx' hx h)
    refine slice_patch_of_disjoint (by rw [hlen]; exact hdst) ?_
    rw [hlen]
    omega

theorem getElem?_copyTexel {out texels : Bytes} {dst src k : ℕ} (hk : dst + 4 ≤ k) :
    (copyTexel out dst texels src)[k]? = out[k]? := by
  unfold copyTexel
  split
  · rename_i h hs
    obtain ⟨hdst, _⟩ := get?_eq_some.mp h
    obtain ⟨hsrc, rfl⟩ := get?_eq_some.mp hs
    have hlen := length_slice hsrc
    rw [getElem?_patch (by rw [hlen]; exact hdst), hlen, if_neg (by omega)]
  · rfl

@[simp] theorem length_copyTexel (out texels : Bytes) (dst src : ℕ) : (copyTexel out dst texels src).length = out.length := by
  unfold copyTexel
  split
  · rename_i h hs
    obtain ⟨hdst, _⟩ := get?_eq_some.mp h
    obtain ⟨hsrc, rfl⟩ := get?_eq_some.mp hs
    exact length_patch (by rw [length_slice hsrc]; exact hdst)
  · rfl

/-! ## What a loop draws -/

/-- the texels that `P` says are drawn, each as `f` has it, and no other byte is touched -/
structure Drawn (width height : ℕ) (f : ℕ → ℕ → Bytes) (P : ℕ → ℕ → Prop) (out out' : Bytes) : Prop where
  length : out'.length = out.length
  beyond : ∀ k, imageBytes width height ≤ k → out'[k]? = out[k]?
  texel : ∀ x < width, ∀ y < height, P x y → slice out' (4 * cell width x y) 4 = f x y
  rest : ∀ x < width, ∀ y < height, ¬P x y → slice out' (4 * cell width x y) 4 = slice out (4 * cell width x y) 4

namespace Drawn

variable {width height : ℕ} {f g : ℕ → ℕ → Bytes} {P Q : ℕ → ℕ → Prop} {out out' out'' : Bytes}

theorem nothing (f : ℕ → ℕ → Bytes) (hP : ∀ x < width, ∀ y < height, ¬P x y) (out : Bytes) : Drawn width height f P out out where
  length := rfl
  beyond _ _ := rfl
  texel x hx y hy h := absurd h (hP x hx y hy)
  rest _ _ _ _ _ := rfl

theorem trans (h : Drawn width height f P out out') (h' : Drawn width height f Q out' out'') :
    Drawn width height f (fun x y => P x y ∨ Q x y) out out'' where
  length := h'.length.trans h.length
  beyond k hk := (h'.beyond k hk).trans (h.beyond k hk)
  texel x hx y hy hpq := by
    by_cases hq : Q x y
    · exact h'.texel x hx y hy hq
    · rw [h'.rest x hx y hy hq]
      exact h.texel x hx y hy (hpq.resolve_right hq)
  rest x hx y hy hpq := by
    rw [h'.rest x hx y hy fun hq => hpq (.inr hq), h.rest x hx y hy fun hp => hpq (.inl hp)]

theorem congr (h : Drawn width height f P out out') (hPQ : ∀ x < width, ∀ y < height, P x y ↔ Q x y)
    (hfg : ∀ x < width, ∀ y < height, Q x y → f x y = g x y) : Drawn width height g Q out out' where
  length := h.length
  beyond := h.beyond
  texel x hx y hy hq := by rw [h.texel x hx y hy ((hPQ x hx y hy).mpr hq), hfg x hx y hy hq]
  rest x hx y hy hq := h.rest x hx y hy fun hp => hq ((hPQ x hx y hy).mp hp)

end Drawn

/-- where a texel of a block is in the block -/
def ofBlock (texels : Bytes) (x y : ℕ) : Bytes := slice texels ((y % 4 * 4 + x % 4) * 4) 4

theorem drawn_texel {width height x y src : ℕ} {out texels : Bytes} (hx : x < width) (hy : y < height)
    (hout : imageBytes width height ≤ out.length) (htexels : texels.length = 64) (hsrc : src = (y % 4 * 4 + x % 4) * 4) :
    Drawn width height (ofBlock texels) (fun x' y' => x' = x ∧ y' = y) out (copyTexel out (4 * cell width x y) texels src) := by
  have hcell := four_cell_le hx hy
  have hsrc4 : src + 4 ≤ texels.length := by omega
  refine ⟨length_copyTexel .., fun k hk => getElem?_copyTexel (by omega), fun x' hx' y' _ h => ?_, fun x' hx' y' _ h => ?_⟩
  · rw [slice_copyTexel hx hx' hsrc4 (by omega), if_pos h, h.1, h.2, hsrc]
    rfl
  · rw [slice_copyTexel hx hx' hsrc4 (by omega), if_neg h]

theorem u32_ok {n : ℕ} (h : n < 2 ^ 32) : u32 n = .ok n := if_pos h

theorem Host.usize_ok {host : Host} {n : ℕ} (h : n ≤ host.usizeMax) : host.usize n = .ok n := if_pos h

section
variable {host : Host} {width height : ℕ} {texels : Bytes} (hfit : imageBytes width height ≤ host.usizeMax)
  (hwidth : width < 2 ^ 32) (hheight : height < 2 ^ 32) (htexels : texels.length = 64)
include hfit hwidth htexels

/-- the columns from `c` on -/
theorem colLoop_spec {y bx : ℕ} (hy : y < height) (hbx : bx * 4 < width) (n c : ℕ) (hc : c + n = 4) (out : Bytes)
    (hout : imageBytes width height ≤ out.length) :
    ∃ out', colLoop host width texels y bx (y % 4) (List.range' c n) out = .ok out' ∧
      Drawn width height (ofBlock texels) (fun x' y' => y' = y ∧ x' / 4 = bx ∧ c ≤ x' % 4) out out' := by
  induction n generalizing c out with
  | zero => exact ⟨out, rfl, .nothing _ (fun x' _ y' _ h => by omega) out⟩
  | succ n ih =>
    have hfour : bx * BLOCK_EXTENT + c = bx * 4 + c := rfl
    have hx : bx * BLOCK_EXTENT + c < 2 ^ 32 := by omega
    rw [List.range'_succ, colLoop, u32_ok hx]
    simp only [bind, Except.bind]
    by_cases hedge : width ≤ bx * BLOCK_EXTENT + c
    · rw [if_pos hedge]
      exact ⟨out, rfl, .nothing _ (fun x' _ y' _ h => by omega) out⟩
    · have hlt : bx * 4 + c < width := by omega
      have hcell := four_cell_le hlt hy
      have hat : y * (width * 4) + (bx * BLOCK_EXTENT + c) * 4 = 4 * cell width (bx * 4 + c) y := by rw [hfour, cell]; ring
      have hstride : width * 4 ≤ host.usizeMax := by
        have : width * 1 ≤ width * height := Nat.mul_le_mul_left _ (by omega)
        rw [imageBytes] at hfit
        omega
      have hfrom : (y % 4 * BLOCK_EXTENT + c) * 4 = (y % 4 * 4 + c) * 4 := rfl
      rw [if_neg hedge, u32_ok (by omega), host.usize_ok hstride]
      simp only [hat]
      rw [host.usize_ok (by omega)]
      simp only
      rw [host.usize_ok (by omega), hfrom]
      have hsrc : (y % 4 * 4 + c) * 4 = (y % 4 * 4 + (bx * 4 + c) % 4) * 4 := by omega
      have hone := drawn_texel hlt hy hout htexels hsrc
      obtain ⟨out', hloop, hrest⟩ := ih (c + 1) (by omega) _ (by rw [hone.length]; exact hout)
      exact ⟨out', hloop, (hone.trans hrest).congr (fun x' _ y' _ => by omega) fun _ _ _ _ _ => rfl⟩

include hheight

/-- the rows from `r` on -/
theorem rowLoop_spec {by_ bx : ℕ} (hby : by_ * 4 < height) (hbx : bx * 4 < width) (n r : ℕ) (hr : r + n = 4) (out : Bytes)
    (hout : imageBytes width height ≤ out.length) :
    ∃ out', rowLoop host width height texels by_ bx (List.range' r n) out = .ok out' ∧
      Drawn width height (ofBlock texels) (fun x' y' => y' / 4 = by_ ∧ x' / 4 = bx ∧ r ≤ y' % 4) out out' := by
  induction n generalizing r out with
  | zero => exact ⟨out, rfl, .nothing _ (fun x' _ y' _ h => by omega) out⟩
  | succ n ih =>
    have hfour : by_ * BLOCK_EXTENT + r = by_ * 4 + r := rfl
    have hy : by_ * BLOCK_EXTENT + r < 2 ^ 32 := by omega
    rw [List.range'_succ, rowLoop, u32_ok hy]
    simp only [bind, Except.bind]
    by_cases hedge : height ≤ by_ * BLOCK_EXTENT + r
    · rw [if_pos hedge]
      exact ⟨out, rfl, .nothing _ (fun x' _ y' _ h => by omega) out⟩
    · have hlt : by_ * 4 + r < height := by omega
      have hmod : (by_ * 4 + r) % 4 = r := by omega
      obtain ⟨out1, hcols, hrow⟩ := colLoop_spec hfit hwidth htexels hlt hbx 4 0 rfl out hout
      obtain ⟨out', hloop, hrest⟩ := ih (r + 1) (by omega) out1 (by rw [hrow.length]; exact hout)
      rw [hmod] at hcols
      rw [if_neg hedge, hfour, List.range_eq_range', show BLOCK_EXTENT = 4 from rfl, hcols]
      exact ⟨out', hloop, (hrow.trans hrest).congr (fun x' _ y' _ => by omega) fun _ _ _ _ _ => rfl⟩

end

/-! ## A block drawn -/

theorem blockAt_word {data : Bytes} {i : ℕ} {block : Block} (h : blockAt data (i * 8) = some block) :
    Spec.word block = wordAt data i := by
  unfold blockAt at h
  split_ifs at h with hlen
  rw [← Option.some.inj h, wordAt, Nat.mul_comm 8 i]
  rfl

/-- what a computation ends in, well or not -/
def Ends {β ε : Type*} (I : β → Prop) (E : ε → Prop) : Except ε β → Prop
  | .ok b => I b
  | .error e => E e

section
variable {host : Host} {data out : Bytes} {width height : ℕ}

theorem decodeOne_spec (h : Fits host data out width height) (hwidth : width < 2 ^ 32) (hheight : height < 2 ^ 32) (neededIn : ℕ)
    {by_ bx : ℕ} (hby : by_ < blocksAcross height) (hbx : bx < blocksAcross width) {out' : Bytes} (hout : out'.length = out.length) :
    Ends (fun out'' => ¬IsEtc2 data (cell (blocksAcross width) bx by_) ∧ Drawn width height (texelAt data width)
        (fun x y => blockOf width x y = cell (blocksAcross width) bx by_) out' out'')
      (fun e => e.2 = out' ∧ ∃ c, EscapesBy data (cell (blocksAcross width) bx by_) c ∧
        e.1 = .refused (.Etc2ModeInEtc1Data (cell (blocksAcross width) bx by_) (modeOf c)))
      (decodeOne host data width height (blocksAcross width) neededIn by_ bx out') := by
  have hcell := cell_lt hbx hby
  have hblocks := h.blocks
  have hdata := h.data
  rw [blockCount] at hblocks hdata
  set i := cell (blocksAcross width) bx by_ with hi
  have hindex : by_ * blocksAcross width + bx = i := rfl
  have hat : i * BLOCK_BYTES = i * 8 := rfl
  have hend : i * 8 + BLOCK_BYTES = i * 8 + 8 := rfl
  unfold decodeOne
  rw [hindex, host.usize_ok (by omega)]
  simp only [leaving, bind, Except.bind]
  rw [hat, host.usize_ok (by omega)]
  simp only
  rw [hend, host.usize_ok (by omega)]
  have hblock : blockAt data (i * 8) = some ⟨slice data (i * 8) 8, length_slice (by omega)⟩ := dif_pos (by omega)
  have hword := blockAt_word hblock
  simp only [hblock]
  cases hdecode : decodeBlock ⟨slice data (i * 8) 8, length_slice (by omega)⟩ i with
  | error e =>
    obtain ⟨c, hc, hescapes, hfirst, rfl⟩ := decodeBlock_error hdecode
    rw [hword] at hescapes hfirst
    exact ⟨rfl, c, ⟨hc, hescapes, hfirst⟩, rfl⟩
  | ok texels =>
    obtain ⟨hno, hlen, htexel⟩ := decodeBlock_ok hdecode
    rw [hword] at hno htexel
    have hby4 : by_ * 4 < height := by rw [blocksAcross] at hby; omega
    have hbx4 : bx * 4 < width := by rw [blocksAcross] at hbx; omega
    obtain ⟨out'', hrows, hdrawn⟩ := rowLoop_spec h.image hwidth hheight hlen hby4 hbx4 4 0 rfl out' (by rw [hout]; exact h.out)
    simp only [List.range_eq_range', show BLOCK_EXTENT = 4 from rfl, hrows]
    refine ⟨fun ⟨c, hc, he⟩ => hno c hc he, hdrawn.congr (fun x hx y hy => ?_) fun x hx y hy hxy => ?_⟩
    · have hx4 : x / 4 < blocksAcross width := by rw [blocksAcross]; omega
      refine ⟨fun hxy => by rw [blockOf, hxy.1, hxy.2.1], fun hxy => ?_⟩
      obtain ⟨hxx, hyy⟩ := cell_inj hx4 hbx hxy
      exact ⟨hyy, hxx, Nat.zero_le _⟩
    · rw [ofBlock, texelAt, hxy]
      exact htexel (x % 4) (Nat.mod_lt _ (by decide)) (y % 4) (Nat.mod_lt _ (by decide))

end

/-! ## The image drawn -/

/-- an invariant of a loop that may stop -/
theorem foldlM_range {β ε : Type*} {f : β → ℕ → Except ε β} {n : ℕ} (I : ℕ → β → Prop) (E : ε → Prop)
    (hstep : ∀ i < n, ∀ b, I i b → Ends (I (i + 1)) E (f b i)) {b : β} (h0 : I 0 b) :
    Ends (I n) E ((List.range n).foldlM f b) := by
  induction n with
  | zero => exact h0
  | succ n ih =>
    have hn := ih fun i hi => hstep i (by omega)
    rw [List.range_succ, List.foldlM_append]
    cases hfold : (List.range n).foldlM f b with
    | error e =>
      rw [hfold] at hn
      exact hn
    | ok b' =>
      rw [hfold] at hn
      have hlast := hstep n (by omega) b' hn
      simp only [bind, Except.bind, List.foldlM_cons, List.foldlM_nil]
      cases hf : f b' n with
      | error e =>
        rw [hf] at hlast
        exact hlast
      | ok b'' =>
        rw [hf] at hlast
        exact hlast

/-- the blocks before the `n`-th are drawn, and none of them is of ETC2 -/
structure Painted (data : Bytes) (width height n : ℕ) (out out' : Bytes) : Prop where
  plain : ∀ i < n, ¬IsEtc2 data i
  drawn : Drawn width height (texelAt data width) (fun x y => blockOf width x y < n) out out'

/-- the block that a refusal names is the first of ETC2 -/
def Refused (data : Bytes) (width height : ℕ) (out : Bytes) (e : Stop × Bytes) : Prop :=
  ∃ i c, i < blockCount width height ∧ EscapesBy data i c ∧ e.1 = .refused (.Etc2ModeInEtc1Data i (modeOf c)) ∧
    Painted data width height i out e.2

/-- the loops over the blocks of an image -/
def grid (host : Host) (data : Bytes) (width height : ℕ) (out : Bytes) : Except (Stop × Bytes) Bytes :=
  (List.range (blocksAcross height)).foldlM (fun out by_ => (List.range (blocksAcross width)).foldlM
    (fun out bx => decodeOne host data width height (blocksAcross width) (8 * blockCount width height) by_ bx out) out) out

theorem grid_spec {host : Host} {data out : Bytes} {width height : ℕ} (h : Fits host data out width height) (hwidth : width < 2 ^ 32)
    (hheight : height < 2 ^ 32) :
    Ends (Painted data width height (blockCount width height) out) (Refused data width height out)
      (grid host data width height out) := by
  set neededIn := 8 * blockCount width height with hneeded
  have hrows := foldlM_range (n := blocksAcross height)
    (f := fun out by_ => (List.range (blocksAcross width)).foldlM
      (fun out bx => decodeOne host data width height (blocksAcross width) neededIn by_ bx out) out)
    (fun i out' => Painted data width height (i * blocksAcross width) out out') (Refused data width height out)
    (b := out) ?_ ?_
  · rw [blockCount, Nat.mul_comm]
    exact hrows
  · intro by_ hby out1 hout1
    have hcols := foldlM_range (n := blocksAcross width)
      (f := fun out bx => decodeOne host data width height (blocksAcross width) neededIn by_ bx out)
      (fun j out' => Painted data width height (by_ * blocksAcross width + j) out out') (Refused data width height out)
      (b := out1) ?_ hout1
    · rw [← Nat.succ_mul] at hcols
      exact hcols
    · intro bx hbx out2 hout2
      have hone := decodeOne_spec h hwidth hheight neededIn hby hbx hout2.drawn.length
      have hcell := cell_lt hbx hby
      cases hdecode : decodeOne host data width height (blocksAcross width) neededIn by_ bx out2 with
      | error e =>
        rw [hdecode] at hone
        obtain ⟨hsame, c, hc, he⟩ := hone
        exact ⟨_, c, hcell, hc, he, by rw [hsame]; exact hout2⟩
      | ok out3 =>
        rw [hdecode] at hone
        obtain ⟨hplain, hdrawn⟩ := hone
        refine ⟨fun i hi => ?_, (hout2.drawn.trans hdrawn).congr (fun x _ y _ => ?_) fun _ _ _ _ _ => rfl⟩
        · obtain hlt | rfl := Nat.lt_succ_iff_lt_or_eq.mp hi
          · exact hout2.plain i hlt
          · exact hplain
        · exact Nat.lt_succ_iff_lt_or_eq.symm
  · refine ⟨fun i hi => absurd hi (by omega), .nothing _ (fun x _ y _ hxy => by omega) out⟩

/-! ## Sizes -/

theorem blockGrid_ok (format : CompressedFormat) {width height : UInt32} (hw : width ≠ 0) (hh : height ≠ 0) :
    blockGrid format width height = .ok (blocksAcross width.toNat, blocksAcross height.toNat) := by
  have across : ∀ n : UInt32, n.toNat / 4 + (if n.toNat % 4 ≠ 0 then 1 else 0) = blocksAcross n.toNat := by
    intro n
    rw [blocksAcross]
    split_ifs <;> omega
  have hsmall : ∀ n : UInt32, blocksAcross n.toNat < 2 ^ 32 := by
    intro n
    have := n.toNat_lt
    rw [blocksAcross]
    omega
  have hx : width.toNat / format.blockExtent.1 + (if width.toNat % format.blockExtent.1 ≠ 0 then 1 else 0) =
      blocksAcross width.toNat := by
    cases format
    exact across width
  have hy : height.toNat / format.blockExtent.2 + (if height.toNat % format.blockExtent.2 ≠ 0 then 1 else 0) =
      blocksAcross height.toNat := by
    cases format
    exact across height
  simp only [blockGrid, hw, hh, or_self, if_false, hx, hy, u32_ok (hsmall width), u32_ok (hsmall height)]
  rfl

theorem checked_sizes (host : Host) (a b c : ℕ) (hc : 0 < c) :
    ((checkedMul a b).bind fun n => (checkedMul n c).bind host.tryFrom) =
      if c * (a * b) ≤ host.usizeMax ∧ c * (a * b) < 2 ^ 64 then some (c * (a * b)) else none := by
  have hle : a * b ≤ a * b * c := Nat.le_mul_of_pos_right _ hc
  rw [Nat.mul_comm c]
  by_cases h1 : a * b < 2 ^ 64
  · rw [checkedMul, if_pos h1, Option.bind_some, checkedMul]
    by_cases h2 : a * b * c < 2 ^ 64
    · simp only [h2, if_true, and_true, Option.bind_some, Host.tryFrom]
    · simp only [h2, and_false, if_false, Option.bind_none]
  · have h2 : ¬a * b * c < 2 ^ 64 := by omega
    simp only [checkedMul, if_neg h1, h2, and_false, if_false, Option.bind_none]

section
variable (host : Host) (format : CompressedFormat) (data : Bytes) (width height : UInt32) (out : Bytes)

/-- `decode` with its sizes computed: the checks in order, and the loops after them -/
theorem decode_eq : decode host format data width height out =
    if width = 0 ∨ height = 0 then .error (.refused (.ZeroExtent width.toNat height.toNat), out)
    else if ¬(8 * blockCount width.toNat height.toNat ≤ host.usizeMax ∧ 8 * blockCount width.toNat height.toNat < 2 ^ 64) then
      .error (.refused (.ExtentTooLarge width.toNat height.toNat), out)
    else if data.length < 8 * blockCount width.toNat height.toNat then
      .error (.refused (.TruncatedBlockData (8 * blockCount width.toNat height.toNat) data.length), out)
    else if ¬(imageBytes width.toNat height.toNat ≤ host.usizeMax ∧ imageBytes width.toNat height.toNat < 2 ^ 64) then
      .error (.refused (.ExtentTooLarge width.toNat height.toNat), out)
    else if out.length < imageBytes width.toNat height.toNat then
      .error (.refused (.OutputTooSmall (imageBytes width.toNat height.toNat) out.length), out)
    else grid host data width.toNat height.toNat out := by
  by_cases hzero : width = 0 ∨ height = 0
  · rw [if_pos hzero]
    simp only [decode, blockGrid, if_pos hzero, leaving]
    rfl
  obtain ⟨hw, hh⟩ := not_or.mp hzero
  have hbytes : format.blockBytes = 8 := by cases format; rfl
  have hin : compressedLen host format width height =
      if 8 * blockCount width.toNat height.toNat ≤ host.usizeMax ∧ 8 * blockCount width.toNat height.toNat < 2 ^ 64 then
        .ok (8 * blockCount width.toNat height.toNat) else .error (.refused (.ExtentTooLarge width.toNat height.toNat)) := by
    simp only [compressedLen, blockGrid_ok format hw hh, bind, Except.bind, hbytes, checked_sizes _ _ _ 8 (by decide)]
    rw [blockCount]
    split_ifs <;> rfl
  have hdec : decodedLen host width height =
      if imageBytes width.toNat height.toNat ≤ host.usizeMax ∧ imageBytes width.toNat height.toNat < 2 ^ 64 then
        .ok (imageBytes width.toNat height.toNat) else .error (.refused (.ExtentTooLarge width.toNat height.toNat)) := by
    simp only [decodedLen, if_neg hzero, checked_sizes _ _ _ 4 (by decide)]
    rw [imageBytes]
    split_ifs <;> rfl
  simp only [decode, blockGrid_ok format hw hh, leaving, bind, Except.bind, hin, hdec]
  rw [if_neg hzero]
  by_cases hblocks : 8 * blockCount width.toNat height.toNat ≤ host.usizeMax ∧ 8 * blockCount width.toNat height.toNat < 2 ^ 64
  swap
  · rw [if_neg hblocks, if_pos hblocks]
  rw [if_pos hblocks, if_neg (not_not.mpr hblocks)]
  simp only
  by_cases hdata : data.length < 8 * blockCount width.toNat height.toNat
  · rw [if_pos hdata, if_pos hdata]
  rw [if_neg hdata, if_neg hdata]
  by_cases himage : imageBytes width.toNat height.toNat ≤ host.usizeMax ∧ imageBytes width.toNat height.toNat < 2 ^ 64
  swap
  · rw [if_neg himage, if_pos himage]
  rw [if_pos himage, if_neg (not_not.mpr himage)]
  rfl

/-- sizes that do not fit are refused, and the output with them is what it was -/
theorem decode_cases :
    Fits host data out width.toNat height.toNat ∧
        decode host format data width height out = grid host data width.toNat height.toNat out ∨
      ¬Fits host data out width.toNat height.toNat ∧ ∃ e, decode host format data width height out = .error (.refused e, out) ∧
        ∀ i mode, e ≠ .Etc2ModeInEtc1Data i mode := by
  rw [decode_eq]
  split_ifs with hzero hblocks hdata himage hout
  · refine .inr ⟨fun h => ?_, _, rfl, fun _ _ => by simp⟩
    obtain rfl | rfl := hzero
    · exact absurd h.width_pos (by decide)
    · exact absurd h.height_pos (by decide)
  · exact .inr ⟨fun h => absurd h.data (by omega), _, rfl, fun _ _ => by simp⟩
  · exact .inr ⟨fun h => absurd h.out (by omega), _, rfl, fun _ _ => by simp⟩
  · have hpos : ∀ n : UInt32, n ≠ 0 → 0 < n.toNat := fun n hn => Nat.pos_of_ne_zero fun h => hn (UInt32.toNat_inj.mp h)
    obtain ⟨hw, hh⟩ := not_or.mp hzero
    exact .inl ⟨⟨hpos width hw, hpos height hh, hblocks.1, hblocks.2, by omega, himage.1, himage.2, by omega⟩, rfl⟩
  · exact .inr ⟨fun h => himage ⟨h.image, h.image64⟩, _, rfl, fun _ _ => by simp⟩
  · exact .inr ⟨fun h => hblocks ⟨h.blocks, h.blocks64⟩, _, rfl, fun _ _ => by simp⟩

/-! ## Where the data is read -/

theorem foldlM_congr {β ε : Type*} {f g : β → ℕ → Except ε β} {n : ℕ} (h : ∀ i < n, ∀ b, f b i = g b i) (b : β) :
    (List.range n).foldlM f b = (List.range n).foldlM g b := by
  induction n generalizing b with
  | zero => rfl
  | succ n ih =>
    have hlast : ∀ b, f b n = g b n := h n (by omega)
    simp only [List.range_succ, List.foldlM_append, ih (fun i hi => h i (by omega)), List.foldlM_cons, List.foldlM_nil, hlast]

theorem grid_take {width height : ℕ} {data' : Bytes}
    (hdata : 8 * blockCount width height ≤ data.length) (hdata' : 8 * blockCount width height ≤ data'.length)
    (hsame : data'.take (8 * blockCount width height) = data.take (8 * blockCount width height)) :
    grid host data' width height out = grid host data width height out := by
  refine foldlM_congr (fun by_ hby out => foldlM_congr (fun bx hbx out => ?_) out) out
  have hcell : by_ * blocksAcross width + bx < blockCount width height := cell_lt hbx hby
  have hslice : ∀ d : Bytes, slice d ((by_ * blocksAcross width + bx) * 8) 8 =
      slice (d.take (8 * blockCount width height)) ((by_ * blocksAcross width + bx) * 8) 8 := by
    intro d
    have htake : d.take (8 * blockCount width height) = slice d 0 (8 * blockCount width height) := by rw [slice, List.drop_zero]
    rw [htake, slice_slice (by omega), Nat.zero_add]
  have hat : (by_ * blocksAcross width + bx) * BLOCK_BYTES = (by_ * blocksAcross width + bx) * 8 := rfl
  have hblock : blockAt data' ((by_ * blocksAcross width + bx) * BLOCK_BYTES) =
      blockAt data ((by_ * blocksAcross width + bx) * BLOCK_BYTES) := by
    have heq := (hslice data').trans ((congrArg (fun d => slice d _ 8) hsame).trans (hslice data).symm)
    unfold blockAt
    rw [hat, dif_pos (by omega), dif_pos (by omega)]
    simp only [heq]
  obtain ⟨block, hsome⟩ : ∃ block, blockAt data ((by_ * blocksAcross width + bx) * BLOCK_BYTES) = some block :=
    ⟨_, by unfold blockAt; rw [hat, dif_pos (by omega)]⟩
  rw [hsome] at hblock
  have usize_value : ∀ n m, host.usize n = .ok m → m = n := by
    intro n m h
    rw [Host.usize] at h
    split_ifs at h
    exact (Except.ok.inj h).symm
  unfold decodeOne
  cases hindex : host.usize (by_ * blocksAcross width + bx) with
  | error e => rfl
  | ok index =>
    obtain rfl := usize_value _ _ hindex
    simp only [leaving, bind, Except.bind]
    cases hstart : host.usize ((by_ * blocksAcross width + bx) * BLOCK_BYTES) with
    | error e => rfl
    | ok at_ =>
      obtain rfl := usize_value _ _ hstart
      simp only [hblock, hsome]

/-- no byte past the blocks of an image is read -/
theorem decode_take (data' : Bytes) (hdata : 8 * blockCount width.toNat height.toNat ≤ data.length)
    (hdata' : 8 * blockCount width.toNat height.toNat ≤ data'.length)
    (hsame : data'.take (8 * blockCount width.toNat height.toNat) = data.take (8 * blockCount width.toNat height.toNat)) :
    decode host format data' width height out = decode host format data width height out := by
  rw [decode_eq, decode_eq, if_neg (not_lt.mpr hdata), if_neg (not_lt.mpr hdata'), grid_take host data out hdata hdata' hsame]

/-- **The image is the specification's.** No size wraps; nothing is written past the image and nothing read past its blocks; it is
refused for ETC2 exactly at the first block that is of ETC2; and what is not refused is, texel by texel, what the specification says. -/
theorem decode_texels :
    (∀ out', decode host format data width height out ≠ .error (.overflow, out')) ∧
      (∀ out', decode host format data width height out = .ok out' →
        Fits host data out width.toNat height.toNat ∧
          Drawn width.toNat height.toNat (texelAt data width.toNat) (fun _ _ => True) out out') ∧
      (∀ e out', decode host format data width height out = .error (.refused e, out') →
        out'.length = out.length ∧ ∀ k, imageBytes width.toNat height.toNat ≤ k → out'[k]? = out[k]?) ∧
      (∀ i mode, (∃ out', decode host format data width height out = .error (.refused (.Etc2ModeInEtc1Data i mode), out')) ↔
        Fits host data out width.toNat height.toNat ∧ i < blockCount width.toNat height.toNat ∧ (∀ j < i, ¬IsEtc2 data j) ∧
          ∃ c, EscapesBy data i c ∧ mode = modeOf c) ∧
      ∀ data', 8 * blockCount width.toNat height.toNat ≤ data.length → 8 * blockCount width.toNat height.toNat ≤ data'.length →
        data'.take (8 * blockCount width.toNat height.toNat) = data.take (8 * blockCount width.toNat height.toNat) →
          decode host format data' width height out = decode host format data width height out := by
  have hreads := decode_take host format data width height out
  obtain ⟨hfits, hdecode⟩ | ⟨hfits, e, hdecode, hother⟩ := decode_cases host format data width height out
  · have hgrid := grid_spec hfits width.toNat_lt height.toNat_lt
    rw [← hdecode] at hgrid
    refine ⟨fun out' h => ?_, fun out' h => ?_, fun e out' h => ?_, fun i mode => ⟨?_, ?_⟩, hreads⟩
    · rw [h] at hgrid
      obtain ⟨i, c, _, _, he, _⟩ := hgrid
      cases he
    · rw [h] at hgrid
      refine ⟨hfits, hgrid.drawn.congr (fun x hx y hy => ?_) fun _ _ _ _ _ => rfl⟩
      have hx4 : x / 4 < blocksAcross width.toNat := by rw [blocksAcross]; omega
      have hy4 : y / 4 < blocksAcross height.toNat := by rw [blocksAcross]; omega
      exact ⟨fun _ => trivial, fun _ => cell_lt hx4 hy4⟩
    · rw [h] at hgrid
      obtain ⟨i, c, _, _, _, hpainted⟩ := hgrid
      exact ⟨hpainted.drawn.length, hpainted.drawn.beyond⟩
    · rintro ⟨out', h⟩
      rw [h] at hgrid
      obtain ⟨j, c, hj, hc, he, hpainted⟩ := hgrid
      simp only [Stop.refused.injEq, TextureError.Etc2ModeInEtc1Data.injEq] at he
      obtain ⟨rfl, rfl⟩ := he
      exact ⟨hfits, hj, hpainted.plain, c, hc, rfl⟩
    · rintro ⟨_, hi, hplain, c, hc, rfl⟩
      cases hresult : decode host format data width height out with
      | ok out' =>
        rw [hresult] at hgrid
        exact absurd ⟨c, hc.1, hc.2.1⟩ (hgrid.plain i hi)
      | error e =>
        rw [hresult] at hgrid
        obtain ⟨j, d, hj, hd, he, hpainted⟩ := hgrid
        have hij : j = i := by
          rcases Nat.lt_trichotomy i j with hlt | rfl | hlt
          · exact absurd ⟨c, hc.1, hc.2.1⟩ (hpainted.plain i hlt)
          · rfl
          · exact absurd ⟨d, hd.1, hd.2.1⟩ (hplain j hlt)
        subst hij
        have hcd : d = c := by
          rcases Nat.lt_trichotomy c d with hlt | rfl | hlt
          · exact absurd hc.2.1 (hd.2.2 c hlt)
          · rfl
          · exact absurd hd.2.1 (hc.2.2 d hlt)
        subst hcd
        exact ⟨e.2, by rw [← he]⟩
  · refine ⟨fun out' h => ?_, fun out' h => ?_, fun e' out' h => ?_, fun i mode => ⟨?_, ?_⟩, hreads⟩
    · rw [hdecode] at h
      cases h
    · rw [hdecode] at h
      cases h
    · rw [hdecode] at h
      cases h
      exact ⟨rfl, fun _ _ => rfl⟩
    · rintro ⟨out', h⟩
      rw [hdecode] at h
      cases h
      exact absurd rfl (hother i mode)
    · rintro ⟨h, _⟩
      exact absurd h hfits

end

end Omnidroid.Texture
