/-
Each way of drawing a row is one function of the two pixels at each column.
- A pixel: what each shortcut leaves is what blending it makes (`blendPixel_zero`, `blendPixel_full`,
  `blendPixel_black`), and red and blue may be swapped before or after (`blendPixel_swap`).
- A word: `copy_row`'s four pixels at once are its one pixel four times (`copyWord4_word4`).
- A row: `blendRow_eq`, `blendRowFast_eq`, `copyRow_eq`, `blendRowRuns_eq`.
-/
import Omnidroid.Hal.Compose

namespace Omnidroid.Compose

open Bytes

/-! ## Words -/

theorem and_ff (b : UInt8) : b &&& 0xff = b := UInt8.and_neg_one

theorem or_ff (b : UInt8) : b ||| 0xff = 0xff := UInt8.or_neg_one

/-- what `copy_row` makes of a pixel -/
def copyPx (swap alpha : Bool) (p : Px) : Px :=
  let p := if swap then p.swap else p
  if alpha then p.opaque_ else p

theorem swapRb_word (p : Px) : swapRb p.word = p.swap.word := by
  have hkeep : (0xff00ff00 : ℕ) = leNat [0, 0xff, 0, 0xff] := rfl
  have hlow : (0xff : ℕ) = leNat [0xff, 0, 0, 0] := rfl
  have hr : p.word >>> 16 = leNat [p.c2, p.a, 0, 0] :=
    (leNat_shiftRight p.c0 p.c1 [p.c2, p.a]).trans (leNat_append_zeros [p.c2, p.a] 2).symm
  unfold swapRb
  rw [hr, hkeep, hlow]
  unfold Px.word Px.bytes
  rw [leNat_land (by rfl), leNat_land (by rfl), leNat_land (by rfl)]
  simp only [List.zipWith_cons_cons, List.zipWith_nil_left, and_ff, UInt8.and_zero]
  rw [leNat_shiftLeft, show leNat [0, 0, p.c0, 0, 0, 0] = leNat [0, 0, p.c0, 0] from
    leNat_append_zeros [0, 0, p.c0, 0] 2, leNat_lor (by rfl), leNat_lor (by rfl)]
  simp only [List.zipWith_cons_cons, List.zipWith_nil_left, UInt8.or_zero, UInt8.zero_or]
  rfl

theorem ofWord_word (p : Px) : Px.ofWord p.word = p :=
  congrArg Px.ofBytes (leBytes_leNat p.bytes)

theorem ofWord_copyWord (swap alpha : Bool) (p : Px) : Px.ofWord (copyWord swap alpha p.word) = copyPx swap alpha p := by
  have hor : ∀ p : Px, p.word ||| (if alpha then 0xff000000 else 0) = (if alpha then p.opaque_ else p).word := by
    intro p
    cases alpha with
    | false => exact Nat.or_zero _
    | true =>
      show p.word ||| leNat [0, 0, 0, 0xff] = _
      unfold Px.word Px.bytes
      rw [leNat_lor (by rfl)]
      simp only [List.zipWith_cons_cons, List.zipWith_nil_left, UInt8.or_zero, or_ff]
      rfl
  unfold copyWord copyPx
  cases swap with
  | false => rw [if_neg Bool.false_ne_true, hor, ofWord_word, if_neg Bool.false_ne_true]
  | true => rw [if_pos rfl, swapRb_word, hor, ofWord_word, if_pos rfl]

theorem pixels_word4 (p0 p1 p2 p3 : Px) : pixels (leBytes 16 (word4 p0 p1 p2 p3)) = [p0, p1, p2, p3] :=
  congrArg pixels (leBytes_leNat (p0.bytes ++ p1.bytes ++ p2.bytes ++ p3.bytes))

/-- red and blue swapped in four pixels at once -/
theorem swapWord4 (p0 p1 p2 p3 : Px) :
    (word4 p0 p1 p2 p3 &&& rbKeep) ||| ((word4 p0 p1 p2 p3 >>> 16) &&& low) |||
      (((word4 p0 p1 p2 p3 &&& low) <<< 16) % 2 ^ 128) = word4 p0.swap p1.swap p2.swap p3.swap := by
  have hkeep : rbKeep = leNat [0, 0xff, 0, 0xff, 0, 0xff, 0, 0xff, 0, 0xff, 0, 0xff, 0, 0xff, 0, 0xff] := rfl
  have hlow : low = leNat [0xff, 0, 0, 0, 0xff, 0, 0, 0, 0xff, 0, 0, 0, 0xff, 0, 0, 0] := rfl
  have hv : word4 p0 p1 p2 p3 = leNat [p0.c0, p0.c1, p0.c2, p0.a, p1.c0, p1.c1, p1.c2, p1.a, p2.c0, p2.c1, p2.c2, p2.a,
    p3.c0, p3.c1, p3.c2, p3.a] := rfl
  have hr : word4 p0 p1 p2 p3 >>> 16 = leNat [p0.c2, p0.a, p1.c0, p1.c1, p1.c2, p1.a, p2.c0, p2.c1, p2.c2, p2.a,
      p3.c0, p3.c1, p3.c2, p3.a, 0, 0] :=
    (leNat_shiftRight p0.c0 p0.c1 _).trans (leNat_append_zeros _ 2).symm
  have hl : ((word4 p0 p1 p2 p3 &&& low) <<< 16) % 2 ^ 128 =
      leNat [0, 0, p0.c0, 0, 0, 0, p1.c0, 0, 0, 0, p2.c0, 0, 0, 0, p3.c0, 0] := by
    rw [hv, hlow, leNat_land (by rfl)]
    simp only [List.zipWith_cons_cons, List.zipWith_nil_left, and_ff, UInt8.and_zero]
    rw [leNat_shiftLeft]
    refine Eq.trans (congrArg (· % 2 ^ 128)
      (leNat_append_zeros [0, 0, p0.c0, 0, 0, 0, p1.c0, 0, 0, 0, p2.c0, 0, 0, 0, p3.c0, 0] 2)) ?_
    have hlt := leNat_lt [0, 0, p0.c0, 0, 0, 0, p1.c0, 0, 0, 0, p2.c0, 0, 0, 0, p3.c0, 0]
    simp only [List.length_cons, List.length_nil] at hlt
    refine Nat.mod_eq_of_lt (lt_of_lt_of_eq hlt ?_)
    norm_num
  rw [hl, hr, hv, hkeep, hlow, leNat_land (by rfl), leNat_land (by rfl)]
  simp only [List.zipWith_cons_cons, List.zipWith_nil_left, and_ff, UInt8.and_zero]
  rw [leNat_lor (by rfl), leNat_lor (by rfl)]
  simp only [List.zipWith_cons_cons, List.zipWith_nil_left, UInt8.or_zero, UInt8.zero_or]
  rfl

theorem copyWord4_word4 (swap alpha : Bool) (p0 p1 p2 p3 : Px) : copyWord4 swap alpha (word4 p0 p1 p2 p3) =
    word4 (copyPx swap alpha p0) (copyPx swap alpha p1) (copyPx swap alpha p2) (copyPx swap alpha p3) := by
  have hor : ∀ p0 p1 p2 p3 : Px, (word4 p0 p1 p2 p3 ||| if alpha then alphas else 0) =
      word4 (if alpha then p0.opaque_ else p0) (if alpha then p1.opaque_ else p1) (if alpha then p2.opaque_ else p2)
        (if alpha then p3.opaque_ else p3) := by
    intro p0 p1 p2 p3
    cases alpha with
    | false => exact Nat.or_zero _
    | true =>
      have ha : alphas = leNat [0, 0, 0, 0xff, 0, 0, 0, 0xff, 0, 0, 0, 0xff, 0, 0, 0, 0xff] := rfl
      rw [if_pos rfl, ha]
      unfold word4 Px.bytes
      simp only [List.cons_append, List.nil_append]
      rw [leNat_lor (by rfl)]
      simp only [List.zipWith_cons_cons, List.zipWith_nil_left, UInt8.or_zero, or_ff]
      rfl
  unfold copyWord4 copyPx
  cases swap with
  | false => exact hor p0 p1 p2 p3
  | true =>
    simp only [if_true]
    rw [swapWord4, hor]

/-! ## A pixel -/

theorem div_255 (n : ℕ) : n * 255 / 255 = n := Nat.mul_div_cancel n (by decide)

theorem ofNat_min_toNat (b : UInt8) : UInt8.ofNat (min b.toNat 255) = b := by
  rw [min_eq_left (Nat.le_of_lt_succ b.toNat_lt), UInt8.ofNat_toNat]

theorem blendChannel_zero (plane : ℕ) (d : UInt8) : blendChannel .premultiplied 0 0 plane d 0 = d := by
  show UInt8.ofNat (min (0 * plane / 255 + d.toNat * (255 - 0) / 255) 255) = d
  rw [Nat.zero_mul, Nat.zero_div, Nat.zero_add, Nat.sub_zero, div_255, ofNat_min_toNat]

theorem blendChannel_full (d s : UInt8) : blendChannel .premultiplied 255 255 255 d s = s := by
  show UInt8.ofNat (min (s.toNat * 255 / 255 + d.toNat * (255 - 255) / 255) 255) = s
  rw [div_255, Nat.sub_self, Nat.mul_zero, Nat.zero_div, Nat.add_zero, ofNat_min_toNat]

theorem blendChannel_black (a : ℕ) (s : UInt8) : blendChannel .premultiplied a a 255 0 s = s := by
  show UInt8.ofNat (min (s.toNat * 255 / 255 + 0 * (255 - a) / 255) 255) = s
  rw [div_255, Nat.zero_mul, Nat.zero_div, Nat.add_zero, ofNat_min_toNat]

/-- a pixel of four zeros leaves what is under it -/
theorem blendPixel_zero (d : Px) (plane : ℕ) : blendPixel d .zero .premultiplied false plane = d := by
  have ha : (0 : ℕ) * plane / 255 = 0 := by rw [Nat.zero_mul, Nat.zero_div]
  unfold blendPixel
  simp only [Bool.false_or, reduceCtorEq, decide_false, Bool.false_eq_true, if_false]
  show (⟨_, _, _, _⟩ : Px) = d
  simp only [Px.zero, UInt8.toNat_zero, ha, blendChannel_zero, Nat.zero_add, Nat.sub_zero, div_255, ofNat_min_toNat]

/-- an opaque pixel under a full plane hides what is under it -/
theorem blendPixel_full (d s : Px) (hs : s.a = 255) : blendPixel d s .premultiplied false 255 = s := by
  unfold blendPixel
  simp only [Bool.false_or, reduceCtorEq, decide_false, Bool.false_eq_true, if_false, hs]
  show (⟨blendChannel .premultiplied 255 255 255 _ _, blendChannel .premultiplied 255 255 255 _ _,
    blendChannel .premultiplied 255 255 255 _ _, UInt8.ofNat (min (255 + d.a.toNat * (255 - 255) / 255) 255)⟩ : Px) = s
  simp only [blendChannel_full, Nat.sub_self, Nat.mul_zero, Nat.zero_div, Nat.add_zero, min_self]
  rw [show UInt8.ofNat 255 = s.a from hs.symm]

/-- over black a premultiplied pixel is its own colour, opaque -/
theorem blendPixel_black (s : Px) : blendPixel .black s .premultiplied false 255 = s.opaque_ := by
  have hle : s.a.toNat ≤ 255 := Nat.le_of_lt_succ s.a.toNat_lt
  have ha : min (s.a.toNat + (255 : UInt8).toNat * (255 - s.a.toNat) / 255) 255 = 255 := by
    rw [show (255 : UInt8).toNat = 255 from rfl, Nat.mul_comm, div_255]
    omega
  unfold blendPixel
  simp only [Bool.false_or, reduceCtorEq, decide_false, Bool.false_eq_true, if_false, div_255, Px.black,
    blendChannel_black, ha]
  rfl

/-- red and blue may be swapped before or after -/
theorem blendPixel_swap (d s : Px) (blend : Blend) (opaque_ : Bool) (plane : ℕ) :
    (blendPixel d s blend opaque_ plane).swap = blendPixel d.swap s.swap blend opaque_ plane := rfl

/-- what `blend_row` makes of a pixel -/
def mixPx (blend : Blend) (opaque_ : Bool) (plane : ℕ) (d s : Px) : Px :=
  if plane = 255 ∧ (blend = .none ∨ opaque_) then if opaque_ then s.opaque_ else s
  else blendPixel d s blend opaque_ plane

theorem mixPx_premultiplied (plane : ℕ) (d s : Px) :
    mixPx .premultiplied false plane d s = blendPixel d s .premultiplied false plane :=
  if_neg fun h => h.2.elim nofun nofun

theorem mixPx_swap (blend : Blend) (opaque_ : Bool) (plane : ℕ) (d s : Px) :
    (mixPx blend opaque_ plane d s).swap = mixPx blend opaque_ plane d.swap s.swap := by
  unfold mixPx
  split_ifs
  · rfl
  · rfl
  · exact blendPixel_swap _ _ _ _ _

/-! ## A row -/

theorem zipPixels_eq {f : Px → Px → Px} {ds ss : List Px} (h : ds.length = ss.length) :
    zipPixels f ds ss = List.zipWith f ds ss := by
  induction ds generalizing ss with
  | nil => cases ss <;> rfl
  | cons d ds ih =>
    cases ss with
    | nil => cases h
    | cons s ss => rw [zipPixels, List.zipWith_cons_cons, ih (Nat.succ.inj h)]

theorem zipWith_right {f : Px → Px} {ds ss : List Px} (h : ds.length = ss.length) :
    List.zipWith (fun _ s => f s) ds ss = ss.map f := by
  induction ds generalizing ss with
  | nil => rw [List.length_eq_zero_iff.1 h.symm]; rfl
  | cons d ds ih =>
    cases ss with
    | nil => cases h
    | cons s ss => rw [List.zipWith_cons_cons, List.map_cons, ih (Nat.succ.inj h)]

variable {dst src : List Px} (h : dst.length = src.length)
include h

theorem blendRow_eq (blend : Blend) (opaque_ : Bool) (plane : ℕ) :
    blendRow dst src blend opaque_ plane = List.zipWith (mixPx blend opaque_ plane) dst src := by
  unfold blendRow mixPx
  split_ifs with hc ho
  · exact (zipWith_right h).symm
  · exact ((zipWith_right h).trans (List.map_id src)).symm
  · exact zipPixels_eq h

theorem blendRowFast_eq (blend : Blend) (opaque_ : Bool) (plane : ℕ) :
    blendRowFast dst src blend opaque_ plane = List.zipWith (mixPx blend opaque_ plane) dst src := by
  unfold blendRowFast
  split_ifs with hc
  · exact blendRow_eq h blend opaque_ plane
  · push Not at hc
    obtain ⟨-, rfl, ho⟩ := hc
    obtain rfl : opaque_ = false := Bool.eq_false_iff.2 ho
    have hf : (fun d s => if s = Px.zero then d else if plane = 255 ∧ s.a = 255 then s
        else blendPixel d s .premultiplied false plane) = mixPx .premultiplied false plane := by
      funext d s
      rw [mixPx_premultiplied]
      split_ifs with hz hfull
      · rw [hz, blendPixel_zero]
      · rw [hfull.1, blendPixel_full d s hfull.2]
      · rfl
    rw [hf]
    exact zipPixels_eq h

theorem copyChunks_eq (swap alpha : Bool) : copyChunks swap alpha dst src = src.map (copyPx swap alpha) := by
  fun_induction copyChunks swap alpha dst src with
  | case1 _ _ _ _ ds s0 s1 s2 s3 ss ih =>
    simp only [List.length_cons, Nat.add_right_cancel_iff] at h
    rw [ih h, copyWord4_word4, pixels_word4]
    rfl
  | case2 ds ss =>
    rw [zipPixels_eq h, zipWith_right h]
    exact List.map_congr_left fun s _ => ofWord_copyWord swap alpha s

theorem copyRow_eq (swap alpha : Bool) : copyRow dst src swap alpha = src.map (copyPx swap alpha) := by
  unfold copyRow
  split_ifs with hc
  · cases swap <;> cases alpha <;> first | exact (List.map_id src).symm | cases hc
  · exact copyChunks_eq h swap alpha

omit h in
theorem length_put {l new : List Px} {i : ℕ} (hi : i + new.length ≤ l.length) : (put l i new).length = l.length := by
  unfold put
  rw [List.length_append, List.length_append, List.length_take, List.length_drop]
  omega

omit h in
theorem getElem?_put {l new : List Px} {i : ℕ} (hi : i + new.length ≤ l.length) (j : ℕ) :
    (put l i new)[j]? = if i ≤ j ∧ j < i + new.length then new[j - i]? else l[j]? := by
  have htake : (l.take i).length = i := by
    rw [List.length_take]
    omega
  unfold put
  rw [List.append_assoc, List.getElem?_append, htake]
  split_ifs with h1 h2 h2
  · omega
  · rw [List.getElem?_take_of_lt h1]
  · rw [List.getElem?_append_left (by omega)]
  · rw [List.getElem?_append_right (by omega), List.getElem?_drop]
    congr 1
    omega

/-! ### Runs -/

omit h in
theorem runEnd_spec (p : ℕ → Bool) {n i : ℕ} (hi : i ≤ n) (k : ℕ) :
    i ≤ runEnd p n i k ∧ runEnd p n i k ≤ n ∧ ∀ j, i ≤ j → j < runEnd p n i k → p j := by
  induction k generalizing i with
  | zero => exact ⟨le_rfl, hi, fun j h1 h2 => absurd h2 (not_lt.2 h1)⟩
  | succ k ih =>
    rw [runEnd]
    split_ifs with hp
    · simp only [Bool.and_eq_true, decide_eq_true_eq] at hp
      obtain ⟨h1, h2, h3⟩ := ih (show i + 1 ≤ n from hp.1)
      refine ⟨by omega, h2, fun j hij hj => ?_⟩
      rcases Nat.eq_or_lt_of_le hij with rfl | hlt
      · exact hp.2
      · exact h3 j hlt hj
    · exact ⟨le_rfl, hi, fun j h1 h2 => absurd h2 (not_lt.2 h1)⟩

omit h in
/-- the four pixels of a chunk -/
theorem chunk_pixels {i : ℕ} (hi : i * 4 + 4 ≤ src.length) : ∃ p0 p1 p2 p3,
    chunk src i = word4 p0 p1 p2 p3 ∧
      ∀ j, i * 4 ≤ j → j < i * 4 + 4 → ∃ s ∈ [p0, p1, p2, p3], src[j]? = some s := by
  have hlen : ((src.drop (i * 4)).take 4).length = 4 := by
    rw [List.length_take, List.length_drop]
    omega
  obtain ⟨p0, p1, p2, p3, hp⟩ := List.length_eq_four.1 hlen
  refine ⟨p0, p1, p2, p3, ?_, fun j h1 h2 => ?_⟩
  · unfold chunk
    rw [hp]
    rfl
  · have hj : ((src.drop (i * 4)).take 4)[j - i * 4]? = src[j]? := by
      rw [List.getElem?_take_of_lt (by omega), List.getElem?_drop]
      congr 1
      omega
    rw [hp] at hj
    have hlt : j - i * 4 < [p0, p1, p2, p3].length := by
      show j - i * 4 < 4
      omega
    rw [List.getElem?_eq_getElem hlt] at hj
    exact ⟨_, List.getElem_mem hlt, hj.symm⟩

omit h in
theorem chunk_zero {i : ℕ} (hi : i * 4 + 4 ≤ src.length) (hz : chunk src i = 0) {j : ℕ} (h1 : i * 4 ≤ j)
    (h2 : j < i * 4 + 4) : src[j]? = some .zero := by
  obtain ⟨p0, p1, p2, p3, hc, hp⟩ := chunk_pixels hi
  obtain ⟨s, hs, hj⟩ := hp j h1 h2
  rw [hc, word4, leNat_eq_zero] at hz
  have hzero : s = .zero := by
    have hb : ∀ b ∈ s.bytes, b = 0 := fun b hb => hz b (by
      simp only [List.mem_cons, List.not_mem_nil, or_false] at hs
      simp only [List.mem_append]
      rcases hs with rfl | rfl | rfl | rfl <;> tauto)
    obtain ⟨c0, c1, c2, a⟩ := s
    simp only [Px.bytes, List.mem_cons, List.not_mem_nil, or_false, forall_eq_or_imp, forall_eq] at hb
    obtain ⟨rfl, rfl, rfl, rfl⟩ := hb
    rfl
  rw [hj, hzero]

omit h in
theorem chunk_full {i : ℕ} (hi : i * 4 + 4 ≤ src.length) (ha : chunk src i &&& alphas = alphas) {j : ℕ} (h1 : i * 4 ≤ j)
    (h2 : j < i * 4 + 4) : ∃ s, src[j]? = some s ∧ s.a = 255 := by
  obtain ⟨p0, p1, p2, p3, hc, hp⟩ := chunk_pixels hi
  obtain ⟨s, hs, hj⟩ := hp j h1 h2
  refine ⟨s, hj, ?_⟩
  have hal : alphas = leNat [0, 0, 0, 0xff, 0, 0, 0, 0xff, 0, 0, 0, 0xff, 0, 0, 0, 0xff] := rfl
  rw [hc, hal, word4] at ha
  unfold Px.bytes at ha
  simp only [List.cons_append, List.nil_append] at ha
  rw [leNat_land (by rfl)] at ha
  have hb := leNat_inj (by rfl) ha
  simp only [List.zipWith_cons_cons, List.zipWith_nil_left, and_ff, List.cons.injEq] at hb
  simp only [List.mem_cons, List.not_mem_nil, or_false] at hs
  rcases hs with rfl | rfl | rfl | rfl
  · exact hb.2.2.2.1
  · exact hb.2.2.2.2.2.2.2.1
  · exact hb.2.2.2.2.2.2.2.2.2.2.2.1
  · exact hb.2.2.2.2.2.2.2.2.2.2.2.2.2.2.2.1

omit h in
/-- `out` is `dst` with the pixels from `lo` to `hi` drawn -/
structure Drawn (one : Px → Px → Px) (src dst out : List Px) (lo hi : ℕ) : Prop where
  length : out.length = dst.length
  get : ∀ j, out[j]? = if lo ≤ j ∧ j < hi then (List.zipWith one dst src)[j]? else dst[j]?

section

variable {one : Px → Px → Px} {out : List Px} {lo mid hi : ℕ}

omit h in
theorem Drawn.refl (hlo : hi ≤ lo) : Drawn one src dst dst lo hi := ⟨rfl, fun j => by rw [if_neg (by omega)]⟩

omit h in
theorem Drawn.trans {dst' : List Px} (h1 : Drawn one src dst dst' lo mid) (h2 : Drawn one src dst' out mid hi)
    (hlo : lo ≤ mid) (hhi : mid ≤ hi) : Drawn one src dst out lo hi := by
  refine ⟨h2.length.trans h1.length, fun j => ?_⟩
  rw [h2.get]
  split_ifs with ha hb hb
  · rw [List.getElem?_zipWith', List.getElem?_zipWith', h1.get, if_neg (by omega)]
  · omega
  · rw [h1.get, if_pos (by omega)]
  · rw [h1.get, if_neg (by omega)]

omit h in
/-- what is written over a part is drawn, where each pixel of it is -/
theorem Drawn.put {new : List Px} {len : ℕ} (hnew : new.length = len) (hlen : lo + len ≤ dst.length)
    (hget : ∀ j, j < len → new[j]? = (List.zipWith one dst src)[lo + j]?) :
    Drawn one src dst (put dst lo new) lo (lo + len) := by
  have hle : lo + new.length ≤ dst.length := by rw [hnew]; exact hlen
  refine ⟨length_put hle, fun j => ?_⟩
  rw [getElem?_put hle, hnew]
  split_ifs with hj
  · rw [hget (j - lo) (by omega), Nat.add_sub_cancel' hj.1]
  · rfl

theorem Drawn.zip {len : ℕ} (hlen : lo + len ≤ dst.length) : Drawn one src dst
    (Compose.put dst lo (zipPixels one ((dst.drop lo).take len) ((src.drop lo).take len))) lo (lo + len) := by
  have hd : ((dst.drop lo).take len).length = len := by
    rw [List.length_take, List.length_drop]
    omega
  have hs : ((src.drop lo).take len).length = len := by
    rw [List.length_take, List.length_drop]
    omega
  rw [zipPixels_eq (hd.trans hs.symm)]
  refine Drawn.put ?_ hlen fun j hj => ?_
  · rw [List.length_zipWith, hd, hs, min_self]
  · rw [← List.take_zipWith, ← List.drop_zipWith, List.getElem?_take_of_lt hj, List.getElem?_drop]

variable {plane : ℕ} {swap : Bool} {n : ℕ}

omit h in
theorem Drawn.zeros (hzero : ∀ d, one d .zero = d) (hs : ∀ j, lo ≤ j → j < hi → src[j]? = some .zero) :
    Drawn one src dst dst lo hi := by
  refine ⟨rfl, fun j => ?_⟩
  split_ifs with hj
  · rw [List.getElem?_zipWith', hs j hj.1 hj.2]
    cases dst[j]? with
    | none => rfl
    | some d => exact congrArg some (hzero d).symm
  · rfl

theorem Drawn.copy (hfull : ∀ d s, s.a = 255 → one d s = copyPx swap false s) {len : ℕ} (hlen : lo + len ≤ dst.length)
    (hs : ∀ j, lo ≤ j → j < lo + len → ∃ s, src[j]? = some s ∧ s.a = 255) : Drawn one src dst
    (Compose.put dst lo (copyRow ((dst.drop lo).take len) ((src.drop lo).take len) swap false)) lo (lo + len) := by
  have hd : ((dst.drop lo).take len).length = len := by
    rw [List.length_take, List.length_drop]
    omega
  have hl : ((src.drop lo).take len).length = len := by
    rw [List.length_take, List.length_drop]
    omega
  rw [copyRow_eq (hd.trans hl.symm)]
  refine Drawn.put ?_ hlen fun j hj => ?_
  · rw [List.length_map, hl]
  · obtain ⟨s, hsj, ha⟩ := hs (lo + j) (by omega) (by omega)
    have hdj : lo + j < dst.length := by omega
    rw [List.getElem?_map, List.getElem?_take_of_lt hj, List.getElem?_drop, List.getElem?_zipWith', hsj,
      List.getElem?_eq_getElem hdj]
    exact congrArg some (hfull _ s ha).symm

/-- the loop draws every chunk from the `i`-th -/
theorem runs_drawn (hn : n * 4 ≤ src.length) (hzero : ∀ d, one d .zero = d)
    (hfull : plane = 255 → ∀ d s, s.a = 255 → one d s = copyPx swap false s) (k i : ℕ) (hk : n ≤ i + k) :
    Drawn one src dst (runs src one plane swap n k i dst) (i * 4) (n * 4) := by
  induction k generalizing i dst with
  | zero => exact .refl (by omega)
  | succ k ih =>
    rw [runs]
    split_ifs with hi hz hf
    · exact .refl (by omega)
    · -- a transparent run: nothing to do
      obtain ⟨h1, h2, h3⟩ := runEnd_spec (fun j => decide (chunk src j = 0)) (show i + 1 ≤ n by omega) n
      generalize runEnd (fun j => decide (chunk src j = 0)) n (i + 1) n = e at h1 h2 h3 ⊢
      have hs : ∀ j, i * 4 ≤ j → j < e * 4 → src[j]? = some .zero := by
        intro j hj1 hj2
        have hj : chunk src (j / 4) = 0 := by
          rcases Nat.eq_or_lt_of_le (show i ≤ j / 4 by omega) with he | hlt
          · rw [← he]
            exact hz
          · exact of_decide_eq_true (h3 (j / 4) hlt (by omega))
        exact chunk_zero (by omega) hj (by omega) (by omega)
      exact (Drawn.zeros hzero hs).trans (ih h e (by omega)) (by omega) (by omega)
    · -- an opaque run: one copy
      obtain ⟨h1, h2, h3⟩ := runEnd_spec (fun j => decide (chunk src j &&& alphas = alphas)) (show i + 1 ≤ n by omega) n
      generalize runEnd (fun j => decide (chunk src j &&& alphas = alphas)) n (i + 1) n = e at h1 h2 h3 ⊢
      have hs : ∀ j, i * 4 ≤ j → j < i * 4 + (e * 4 - i * 4) → ∃ s, src[j]? = some s ∧ s.a = 255 := by
        intro j hj1 hj2
        have hj : chunk src (j / 4) &&& alphas = alphas := by
          rcases Nat.eq_or_lt_of_le (show i ≤ j / 4 by omega) with he | hlt
          · rw [← he]
            exact hf.2
          · exact of_decide_eq_true (h3 (j / 4) hlt (by omega))
        exact chunk_full (by omega) hj (by omega) (by omega)
      have hc := Drawn.copy h (hfull hf.1) (show i * 4 + (e * 4 - i * 4) ≤ dst.length by omega) hs
      rw [show i * 4 + (e * 4 - i * 4) = e * 4 by omega] at hc
      exact hc.trans (ih (hc.length.trans h) e (by omega)) (by omega) (by omega)
    · have hc : Drawn one src dst _ (i * 4) (i * 4 + 4) := Drawn.zip h (show i * 4 + 4 ≤ dst.length by omega)
      rw [show i * 4 + 4 = (i + 1) * 4 by omega] at hc
      exact hc.trans (ih (hc.length.trans h) (i + 1) (by omega)) (by omega) (by omega)

end

omit h in
/-- drawn from end to end -/
theorem Drawn.all {one : Px → Px → Px} {out : List Px} (hd : Drawn one src dst out 0 dst.length) :
    out = List.zipWith one dst src := by
  refine List.ext_getElem? fun j => ?_
  rw [hd.get]
  split_ifs with hj
  · rfl
  · have hge : dst.length ≤ j := by omega
    rw [List.getElem?_eq_none hge, List.getElem?_zipWith', List.getElem?_eq_none hge]
    rfl

/-- `blend_row_runs`' last case: by runs as far as there are whole chunks, then what is left -/
theorem runsRest_eq {one : Px → Px → Px} {plane : ℕ} {swap : Bool} (hzero : ∀ d, one d .zero = d)
    (hfull : plane = 255 → ∀ d s, s.a = 255 → one d s = copyPx swap false s) :
    let n := min src.length dst.length * 4 / 16
    put (runs src one plane swap n n 0 dst) (n * 4)
      (zipPixels one ((runs src one plane swap n n 0 dst).drop (n * 4)) (src.drop (n * 4))) =
      List.zipWith one dst src := by
  intro n
  have hn : n * 4 ≤ src.length := by
    show min src.length dst.length * 4 / 16 * 4 ≤ src.length
    omega
  have hr := runs_drawn h hn hzero hfull n 0 (by omega)
  generalize runs src one plane swap n n 0 dst = out at hr ⊢
  have hout : out.length = src.length := hr.length.trans h
  have hz : Drawn one src out _ (n * 4) (n * 4 + (src.length - n * 4)) := Drawn.zip hout (by omega)
  rw [Nat.add_sub_cancel' hn, List.take_of_length_le (by rw [List.length_drop, hout]),
    List.take_of_length_le (by rw [List.length_drop])] at hz
  rw [Nat.zero_mul] at hr
  have hall := hr.trans hz (Nat.zero_le _) hn
  rw [← h] at hall
  exact hall.all

theorem blendRowRuns_eq (blend : Blend) (opaque_ : Bool) (plane : ℕ) (swap : Bool) :
    blendRowRuns dst src blend opaque_ plane swap =
      List.zipWith (fun d s => mixPx blend opaque_ plane d (if swap then s.swap else s)) dst src := by
  unfold blendRowRuns
  by_cases hc : plane = 255 ∧ (blend = .none ∨ opaque_)
  · rw [if_pos hc, copyRow_eq h]
    have hf : (fun d s : Px => mixPx blend opaque_ plane d (if swap then s.swap else s)) =
        fun _ s => copyPx swap opaque_ s := by
      funext d s
      unfold mixPx copyPx
      rw [if_pos hc]
    rw [hf]
    exact (zipWith_right h).symm
  · have hmix : ∀ d s, mixPx blend opaque_ plane d s = blendPixel d s blend opaque_ plane := fun d s => if_neg hc
    rw [if_neg hc]
    simp only [hmix]
    by_cases hb : blend ≠ .premultiplied ∨ opaque_
    · rw [if_pos hb]
      exact zipPixels_eq h
    · rw [if_neg hb]
      obtain ⟨hp, ho⟩ := not_or.1 hb
      obtain rfl : blend = .premultiplied := not_not.1 hp
      obtain rfl : opaque_ = false := Bool.eq_false_iff.2 ho
      have hsw : ∀ s : Px, (if swap then s.swap else s).a = s.a := fun s => by split_ifs <;> rfl
      have hzero : (if swap then Px.zero.swap else Px.zero) = .zero := by split_ifs <;> rfl
      have hone : (fun d s : Px => if s = Px.zero then d else if plane = 255 ∧ s.a = 255 then
            (if swap then s.swap else s) else blendPixel d (if swap then s.swap else s) .premultiplied false plane) =
          fun d s => blendPixel d (if swap then s.swap else s) .premultiplied false plane := by
        funext d s
        by_cases hz : s = .zero
        · rw [if_pos hz, hz, hzero, blendPixel_zero]
        · rw [if_neg hz]
          by_cases hf : plane = 255 ∧ s.a = 255
          · rw [if_pos hf, hf.1, blendPixel_full _ _ ((hsw s).trans hf.2)]
          · rw [if_neg hf]
      rw [hone]
      refine runsRest_eq h (fun d => ?_) fun hp d s hs => ?_
      · rw [hzero, blendPixel_zero]
      · rw [hp, blendPixel_full _ _ ((hsw s).trans hs)]
        rfl

end Omnidroid.Compose
