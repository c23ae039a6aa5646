/-
Every path of the composition draws the same picture: a layer drawn is a function of the pixel at each place (`draw_eq`),
so the layers are a fold at each (`paint`), and the layers a run path skips are under one that hides them
(`coverStart_spec`).
-/
import Omnidroid.Hal.Composed

namespace Omnidroid.Compose

open Bytes

/-! ## A layer at one place -/

namespace Layer

variable (l : Layer) (width height : ℕ)

/-- what the layer's source has for column `x` of display row `y`, if it has that row -/
def at_ (bgra : Bool) (x y : ℕ) : Option Px :=
  match l.source with
  | .pixels data stride _ cropX cropY =>
    (l.sourceRow width data stride cropX cropY y).bind fun src => (src[x - l.x0]?).map fun s => colorPx s bgra
  | .mapped nearest _ srcBgra => some (colorPx (nearest x y) (srcBgra != bgra))
  | .color px => some (colorPx px bgra)

/-- how it combines with what is under it -/
def mix (d s : Px) : Px :=
  match l.source with
  | .color _ => blendPixel d s .coverage false l.alpha.plane
  | _ => mixPx l.blend l.source.isOpaque l.alpha.plane d s

/-- the pixel over `d` -/
def over_ (bgra : Bool) (x y : ℕ) (d : Px) : Px := ((l.at_ width bgra x y).map (l.mix d)).getD d

def shows (x y : ℕ) : Prop :=
  l.skipped width height = false ∧ l.x0 ≤ x ∧ x < l.x1 width ∧ l.y0 ≤ y ∧ y < l.y1 height

instance decShows (x y : ℕ) : Decidable (l.shows width height x y) := by
  unfold shows
  infer_instance

end Layer

/-- the layers, bottom first, over `d` -/
def paint (bgra : Bool) (width height x y : ℕ) (layers : List Layer) (d : Px) : Px :=
  layers.foldl (fun d l => if l.shows width height x y then l.over_ width bgra x y d else d) d

/-! ## A layer drawn -/

theorem pixels_length (b : Bytes) (n : ℕ) (h : b.length = n * 4) : (pixels b).length = n := by
  induction n generalizing b with
  | zero =>
    rw [Nat.zero_mul, List.length_eq_zero_iff] at h
    rw [h]
    rfl
  | succ n ih =>
    rcases b with _ | ⟨c0, _ | ⟨c1, _ | ⟨c2, _ | ⟨a, rest⟩⟩⟩⟩
    all_goals simp only [List.length_cons, List.length_nil] at h
    · omega
    · omega
    · omega
    · omega
    · rw [pixels, List.length_cons, ih rest (by omega)]

theorem sourceRow_length {l : Layer} {width : ℕ} {data : Bytes} {stride cropX cropY y : ℕ} {src : List Px}
    (h : l.sourceRow width data stride cropX cropY y = some src) : src.length = l.x1 width - l.x0 := by
  obtain ⟨b, hb, rfl⟩ := Option.map_eq_some_iff.1 h
  obtain ⟨hle, rfl⟩ := get?_eq_some.1 hb
  exact pixels_length _ _ (length_slice hle)

/-- a row drawn is a function of the pixel at each column -/
def Columnwise (l : Layer) (width : ℕ) (row : ℕ → List Px → List Px) (g : ℕ → ℕ → Px → Px) : Prop :=
  ∀ y dst, dst.length = l.x1 width - l.x0 → row y dst = dst.mapIdx fun i d => g (l.x0 + i) y d

/-- whether the pixel `n` of the display is on a row from `y0` to `y1` and on one of the layer's columns -/
theorem place_iff {width x0 x1 y n : ℕ} (hx : x1 ≤ width) (h01 : x0 < x1) :
    (y * width + x0 ≤ n ∧ n < y * width + x0 + (x1 - x0)) ↔ n / width = y ∧ x0 ≤ n % width ∧ n % width < x1 := by
  have hpos : 0 < width := by omega
  have hdm := Nat.div_add_mod n width
  have hmod := Nat.mod_lt n hpos
  constructor
  · rintro ⟨h1, h2⟩
    have hy : n / width = y := by
      refine Nat.div_eq_of_lt_le ?_ ?_
      · omega
      · rw [Nat.succ_mul]
        omega
    rw [hy, Nat.mul_comm] at hdm
    exact ⟨hy, by omega, by omega⟩
  · rintro ⟨rfl, h1, h2⟩
    rw [Nat.mul_comm] at hdm
    omega

/-- some rows drawn, from `y0` on -/
theorem rows_eq {l : Layer} {width height : ℕ} {row : ℕ → List Px → List Px} {g : ℕ → ℕ → Px → Px}
    (hrow : Columnwise l width row g) {out : List Px} (hout : out.length = width * height) (h01 : l.x0 < l.x1 width)
    (k : ℕ) (hk : l.y0 + k ≤ height) :
    (List.range' l.y0 k).foldl
        (fun out y => put out (y * width + l.x0) (row y ((out.drop (y * width + l.x0)).take (l.x1 width - l.x0)))) out =
      out.mapIdx fun n d => if l.y0 ≤ n / width ∧ n / width < l.y0 + k ∧ l.x0 ≤ n % width ∧ n % width < l.x1 width then
        g (n % width) (n / width) d else d := by
  have hx1 : l.x1 width ≤ width := min_le_right _ _
  induction k with
  | zero =>
    refine (List.mapIdx_eq_iff.2 fun n => ?_).symm
    show out[n]? = _
    cases out[n]? with
    | none => rfl
    | some d => rw [Option.map_some, if_neg (by omega)]
  | succ k ih =>
    rw [List.range'_1_concat, List.foldl_append, List.foldl_cons, List.foldl_nil, ih (by omega)]
    generalize hprev : (out.mapIdx fun n d => if l.y0 ≤ n / width ∧ n / width < l.y0 + k ∧ l.x0 ≤ n % width ∧
      n % width < l.x1 width then g (n % width) (n / width) d else d) = prev
    have hpl : prev.length = width * height := by rw [← hprev, List.length_mapIdx, hout]
    have hend : (l.y0 + k) * width + l.x0 + (l.x1 width - l.x0) ≤ width * height := by
      have : (l.y0 + k + 1) * width ≤ height * width := Nat.mul_le_mul_right width hk
      rw [Nat.succ_mul, Nat.mul_comm height] at this
      omega
    have hslice : ((prev.drop ((l.y0 + k) * width + l.x0)).take (l.x1 width - l.x0)).length = l.x1 width - l.x0 := by
      rw [List.length_take, List.length_drop, hpl]
      omega
    rw [hrow _ _ hslice]
    refine (List.mapIdx_eq_iff.2 fun n => ?_).symm
    have hnew : ∀ f : ℕ → Px → Px, (((prev.drop ((l.y0 + k) * width + l.x0)).take (l.x1 width - l.x0)).mapIdx f).length =
        l.x1 width - l.x0 := fun f => List.length_mapIdx.trans hslice
    rw [getElem?_put (by rw [hnew, hpl]; exact hend), hnew]
    have hold : prev[n]? = out[n]?.map fun d => if l.y0 ≤ n / width ∧ n / width < l.y0 + k ∧ l.x0 ≤ n % width ∧
        n % width < l.x1 width then g (n % width) (n / width) d else d := by
      rw [← hprev, List.getElem?_mapIdx]
    have hplace := place_iff (y := l.y0 + k) (n := n) hx1 h01
    by_cases hn : (l.y0 + k) * width + l.x0 ≤ n ∧ n < (l.y0 + k) * width + l.x0 + (l.x1 width - l.x0)
    · obtain ⟨hy, hc0, hc1⟩ := hplace.1 hn
      rw [if_pos hn, List.getElem?_mapIdx, List.getElem?_take_of_lt (by omega), List.getElem?_drop, Nat.add_sub_cancel' hn.1, hold]
      cases out[n]? with
      | none => rfl
      | some d =>
        have hcol : l.x0 + (n - ((l.y0 + k) * width + l.x0)) = n % width := by
          have hdm := Nat.div_add_mod n width
          rw [hy, Nat.mul_comm] at hdm
          omega
        rw [Option.map_some, Option.map_some, Option.map_some, if_neg (by omega), if_pos (by omega), hcol, hy]
    · rw [if_neg hn, hold]
      cases out[n]? with
      | none => rfl
      | some d =>
        rw [Option.map_some, Option.map_some]
        have hiff : (l.y0 ≤ n / width ∧ n / width < l.y0 + k ∧ l.x0 ≤ n % width ∧ n % width < l.x1 width) ↔
            (l.y0 ≤ n / width ∧ n / width < l.y0 + (k + 1) ∧ l.x0 ≤ n % width ∧ n % width < l.x1 width) := by
          rw [hplace] at hn
          omega
        rw [if_congr hiff rfl rfl]

/-- a layer drawn is a function of the pixel at each place -/
theorem draw_eq {l : Layer} {width height : ℕ} {row : ℕ → List Px → List Px} {g : ℕ → ℕ → Px → Px}
    (hrow : Columnwise l width row g) {out : List Px} (hout : out.length = width * height) :
    l.draw width height row out =
      out.mapIdx fun n d => if l.shows width height (n % width) (n / width) then g (n % width) (n / width) d else d := by
  unfold Layer.draw
  by_cases hs : l.skipped width height = true
  · rw [if_pos hs]
    refine (List.mapIdx_eq_iff.2 fun n => ?_).symm
    cases out[n]? with
    | none => rfl
    | some d => rw [Option.map_some, if_neg fun h => by rw [h.1] at hs; cases hs]
  · rw [if_neg hs]
    have hs' : l.skipped width height = false := Bool.eq_false_iff.2 hs
    have hin : l.x0 < l.x1 width ∧ l.y0 < l.y1 height := by
      simp only [Layer.skipped, Bool.or_eq_true, decide_eq_true_eq, not_or, not_le] at hs
      exact ⟨hs.1.1, hs.1.2⟩
    have hy1 : l.y1 height ≤ height := min_le_right _ _
    rw [rows_eq hrow hout hin.1 _ (by omega)]
    congr 1
    funext n d
    have hiff : (l.y0 ≤ n / width ∧ n / width < l.y0 + (l.y1 height - l.y0) ∧ l.x0 ≤ n % width ∧
        n % width < l.x1 width) ↔ l.shows width height (n % width) (n / width) := by
      unfold Layer.shows
      rw [Nat.add_sub_cancel' hin.2.le]
      tauto
    rw [if_congr hiff rfl rfl]

/-! ## Each path's rows -/

theorem zipWith_eq_mapIdx {dst src : List Px} (h : dst.length = src.length) (f : Px → Px → Px) :
    List.zipWith f dst src = dst.mapIdx fun i d => ((src[i]?).map (f d)).getD d := by
  refine (List.mapIdx_eq_iff.2 fun i => ?_).symm
  rw [List.getElem?_zipWith']
  cases hd : dst[i]? with
  | none => rfl
  | some d =>
    have hi : i < src.length := by
      rw [← h]
      exact (List.getElem?_eq_some_iff.1 hd).1
    rw [List.getElem?_eq_getElem hi]
    rfl

theorem mapIdx_id (dst : List Px) : dst.mapIdx (fun _ d => d) = dst :=
  List.mapIdx_eq_iff.2 fun i => by cases dst[i]? <;> rfl

theorem mappedRow_get {l : Layer} {width : ℕ} (nearest : ℕ → ℕ → Px) (bgra : Bool) (y i : ℕ)
    (hi : i < l.x1 width - l.x0) :
    (l.mappedRow width nearest bgra y)[i]? = some (colorPx (nearest (l.x0 + i) y) bgra) := by
  unfold Layer.mappedRow colorPx
  rw [List.getElem?_map, List.getElem?_range hi]
  rfl

section

variable (l : Layer) (width : ℕ)

/-- a row drawn pixel by pixel from a source row that has the layer's pixels -/
theorem row_eq {bgra : Bool} {y : ℕ} {dst src : List Px} (hdst : dst.length = l.x1 width - l.x0)
    (hsrc : src.length = l.x1 width - l.x0) (f : Px → Px → Px) (c : Px → Px)
    (hat : ∀ i < l.x1 width - l.x0, l.at_ width bgra (l.x0 + i) y = (src[i]?).map c) :
    List.zipWith (fun d s => f d (c s)) dst src =
      dst.mapIdx fun i d => ((l.at_ width bgra (l.x0 + i) y).map (f d)).getD d := by
  rw [zipWith_eq_mapIdx (hdst.trans hsrc.symm)]
  refine List.mapIdx_eq_mapIdx_iff.2 fun i hi => ?_
  rw [hat i (hdst ▸ hi), Option.map_map]
  rfl

theorem at_pixels {data : Bytes} {stride cropX cropY y : ℕ} {o : Bool} {src : List Px}
    (hl : l.source = .pixels data stride o cropX cropY) (hs : l.sourceRow width data stride cropX cropY y = some src)
    (bgra : Bool) (i : ℕ) (_ : i < l.x1 width - l.x0) :
    l.at_ width bgra (l.x0 + i) y = (src[i]?).map fun s => colorPx s bgra := by
  unfold Layer.at_
  rw [hl]
  dsimp only
  rw [hs, Option.bind_some, Nat.add_sub_cancel_left]

theorem at_none {data : Bytes} {stride cropX cropY y : ℕ} {o : Bool}
    (hl : l.source = .pixels data stride o cropX cropY) (hs : l.sourceRow width data stride cropX cropY y = none)
    (bgra : Bool) (x : ℕ) : l.at_ width bgra x y = none := by
  unfold Layer.at_
  rw [hl]
  dsimp only
  rw [hs, Option.bind_none]

theorem at_mapped {nearest : ℕ → ℕ → Px} {o srcBgra : Bool} (hl : l.source = .mapped nearest o srcBgra) (bgra : Bool)
    (y i : ℕ) (hi : i < l.x1 width - l.x0) :
    l.at_ width bgra (l.x0 + i) y = ((l.mappedRow width nearest (srcBgra != bgra) y)[i]?).map id := by
  rw [mappedRow_get nearest _ y i hi, Option.map_some]
  unfold Layer.at_
  rw [hl]
  rfl

theorem mappedRow_length (nearest : ℕ → ℕ → Px) (bgra : Bool) (y : ℕ) :
    (l.mappedRow width nearest bgra y).length = l.x1 width - l.x0 := by
  rw [Layer.mappedRow, List.length_map, List.length_range]

theorem color_row {px : Px} (hl : l.source = .color px) (bgra : Bool) (y : ℕ) (dst : List Px) :
    (dst.map fun d => blendPixel d (colorPx px bgra) .coverage false l.alpha.plane) =
      dst.mapIdx fun i d => l.over_ width bgra (l.x0 + i) y d := by
  refine (List.mapIdx_eq_iff.2 fun i => ?_).symm
  rw [List.getElem?_map]
  unfold Layer.over_ Layer.at_ Layer.mix
  rw [hl]
  rfl

theorem withRow_columnwise (fast : Bool) : Columnwise l width (withRow fast l width) (l.over_ width false) := by
  intro y dst hdst
  have hblend : ∀ src : List Px, dst.length = src.length → ∀ o,
      (if fast then blendRowFast else blendRow) dst src l.blend o l.alpha.plane =
        List.zipWith (mixPx l.blend o l.alpha.plane) dst src := by
    intro src h o
    split_ifs
    · exact blendRowFast_eq h _ _ _
    · exact blendRow_eq h _ _ _
  unfold withRow
  cases hl : l.source with
  | pixels data stride o cropX cropY =>
    dsimp only
    unfold Layer.over_ Layer.mix
    rw [hl]
    dsimp only
    cases hs : l.sourceRow width data stride cropX cropY y with
    | none =>
      simp only [at_none l width hl hs, Option.map_none, Option.getD_none]
      exact (mapIdx_id dst).symm
    | some src =>
      have hsrc := sourceRow_length hs
      dsimp only
      rw [hblend src (hdst.trans hsrc.symm)]
      exact row_eq l width hdst hsrc (mixPx l.blend o l.alpha.plane) (fun s => colorPx s false)
        (at_pixels l width hl hs false)
  | mapped nearest o srcBgra =>
    dsimp only
    unfold Layer.over_ Layer.mix
    rw [hl]
    have hsrc := mappedRow_length l width nearest srcBgra y
    rw [hblend _ (hdst.trans hsrc.symm)]
    refine row_eq l width hdst hsrc (mixPx l.blend o l.alpha.plane) id fun i hi => ?_
    rw [at_mapped l width hl false y i hi, Bool.bne_false]
  | color px => exact color_row l width hl false y dst

theorem runsRow_columnwise (bgra : Bool) : Columnwise l width (runsRow bgra none l width) (l.over_ width bgra) := by
  intro y dst hdst
  unfold runsRow
  cases hl : l.source with
  | pixels data stride o cropX cropY =>
    dsimp only
    unfold Layer.over_ Layer.mix
    rw [hl]
    dsimp only
    cases hs : l.sourceRow width data stride cropX cropY y with
    | none =>
      simp only [at_none l width hl hs, Option.map_none, Option.getD_none]
      exact (mapIdx_id dst).symm
    | some src =>
      have hsrc := sourceRow_length hs
      dsimp only
      rw [blendRowRuns_eq (hdst.trans hsrc.symm)]
      exact row_eq l width hdst hsrc (mixPx l.blend o l.alpha.plane) (fun s => colorPx s bgra)
        (at_pixels l width hl hs bgra)
  | mapped nearest o srcBgra =>
    dsimp only
    unfold Layer.over_ Layer.mix
    rw [hl]
    have hsrc := mappedRow_length l width nearest (srcBgra != bgra) y
    rw [blendRowRuns_eq (hdst.trans hsrc.symm)]
    exact row_eq l width hdst hsrc (mixPx l.blend o l.alpha.plane) id (at_mapped l width hl bgra y)
  | color px => exact color_row l width hl bgra y dst

/-- a layer copied: each pixel it has, its alpha made 255 or not -/
theorem copyRow_columnwise (bgra alpha : Bool) (hc : ∀ px, l.source ≠ .color px) :
    Columnwise l width (runsRow bgra (some alpha) l width) fun x y d =>
      ((l.at_ width bgra x y).map (copyPx false alpha)).getD d := by
  intro y dst hdst
  unfold runsRow
  cases hl : l.source with
  | pixels data stride o cropX cropY =>
    dsimp only
    cases hs : l.sourceRow width data stride cropX cropY y with
    | none =>
      simp only [at_none l width hl hs, Option.map_none, Option.getD_none]
      exact (mapIdx_id dst).symm
    | some src =>
      have hsrc := sourceRow_length hs
      dsimp only
      rw [copyRow_eq (hdst.trans hsrc.symm), ← zipWith_right (hdst.trans hsrc.symm)]
      exact row_eq l width hdst hsrc (fun _ s => copyPx false alpha s) (fun s => colorPx s bgra)
        (at_pixels l width hl hs bgra)
  | mapped nearest o srcBgra =>
    have hsrc := mappedRow_length l width nearest (srcBgra != bgra) y
    dsimp only
    rw [copyRow_eq (hdst.trans hsrc.symm), ← zipWith_right (hdst.trans hsrc.symm)]
    exact row_eq l width hdst hsrc (fun _ s => copyPx false alpha s) id (at_mapped l width hl bgra y)
  | color px => exact absurd hl (hc px)

end

/-! ## The layers, one over another -/

theorem mapIdx_const {out out' : List Px} (h : out.length = out'.length) (f : ℕ → Px) :
    (out.mapIdx fun n _ => f n) = out'.mapIdx fun n _ => f n := by
  refine List.ext_getElem? fun n => ?_
  rw [List.getElem?_mapIdx, List.getElem?_mapIdx]
  rcases Nat.lt_or_ge n out.length with hn | hn
  · rw [List.getElem?_eq_getElem hn, List.getElem?_eq_getElem (h ▸ hn)]
    rfl
  · rw [List.getElem?_eq_none hn, List.getElem?_eq_none (h ▸ hn)]

theorem map_const_mapIdx (out : List Px) (p : Px) (f : ℕ → Px → Px) :
    (out.map fun _ => p).mapIdx f = out.mapIdx fun n _ => f n p := by
  refine List.mapIdx_eq_iff.2 fun n => ?_
  rw [List.getElem?_mapIdx, List.getElem?_map, Option.map_map]
  rfl

/-- layers drawn one after another are their fold at each place -/
theorem fold_eq {rows : Layer → ℕ → List Px → List Px} {bgra : Bool} {width height : ℕ}
    (hrows : ∀ l : Layer, Columnwise l width (rows l) (l.over_ width bgra)) (layers : List Layer) {out : List Px}
    (hout : out.length = width * height) :
    layers.foldl (fun out l => l.draw width height (rows l) out) out =
      out.mapIdx fun n d => paint bgra width height (n % width) (n / width) layers d := by
  induction layers generalizing out with
  | nil => exact (mapIdx_id out).symm
  | cons l layers ih =>
    rw [List.foldl_cons, draw_eq (hrows l) hout, ih (List.length_mapIdx.trans hout), List.mapIdx_mapIdx]
    rfl

theorem composeWith_eq (width height : ℕ) (layers : List Layer) (fast : Bool) {out : List Px}
    (hout : out.length = width * height) :
    composeWith out width height layers fast =
      out.mapIdx fun n _ => paint false width height (n % width) (n / width) layers .black := by
  unfold composeWith
  have hfill : (if fast then out.map fun _ => Px.black
      else (out.map fun _ => Px.zero).map fun p => { p with a := 255 }) = out.map fun _ => Px.black := by
    split_ifs
    · rfl
    · rw [List.map_map]
      rfl
  have hlen : (out.map fun _ => Px.black).length = width * height := by rw [List.length_map, hout]
  rw [hfill]
  dsimp only
  rw [fold_eq (fun l => withRow_columnwise l width fast) layers hlen, map_const_mapIdx]

/-- red and blue may be swapped before the layers are put together, or after -/
theorem paint_swap (width height x y : ℕ) (layers : List Layer) (d : Px) :
    (paint false width height x y layers d).swap = paint true width height x y layers d.swap := by
  have hat : ∀ l : Layer, l.at_ width true x y = (l.at_ width false x y).map Px.swap := by
    intro l
    unfold Layer.at_
    cases l.source with
    | pixels data stride o cropX cropY =>
      dsimp only
      cases l.sourceRow width data stride cropX cropY y with
      | none => rfl
      | some src =>
        rw [Option.bind_some, Option.bind_some, Option.map_map]
        rfl
    | mapped nearest o srcBgra => cases srcBgra <;> rfl
    | color px => rfl
  have hmix : ∀ (l : Layer) (d s : Px), (l.mix d s).swap = l.mix d.swap s.swap := by
    intro l d s
    unfold Layer.mix
    cases l.source with
    | pixels | mapped => exact mixPx_swap _ _ _ _ _
    | color => rfl
  induction layers generalizing d with
  | nil => rfl
  | cons l layers ih =>
    unfold paint at ih ⊢
    rw [List.foldl_cons, List.foldl_cons, ih]
    congr 1
    split_ifs
    · unfold Layer.over_
      rw [hat, Option.map_map]
      cases l.at_ width false x y with
      | none => rfl
      | some s => exact hmix l d s
    · rfl

/-! ## What a covering layer hides -/

/-- a source whose last row under the display ends within the addresses there are -/
def Layer.Addressed (l : Layer) (width height : ℕ) : Prop :=
  match l.source with
  | .pixels _ stride _ cropX cropY =>
    ((cropY + ((height : ℤ) - 1 - l.top).toNat) * stride + (cropX + (-l.left).toNat) + width) * 4 < 2 ^ 64
  | _ => True

section

variable {l : Layer} {width height : ℕ} (hc : l.covers width height = true)
include hc

theorem covers_frame : l.left ≤ 0 ∧ l.top ≤ 0 ∧ width ≤ l.right.toNat ∧ height ≤ l.bottom.toNat := by
  unfold Layer.covers at hc
  split_ifs at hc with hf
  push Not at hf
  exact hf

theorem covers_corner : l.x0 = 0 ∧ l.y0 = 0 ∧ l.x1 width = width ∧ l.y1 height = height := by
  obtain ⟨h1, h2, h3, h4⟩ := covers_frame hc
  exact ⟨Int.toNat_of_nonpos h1, Int.toNat_of_nonpos h2, min_eq_right h3, min_eq_right h4⟩

theorem covers_shows (hh : l.alpha.hidden = false) {x y : ℕ} (hx : x < width) (hy : y < height) :
    l.shows width height x y := by
  obtain ⟨h1, h2, h3, h4⟩ := covers_corner hc
  unfold Layer.shows Layer.skipped
  rw [h1, h2, h3, h4, hh, Bool.or_false]
  refine ⟨?_, Nat.zero_le _, hx, Nat.zero_le _, hy⟩
  simp only [Bool.or_eq_false_iff, decide_eq_false_iff_not, not_le]
  omega

/-- every row of its source is there -/
theorem covers_at (ha : l.Addressed width height) (bgra : Bool) {x y : ℕ} (hx : x < width) (hy : y < height) :
    ∃ s, l.at_ width bgra x y = some s := by
  obtain ⟨h1, h2, h3, -⟩ := covers_corner hc
  obtain ⟨hleft, htop, -, -⟩ := covers_frame hc
  unfold Layer.covers at hc
  unfold Layer.Addressed at ha
  unfold Layer.at_
  cases hl : l.source with
  | pixels data stride o cropX cropY =>
    rw [hl] at hc ha
    dsimp only at hc ha ⊢
    split_ifs at hc
    rw [decide_eq_true_eq, Nat.mod_eq_of_lt ha] at hc
    have hrows : (cropY + ((y : ℤ) - l.top).toNat) * stride ≤ (cropY + ((height : ℤ) - 1 - l.top).toNat) * stride :=
      Nat.mul_le_mul_right _ (by omega)
    have hat : l.rowAt stride cropX cropY y + (l.x1 width - l.x0) * 4 ≤ data.length := by
      unfold Layer.rowAt
      rw [h1, h3, Nat.mod_eq_of_lt (by omega)]
      omega
    cases hs : l.sourceRow width data stride cropX cropY y with
    | none =>
      unfold Layer.sourceRow get? at hs
      rw [if_pos hat] at hs
      cases hs
    | some src =>
      have hlen := sourceRow_length hs
      rw [h1, h3] at hlen
      have hi : x - l.x0 < src.length := by omega
      rw [Option.bind_some, List.getElem?_eq_getElem hi]
      exact ⟨_, rfl⟩
  | mapped nearest o srcBgra => exact ⟨_, rfl⟩
  | color px => exact ⟨_, rfl⟩

theorem covers_source (px : Px) : l.source ≠ .color px := by
  intro hl
  unfold Layer.covers at hc
  rw [hl] at hc
  split_ifs at hc

end

/-- where drawing starts: at a layer that covers the display, and copying it is drawing it over what is under it -/
theorem coverStart_spec {layers : List Layer} {width height i : ℕ} {alpha : Bool}
    (h : coverStart layers width height = some (i, alpha)) : ∃ below first above,
      layers = below ++ first :: above ∧ below.length = i ∧ first.covers width height = true ∧
        first.alpha.hidden = false ∧ ∀ d s, (below = [] → d = Px.black) → first.mix d s = copyPx false alpha s := by
  have hvis : ∀ l : Layer, l.alpha.shown = true → l.alpha.hidden = false := by
    intro l hs
    cases hh : l.alpha.hidden with
    | false => rfl
    | true => exact absurd ⟨hh, hs⟩ l.alpha.apart
  have hmix : ∀ l : Layer, l.covers width height = true →
      l.mix = mixPx l.blend l.source.isOpaque l.alpha.plane := by
    intro l hc
    funext d s
    have hsrc := covers_source hc
    unfold Layer.mix
    cases hl : l.source with
    | pixels | mapped => rfl
    | color px => exact absurd hl (hsrc px)
  unfold coverStart at h
  split_ifs at h
  split at h
  · next j hj =>
    obtain ⟨rfl, rfl⟩ := Prod.mk.inj (Option.some.inj h)
    have hfound := List.find?_some hj
    obtain ⟨first, hfirst, hhides⟩ := (Option.any_eq_true _ _).1 hfound
    obtain ⟨hlt, rfl⟩ := List.getElem?_eq_some_iff.1 hfirst
    simp only [Layer.hides, Bool.and_eq_true, decide_eq_true_eq, Bool.or_eq_true] at hhides
    obtain ⟨⟨⟨hshown, hplane⟩, hcopy⟩, hcov⟩ := hhides
    refine ⟨layers.take j, layers[j], layers.drop (j + 1), ?_, ?_, hcov, hvis _ hshown, fun d s _ => ?_⟩
    · rw [← List.drop_eq_getElem_cons hlt, List.take_append_drop]
    · rw [List.length_take]
      omega
    · rw [hmix _ hcov, hfirst]
      unfold mixPx copyPx
      rw [if_pos ⟨hplane, hcopy⟩]
      rfl
  · split at h
    · cases h
    · next first hfirst =>
      split_ifs at h with hf
      obtain ⟨rfl, rfl⟩ := Prod.mk.inj (Option.some.inj h)
      simp only [Bool.and_eq_true, decide_eq_true_eq] at hf
      obtain ⟨⟨⟨hshown, hplane⟩, hblend⟩, hcov⟩ := hf
      obtain ⟨above, rfl⟩ := List.head?_eq_some_iff.1 hfirst
      refine ⟨[], first, above, rfl, rfl, hcov, hvis _ hshown, fun d s hd => ?_⟩
      rw [hmix _ hcov, hd rfl, hblend, hplane]
      unfold mixPx
      cases first.source.isOpaque with
      | true => rfl
      | false =>
        rw [if_neg fun h => h.2.elim (by decide) Bool.false_ne_true]
        exact blendPixel_black s

/-- the layers over the one copied are drawn as they are -/
theorem zipIdx_foldl (bgra : Bool) (copy : Option Bool) (width height start : ℕ) (layers : List Layer) (k : ℕ)
    (hk : start < k ∨ copy = none) (out : List Px) :
    (layers.zipIdx k).foldl
        (fun out e => e.1.draw width height (runsRow bgra (if e.2 = start then copy else none) e.1 width) out) out =
      layers.foldl (fun out l => l.draw width height (runsRow bgra none l width) out) out := by
  induction layers generalizing k out with
  | nil => rfl
  | cons l layers ih =>
    have hnone : (if k = start then copy else none) = none := by
      split_ifs with h
      · exact hk.resolve_left (by omega)
      · rfl
    rw [List.zipIdx_cons, List.foldl_cons, List.foldl_cons, hnone, ih (k + 1) (hk.imp_left fun h => by omega)]

theorem composeRuns_eq {width height : ℕ} {layers : List Layer} (haddr : ∀ l ∈ layers, l.Addressed width height)
    (bgra : Bool) {out : List Px} (hout : out.length = width * height) :
    composeRuns out width height layers bgra =
      out.mapIdx fun n _ => paint bgra width height (n % width) (n / width) layers .black := by
  have hrows : ∀ l : Layer, Columnwise l width (runsRow bgra none l width) (l.over_ width bgra) :=
    fun l => runsRow_columnwise l width bgra
  unfold composeRuns
  cases hstart : coverStart layers width height with
  | none =>
    have hlen : (out.map fun _ => Px.black).length = width * height := by rw [List.length_map, hout]
    dsimp only
    rw [List.drop_zero, zipIdx_foldl bgra none width height 0 layers 0 (.inr rfl), fold_eq hrows layers hlen,
      map_const_mapIdx]
  | some e =>
    obtain ⟨i, alpha⟩ := e
    obtain ⟨below, first, above, rfl, rfl, hcov, hvis, hmix⟩ := coverStart_spec hstart
    have hdrop : ((below ++ first :: above).zipIdx).drop below.length =
        (first, below.length) :: above.zipIdx (below.length + 1) := by
      rw [List.zipIdx_append, List.drop_left' List.length_zipIdx, Nat.zero_add]
      rfl
    have hcopy := copyRow_columnwise first width bgra alpha (covers_source hcov)
    dsimp only
    rw [hdrop, List.foldl_cons, zipIdx_foldl bgra (some alpha) width height _ above _ (.inl (Nat.lt_succ_self _)),
      if_pos rfl, draw_eq hcopy hout, fold_eq hrows above (List.length_mapIdx.trans hout), List.mapIdx_mapIdx]
    refine List.mapIdx_eq_mapIdx_iff.2 fun n hn => ?_
    have hwidth : 0 < width := Nat.pos_of_ne_zero fun h0 => by
      rw [hout, h0, Nat.zero_mul] at hn
      exact Nat.not_lt_zero _ hn
    have hx : n % width < width := Nat.mod_lt n hwidth
    have hy : n / width < height := Nat.div_lt_of_lt_mul (hout ▸ hn)
    have hshows := covers_shows hcov hvis hx hy
    obtain ⟨s, hs⟩ := covers_at hcov (haddr first (List.mem_append_right _ List.mem_cons_self)) bgra hx hy
    have hover : first.over_ width bgra (n % width) (n / width)
        (paint bgra width height (n % width) (n / width) below .black) = copyPx false alpha s := by
      unfold Layer.over_
      rw [hs]
      exact hmix _ s fun hnil => by
        rw [hnil]
        rfl
    have hall : paint bgra width height (n % width) (n / width) (below ++ first :: above) .black =
        paint bgra width height (n % width) (n / width) above (copyPx false alpha s) := by
      rw [← hover]
      unfold paint
      rw [List.foldl_append, List.foldl_cons, if_pos hshows]
    rw [hall]
    dsimp only [Function.comp_apply]
    rw [if_pos hshows, hs]
    rfl

/-! ## The same picture -/

/-- a window over the whole of a display of two pixels: one transparent, one opaque -/
def window : Layer where
  source := .pixels [0, 0, 0, 0, 10, 20, 30, 255] 2 false 0 0
  left := 0
  top := 0
  right := 2
  bottom := 1
  blend := .premultiplied
  alpha := ⟨false, true, 255, nofun, le_rfl⟩

end Omnidroid.Compose
