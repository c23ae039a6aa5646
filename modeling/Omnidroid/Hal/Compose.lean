/-
The composer's own composition (`omni-linux/src/hal/compose.rs`): the layers of a frame drawn over black into the
display's pixels, by the plain path, with shortcuts (`fast`), and by runs (`runs`), as RGBA or as BGRA.

A row of a buffer is a list of pixels, four bytes each; what a 16-byte chunk of it is as a `u128` is a number. A plane's
alpha is given by what the code computes from it, and so is the source pixel a scaled layer shows at a pixel.
-/
import Omnidroid.Lib.Bytes

namespace Omnidroid.Compose

open Bytes

/-! ## Pixels -/

/-- four bytes in their order: red, green, blue and alpha, or the first and the third swapped -/
structure Px where
  c0 : UInt8
  c1 : UInt8
  c2 : UInt8
  a : UInt8
deriving DecidableEq, Repr

namespace Px

def bytes (p : Px) : Bytes := [p.c0, p.c1, p.c2, p.a]

/-- a `u32` from the pixel's bytes -/
def word (p : Px) : ℕ := leNat p.bytes

def ofBytes : Bytes → Px
  | [c0, c1, c2, a] => ⟨c0, c1, c2, a⟩
  | _ => ⟨0, 0, 0, 0⟩

def ofWord (v : ℕ) : Px := ofBytes (leBytes 4 v)

def swap (p : Px) : Px := ⟨p.c2, p.c1, p.c0, p.a⟩

def opaque_ (p : Px) : Px := { p with a := 255 }

def zero : Px := ⟨0, 0, 0, 0⟩

def black : Px := ⟨0, 0, 0, 255⟩

end Px

/-- the pixels of a byte string, `chunks_exact(4)` -/
def pixels : Bytes → List Px
  | c0 :: c1 :: c2 :: a :: rest => ⟨c0, c1, c2, a⟩ :: pixels rest
  | _ => []

/-- `swap_rb` -/
def swapRb (v : ℕ) : ℕ := (v &&& 0xff00ff00) ||| ((v >>> 16) &&& 0xff) ||| ((v &&& 0xff) <<< 16)

/-! ## Layers -/

inductive Blend where
  | none
  | premultiplied
  | coverage
deriving DecidableEq, Repr

/-- a plane's alpha: whether it is at most 0 or over 0 (neither for a NaN), and as a byte -/
structure Alpha where
  hidden : Bool
  shown : Bool
  plane : ℕ
  apart : ¬(hidden ∧ shown)
  le : plane ≤ 255

inductive Source where
  /-- rows `stride` pixels apart, the crop's at 1:1 from its corner -/
  | pixels (data : Bytes) (stride : ℕ) (opaque_ : Bool) (cropX cropY : ℕ)
  /-- a scaled crop: the pixel shown at a display column and row (zeros past the data), red and blue swapped for `bgra` -/
  | mapped (nearest : ℕ → ℕ → Px) (opaque_ bgra : Bool)
  /-- one colour -/
  | color (px : Px)

structure Layer where
  source : Source
  left : ℤ
  top : ℤ
  right : ℤ
  bottom : ℤ
  blend : Blend
  alpha : Alpha

def Source.isOpaque : Source → Bool
  | .pixels _ _ o _ _ => o
  | .mapped _ o _ => o
  | .color _ => false

/-! ## Blending -/

/-- a colour channel: `premul(s) * plane / 255`, over `d` by what `a` leaves of it -/
def blendChannel (blend : Blend) (sa a plane : ℕ) (d s : UInt8) : UInt8 :=
  let premul := if blend = .coverage then s.toNat * sa / 255 else s.toNat
  UInt8.ofNat (min (premul * plane / 255 + d.toNat * (255 - a) / 255) 255)

/-- `blend_pixel` -/
def blendPixel (d s : Px) (blend : Blend) (opaque_ : Bool) (plane : ℕ) : Px :=
  let sa := if opaque_ || blend = .none then 255 else s.a.toNat
  let a := sa * plane / 255
  { c0 := blendChannel blend sa a plane d.c0 s.c0
    c1 := blendChannel blend sa a plane d.c1 s.c1
    c2 := blendChannel blend sa a plane d.c2 s.c2
    a := UInt8.ofNat (min (a + d.a.toNat * (255 - a) / 255) 255) }

/-- pixel by pixel, as far as there are both: `chunks_exact_mut(4).zip(chunks_exact(4))` -/
def zipPixels (f : Px → Px → Px) : List Px → List Px → List Px
  | d :: ds, s :: ss => f d s :: zipPixels f ds ss
  | ds, _ => ds

/-- `blend_row`; a copy is from a row as long as the display's -/
def blendRow (dst src : List Px) (blend : Blend) (opaque_ : Bool) (plane : ℕ) : List Px :=
  if plane = 255 ∧ (blend = .none ∨ opaque_) then
    if opaque_ then src.map Px.opaque_ else src
  else zipPixels (fun d s => blendPixel d s blend opaque_ plane) dst src

/-- `blend_row_fast` -/
def blendRowFast (dst src : List Px) (blend : Blend) (opaque_ : Bool) (plane : ℕ) : List Px :=
  if (plane = 255 ∧ (blend = .none ∨ opaque_)) ∨ blend ≠ .premultiplied ∨ opaque_ then
    blendRow dst src blend opaque_ plane
  else
    zipPixels
      (fun d s =>
        if s = .zero then d else if plane = 255 ∧ s.a = 255 then s else blendPixel d s blend opaque_ plane)
      dst src

/-! ## Four pixels at a time -/

def rbKeep : ℕ := 0xff00ff00ff00ff00ff00ff00ff00ff00

def low : ℕ := 0x000000ff000000ff000000ff000000ff

def alphas : ℕ := 0xff000000ff000000ff000000ff000000

/-- a 16-byte chunk as a `u128` -/
def word4 (p0 p1 p2 p3 : Px) : ℕ := leNat (p0.bytes ++ p1.bytes ++ p2.bytes ++ p3.bytes)

/-- `copy_row`'s four pixels -/
def copyWord4 (swap alpha : Bool) (v : ℕ) : ℕ :=
  let v := if swap then (v &&& rbKeep) ||| ((v >>> 16) &&& low) ||| (((v &&& low) <<< 16) % 2 ^ 128) else v
  v ||| if alpha then alphas else 0

/-- `copy_row`'s one pixel -/
def copyWord (swap alpha : Bool) (v : ℕ) : ℕ :=
  let v := if swap then swapRb v else v
  v ||| if alpha then 0xff000000 else 0

/-- the chunks of four, then what is left of both -/
def copyChunks (swap alpha : Bool) : List Px → List Px → List Px
  | _ :: _ :: _ :: _ :: ds, s0 :: s1 :: s2 :: s3 :: ss =>
    pixels (leBytes 16 (copyWord4 swap alpha (word4 s0 s1 s2 s3))) ++ copyChunks swap alpha ds ss
  | ds, ss => zipPixels (fun _ s => .ofWord (copyWord swap alpha s.word)) ds ss

/-- `copy_row` -/
def copyRow (dst src : List Px) (swap alpha : Bool) : List Px :=
  if !swap && !alpha then src else copyChunks swap alpha dst src

/-- the bytes of `src`'s `i`-th chunk as a `u128` -/
def chunk (src : List Px) (i : ℕ) : ℕ := leNat (((src.drop (i * 4)).take 4).flatMap Px.bytes)

/-- `new` written over the pixels from `i` on -/
def put (l : List Px) (i : ℕ) (new : List Px) : List Px := l.take i ++ new ++ l.drop (i + new.length)

/-- the end of the run from `i` of the chunks that pass `p`, `n` in all and `k` still to look at -/
def runEnd (p : ℕ → Bool) (n : ℕ) : ℕ → ℕ → ℕ
  | i, 0 => i
  | i, k + 1 => if i < n && p i then runEnd p n (i + 1) k else i

/-- the loop over `n` chunks, from the `i`-th; it takes at most as many rounds as there are chunks -/
def runs (src : List Px) (one : Px → Px → Px) (plane : ℕ) (swap : Bool) (n : ℕ) : ℕ → ℕ → List Px → List Px
  | 0, _, dst => dst
  | k + 1, i, dst =>
    if n ≤ i then dst
    else if chunk src i = 0 then
      runs src one plane swap n k (runEnd (fun j => chunk src j = 0) n (i + 1) n) dst
    else if plane = 255 ∧ chunk src i &&& alphas = alphas then
      let e := runEnd (fun j => chunk src j &&& alphas = alphas) n (i + 1) n
      let len := e * 4 - i * 4
      runs src one plane swap n k e
        (put dst (i * 4) (copyRow ((dst.drop (i * 4)).take len) ((src.drop (i * 4)).take len) swap false))
    else
      runs src one plane swap n k (i + 1)
        (put dst (i * 4) (zipPixels one ((dst.drop (i * 4)).take 4) ((src.drop (i * 4)).take 4)))

/-- `blend_row_runs` -/
def blendRowRuns (dst src : List Px) (blend : Blend) (opaque_ : Bool) (plane : ℕ) (swap : Bool) : List Px :=
  if plane = 255 ∧ (blend = .none ∨ opaque_) then copyRow dst src swap opaque_
  else
    let sw (s : Px) := if swap then s.swap else s
    if blend ≠ .premultiplied ∨ opaque_ then zipPixels (fun d s => blendPixel d (sw s) blend opaque_ plane) dst src
    else
      let one (d s : Px) :=
        if s = .zero then d else if plane = 255 ∧ s.a = 255 then sw s else blendPixel d (sw s) blend false plane
      let n := min src.length dst.length * 4 / 16
      let dst := runs src one plane swap n n 0 dst
      put dst (n * 4) (zipPixels one (dst.drop (n * 4)) (src.drop (n * 4)))

/-! ## A layer's rows -/

namespace Layer

variable (l : Layer) (width height : ℕ)

def x0 : ℕ := l.left.toNat
def y0 : ℕ := l.top.toNat
def x1 : ℕ := min l.right.toNat width
def y1 : ℕ := min l.bottom.toNat height

/-- nothing of it is on the display, or its plane is transparent -/
def skipped : Bool := l.x1 width ≤ l.x0 || l.y1 height ≤ l.y0 || l.alpha.hidden

/-- the byte a row of the source begins at, as the code computes it -/
def rowAt (stride cropX cropY y : ℕ) : ℕ :=
  ((cropY + ((y : ℤ) - l.top).toNat) * stride + (cropX + ((l.x0 : ℤ) - l.left).toNat)) * 4 % 2 ^ 64

/-- the source row under display row `y`, when it is all there -/
def sourceRow (data : Bytes) (stride cropX cropY y : ℕ) : Option (List Px) :=
  (get? data (l.rowAt stride cropX cropY y) ((l.x1 width - l.x0) * 4)).map Compose.pixels

/-- `mapped_row` -/
def mappedRow (nearest : ℕ → ℕ → Px) (bgra : Bool) (y : ℕ) : List Px :=
  (List.range (l.x1 width - l.x0)).map fun i =>
    if bgra then (nearest (l.x0 + i) y).swap else nearest (l.x0 + i) y

/-- each of its rows on the display drawn: `row` on the display's row and the pixels there -/
def draw (row : ℕ → List Px → List Px) (out : List Px) : List Px :=
  if l.skipped width height then out
  else
    (List.range' l.y0 (l.y1 height - l.y0)).foldl
      (fun out y =>
        put out (y * width + l.x0) (row y ((out.drop (y * width + l.x0)).take (l.x1 width - l.x0))))
      out

end Layer

/-! ## The paths -/

/-- `color_px` -/
def colorPx (px : Px) (bgra : Bool) : Px := if bgra then px.swap else px

/-- one row of a layer as `compose_with` draws it -/
def withRow (fast : Bool) (l : Layer) (width y : ℕ) (dst : List Px) : List Px :=
  let blend := if fast then blendRowFast else blendRow
  match l.source with
  | .pixels data stride opaque_ cropX cropY =>
    match l.sourceRow width data stride cropX cropY y with
    | none => dst
    | some src => blend dst src l.blend opaque_ l.alpha.plane
  | .mapped nearest opaque_ bgra => blend dst (l.mappedRow width nearest bgra y) l.blend opaque_ l.alpha.plane
  | .color px => dst.map fun d => blendPixel d (colorPx px false) .coverage false l.alpha.plane

/-- `compose_with` -/
def composeWith (out : List Px) (width height : ℕ) (layers : List Layer) (fast : Bool) : List Px :=
  let out := if fast then out.map fun _ => Px.black else (out.map fun _ => Px.zero).map fun p => { p with a := 255 }
  layers.foldl (fun out l => l.draw width height (withRow fast l width) out) out

/-- whether every display pixel is one of the layer's (`covers`) -/
def Layer.covers (l : Layer) (width height : ℕ) : Bool :=
  if 0 < l.left ∨ 0 < l.top ∨ l.right.toNat < width ∨ l.bottom.toNat < height then false
  else
    match l.source with
    | .pixels data stride _ cropX cropY =>
      ((cropY + ((height : ℤ) - 1 - l.top).toNat) * stride + (cropX + (-l.left).toNat) + width) * 4 % 2 ^ 64 ≤
        data.length
    | .mapped .. => true
    | .color _ => false

/-- a copy that hides everything under it -/
def Layer.hides (l : Layer) (width height : ℕ) : Bool :=
  l.alpha.shown && l.alpha.plane = 255 && (l.blend = .none || l.source.isOpaque) && l.covers width height

/-- `cover_start`: the layer drawing starts at, and whether its alpha is made 255 -/
def coverStart (layers : List Layer) (width height : ℕ) : Option (ℕ × Bool) :=
  if width = 0 ∨ height = 0 then none
  else
    match (List.range layers.length).reverse.find? fun i => layers[i]?.any (·.hides width height) with
    | some i => some (i, layers[i]?.any (·.source.isOpaque))
    | none =>
      match layers.head? with
      | none => none
      | some first =>
        if first.alpha.shown && first.alpha.plane = 255 && first.blend = .premultiplied && first.covers width height then
          some (0, true)
        else none

/-- one row of a layer as `compose_runs` draws it; the first of a covered display is copied -/
def runsRow (bgra : Bool) (copy : Option Bool) (l : Layer) (width y : ℕ) (dst : List Px) : List Px :=
  let draw (src : List Px) (opaque_ swap : Bool) : List Px :=
    match copy with
    | some alpha => copyRow dst src swap alpha
    | none => blendRowRuns dst src l.blend opaque_ l.alpha.plane swap
  match l.source with
  | .pixels data stride opaque_ cropX cropY =>
    match l.sourceRow width data stride cropX cropY y with
    | none => dst
    | some src => draw src opaque_ bgra
  | .mapped nearest opaque_ srcBgra => draw (l.mappedRow width nearest (srcBgra != bgra) y) opaque_ false
  | .color px => dst.map fun d => blendPixel d (colorPx px bgra) .coverage false l.alpha.plane

/-- `compose_runs` -/
def composeRuns (out : List Px) (width height : ℕ) (layers : List Layer) (bgra : Bool) : List Px :=
  let (out, start, firstAlpha) := match coverStart layers width height with
    | some (i, alpha) => (out, i, some alpha)
    | none => (out.map fun _ => Px.black, 0, none)
  (layers.zipIdx.drop start).foldl
    (fun out e => e.1.draw width height (runsRow bgra (if e.2 = start then firstAlpha else none) e.1 width) out) out

structure Opts where
  fast : Bool := false
  runs : Bool := false
  bgra : Bool := false
deriving DecidableEq, Repr

/-- `compose_into`; the pixels swizzled in place when they are to be BGRA -/
def composeInto (out : List Px) (width height : ℕ) (layers : List Layer) (opts : Opts) : List Px :=
  if opts.runs then composeRuns out width height layers opts.bgra
  else
    let out := composeWith out width height layers opts.fast
    if opts.bgra then out.map fun p => Px.ofWord (swapRb p.word) else out

end Omnidroid.Compose
