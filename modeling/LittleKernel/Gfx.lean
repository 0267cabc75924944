/-
# Rectangles of a graphics surface

`lib/gfx/gfx.c`: `gfx_copyrect` and `gfx_fillrect` with `copyrect8` … `copyrect32` and
`fillrect8` … `fillrect32`; `lib/gfx.h`.

Pixels are cells of a memory whose addresses are counted in pixels from the surface's first.
A copy runs forwards when the destination lies before the source and backwards otherwise, with
two pointers that move in step, so it is a shift of the cells it writes (`Copy.Inv`).  Backwards
it starts one row and one pixel behind the last pixel of the rectangle.

`surface->len` is a product of 32-bit numbers, and a surface is one whose pixels it counts.
-/

import LittleKernel.Lib.Word
import Mathlib.Logic.Function.Basic
import Mathlib.Tactic.Linarith
import Mathlib.Tactic.Ring

namespace LittleKernel
namespace Gfx

open Word Function

/-! ### Surfaces -/

/-- `gfx_format`, of those that a surface can have. -/
inductive Format
  | rgb565
  | rgb332
  | rgb2220
  | argb8888
  | rgbx888
  | mono
  deriving DecidableEq

/-- `pixelsize`. -/
def Format.pixelsize : Format → ℕ
  | .rgb565 => 2
  | .rgb332 | .rgb2220 | .mono => 1
  | .argb8888 | .rgbx888 => 4

/-- A pixel in memory. -/
abbrev Format.Pixel : Format → Type
  | .rgb565 => UInt16
  | .rgb332 | .rgb2220 | .mono => UInt8
  | .argb8888 | .rgbx888 => UInt32

/-- `gfx_surface`. -/
structure Surface where
  format : Format
  width : ℕ
  height : ℕ
  stride : ℕ
  width_le : width ≤ stride
  len_lt : height * stride * format.pixelsize < 2 ^ 32

/-- `ARGB8888_to_Luma`. -/
def argb8888ToLuma (c : UInt32) : UInt32 :=
  let blue := (c &&& (0xff : UInt32)) * 74
  let green := ((c >>> (8 : UInt32)) &&& (0xff : UInt32)) * 732
  let red := ((c >>> (16 : UInt32)) &&& (0xff : UInt32)) * 218
  ((red + blue + green) >>> (10 : UInt32)) &&& (0xff : UInt32)

/-- `(c >> a) & mask` at bit `b`. -/
def channel (c a mask b : UInt32) : UInt32 := ((c >>> a) &&& mask) <<< b

/-- `ARGB8888_to_RGB565`. -/
def argb8888ToRgb565 (c : UInt32) : UInt32 :=
  channel c 3 0x1f 0 ||| channel c 10 0x3f 5 ||| channel c 19 0x1f 11

/-- `ARGB8888_to_RGB332`. -/
def argb8888ToRgb332 (c : UInt32) : UInt32 :=
  channel c 6 0x3 0 ||| channel c 13 0x7 2 ||| channel c 21 0x7 5

/-- `ARGB8888_to_RGB2220`. -/
def argb8888ToRgb2220 (c : UInt32) : UInt32 :=
  channel c 6 0x3 2 ||| channel c 14 0x3 4 ||| channel c 22 0x3 6

/-- The pixel that `fillrect` of a format stores for a color. -/
def Format.pixel : (f : Format) → UInt32 → f.Pixel
  | .rgb565, c => (argb8888ToRgb565 c).toUInt16
  | .rgb332, c => (argb8888ToRgb332 c).toUInt8
  | .rgb2220, c => (argb8888ToRgb2220 c).toUInt8
  | .mono, c => (argb8888ToLuma c).toUInt8
  | .argb8888, c | .rgbx888, c => c

/-! ### The loops -/

/-- The memory, and where it was written. -/
structure Drawn (α : Type) where
  mem : ℤ → α
  written : List ℤ

/-- The variables of the loops of `copyrect`. -/
structure Copy (α : Type) where
  mem : ℤ → α
  written : List ℤ
  dest : ℤ
  src : ℤ

/-- A row of `copyrect`, forwards (`step` 1) or backwards (`step` -1). -/
def copyRow {α : Type} (step : ℤ) : ℕ → Copy α → Copy α
  | 0, c => c
  | j + 1, c =>
    copyRow step j ⟨update c.mem c.dest (c.mem c.src), c.dest :: c.written,
      c.dest + step, c.src + step⟩

/-- The rows of `copyrect`. -/
def copyRows {α : Type} (step : ℤ) (width strideDiff : ℕ) : ℕ → Copy α → Copy α
  | 0, c => c
  | i + 1, c =>
    let c := copyRow step width c
    copyRows step width strideDiff i
      { c with dest := c.dest + step * strideDiff, src := c.src + step * strideDiff }

/-- The body that `copyrect8`, `copyrect16` and `copyrect32` share. -/
def copyrect {α : Type} (sf : Surface) (m : ℤ → α) (x y width height x2 y2 : ℕ) : Drawn α :=
  let src := u32 (x + y * sf.stride)
  let dest := u32 (x2 + y2 * sf.stride)
  let strideDiff := sub32 sf.stride width
  let c :=
    if dest < src then copyRows 1 width strideDiff height ⟨m, [], dest, src⟩
    else
      copyRows (-1) width strideDiff height
        ⟨m, [], dest + (u32 (height * sf.stride + width) : ℕ),
          src + (u32 (height * sf.stride + width) : ℕ)⟩
  ⟨c.mem, c.written⟩

/-- `copyrect8`, `copyrect16` and `copyrect32`. -/
def copyrect8 (sf : Surface) (m : ℤ → UInt8) := copyrect sf m
def copyrect16 (sf : Surface) (m : ℤ → UInt16) := copyrect sf m
def copyrect32 (sf : Surface) (m : ℤ → UInt32) := copyrect sf m

/-- `surface->copyrect` of a format. -/
def Format.copyrect (sf : Surface) :
    (f : Format) → (ℤ → f.Pixel) → ℕ → ℕ → ℕ → ℕ → ℕ → ℕ → Drawn f.Pixel
  | .rgb565 => copyrect16 sf
  | .rgb332 | .rgb2220 | .mono => copyrect8 sf
  | .argb8888 | .rgbx888 => copyrect32 sf

/-- The variables of the loops of `fillrect`. -/
structure Fill (α : Type) where
  mem : ℤ → α
  written : List ℤ
  dest : ℤ

/-- A row of `fillrect`. -/
def fillRow {α : Type} (color : α) : ℕ → Fill α → Fill α
  | 0, c => c
  | j + 1, c =>
    fillRow color j ⟨update c.mem c.dest color, c.dest :: c.written, c.dest + 1⟩

/-- The rows of `fillrect`. -/
def fillRows {α : Type} (color : α) (width strideDiff : ℕ) : ℕ → Fill α → Fill α
  | 0, c => c
  | i + 1, c =>
    let c := fillRow color width c
    fillRows color width strideDiff i { c with dest := c.dest + strideDiff }

/-- The body that `fillrect8`, `fillrect16` and `fillrect32` share. -/
def fillrect {α : Type} (sf : Surface) (m : ℤ → α) (x y width height : ℕ) (color : α) : Drawn α :=
  let c := fillRows color width (sub32 sf.stride width) height
    ⟨m, [], (u32 (x + y * sf.stride) : ℕ)⟩
  ⟨c.mem, c.written⟩

/-- `fillrect8`, `fillrect16` and `fillrect32`. -/
def fillrect8 (sf : Surface) (m : ℤ → UInt8) := fillrect sf m
def fillrect16 (sf : Surface) (m : ℤ → UInt16) := fillrect sf m
def fillrect32 (sf : Surface) (m : ℤ → UInt32) := fillrect sf m

/-- `surface->fillrect` of a format. -/
def Format.fillrect (sf : Surface) :
    (f : Format) → (ℤ → f.Pixel) → ℕ → ℕ → ℕ → ℕ → UInt32 → Drawn f.Pixel
  | .rgb565, m, x, y, w, h, c => fillrect16 sf m x y w h (Format.rgb565.pixel c)
  | .rgb332, m, x, y, w, h, c => fillrect8 sf m x y w h (Format.rgb332.pixel c)
  | .rgb2220, m, x, y, w, h, c => fillrect8 sf m x y w h (Format.rgb2220.pixel c)
  | .mono, m, x, y, w, h, c => fillrect8 sf m x y w h (Format.mono.pixel c)
  | .argb8888, m, x, y, w, h, c => fillrect32 sf m x y w h (Format.argb8888.pixel c)
  | .rgbx888, m, x, y, w, h, c => fillrect32 sf m x y w h (Format.rgbx888.pixel c)

/-! ### The calls -/

/-- One clipping: `if (a + n > size) n = size - a;`. -/
def clip (size a n : ℕ) : ℕ := if size < u32 (a + n) then sub32 size a else n

/-- `gfx_copyrect`. -/
def gfxCopyrect (sf : Surface) (m : ℤ → sf.format.Pixel) (x y width height x2 y2 : ℕ) :
    Drawn sf.format.Pixel :=
  if sf.width ≤ x ∨ sf.width ≤ x2 ∨ sf.height ≤ y ∨ sf.height ≤ y2 ∨ width = 0 ∨ height = 0 then
    ⟨m, []⟩
  else
    sf.format.copyrect sf m x y (clip sf.width x2 (clip sf.width x width))
      (clip sf.height y2 (clip sf.height y height)) x2 y2

/-- `gfx_fillrect`. -/
def gfxFillrect (sf : Surface) (m : ℤ → sf.format.Pixel) (x y width height : ℕ) (color : UInt32) :
    Drawn sf.format.Pixel :=
  if sf.width ≤ x ∨ sf.height ≤ y ∨ width = 0 ∨ height = 0 then ⟨m, []⟩
  else
    sf.format.fillrect sf m x y (clip sf.width x width) (clip sf.height y height) color

/-! ### What is promised, and when -/

/-- The address of a pixel. -/
def Surface.at (sf : Surface) (px py : ℕ) : ℤ := ((px + py * sf.stride : ℕ) : ℤ)

/-- An address of a pixel of the surface. -/
def Surface.Inside (sf : Surface) (a : ℤ) : Prop :=
  ∃ px < sf.width, ∃ py < sf.height, a = sf.at px py

/-- A pixel of a rectangle. -/
def Surface.InRect (sf : Surface) (x y width height : ℕ) (a : ℤ) : Prop :=
  ∃ i < height, ∃ j < width, a = sf.at (x + j) (y + i)

/-- What is left of `n` pixels from `a` on. -/
def clipped (size a n : ℕ) : ℕ := min n (size - a)

/-- What is left of `n` pixels from `a` on and from `b` on. -/
def clipped₂ (size a b n : ℕ) : ℕ := min (clipped size a n) (size - b)

/-- **Move semantics**: whatever the pixels are, only pixels of the surface are written, those of
the clipped destination become what those of the source were, and no other cell changes. -/
structure Moves (sf : Surface) (x y width height x2 y2 : ℕ) (m : ℤ → sf.format.Pixel) : Prop where
  inside : ∀ a ∈ (gfxCopyrect sf m x y width height x2 y2).written, sf.Inside a
  moved : ∀ i < clipped₂ sf.height y y2 height, ∀ j < clipped₂ sf.width x x2 width,
    (gfxCopyrect sf m x y width height x2 y2).mem (sf.at (x2 + j) (y2 + i)) =
      m (sf.at (x + j) (y + i))
  unchanged : ∀ a, ¬ sf.InRect x2 y2 (clipped₂ sf.width x x2 width)
    (clipped₂ sf.height y y2 height) a → (gfxCopyrect sf m x y width height x2 y2).mem a = m a

/-- **Filling**: the pixels of the clipped rectangle get the color and no other cell changes. -/
structure Fills (sf : Surface) (x y width height : ℕ) (color : UInt32)
    (m : ℤ → sf.format.Pixel) : Prop where
  inside : ∀ a ∈ (gfxFillrect sf m x y width height color).written, sf.Inside a
  filled : ∀ a, sf.InRect x y (clipped sf.width x width) (clipped sf.height y height) a →
    (gfxFillrect sf m x y width height color).mem a = sf.format.pixel color
  unchanged : ∀ a, ¬ sf.InRect x y (clipped sf.width x width) (clipped sf.height y height) a →
    (gfxFillrect sf m x y width height color).mem a = m a

/-- Neither sum of the clipping wraps. -/
def NoWrap (size a b n : ℕ) : Prop := a + n < 2 ^ 32 ∧ b + clipped size a n < 2 ^ 32

/-- The pixels that a copy of a rectangle onto itself writes: backwards from one row and one
pixel behind its last. -/
def Surface.SelfInside (sf : Surface) (x y width height : ℕ) : Prop :=
  ∀ i < height, ∀ j < width, sf.Inside (sf.at x y + (u32 (height * sf.stride + width) : ℕ) -
    ((i * (width + sub32 sf.stride width) + j : ℕ) : ℤ))

/-- **A copy is a move** where nothing is left to copy, where the destination lies before the
source and the clipping does not wrap, or where it copies a rectangle onto itself and what it
writes lies in the surface. -/
def CopyOk (sf : Surface) (x y width height x2 y2 : ℕ) : Prop :=
  (sf.width ≤ x ∨ sf.width ≤ x2 ∨ sf.height ≤ y ∨ sf.height ≤ y2 ∨ width = 0 ∨ height = 0) ∨
  (NoWrap sf.width x x2 width ∧ NoWrap sf.height y y2 height ∧
    (sf.at x2 y2 < sf.at x y ∨ sf.at x y < sf.at x2 y2 ∧ sf.stride + 1 = 2 ^ 32)) ∨
  (sf.at x2 y2 = sf.at x y ∧ sf.SelfInside x y (clip sf.width x2 (clip sf.width x width))
    (clip sf.height y2 (clip sf.height y height)))

/-- **A fill is one** where nothing is left to fill or the clipping does not wrap. -/
def FillOk (sf : Surface) (x y width height : ℕ) : Prop :=
  (sf.width ≤ x ∨ sf.height ≤ y ∨ width = 0 ∨ height = 0) ∨
    x + width < 2 ^ 32 ∧ y + height < 2 ^ 32

/-! ### What the loops write -/

section Loops

variable {α : Type}

/-- **A copy in progress** is a shift of the cells that were written, and the pointers are not
behind any of them. -/
structure Copy.Inv (step e : ℤ) (m : ℤ → α) (c : Copy α) : Prop where
  src : c.src = c.dest + e
  behind : ∀ a ∈ c.written, step * (a - c.dest) < 0
  mem : ∀ a, c.mem a = if a ∈ c.written then m (a + e) else m a

variable {m : ℤ → α} {step e : ℤ} {c : Copy α}

theorem Copy.Inv.pixel (h : c.Inv step e m) (hstep : step * step = 1) (he : 0 ≤ step * e) :
    Copy.Inv step e m ⟨update c.mem c.dest (c.mem c.src), c.dest :: c.written,
      c.dest + step, c.src + step⟩ := by
  have hsrc : c.dest + e ∉ c.written := fun hmem => by
    have := h.behind _ hmem
    rw [add_sub_cancel_left] at this
    omega
  refine ⟨by rw [h.src]; ring, fun a ha => ?_, fun a => ?_⟩
  · have hd : step * (a - (c.dest + step)) = step * (a - c.dest) - step * step := by ring
    rw [hd, hstep]
    rcases List.mem_cons.1 ha with rfl | ha
    · rw [sub_self, mul_zero]
      decide
    · have := h.behind a ha
      omega
  · rcases eq_or_ne a c.dest with rfl | hne
    · rw [if_pos List.mem_cons_self]
      simp only [update_self]
      rw [h.src, h.mem, if_neg hsrc]
    · simp only [update_of_ne hne, List.mem_cons, hne, false_or]
      exact h.mem a

/-- The pointers skip the rest of a row. -/
theorem Copy.Inv.skip (h : c.Inv step e m) (hstep : step * step = 1) (k : ℕ) :
    Copy.Inv step e m { c with dest := c.dest + step * k, src := c.src + step * k } := by
  refine ⟨by simp only [h.src]; ring, fun a ha => ?_, h.mem⟩
  have hd : step * (a - (c.dest + step * k)) = step * (a - c.dest) - step * step * k := by ring
  have := h.behind a ha
  simp only
  rw [hd, hstep, one_mul]
  omega

theorem copyRow_inv (hstep : step * step = 1) (he : 0 ≤ step * e)
    (n : ℕ) (h : c.Inv step e m) : (copyRow step n c).Inv step e m := by
  induction n generalizing c with
  | zero => exact h
  | succ n ih => exact ih (h.pixel hstep he)

theorem copyRows_inv (hstep : step * step = 1) (he : 0 ≤ step * e)
    (width strideDiff n : ℕ) (h : c.Inv step e m) :
    (copyRows step width strideDiff n c).Inv step e m := by
  induction n generalizing c with
  | zero => exact h
  | succ n ih => exact ih ((copyRow_inv hstep he width h).skip hstep strideDiff)

theorem dest_copyRow (step : ℤ) (n : ℕ) (c : Copy α) :
    (copyRow step n c).dest = c.dest + step * n := by
  induction n generalizing c with
  | zero => simp [copyRow]
  | succ n ih =>
    rw [copyRow, ih]
    push_cast
    ring

/-- A row writes its pixels. -/
theorem mem_copyRow (step : ℤ) (n : ℕ) (c : Copy α) (a : ℤ) :
    a ∈ (copyRow step n c).written ↔ a ∈ c.written ∨ ∃ j < n, a = c.dest + step * (j : ℕ) := by
  induction n generalizing c with
  | zero => simp [copyRow]
  | succ n ih =>
    rw [copyRow, ih, List.mem_cons, Nat.exists_lt_succ_left, Nat.cast_zero, mul_zero, add_zero,
      or_assoc, or_left_comm]
    refine or_congr_right (or_congr_right (exists_congr fun j => and_congr_right fun _ => ?_))
    push_cast
    rw [show c.dest + step + step * j = c.dest + step * (j + 1) from by ring]

/-- **The rows write what two nested loops count.** -/
theorem mem_copyRows (step : ℤ) (width strideDiff n : ℕ) (c : Copy α) (a : ℤ) :
    a ∈ (copyRows step width strideDiff n c).written ↔ a ∈ c.written ∨
      ∃ i < n, ∃ j < width, a = c.dest + step * ((i * (width + strideDiff) + j : ℕ) : ℤ) := by
  induction n generalizing c with
  | zero => simp [copyRows]
  | succ n ih =>
    rw [copyRows, ih, Nat.exists_lt_succ_left]
    simp only [mem_copyRow, dest_copyRow, or_assoc]
    refine or_congr_right (or_congr ?_ ?_)
    · simp
    · refine exists_congr fun i => and_congr_right fun _ => exists_congr fun j =>
        and_congr_right fun _ => ?_
      push_cast
      ring_nf

/-- The distance that the loops move on from row to row. -/
def pitch (sf : Surface) (width : ℕ) : ℕ := width + sub32 sf.stride width

/-- **What a copy does**: the cells it writes get what the cells at a fixed distance held. -/
theorem copyrect_mem (sf : Surface) (m : ℤ → α) (x y width height x2 y2 : ℕ) (a : ℤ) :
    (copyrect sf m x y width height x2 y2).mem a =
      if a ∈ (copyrect sf m x y width height x2 y2).written then
        m (a + ((u32 (x + y * sf.stride) : ℕ) - (u32 (x2 + y2 * sf.stride) : ℕ)))
      else m a := by
  have hstart : ∀ {step e dest src : ℤ}, src = dest + e →
      Copy.Inv step e m ⟨m, [], dest, src⟩ := fun h =>
    ⟨h, fun a ha => absurd ha List.not_mem_nil, fun a => (if_neg List.not_mem_nil).symm⟩
  by_cases hlt : u32 (x2 + y2 * sf.stride) < u32 (x + y * sf.stride)
  · simp only [copyrect, if_pos hlt]
    exact (copyRows_inv (by norm_num) (by omega) _ _ _ (hstart (by ring))).mem a
  · simp only [copyrect, if_neg hlt]
    exact (copyRows_inv (by norm_num) (by omega) _ _ _ (hstart (by ring))).mem a

/-- **What a copy forwards writes.** -/
theorem mem_copyrect_forward {sf : Surface} {x y x2 y2 : ℕ}
    (hlt : u32 (x2 + y2 * sf.stride) < u32 (x + y * sf.stride)) (m : ℤ → α) (width height : ℕ)
    (a : ℤ) : a ∈ (copyrect sf m x y width height x2 y2).written ↔ ∃ i < height, ∃ j < width,
      a = (u32 (x2 + y2 * sf.stride) : ℕ) + ((i * pitch sf width + j : ℕ) : ℤ) := by
  simp only [copyrect, if_pos hlt, mem_copyRows, List.not_mem_nil, false_or, one_mul]
  rfl

/-- **What a copy backwards writes.** -/
theorem mem_copyrect_backward {sf : Surface} {x y x2 y2 : ℕ}
    (hlt : ¬ u32 (x2 + y2 * sf.stride) < u32 (x + y * sf.stride)) (m : ℤ → α) (width height : ℕ)
    (a : ℤ) : a ∈ (copyrect sf m x y width height x2 y2).written ↔ ∃ i < height, ∃ j < width,
      a = (u32 (x2 + y2 * sf.stride) : ℕ) + (u32 (height * sf.stride + width) : ℕ) -
        ((i * pitch sf width + j : ℕ) : ℤ) := by
  simp only [copyrect, if_neg hlt, mem_copyRows, List.not_mem_nil, false_or, neg_mul, one_mul,
    ← sub_eq_add_neg]
  rfl

/-- **A fill in progress** has colored the cells that were written. -/
def Fill.Inv (color : α) (m : ℤ → α) (c : Fill α) : Prop :=
  ∀ a, c.mem a = if a ∈ c.written then color else m a

variable {color : α}

theorem Fill.Inv.pixel {c : Fill α} (h : c.Inv color m) :
    Fill.Inv color m ⟨update c.mem c.dest color, c.dest :: c.written, c.dest + 1⟩ := by
  intro a
  rcases eq_or_ne a c.dest with rfl | hne
  · rw [if_pos List.mem_cons_self]
    exact update_self ..
  · simp only [update_of_ne hne, List.mem_cons, hne, false_or]
    exact h a

theorem fillRow_inv (n : ℕ) {c : Fill α} (h : c.Inv color m) :
    (fillRow color n c).Inv color m := by
  induction n generalizing c with
  | zero => exact h
  | succ n ih => exact ih h.pixel

theorem fillRows_inv (width strideDiff n : ℕ) {c : Fill α}
    (h : c.Inv color m) : (fillRows color width strideDiff n c).Inv color m := by
  induction n generalizing c with
  | zero => exact h
  | succ n ih => exact @ih { fillRow color width c with dest := _ } (fillRow_inv width h)

theorem dest_fillRow (color : α) (n : ℕ) (c : Fill α) :
    (fillRow color n c).dest = c.dest + n := by
  induction n generalizing c with
  | zero => simp [fillRow]
  | succ n ih =>
    rw [fillRow, ih]
    push_cast
    ring

theorem mem_fillRow (color : α) (n : ℕ) (c : Fill α) (a : ℤ) :
    a ∈ (fillRow color n c).written ↔ a ∈ c.written ∨ ∃ j < n, a = c.dest + (j : ℕ) := by
  induction n generalizing c with
  | zero => simp [fillRow]
  | succ n ih =>
    rw [fillRow, ih, List.mem_cons, Nat.exists_lt_succ_left, Nat.cast_zero, add_zero, or_assoc,
      or_left_comm]
    refine or_congr_right (or_congr_right (exists_congr fun j => and_congr_right fun _ => ?_))
    push_cast
    rw [show c.dest + 1 + j = c.dest + (j + 1) from by ring]

theorem mem_fillRows (color : α) (width strideDiff n : ℕ) (c : Fill α) (a : ℤ) :
    a ∈ (fillRows color width strideDiff n c).written ↔ a ∈ c.written ∨
      ∃ i < n, ∃ j < width, a = c.dest + ((i * (width + strideDiff) + j : ℕ) : ℤ) := by
  induction n generalizing c with
  | zero => simp [fillRows]
  | succ n ih =>
    rw [fillRows, ih, Nat.exists_lt_succ_left]
    simp only [mem_fillRow, dest_fillRow, or_assoc]
    refine or_congr_right (or_congr ?_ ?_)
    · simp
    · refine exists_congr fun i => and_congr_right fun _ => exists_congr fun j =>
        and_congr_right fun _ => ?_
      push_cast
      ring_nf

end Loops

/-! ### The addresses -/

section Addresses

variable {sf : Surface}

/-- A surface's addresses fit in 32 bits. -/
theorem Surface.rows_lt (sf : Surface) : sf.height * sf.stride < 2 ^ 32 := by
  have hsize : 1 ≤ sf.format.pixelsize := by cases sf.format <;> decide
  exact (Nat.le_mul_of_pos_right _ hsize).trans_lt sf.len_lt

theorem Surface.stride_lt (sf : Surface) (h : 0 < sf.height) : sf.stride < 2 ^ 32 :=
  (Nat.le_mul_of_pos_left _ h).trans_lt sf.rows_lt

/-- A pixel's address is computed without a wrap. -/
theorem u32_at {x y : ℕ} (hx : x < sf.width) (hy : y < sf.height) :
    u32 (x + y * sf.stride) = x + y * sf.stride := by
  refine u32_of_lt (lt_of_lt_of_le ?_ sf.rows_lt.le)
  have hmul := Nat.mul_le_mul_right sf.stride (Nat.succ_le_of_lt hy)
  have hle := sf.width_le
  rw [Nat.succ_mul] at hmul
  omega

theorem Surface.height_lt (sf : Surface) (h : 0 < sf.stride) : sf.height < 2 ^ 32 :=
  (Nat.le_mul_of_pos_right _ h).trans_lt sf.rows_lt

/-- A row's distance is at least the stride, and no more for a row that fits in it. -/
theorem pitch_cases {width : ℕ} (hs : sf.stride < 2 ^ 32) (hw : width < 2 ^ 32) :
    sf.stride ≤ pitch sf width ∧ (width ≤ sf.stride → pitch sf width = sf.stride) := by
  unfold pitch sub32 u32
  omega

/-- **Two nested loops end at the same place** only if they count the same. -/
theorem last_le {S P w h w' h' : ℕ} (hw : w ≤ w') (hh : h ≤ h') (hP : S ≤ P) (hwS : w ≤ S)
    (hw0 : 0 < w) (hh0 : 0 < h)
    (hle : (h' - 1) * P + (w' - 1) ≤ (h - 1) * S + (w - 1)) : h' = h ∧ w' = w := by
  have hh' : h' = h := by
    by_contra hne
    have hlt : h ≤ h' - 1 := by omega
    have h₁ := Nat.mul_le_mul hlt hP
    have h₂ : h * S = (h - 1) * S + S := by
      rw [← Nat.succ_mul, Nat.succ_eq_add_one, Nat.sub_add_cancel hh0]
    omega
  subst hh'
  have h₁ := Nat.mul_le_mul_left (h' - 1) hP
  exact ⟨rfl, by omega⟩

/-- What clipping leaves. -/
theorem clip_spec {size a n : ℕ} (hsize : size < 2 ^ 32) (ha : a < size) (hn : n < 2 ^ 32)
    (hn0 : 0 < n) : clipped size a n ≤ clip size a n ∧ 0 < clipped size a n ∧
      clip size a n < 2 ^ 32 ∧ (clip size a n = clipped size a n ↔ a + n < 2 ^ 32) := by
  unfold clip clipped sub32 u32
  split_ifs <;> omega

/-- What clipping twice leaves. -/
theorem clip_clip_spec {size a b n : ℕ} (hsize : size < 2 ^ 32) (ha : a < size) (hb : b < size)
    (hn : n < 2 ^ 32) (hn0 : 0 < n) :
    clipped₂ size a b n ≤ clip size b (clip size a n) ∧ 0 < clipped₂ size a b n ∧
      clip size b (clip size a n) < 2 ^ 32 ∧
      (clip size b (clip size a n) = clipped₂ size a b n ↔ NoWrap size a b n) := by
  unfold NoWrap clip clipped₂ clipped sub32 u32
  split_ifs <;> omega

theorem clipped₂_le {size a b n : ℕ} : clipped₂ size a b n ≤ size - b := Nat.min_le_right _ _

theorem at_add (sf : Surface) (x y i j : ℕ) :
    sf.at (x + j) (y + i) = sf.at x y + ((i * sf.stride + j : ℕ) : ℤ) := by
  unfold Surface.at
  push_cast
  ring

/-- The pixels of a clipped rectangle are pixels of the surface. -/
theorem Surface.InRect.inside {x y w h : ℕ} {a : ℤ} (hr : sf.InRect x y w h a)
    (hw : w ≤ sf.width - x) (hh : h ≤ sf.height - y) : sf.Inside a := by
  obtain ⟨i, hi, j, hj, rfl⟩ := hr
  exact ⟨x + j, by omega, y + i, by omega, rfl⟩

/-- **Forwards, what is written is the rectangle** exactly when the loops count its pixels. -/
theorem forward_iff {w h w' h' : ℕ} (x y : ℕ) (hw : w ≤ w') (hh : h ≤ h') (hw0 : 0 < w)
    (hh0 : 0 < h) (hwS : w ≤ sf.stride) (hS : sf.stride < 2 ^ 32) (hw' : w' < 2 ^ 32) :
    (∀ a, (∃ i < h', ∃ j < w', a = sf.at x y + ((i * pitch sf w' + j : ℕ) : ℤ)) ↔
      sf.InRect x y w h a) ↔ h' = h ∧ w' = w := by
  obtain ⟨hP, hPS⟩ := pitch_cases hS hw'
  constructor
  · intro heq
    obtain ⟨i, hi, j, hj, hij⟩ := (heq _).1 ⟨h' - 1, by omega, w' - 1, by omega, rfl⟩
    rw [at_add] at hij
    have hmul : i * sf.stride ≤ (h - 1) * sf.stride := Nat.mul_le_mul_right _ (by omega)
    exact last_le hw hh hP hwS hw0 hh0 (by omega)
  · rintro ⟨rfl, rfl⟩ a
    rw [hPS hwS]
    simp only [Surface.InRect, at_add]

/-- **Backwards** it is so only for one stride. -/
theorem backward_iff {w h w' h' : ℕ} (x y : ℕ) (hw : w ≤ w') (hh : h ≤ h') (hw0 : 0 < w)
    (hh0 : 0 < h) (hwS : w ≤ sf.stride) (hS : sf.stride < 2 ^ 32) (hw' : w' < 2 ^ 32)
    (hh2 : h ≤ sf.height) :
    (∀ a, (∃ i < h', ∃ j < w', a = sf.at x y + (u32 (h' * sf.stride + w') : ℕ) -
      ((i * pitch sf w' + j : ℕ) : ℤ)) ↔ sf.InRect x y w h a) ↔
      (h' = h ∧ w' = w) ∧ sf.stride + 1 = 2 ^ 32 := by
  obtain ⟨hP, hPS⟩ := pitch_cases hS hw'
  have hrows : h * sf.stride = (h - 1) * sf.stride + sf.stride := by
    rw [← Nat.succ_mul, Nat.succ_eq_add_one, Nat.sub_add_cancel hh0]
  have hlast : (h - 1) * sf.stride + (w - 1) < 2 ^ 32 := by
    have := sf.rows_lt
    have := Nat.mul_le_mul_right sf.stride hh2
    omega
  constructor
  · intro heq
    -- the first address that is written, and the last
    obtain ⟨i, hi, j, hj, hij⟩ := (heq _).1 ⟨0, by omega, 0, by omega, rfl⟩
    obtain ⟨i₁, hi₁, j₁, hj₁, hij₁⟩ := (heq _).1 ⟨h' - 1, by omega, w' - 1, by omega, rfl⟩
    rw [at_add] at hij hij₁
    have hmul : i * sf.stride ≤ (h - 1) * sf.stride := Nat.mul_le_mul_right _ (by omega)
    obtain ⟨rfl, rfl⟩ : h' = h ∧ w' = w := last_le hw hh hP hwS hw0 hh0 (by omega)
    -- and the last pixel of the rectangle
    obtain ⟨i₂, hi₂, j₂, hj₂, hij₂⟩ := (heq _).2 ⟨h' - 1, by omega, w' - 1, by omega, rfl⟩
    rw [at_add] at hij₂
    refine ⟨⟨rfl, rfl⟩, ?_⟩
    have hk : u32 (h' * sf.stride + w') = (h' - 1) * sf.stride + (w' - 1) := by omega
    have hmod : (h' * sf.stride + w') % 2 ^ 32 = (h' - 1) * sf.stride + (w' - 1) := hk
    omega
  · rintro ⟨⟨rfl, rfl⟩, hstride⟩ a
    have hk : u32 (h' * sf.stride + w') = (h' - 1) * sf.stride + (w' - 1) := by
      unfold u32
      omega
    rw [hPS hwS, hk]
    simp only [Surface.InRect, at_add]
    -- the rows and columns are counted from the other end, in both directions
    constructor
    all_goals
      rintro ⟨i, hi, j, hj, rfl⟩
      refine ⟨h' - 1 - i, by omega, w' - 1 - j, by omega, ?_⟩
      have hmul : (h' - 1) * sf.stride = (h' - 1 - i) * sf.stride + i * sf.stride := by
        rw [← Nat.add_mul, Nat.sub_add_cancel (by omega)]
      omega

end Addresses

/-! ### Which calls are right -/

theorem Format.copyrect_eq (sf : Surface) (f : Format) (m : ℤ → f.Pixel) :
    f.copyrect sf m = Gfx.copyrect sf m := by
  cases f <;> rfl

theorem Format.fillrect_eq (sf : Surface) (f : Format) (m : ℤ → f.Pixel) (x y width height : ℕ)
    (color : UInt32) : f.fillrect sf m x y width height color =
      Gfx.fillrect sf m x y width height (f.pixel color) := by
  cases f <;> rfl

instance (f : Format) : Nontrivial f.Pixel := by
  cases f
  all_goals exact ⟨⟨0, 1, by decide⟩⟩

section Calls

variable (sf : Surface) {x y width height x2 y2 : ℕ}

/-- A call that leaves nothing changes nothing, and nothing is left of its rectangle. -/
theorem moves_trimmed (h : sf.width ≤ x ∨ sf.width ≤ x2 ∨ sf.height ≤ y ∨ sf.height ≤ y2 ∨
    width = 0 ∨ height = 0) (m : ℤ → sf.format.Pixel) : Moves sf x y width height x2 y2 m := by
  have hempty : clipped₂ sf.width x x2 width = 0 ∨ clipped₂ sf.height y y2 height = 0 := by
    unfold clipped₂ clipped
    omega
  have hcall : gfxCopyrect sf m x y width height x2 y2 = ⟨m, []⟩ := if_pos h
  constructor
  · intro a ha
    rw [hcall] at ha
    exact absurd ha List.not_mem_nil
  · intro i hi j hj
    omega
  · intro a _
    rw [hcall]

/-- **A copy between different places is a move** for all pixels exactly when it writes the
clipped destination. -/
theorem moves_iff_of_ne {w h : ℕ} (hne : sf.at x2 y2 ≠ sf.at x y) {Writes : ℤ → Prop}
    (hx : x < sf.width) (hy : y < sf.height) (hx2 : x2 < sf.width) (hy2 : y2 < sf.height)
    (hcall : ∀ m, gfxCopyrect sf m x y width height x2 y2 = copyrect sf m x y w h x2 y2)
    (hwrites : ∀ m a,
      a ∈ (copyrect sf m x y w h x2 y2 : Drawn sf.format.Pixel).written ↔ Writes a) :
    (∀ m, Moves sf x y width height x2 y2 m) ↔ ∀ a, Writes a ↔
      sf.InRect x2 y2 (clipped₂ sf.width x x2 width) (clipped₂ sf.height y y2 height) a := by
  have hat : ∀ {px py : ℕ}, px < sf.width → py < sf.height →
      ((u32 (px + py * sf.stride) : ℕ) : ℤ) = sf.at px py := fun hpx hpy => by
    rw [u32_at hpx hpy]
    rfl
  have hmem : ∀ (m : ℤ → sf.format.Pixel) a, (copyrect sf m x y w h x2 y2).mem a =
      if a ∈ (copyrect sf m x y w h x2 y2).written then m (a + (sf.at x y - sf.at x2 y2))
      else m a := by
    intro m a
    rw [copyrect_mem, hat hx hy, hat hx2 hy2]
  have hsrc : ∀ i j : ℕ, sf.at (x2 + j) (y2 + i) + (sf.at x y - sf.at x2 y2) =
      sf.at (x + j) (y + i) := by
    intro i j
    rw [at_add, at_add]
    ring
  constructor
  · intro hmoves a
    obtain ⟨u, v, huv⟩ := exists_pair_ne sf.format.Pixel
    -- one pixel that differs from all others
    let m : ℤ → sf.format.Pixel := fun b => if b = a then u else v
    have hm := hmoves m
    have hself : m a = u := if_pos rfl
    have hother : m (a + (sf.at x y - sf.at x2 y2)) = v := if_neg (by omega)
    have hval := hmem m a
    rw [hself, hother] at hval
    constructor
    · intro hw
      by_contra hr
      have hkeep := hm.unchanged a hr
      rw [hcall, hval, if_pos ((hwrites m a).2 hw), hself] at hkeep
      exact huv hkeep.symm
    · intro hr
      by_contra hw
      obtain ⟨i, hi, j, hj, rfl⟩ := hr
      have hmove := hm.moved i hi j hj
      rw [hcall, hval, if_neg fun h => hw ((hwrites m _).1 h), ← hsrc, hother] at hmove
      exact huv hmove
  · intro heq m
    refine ⟨fun a ha => ?_, fun i hi j hj => ?_, fun a hr => ?_⟩
    · rw [hcall, hwrites, heq] at ha
      refine ha.inside clipped₂_le clipped₂_le
    · rw [hcall, hmem, if_pos, hsrc]
      exact (hwrites m _).2 ((heq _).2 ⟨i, hi, j, hj, rfl⟩)
    · rw [hcall, hmem, if_neg]
      exact fun h => hr ((heq a).1 ((hwrites m a).1 h))

/-- **A copy onto itself is a move** exactly when it writes inside the surface. -/
theorem moves_iff_of_eq {w h : ℕ} (heq : sf.at x2 y2 = sf.at x y) {Writes : ℤ → Prop}
    (hx : x < sf.width) (hy : y < sf.height) (hx2 : x2 < sf.width) (hy2 : y2 < sf.height)
    (hcall : ∀ m, gfxCopyrect sf m x y width height x2 y2 = copyrect sf m x y w h x2 y2)
    (hwrites : ∀ m a,
      a ∈ (copyrect sf m x y w h x2 y2 : Drawn sf.format.Pixel).written ↔ Writes a) :
    (∀ m, Moves sf x y width height x2 y2 m) ↔ ∀ a, Writes a → sf.Inside a := by
  have hmem : ∀ (m : ℤ → sf.format.Pixel) a, (copyrect sf m x y w h x2 y2).mem a = m a := by
    intro m a
    have hat : x + y * sf.stride = x2 + y2 * sf.stride := by
      unfold Surface.at at heq
      omega
    rw [copyrect_mem, u32_at hx hy, u32_at hx2 hy2, hat, sub_self, add_zero, ite_self]
  constructor
  · intro hmoves a hw
    obtain ⟨u, -⟩ := exists_pair_ne sf.format.Pixel
    refine (hmoves fun _ => u).inside a ?_
    rw [hcall]
    exact (hwrites _ a).2 hw
  · intro hin m
    refine ⟨fun a ha => ?_, fun i hi j hj => ?_, fun a hr => ?_⟩
    · rw [hcall] at ha
      exact hin a ((hwrites m a).1 ha)
    · rw [hcall, hmem, at_add, at_add, heq]
    · rw [hcall, hmem]

/-- **Which copies are moves**, for numbers of 32 bits. -/
theorem moves_iff (hwidth : width < 2 ^ 32) (hheight : height < 2 ^ 32) :
    (∀ m, Moves sf x y width height x2 y2 m) ↔ CopyOk sf x y width height x2 y2 := by
  by_cases htrim : sf.width ≤ x ∨ sf.width ≤ x2 ∨ sf.height ≤ y ∨ sf.height ≤ y2 ∨ width = 0 ∨
      height = 0
  · exact iff_of_true (moves_trimmed sf htrim) (.inl htrim)
  have hcall : ∀ m, gfxCopyrect sf m x y width height x2 y2 = copyrect sf m x y
      (clip sf.width x2 (clip sf.width x width)) (clip sf.height y2 (clip sf.height y height)) x2
      y2 := by
    intro m
    rw [gfxCopyrect, if_neg htrim, Format.copyrect_eq]
  simp only [CopyOk, htrim, false_or]
  push Not at htrim
  obtain ⟨hx, hx2, hy, hy2, hw0, hh0⟩ := htrim
  have hle := sf.width_le
  have hS := sf.stride_lt (by omega)
  have hH := sf.height_lt (by omega)
  obtain ⟨hcw, hcw0, hcw', hcweq⟩ := clip_clip_spec (by omega) hx hx2 hwidth (by omega)
  obtain ⟨hch, hch0, -, hcheq⟩ := clip_clip_spec hH hy hy2 hheight (by omega)
  have hwS : clipped₂ sf.width x x2 width ≤ sf.stride := by
    have := @clipped₂_le sf.width x x2 width
    omega
  have hhH : clipped₂ sf.height y y2 height ≤ sf.height := by
    have := @clipped₂_le sf.height y y2 height
    omega
  have hat : ∀ {px py : ℕ}, px < sf.width → py < sf.height →
      ((u32 (px + py * sf.stride) : ℕ) : ℤ) = sf.at px py := fun hpx hpy => by
    rw [u32_at hpx hpy]
    rfl
  have hcmp : u32 (x2 + y2 * sf.stride) < u32 (x + y * sf.stride) ↔ sf.at x2 y2 < sf.at x y := by
    rw [← hat hx hy, ← hat hx2 hy2, Nat.cast_lt]
  rcases lt_trichotomy (sf.at x2 y2) (sf.at x y) with hlt | heq | hgt
  · rw [moves_iff_of_ne sf hlt.ne hx hy hx2 hy2 hcall fun m a =>
      mem_copyrect_forward (hcmp.2 hlt) m _ _ a]
    simp only [hat hx2 hy2]
    rw [forward_iff x2 y2 hcw hch hcw0 hch0 hwS hS hcw', hcweq, hcheq]
    simp only [hlt, true_or, and_true, hlt.ne, false_and, or_false]
    exact and_comm
  · rw [moves_iff_of_eq sf heq hx hy hx2 hy2 hcall fun m a =>
      mem_copyrect_backward (by rw [hcmp, heq]; exact lt_irrefl _) m _ _ a]
    simp only [hat hx2 hy2, heq, lt_irrefl, false_and, or_false, and_false, false_or, true_and]
    exact ⟨fun h i hi j hj => h _ ⟨i, hi, j, hj, rfl⟩, fun h a ⟨i, hi, j, hj, ha⟩ =>
      ha ▸ h i hi j hj⟩
  · rw [moves_iff_of_ne sf hgt.ne' hx hy hx2 hy2 hcall fun m a =>
      mem_copyrect_backward (by rw [hcmp]; exact hgt.asymm) m _ _ a]
    simp only [hat hx2 hy2]
    rw [backward_iff x2 y2 hcw hch hcw0 hch0 hwS hS hcw' hhH, hcweq, hcheq]
    simp only [hgt.asymm, hgt, true_and, false_or, hgt.ne', false_and, or_false]
    exact ⟨fun h => ⟨h.1.2, h.1.1, h.2⟩, fun h => ⟨⟨h.2.1, h.1⟩, h.2.2⟩⟩

/-- **Which fills are right**, for numbers of 32 bits. -/
theorem fills_iff (hwidth : width < 2 ^ 32) (hheight : height < 2 ^ 32) (color : UInt32) :
    (∀ m, Fills sf x y width height color m) ↔ FillOk sf x y width height := by
  by_cases htrim : sf.width ≤ x ∨ sf.height ≤ y ∨ width = 0 ∨ height = 0
  · refine iff_of_true (fun m => ?_) (.inl htrim)
    have hempty : clipped sf.width x width = 0 ∨ clipped sf.height y height = 0 := by
      unfold clipped
      omega
    have hcall : gfxFillrect sf m x y width height color = ⟨m, []⟩ := if_pos htrim
    refine ⟨fun a ha => ?_, fun a ⟨i, hi, j, hj, _⟩ => by omega, fun a _ => by rw [hcall]⟩
    rw [hcall] at ha
    exact absurd ha List.not_mem_nil
  have hcall : ∀ m, gfxFillrect sf m x y width height color = fillrect sf m x y
      (clip sf.width x width) (clip sf.height y height) (sf.format.pixel color) := by
    intro m
    rw [gfxFillrect, if_neg htrim, Format.fillrect_eq]
  simp only [FillOk, htrim, false_or]
  push Not at htrim
  obtain ⟨hx, hy, hw0, hh0⟩ := htrim
  have hle := sf.width_le
  have hS := sf.stride_lt (by omega)
  have hH := sf.height_lt (by omega)
  obtain ⟨hcw, hcw0, hcw', hcweq⟩ := clip_spec (by omega) hx hwidth (by omega)
  obtain ⟨hch, hch0, -, hcheq⟩ := clip_spec hH hy hheight (by omega)
  have hwS : clipped sf.width x width ≤ sf.stride := by
    unfold clipped
    omega
  have hmem : ∀ (m : ℤ → sf.format.Pixel) a, a ∈ (fillrect sf m x y (clip sf.width x width)
      (clip sf.height y height) (sf.format.pixel color)).written ↔
        ∃ i < clip sf.height y height, ∃ j < clip sf.width x width,
          a = sf.at x y + ((i * pitch sf (clip sf.width x width) + j : ℕ) : ℤ) := by
    intro m a
    simp only [fillrect, mem_fillRows, List.not_mem_nil, false_or, u32_at hx hy]
    rfl
  have hval : ∀ (m : ℤ → sf.format.Pixel), Fill.Inv (sf.format.pixel color) m
      (fillRows (sf.format.pixel color) (clip sf.width x width)
        (sub32 sf.stride (clip sf.width x width)) (clip sf.height y height)
        ⟨m, [], (u32 (x + y * sf.stride) : ℕ)⟩) := fun m =>
    fillRows_inv _ _ _ fun a => (if_neg List.not_mem_nil).symm
  rw [← hcweq, ← hcheq, ← and_comm,
    ← forward_iff x y hcw hch hcw0 hch0 hwS hS hcw']
  constructor
  · intro hfills a
    obtain ⟨u, hu⟩ := exists_ne (sf.format.pixel color)
    have hf := hfills fun _ => u
    have hv := hval (fun _ => u) a
    rw [← hmem fun _ => u]
    constructor
    · intro hw
      by_contra hr
      have hkeep := hf.unchanged a hr
      rw [hcall] at hkeep
      exact hu (hkeep.symm.trans (hv.trans (if_pos hw)))
    · intro hr
      by_contra hw
      have hfill := hf.filled a hr
      rw [hcall] at hfill
      exact hu ((hv.trans (if_neg hw)).symm.trans hfill)
  · intro heq m
    refine ⟨fun a ha => ?_, fun a hr => ?_, fun a hr => ?_⟩
    · rw [hcall, hmem, heq] at ha
      exact ha.inside (Nat.min_le_right _ _) (Nat.min_le_right _ _)
    · rw [hcall]
      exact (hval m a).trans (if_pos ((hmem m a).2 ((heq a).2 hr)))
    · rw [hcall]
      exact (hval m a).trans (if_neg fun hw => hr ((heq a).1 ((hmem m a).1 hw)))

end Calls

/-- **`gfx_copyrect` is a move and `gfx_fillrect` a fill, on every surface and for all 32-bit
arguments, exactly where `CopyOk` and `FillOk` say.**  A copy to the right or downwards never
is one: backwards the loops start one row and one pixel too far. -/
theorem gfx_rectangles_iff (sf : Surface) (x y width height x2 y2 color : UInt32) :
    ((∀ m, Moves sf x.toNat y.toNat width.toNat height.toNat x2.toNat y2.toNat m) ∧
      ∀ m, Fills sf x.toNat y.toNat width.toNat height.toNat color m) ↔
    CopyOk sf x.toNat y.toNat width.toNat height.toNat x2.toNat y2.toNat ∧
      FillOk sf x.toNat y.toNat width.toNat height.toNat := by
  rw [moves_iff sf width.toNat_lt height.toNat_lt,
    fills_iff sf width.toNat_lt height.toNat_lt color]

/-- Two columns and three rows of bytes. -/
def tiny : Surface := ⟨.mono, 2, 3, 2, le_rfl, by decide⟩

/-- Scrolling two rows down by one writes behind the surface. -/
theorem scroll_not_moves : ¬ ∀ (sf : Surface) (x y width height x2 y2 : UInt32)
    (m : ℤ → sf.format.Pixel),
    Moves sf x.toNat y.toNat width.toNat height.toNat x2.toNat y2.toNat m := by
  intro h
  have hin := (h tiny 0 0 2 2 0 1 fun _ => (0 : UInt8)).inside 8 (by decide)
  obtain ⟨px, hpx, py, hpy, ha⟩ := hin
  have hat : tiny.at px py = ((px + py * 2 : ℕ) : ℤ) := rfl
  have hw : tiny.width = 2 := rfl
  have hh : tiny.height = 3 := rfl
  omega

end Gfx
end LittleKernel
