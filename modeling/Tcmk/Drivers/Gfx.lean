import Tcmk.Arch
import Tcmk.Lib.Memory
import Tcmk.Lib.Raster

/-!
# The framebuffer (`gfx.rs`)

Everything is drawn into a buffer of words, row by row, and `present` copies the rows to the
framebuffer, where a row takes `pitch` bytes. Coordinates are `usize`, and the sums of the drawing
functions wrap. Each function draws a layer of the screen, whatever its arguments are, and writes to
no other word of the buffer.

The glyphs are a parameter: `font i row` is the byte `FONT[i][row]`.
-/

namespace Tcmk

open Lib

namespace Gfx

/-- `MAX_WIDTH`. -/
def maxWidth : ℕ := 1024

/-- `MAX_HEIGHT`. -/
def maxHeight : ℕ := 768

abbrev Color := UInt32

def black : Color := 0x00000000

def white : Color := 0x00FFFFFF

/-- `DESKTOP_BG`. -/
def desktopBg : Color := 0x00202A3A

/-- `TITLE_ACTIVE`. -/
def titleActive : Color := 0x003060C0

/-- `TITLE_INACTIVE`. -/
def titleInactive : Color := 0x00606870

def accent : Color := 0x00E09020

/-- `FramebufferInfo`. -/
structure FramebufferInfo where
  addr : ℕ
  pitch : ℕ
  width : ℕ
  height : ℕ

/-- `FB`, a framebuffer that `init` has accepted. -/
structure Screen extends FramebufferInfo where
  width_le : width ≤ maxWidth
  height_le : height ≤ maxHeight

/-- `FONT_WIDTH`. -/
def fontWidth : ℕ := 8

/-- `FONT_HEIGHT`. -/
def fontHeight : ℕ := 16

/-- `FONT_FIRST`. -/
def fontFirst : UInt8 := 32

/-- `FONT_LAST`. -/
def fontLast : UInt8 := 126

/-- `BACK_BUFFER`. -/
abbrev Buffer := ℕ → Color

variable (arch : Arch) (font : ℕ → ℕ → UInt8) (s : Screen)

/-- `put_pixel`. -/
def putPixel (x y : ℕ) (color : Color) (buf : Buffer) : Buffer :=
  if x ≥ s.width ∨ y ≥ s.height then buf else Function.update buf (y * s.width + x) color

/-- `fill_rect`. -/
def fillRect (x y w h : ℕ) (color : Color) (buf : Buffer) : Buffer :=
  let xEnd := min ((x + w) % 2 ^ arch.wordBits) s.width
  let yEnd := min ((y + h) % 2 ^ arch.wordBits) s.height
  if x ≥ s.width ∨ y ≥ s.height then buf
  else
    (List.range' y (yEnd - y)).foldl (fun buf row =>
      (List.range' x (xEnd - x)).foldl (fun buf col => Function.update buf (row * s.width + col)
        color) buf) buf

/-- `stroke_rect`. -/
def strokeRect (x y w h : ℕ) (color : Color) (buf : Buffer) : Buffer :=
  if w = 0 ∨ h = 0 then buf
  else
    let buf := fillRect arch s x y w 1 color buf
    let buf := fillRect arch s x ((y + h - 1) % 2 ^ arch.wordBits) w 1 color buf
    let buf := fillRect arch s x y 1 h color buf
    fillRect arch s ((x + w - 1) % 2 ^ arch.wordBits) y 1 h color buf

/-- `clear`. -/
def clear (color : Color) (buf : Buffer) : Buffer := fillRect arch s 0 0 s.width s.height color buf

/-- `blit`, of `len` pixels. -/
def blit (dstX dstY w h len : ℕ) (src : ℕ → Color) (buf : Buffer) : Buffer :=
  ((List.range h).takeWhile fun row => (dstY + row) % 2 ^ arch.wordBits < s.height).foldl
    (fun buf row =>
    ((List.range w).takeWhile fun col => (dstX + col) % 2 ^ arch.wordBits < s.width).foldl
      (fun buf col =>
      let idx := (row * w + col) % 2 ^ arch.wordBits
      if idx < len then
        Function.update buf
          ((dstY + row) % 2 ^ arch.wordBits * s.width + (dstX + col) % 2 ^ arch.wordBits) (src idx)
      else buf) buf) buf

/-- The glyph of a character, that of `?` for the others. -/
def glyphIndex (ch : UInt8) : ℕ :=
  if fontFirst ≤ ch ∧ ch ≤ fontLast then ch.toNat - fontFirst.toNat else '?'.toNat - fontFirst.toNat

/-- `draw_char`. -/
def drawChar (x y : ℕ) (ch : UInt8) (fg : Color) (buf : Buffer) : Buffer :=
  (List.range fontHeight).foldl (fun buf row =>
    let bits := font (glyphIndex ch) row
    if bits = 0 then buf
    else
      (List.range fontWidth).foldl (fun buf col =>
        if bits.toNat.testBit (fontWidth - 1 - col) then
          putPixel s ((x + col) % 2 ^ arch.wordBits) ((y + row) % 2 ^ arch.wordBits) fg buf
        else buf) buf) buf

/-- `draw_text`, up to the end of the line. -/
def drawText (x y : ℕ) (text : List UInt8) (fg : Color) (buf : Buffer) : Buffer :=
  match text with
  | [] => buf
  | b :: text =>
    if b = 10 then buf
    else drawText ((x + fontWidth) % 2 ^ arch.wordBits) y text fg
      (drawChar arch font s x y b fg buf)

/-- The copy of one row. -/
def presentRow (buf : Buffer) (mem : ℕ → UInt8) (row : ℕ) : ℕ → UInt8 :=
  store arch.wordBits mem ((s.addr + row * s.pitch) % 2 ^ arch.wordBits) (s.width * 4)
    fun k => leByte (buf (row * s.width + k / 4)).toNat (k % 4)

/-- `present`: the framebuffer is part of memory. -/
def present (buf : Buffer) (mem : ℕ → UInt8) : ℕ → UInt8 :=
  (List.range s.height).foldl (presentRow arch s buf) mem

/-! ## What is drawn -/

/-- The rectangle up to `xEnd` and `yEnd`. -/
def inRect (x xEnd y yEnd x' y' : ℕ) : Bool :=
  decide (x ≤ x') && decide (x' < xEnd) && decide (y ≤ y') && decide (y' < yEnd)

/-- The glyph has a point at this place. -/
def glyphAt (ch : UInt8) (dx dy : ℕ) : Bool :=
  decide (dx < fontWidth) && decide (dy < fontHeight) &&
    (font (glyphIndex ch) dy).toNat.testBit (fontWidth - 1 - dx)

/-- A text that begins at `x` and `y` has a point there. -/
def textAt (x y : ℕ) (text : List UInt8) (x' y' : ℕ) : Bool :=
  match text with
  | [] => false
  | b :: text =>
    if b = 10 then false
    else glyphAt font b (distance arch.wordBits x x') (distance arch.wordBits y y') ||
      textAt ((x + fontWidth) % 2 ^ arch.wordBits) y text x' y'

variable {arch font s}

theorem Screen.width_lt (s : Screen) : s.width < 2 ^ arch.wordBits := by
  have hwidth : s.width ≤ 1024 := s.width_le
  have hpow : 2 ^ 32 ≤ 2 ^ arch.wordBits := Nat.pow_le_pow_right (by decide) arch.wordBits_ge
  omega

theorem Screen.height_lt (s : Screen) : s.height < 2 ^ arch.wordBits := by
  have hheight : s.height ≤ 768 := s.height_le
  have hpow : 2 ^ 32 ≤ 2 ^ arch.wordBits := Nat.pow_le_pow_right (by decide) arch.wordBits_ge
  omega

theorem putPixel_draws (x y : ℕ) (color : Color) : Draws s.width s.height (putPixel s x y color)
    (.filled (fun x' y' => decide (x' = x ∧ y' = y)) fun _ _ => color) := by
  by_cases hin : x < s.width ∧ y < s.height
  · have hnot : ¬(x ≥ s.width ∨ y ≥ s.height) := by omega
    refine (Draws.pixel hin.1 hin.2 color).congr_op fun buf => ?_
    rw [putPixel, if_neg hnot]
  · have hout : x ≥ s.width ∨ y ≥ s.height := by omega
    refine (Draws.id.congr_op fun buf => ?_).congr fun x' hx' y' hy' => ?_
    · rw [putPixel, if_pos hout]
    · rw [Layer.filled_apply, if_neg]
      · rfl
      · rw [decide_eq_true_eq]
        omega

/-- Writing to the points of a rectangle of the screen. -/
theorem draws_rect {xs ys : List ℕ} (colour : ℕ → ℕ → Color) (hxs : ∀ x ∈ xs, x < s.width)
    (hys : ∀ y ∈ ys, y < s.height) : Draws s.width s.height
    (fun buf =>
      ys.foldl (fun buf y =>
        xs.foldl (fun buf x => Function.update buf (y * s.width + x) (colour x y)) buf) buf)
    (.filled (fun x' y' => decide (x' ∈ xs) && decide (y' ∈ ys)) colour) := by
  have hpixel : ∀ y ∈ ys, ∀ x ∈ xs, Draws s.width s.height
      (fun buf => Function.update buf (y * s.width + x) (colour x y))
      (.filled (fun x' y' => decide (x' = x ∧ y' = y)) colour) := by
    intro y hy x hx
    refine (Draws.pixel (hxs x hx) (hys y hy) (colour x y)).congr fun x' _ y' _ => ?_
    rw [Layer.filled_apply, Layer.filled_apply]
    split_ifs with hsame
    · rw [decide_eq_true_eq] at hsame
      rw [hsame.1, hsame.2]
    · rfl
  refine (Draws.foldl_filled ys fun y hy => Draws.foldl_filled xs (hpixel y hy)).congr
    fun x' _ y' _ => ?_
  rw [Layer.filled_apply, Layer.filled_apply]
  refine if_congr ?_ rfl rfl
  simp only [List.any_eq_true, decide_eq_true_eq, Bool.and_eq_true]
  constructor
  · rintro ⟨y, hy, x, hx, rfl, rfl⟩
    exact ⟨hx, hy⟩
  · rintro ⟨hx, hy⟩
    exact ⟨y', hy, x', hx, rfl, rfl⟩

theorem fillRect_draws (x y w h : ℕ) (color : Color) :
    Draws s.width s.height (fillRect arch s x y w h color)
      (.filled (inRect x ((x + w) % 2 ^ arch.wordBits) y ((y + h) % 2 ^ arch.wordBits))
        fun _ _ => color) := by
  unfold fillRect inRect
  generalize (x + w) % 2 ^ arch.wordBits = xEnd
  generalize (y + h) % 2 ^ arch.wordBits = yEnd
  dsimp only
  by_cases hout : x ≥ s.width ∨ y ≥ s.height
  · simp only [if_pos hout]
    refine Draws.id.congr fun x' hx' y' hy' => ?_
    rw [Layer.filled_apply, if_neg]
    · rfl
    · simp only [Bool.and_eq_true, decide_eq_true_eq]
      omega
  · simp only [if_neg hout]
    refine (draws_rect (fun _ _ => color) ?_ ?_).congr fun x' hx' y' hy' => ?_
    · intro x' hx'
      rw [List.mem_range'_1] at hx'
      omega
    · intro y' hy'
      rw [List.mem_range'_1] at hy'
      omega
    · rw [Layer.filled_apply, Layer.filled_apply]
      refine if_congr ?_ rfl rfl
      simp only [List.mem_range'_1, Bool.and_eq_true, decide_eq_true_eq]
      omega

theorem clear_draws (color : Color) :
    Draws s.width s.height (clear arch s color) (fun _ _ => some color) := by
  refine (fillRect_draws 0 0 s.width s.height color).congr fun x hx y hy => ?_
  rw [Layer.filled_apply, if_pos]
  simp only [inRect, Nat.zero_add, Nat.mod_eq_of_lt s.width_lt, Nat.mod_eq_of_lt s.height_lt,
    Bool.and_eq_true, decide_eq_true_eq]
  omega

/-- What `stroke_rect` draws: the edges of a rectangle, if no sum wraps. -/
def onEdge (arch : Arch) (x y w h x' y' : ℕ) : Bool :=
  let bottom := (y + h - 1) % 2 ^ arch.wordBits
  let right := (x + w - 1) % 2 ^ arch.wordBits
  decide (w ≠ 0) && decide (h ≠ 0) &&
    (inRect right ((right + 1) % 2 ^ arch.wordBits) y ((y + h) % 2 ^ arch.wordBits) x' y' ||
      (inRect x ((x + 1) % 2 ^ arch.wordBits) y ((y + h) % 2 ^ arch.wordBits) x' y' ||
        (inRect x ((x + w) % 2 ^ arch.wordBits) bottom ((bottom + 1) % 2 ^ arch.wordBits) x' y' ||
          inRect x ((x + w) % 2 ^ arch.wordBits) y ((y + 1) % 2 ^ arch.wordBits) x' y')))

theorem strokeRect_draws (x y w h : ℕ) (color : Color) :
    Draws s.width s.height (strokeRect arch s x y w h color) (.filled (onEdge arch x y w h)
      fun _ _ => color) := by
  unfold strokeRect
  by_cases hempty : w = 0 ∨ h = 0
  · simp only [if_pos hempty]
    refine Draws.id.congr fun x' hx' y' hy' => ?_
    rw [Layer.filled_apply, if_neg]
    · rfl
    · simp only [onEdge, Bool.and_eq_true, decide_eq_true_eq]
      omega
  · simp only [if_neg hempty]
    refine ((fillRect_draws _ _ _ _ color).comp ((fillRect_draws _ _ _ _ color).comp
      ((fillRect_draws _ _ _ _ color).comp (fillRect_draws _ _ _ _ color)))).congr
      fun x' hx' y' hy' => ?_
    simp only [Layer.filled_atop]
    rw [Layer.filled_apply, Layer.filled_apply]
    have hw : decide (w ≠ 0) = true := decide_eq_true fun h => hempty (.inl h)
    have hh : decide (h ≠ 0) = true := decide_eq_true fun h => hempty (.inr h)
    rw [onEdge, hw, hh]
    rfl

/-- The edges, when no sum wraps. -/
theorem onEdge_iff {x y w h x' y' : ℕ} (hx : x + w < 2 ^ arch.wordBits)
    (hy : y + h < 2 ^ arch.wordBits) :
    onEdge arch x y w h x' y' = true ↔ (x ≤ x' ∧ x' < x + w ∧ y ≤ y' ∧ y' < y + h) ∧
      (x' = x ∨ x' + 1 = x + w ∨ y' = y ∨ y' + 1 = y + h) := by
  unfold onEdge inRect
  simp only [Bool.and_eq_true, Bool.or_eq_true, decide_eq_true_eq]
  by_cases hempty : w = 0 ∨ h = 0
  · constructor <;> omega
  · rw [Nat.mod_eq_of_lt (by omega : y + h - 1 < 2 ^ arch.wordBits),
      Nat.mod_eq_of_lt (by omega : x + w - 1 < 2 ^ arch.wordBits), Nat.mod_eq_of_lt hx,
      Nat.mod_eq_of_lt hy, Nat.mod_eq_of_lt (by omega : x + 1 < 2 ^ arch.wordBits),
      Nat.mod_eq_of_lt (by omega : y + 1 < 2 ^ arch.wordBits),
      Nat.mod_eq_of_lt (by omega : y + h - 1 + 1 < 2 ^ arch.wordBits),
      Nat.mod_eq_of_lt (by omega : x + w - 1 + 1 < 2 ^ arch.wordBits)]
    omega

/-- The loops of `blit` end at the edge of the screen. -/
theorem takeWhile_range {d m M : ℕ} (n : ℕ) (hd : d < M) (hm : m < M) :
    (List.range n).takeWhile (fun i => decide ((d + i) % M < m)) = List.range (min n (m - d)) := by
  have hlow : ∀ i < m - d, (d + i) % M = d + i := fun i hi => Nat.mod_eq_of_lt (by omega)
  rcases Nat.le_total n (m - d) with hn | hn
  · rw [Nat.min_eq_left hn, List.takeWhile_eq_self_iff.2]
    intro i hi
    have hi' := List.mem_range.1 hi
    rw [decide_eq_true_eq, hlow i (by omega)]
    omega
  · rw [Nat.min_eq_right hn]
    obtain ⟨k, rfl⟩ := Nat.exists_eq_add_of_le hn
    rw [List.range_add, List.takeWhile_append_of_pos]
    · cases k with
      | zero => simp
      | succ k =>
        rw [List.range_succ_eq_map, List.map_cons, List.takeWhile_cons_of_neg, List.append_nil]
        rw [decide_eq_true_eq, Nat.add_zero]
        rcases Nat.le_total m d with hmd | hmd
        · rw [Nat.sub_eq_zero_of_le hmd, Nat.add_zero, Nat.mod_eq_of_lt hd]
          omega
        · rw [Nat.add_sub_cancel' hmd, Nat.mod_eq_of_lt hm]
          omega
    · intro i hi
      have hi' := List.mem_range.1 hi
      rw [decide_eq_true_eq, hlow i hi']
      omega

/-- The pixel of the source that `blit` copies to a point. -/
def blitIdx (arch : Arch) (dstX dstY w x' y' : ℕ) : ℕ :=
  ((y' - dstY) * w + (x' - dstX)) % 2 ^ arch.wordBits

theorem blit_draws {dstX dstY : ℕ} (hx : dstX < 2 ^ arch.wordBits) (hy : dstY < 2 ^ arch.wordBits)
    (w h len : ℕ) (src : ℕ → Color) : Draws s.width s.height (blit arch s dstX dstY w h len src)
    (.filled (fun x' y' => inRect dstX (dstX + w) dstY (dstY + h) x' y' &&
      decide (blitIdx arch dstX dstY w x' y' < len))
      fun x' y' => src (blitIdx arch dstX dstY w x' y')) := by
  unfold blit
  rw [takeWhile_range h hy s.height_lt, takeWhile_range w hx s.width_lt]
  have hpixel : ∀ row ∈ List.range (min h (s.height - dstY)),
    ∀ col ∈ List.range (min w (s.width - dstX)), Draws s.width s.height (fun buf =>
        let idx := (row * w + col) % 2 ^ arch.wordBits
        if idx < len then
          Function.update buf
            ((dstY + row) % 2 ^ arch.wordBits * s.width + (dstX + col) % 2 ^ arch.wordBits)
            (src idx)
        else buf)
      (.filled (fun x' y' => decide (x' = dstX + col ∧ y' = dstY + row) &&
        decide (blitIdx arch dstX dstY w x' y' < len)) fun x' y' =>
          src (blitIdx arch dstX dstY w x' y')) := by
    intro row hrow col hcol
    have hrow' := List.mem_range.1 hrow
    have hcol' := List.mem_range.1 hcol
    have hidx : blitIdx arch dstX dstY w (dstX + col) (dstY + row) =
      (row * w + col) % 2 ^ arch.wordBits := by
      rw [blitIdx, Nat.add_sub_cancel_left, Nat.add_sub_cancel_left]
    have hwidth : s.width < 2 ^ arch.wordBits := s.width_lt
    have hheight : s.height < 2 ^ arch.wordBits := s.height_lt
    rw [Nat.mod_eq_of_lt (by omega : dstY + row < 2 ^ arch.wordBits),
      Nat.mod_eq_of_lt (by omega : dstX + col < 2 ^ arch.wordBits), ← hidx]
    dsimp only
    by_cases hlen : blitIdx arch dstX dstY w (dstX + col) (dstY + row) < len
    · simp only [if_pos hlen]
      refine (Draws.pixel (by omega) (by omega) _).congr fun x' _ y' _ => ?_
      rw [Layer.filled_apply, Layer.filled_apply]
      by_cases hsame : x' = dstX + col ∧ y' = dstY + row
      · rw [hsame.1, hsame.2]
        simp [hlen]
      · simp [hsame]
    · simp only [if_neg hlen]
      refine Draws.id.congr fun x' _ y' _ => ?_
      rw [Layer.filled_apply, if_neg]
      · rfl
      · rw [Bool.and_eq_true, decide_eq_true_eq, decide_eq_true_eq]
        rintro ⟨⟨rfl, rfl⟩, h⟩
        exact hlen h
  refine (Draws.foldl_filled _ fun row hrow => Draws.foldl_filled _ (hpixel row hrow)).congr
    fun x' hx' y' hy' => ?_
  rw [Layer.filled_apply, Layer.filled_apply]
  refine if_congr ?_ rfl rfl
  simp only [List.any_eq_true, Bool.and_eq_true, decide_eq_true_eq, inRect, List.mem_range]
  constructor
  · rintro ⟨row, hrow, col, hcol, ⟨rfl, rfl⟩, hlen⟩
    exact ⟨⟨⟨⟨by omega, by omega⟩, by omega⟩, by omega⟩, hlen⟩
  · rintro ⟨⟨⟨⟨hleft, hright⟩, htop⟩, hbottom⟩, hlen⟩
    exact ⟨y' - dstY, by omega, x' - dstX, by omega, ⟨by omega, by omega⟩, hlen⟩

/-- A place is that many columns, or rows, after another. -/
theorem eq_add_iff {x x' col : ℕ} (hx' : x' < 2 ^ arch.wordBits) (hcol : col < 2 ^ arch.wordBits) :
    x' = (x + col) % 2 ^ arch.wordBits ↔ distance arch.wordBits x x' = col := by
  constructor
  · rintro rfl
    exact distance_add hcol
  · rintro rfl
    exact (add_distance hx').symm

theorem drawChar_draws (x y : ℕ) (ch : UInt8) (fg : Color) :
    Draws s.width s.height (drawChar arch font s x y ch fg)
      (.filled (fun x' y' =>
        glyphAt font ch (distance arch.wordBits x x') (distance arch.wordBits y y'))
        fun _ _ => fg) := by
  unfold drawChar
  have hpixel : ∀ row ∈ List.range fontHeight, ∀ col ∈ List.range fontWidth, Draws s.width s.height
      (fun buf => if (font (glyphIndex ch) row).toNat.testBit (fontWidth - 1 - col) then
          putPixel s ((x + col) % 2 ^ arch.wordBits) ((y + row) % 2 ^ arch.wordBits) fg buf
        else buf)
      (.filled (fun x' y' =>
        decide (x' = (x + col) % 2 ^ arch.wordBits ∧ y' = (y + row) % 2 ^ arch.wordBits) &&
        (font (glyphIndex ch) row).toNat.testBit (fontWidth - 1 - col)) fun _ _ => fg) := by
    intro row hrow col hcol
    cases (font (glyphIndex ch) row).toNat.testBit (fontWidth - 1 - col) with
    | false =>
      refine (Draws.id.congr_op fun buf => if_neg Bool.false_ne_true).congr fun x' _ y' _ => ?_
      rw [Layer.filled_apply, Bool.and_false]
      rfl
    | true =>
      refine ((putPixel_draws _ _ fg).congr_op fun buf => if_pos rfl).congr fun x' _ y' _ => ?_
      rw [Layer.filled_apply, Layer.filled_apply, Bool.and_true]
  have hrows : ∀ row ∈ List.range fontHeight, Draws s.width s.height
      (fun buf =>
        let bits := font (glyphIndex ch) row
        if bits = 0 then buf
        else
          (List.range fontWidth).foldl (fun buf col =>
            if bits.toNat.testBit (fontWidth - 1 - col) then
              putPixel s ((x + col) % 2 ^ arch.wordBits) ((y + row) % 2 ^ arch.wordBits) fg buf
            else buf) buf)
      (.filled (fun x' y' => (List.range fontWidth).any fun col =>
        decide (x' = (x + col) % 2 ^ arch.wordBits ∧ y' = (y + row) % 2 ^ arch.wordBits) &&
          (font (glyphIndex ch) row).toNat.testBit (fontWidth - 1 - col)) fun _ _ => fg) := by
    intro row hrow
    have hcols := Draws.foldl_filled _ (hpixel row hrow)
    dsimp only
    by_cases hbits : font (glyphIndex ch) row = 0
    · simp only [if_pos hbits]
      refine Draws.id.congr fun x' _ y' _ => ?_
      rw [Layer.filled_apply, if_neg]
      · rfl
      · simp [hbits]
    · simp only [if_neg hbits]
      exact hcols
  refine (Draws.foldl_filled _ hrows).congr fun x' hx' y' hy' => ?_
  have hx'' : x' < 2 ^ arch.wordBits := hx'.trans s.width_lt
  have hy'' : y' < 2 ^ arch.wordBits := hy'.trans s.height_lt
  have hpow : 2 ^ 32 ≤ 2 ^ arch.wordBits := Nat.pow_le_pow_right (by decide) arch.wordBits_ge
  rw [Layer.filled_apply, Layer.filled_apply]
  refine if_congr ?_ rfl rfl
  simp only [List.any_eq_true, glyphAt, Bool.and_eq_true, decide_eq_true_eq, List.mem_range]
  constructor
  · rintro ⟨row, hrow, col, hcol, ⟨hxcol, hyrow⟩, hbit⟩
    have hrow' : row < 16 := hrow
    have hcol' : col < 8 := hcol
    rw [(eq_add_iff hx'' (by omega)).1 hxcol, (eq_add_iff hy'' (by omega)).1 hyrow]
    exact ⟨⟨hcol, hrow⟩, hbit⟩
  · rintro ⟨⟨hcol, hrow⟩, hbit⟩
    exact ⟨_, hrow, _, hcol, ⟨(add_distance hx'').symm, (add_distance hy'').symm⟩, hbit⟩

theorem drawText_draws (x y : ℕ) (text : List UInt8) (fg : Color) :
    Draws s.width s.height (drawText arch font s x y text fg)
      (.filled (textAt arch font x y text) fun _ _ => fg) := by
  induction text generalizing x with
  | nil => exact Draws.id
  | cons b text ih =>
    have hdraw : ∀ buf, drawText arch font s x y (b :: text) fg buf = if b = 10 then buf
        else drawText arch font s ((x + fontWidth) % 2 ^ arch.wordBits) y text fg
          (drawChar arch font s x y b fg buf) :=
      fun _ => rfl
    have hregion : ∀ x' y', textAt arch font x y (b :: text) x' y' = if b = 10 then false
        else glyphAt font b (distance arch.wordBits x x') (distance arch.wordBits y y') ||
          textAt arch font ((x + fontWidth) % 2 ^ arch.wordBits) y text x' y' := fun _ _ => rfl
    by_cases hb : b = 10
    · refine (Draws.id.congr_op fun buf => (hdraw buf).trans (if_pos hb)).congr fun x' _ y' _ => ?_
      rw [Layer.filled_apply, hregion, if_pos hb]
      rfl
    · refine (((ih _).comp (drawChar_draws x y b fg)).congr_op fun buf =>
        (hdraw buf).trans (if_neg hb)).congr fun x' _ y' _ => ?_
      rw [Layer.filled_atop, Layer.filled_apply, Layer.filled_apply, hregion, if_neg hb,
        Bool.or_comm]

/-! ## What is displayed -/

variable {buf : Buffer} {mem : ℕ → UInt8}

theorem presentRow_apply {row : ℕ} (hrow : row < s.height) (hpitch : s.width * 4 ≤ s.pitch)
    (hfits : s.addr + s.height * s.pitch ≤ 2 ^ arch.wordBits) (a : ℕ) :
    presentRow arch s buf mem row a =
      if s.addr + row * s.pitch ≤ a ∧ a < s.addr + row * s.pitch + s.width * 4 then
        leByte (buf (row * s.width + (a - (s.addr + row * s.pitch)) / 4)).toNat
          ((a - (s.addr + row * s.pitch)) % 4)
      else mem a := by
  have hnext := Nat.mul_le_mul_right s.pitch (hrow : row + 1 ≤ s.height)
  rw [Nat.add_one_mul] at hnext
  unfold presentRow
  rcases Nat.eq_zero_or_pos (s.width * 4) with hzero | hpos
  · rw [hzero, store_zero, if_neg (by omega)]
  · rw [Nat.mod_eq_of_lt (by omega : s.addr + row * s.pitch < 2 ^ arch.wordBits)]
    have hend : s.addr + row * s.pitch + s.width * 4 ≤ 2 ^ arch.wordBits := by omega
    split_ifs with hin
    · obtain ⟨k, rfl⟩ := Nat.exists_eq_add_of_le hin.1
      rw [store_of_interval hend (by omega), Nat.add_sub_cancel_left]
    · exact store_of_not fun htouch => hin ((touches_iff hend).1 htouch)

/-- The framebuffer after the first rows. -/
theorem present_rows (buf : Buffer) (mem : ℕ → UInt8) (hpitch : s.width * 4 ≤ s.pitch)
    (hfits : s.addr + s.height * s.pitch ≤ 2 ^ arch.wordBits) (n : ℕ)
    (hn : n ≤ s.height) :
    (∀ row < n, ∀ k < s.width * 4,
      (List.range n).foldl (presentRow arch s buf) mem (s.addr + row * s.pitch + k) =
      leByte (buf (row * s.width + k / 4)).toNat (k % 4)) ∧
      ∀ a, a < s.addr ∨ s.addr + n * s.pitch ≤ a →
      (List.range n).foldl (presentRow arch s buf) mem a = mem a := by
  induction n with
  | zero => exact ⟨fun row hrow => absurd hrow (Nat.not_lt_zero _), fun _ _ => rfl⟩
  | succ n ih =>
    obtain ⟨hrows, hrest⟩ := ih (by omega)
    simp only [List.range_succ, List.foldl_append, List.foldl_cons, List.foldl_nil]
    refine ⟨fun row hrow k hk => ?_, fun a ha => ?_⟩
    · rw [presentRow_apply hn hpitch hfits]
      rcases Nat.lt_or_ge row n with hlt | hge
      · have hbefore := Nat.mul_le_mul_right s.pitch (hlt : row + 1 ≤ n)
        rw [Nat.add_one_mul] at hbefore
        rw [if_neg (by omega)]
        exact hrows row hlt k hk
      · obtain rfl : row = n := by omega
        rw [if_pos (by omega), Nat.add_sub_cancel_left]
    · rw [Nat.add_one_mul] at ha
      rw [presentRow_apply hn hpitch hfits, if_neg (by omega)]
      exact hrest a (by omega)

/-- The framebuffer shows the buffer, and nothing else has changed. -/
theorem present_shows (hpitch : s.width * 4 ≤ s.pitch)
    (hfits : s.addr + s.height * s.pitch ≤ 2 ^ arch.wordBits) :
    (∀ x < s.width, ∀ y < s.height,
      loadNat arch.wordBits (present arch s buf mem) (s.addr + y * s.pitch + x * 4) 4 =
        (buf (y * s.width + x)).toNat) ∧
      ∀ a, a < s.addr ∨ s.addr + s.height * s.pitch ≤ a → present arch s buf mem a = mem a := by
  obtain ⟨hrows, hrest⟩ := present_rows buf mem hpitch hfits s.height le_rfl
  refine ⟨fun x hx y hy => ?_, hrest⟩
  have hnext := Nat.mul_le_mul_right s.pitch (hy : y + 1 ≤ s.height)
  rw [Nat.add_one_mul] at hnext
  have hbytes : ∀ k < 4, present arch s buf mem
    ((s.addr + y * s.pitch + x * 4 + k) % 2 ^ arch.wordBits) =
      leByte (buf (y * s.width + x)).toNat k := by
    intro k hk
    rw [Nat.mod_eq_of_lt (by omega), Nat.add_assoc (s.addr + y * s.pitch)]
    refine (hrows y hy (x * 4 + k) (by omega)).trans ?_
    rw [show (x * 4 + k) / 4 = x by omega, show (x * 4 + k) % 4 = k by omega]
  rw [loadNat, leNat_of_leByte (buf (y * s.width + x)).toNat fun k hk => by
    rw [Nat.zero_add]
    exact hbytes k hk]
  exact Nat.mod_eq_of_lt (UInt32.toNat_lt _)

end Gfx

end Tcmk
