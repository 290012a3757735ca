import Tcmk.Drivers.Console
import Tcmk.Wm.Window

/-!
# What the kernel draws into windows (`wm.rs`, `shell.rs`)

The contents of a system window are drawn by the kernel before each frame: the shell draws its
screen, and every other system window shows the console. Both write to the buffer of the window, in
the memory of the kernel, and to nothing else, whatever the size of the window is
(`renderShell_local`, `renderConsole_local`).
-/

namespace Tcmk

open Lib

/-- `MAX_ROWS` of `shell.rs`. -/
def shellRows : ℕ := 24

/-- `MAX_COLS` of `shell.rs`. -/
def shellCols : ℕ := 78

/-- The statics of `shell.rs` that are drawn, and the ticks of the clock. -/
structure ShellScreen where
  screen : ℕ → ℕ → UInt8
  row : ℕ
  col : ℕ
  ticks : ℕ

namespace Window

variable (arch : Arch) (font : ℕ → ℕ → UInt8) (w : Window)

/-- `pixels.add(i).write(color)`. -/
def writePixel (i : ℕ) (color : Gfx.Color) (mem : ℕ → UInt8) : ℕ → UInt8 :=
  store arch.wordBits mem ((w.buffer + 4 * (i % 2 ^ arch.wordBits)) % 2 ^ arch.wordBits) 4
    (leByte color.toNat)

/-- `pixels[i]`. -/
def pixel (mem : ℕ → UInt8) (i : ℕ) : Gfx.Color :=
  UInt32.ofNat (loadNat arch.wordBits mem ((w.buffer + 4 * i) % 2 ^ arch.wordBits) 4)

/-- The loop that both renderings begin with. -/
def clearPixels (color : Gfx.Color) (mem : ℕ → UInt8) : ℕ → UInt8 :=
  (List.range (w.width * w.height % 2 ^ arch.wordBits)).foldl (fun mem i =>
    w.writePixel arch i color mem) mem

/-- The loop of `draw_char_into_window`. It stops below the window. -/
def drawRows (x y index : ℕ) (color : Gfx.Color) : List ℕ → (ℕ → UInt8) → ℕ → UInt8
  | [], mem => mem
  | row :: rows, mem =>
    let bits := font index row
    let py := (y + row) % 2 ^ arch.wordBits
    if bits = 0 then drawRows x y index color rows mem
    else if py ≥ w.height then mem
    else
      drawRows x y index color rows ((List.range Gfx.fontWidth).foldl (fun mem col =>
        let px := (x + col) % 2 ^ arch.wordBits
        if bits.toNat.testBit (Gfx.fontWidth - 1 - col) ∧ px < w.width then
          w.writePixel arch (py * w.width + px) color mem
        else mem) mem)

/-- `draw_char_into_window`. -/
def drawChar (x y : ℕ) (ch : UInt8) (color : Gfx.Color) (mem : ℕ → UInt8) : ℕ → UInt8 :=
  if Gfx.fontFirst ≤ ch ∧ ch ≤ Gfx.fontLast then
    w.drawRows arch font x y (ch.toNat - Gfx.fontFirst.toNat) color (List.range Gfx.fontHeight) mem
  else mem

/-- `fill_into_window`. -/
def fill (x y width height : ℕ) (color : Gfx.Color) (mem : ℕ → UInt8) : ℕ → UInt8 :=
  ((List.range height).takeWhile fun row => (y + row) % 2 ^ arch.wordBits < w.height).foldl
    (fun mem row => (List.range width).foldl (fun mem col =>
      let px := (x + col) % 2 ^ arch.wordBits
      if px < w.width then
        w.writePixel arch ((y + row) % 2 ^ arch.wordBits * w.width + px) color mem
      else mem) mem) mem

/-- The loop of `render_system_window` over a row. It stops at the right edge. -/
def drawLine (x y : ℕ) : List UInt8 → (ℕ → UInt8) → ℕ → UInt8
  | [], mem => mem
  | byte :: text, mem =>
    let mem := w.drawChar arch font x y byte 0x00A8C8A8 mem
    let x := (x + Gfx.fontWidth) % 2 ^ arch.wordBits
    if (x + Gfx.fontWidth) % 2 ^ arch.wordBits > w.width then mem else drawLine x y text mem

/-- `render_system_window`. -/
def renderConsole (console : TextConsole) (mem : ℕ → UInt8) : ℕ → UInt8 :=
  (console.visibleLines (w.height / Gfx.fontHeight)).zipIdx.foldl (fun mem line =>
    w.drawLine arch font 2 (line.2 * Gfx.fontHeight) line.1 mem) (w.clearPixels arch 0x00101418 mem)

/-- `shell::render`. -/
def renderShell (shell : ShellScreen) (mem : ℕ → UInt8) : ℕ → UInt8 :=
  let mem := w.clearPixels arch 0x00080C10 mem
  let mem := (List.range shellRows).foldl (fun mem r =>
    (List.range shellCols).foldl (fun mem c =>
      if shell.screen r c ≠ 32 then
        w.drawChar arch font (4 + c * Gfx.fontWidth) (3 + r * Gfx.fontHeight) (shell.screen r c)
          0x0080F080 mem
      else mem) mem) mem
  if shell.col < shellCols ∧ shell.row < shellRows ∧ shell.ticks / 50 % 2 = 0 then
    w.fill arch (4 + shell.col * Gfx.fontWidth) (3 + shell.row * Gfx.fontHeight) Gfx.fontWidth
      Gfx.fontHeight 0x00408040 mem
  else mem

/-! ## Only the buffer is written -/

/-- The byte belongs to the pixels of the window. -/
def Owns (addr : ℕ) : Prop := Touches arch.wordBits w.buffer (4 * (w.width * w.height)) addr

/-- Nothing but the pixels of the window changes. -/
def Local (f : (ℕ → UInt8) → ℕ → UInt8) : Prop :=
  ∀ mem addr, ¬ w.Owns arch addr → f mem addr = mem addr

variable {arch font w} {f g : (ℕ → UInt8) → ℕ → UInt8}

theorem local_id : w.Local arch fun mem => mem := fun _ _ _ => rfl

theorem Local.comp (hf : w.Local arch f) (hg : w.Local arch g) :
    w.Local arch fun mem => f (g mem) := by
  intro mem addr haddr
  exact (hf (g mem) addr haddr).trans (hg mem addr haddr)

theorem Local.ite {c : Prop} [Decidable c] (hf : w.Local arch f) (hg : w.Local arch g) :
    w.Local arch fun mem => if c then f mem else g mem := by
  intro mem addr haddr
  dsimp only
  by_cases hc : c
  · rw [if_pos hc, hf mem addr haddr]
  · rw [if_neg hc, hg mem addr haddr]

theorem Local.foldl {ι : Type} {h : (ℕ → UInt8) → ι → ℕ → UInt8} {is : List ι}
    (hh : ∀ i ∈ is, w.Local arch fun mem => h mem i) : w.Local arch fun mem => is.foldl h mem := by
  intro mem addr haddr
  induction is generalizing mem with
  | nil => rfl
  | cons i is ih =>
    obtain ⟨hi, his⟩ := List.forall_mem_cons.1 hh
    exact (ih his (h mem i)).trans (hi mem addr haddr)

theorem writePixel_local {i : ℕ} (color : Gfx.Color) (hi : i < w.width * w.height) :
    w.Local arch (w.writePixel arch i color) := by
  intro mem addr haddr
  refine store_of_not fun htouches => haddr ?_
  have hmod := Nat.mod_le i (2 ^ arch.wordBits)
  rcases Nat.le_total (4 * (w.width * w.height)) (2 ^ arch.wordBits) with hle | hge
  · exact htouches.sub (by omega) hle
  · exact ⟨htouches.1, distance_lt.trans_le hge⟩

/-- A point of the window. -/
theorem point_lt {px py : ℕ} (hx : px < w.width) (hy : py < w.height) :
    py * w.width + px < w.width * w.height := by
  have hrow := Nat.mul_le_mul_right w.width hy
  rw [Nat.succ_mul, Nat.mul_comm w.height] at hrow
  omega

theorem clearPixels_local (color : Gfx.Color) : w.Local arch (w.clearPixels arch color) := by
  intro mem addr haddr
  unfold clearPixels
  refine Local.foldl (fun i hi => writePixel_local color ?_) mem addr haddr
  exact (List.mem_range.1 hi).trans_le (Nat.mod_le _ _)

theorem drawRows_local (x y index : ℕ) (color : Gfx.Color) (rows : List ℕ) :
    w.Local arch (w.drawRows arch font x y index color rows) := by
  induction rows with
  | nil => exact local_id
  | cons row rows ih =>
    intro mem addr haddr
    rw [drawRows]
    dsimp only
    split_ifs with hbits hheight
    · exact ih mem addr haddr
    · rfl
    · rw [ih _ addr haddr]
      refine Local.foldl (fun col _ mem addr haddr => ?_) mem addr haddr
      split_ifs with hbit
      · exact writePixel_local color (point_lt hbit.2 (Nat.lt_of_not_le hheight)) mem addr haddr
      · rfl

theorem drawChar_local (x y : ℕ) (ch : UInt8) (color : Gfx.Color) :
    w.Local arch (w.drawChar arch font x y ch color) := by
  intro mem addr haddr
  unfold drawChar
  split_ifs
  · exact drawRows_local x y _ color _ mem addr haddr
  · rfl

theorem fill_local (x y width height : ℕ) (color : Gfx.Color) :
    w.Local arch (w.fill arch x y width height color) := by
  intro mem addr haddr
  unfold fill
  refine Local.foldl (fun row hrow => Local.foldl fun col _ mem addr haddr => ?_) mem addr haddr
  have hy : (y + row) % 2 ^ arch.wordBits < w.height := by
    simpa using List.mem_takeWhile_imp hrow
  dsimp only
  split_ifs with hx
  · exact writePixel_local color (point_lt hx hy) mem addr haddr
  · rfl

theorem drawLine_local (x y : ℕ) (text : List UInt8) :
    w.Local arch (w.drawLine arch font x y text) := by
  induction text generalizing x with
  | nil => exact local_id
  | cons byte text ih =>
    intro mem addr haddr
    rw [drawLine]
    split_ifs
    · exact drawChar_local x y byte _ mem addr haddr
    · rw [ih _ _ addr haddr, drawChar_local x y byte _ mem addr haddr]

theorem renderConsole_local (console : TextConsole) :
    w.Local arch (w.renderConsole arch font console) := by
  intro mem addr haddr
  exact (Local.foldl (fun line _ => drawLine_local _ _ line.1) _ addr haddr).trans
    (clearPixels_local _ mem addr haddr)

theorem renderShell_local (shell : ShellScreen) : w.Local arch (w.renderShell arch font shell) := by
  have hchar : ∀ r c, w.Local arch fun mem => if shell.screen r c ≠ 32 then
      w.drawChar arch font (4 + c * Gfx.fontWidth) (3 + r * Gfx.fontHeight) (shell.screen r c)
        0x0080F080 mem
      else mem := fun r c => (drawChar_local _ _ _ _).ite local_id
  intro mem addr haddr
  unfold renderShell
  have hline := fun r => @Local.foldl arch w _ _ (List.range shellCols) fun c _ => hchar r c
  have htext := @Local.foldl arch w _ _ (List.range shellRows) fun r _ => hline r
  have hscreen := htext.comp (clearPixels_local 0x00080C10) mem addr haddr
  split_ifs
  · exact (fill_local _ _ _ _ _ _ addr haddr).trans hscreen
  · exact hscreen

end Window

end Tcmk
