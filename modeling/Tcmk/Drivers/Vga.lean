import Tcmk.Lib.Wrap

/-!
# The text mode (`vga.rs`)

`Writer` writes to the cells of the text mode, 25 rows of 80, and scrolls. Since the last `clear`
the screen has the last 25 rows of everything that has been written (`vga_shows`).
-/

namespace Tcmk

open Lib

namespace Vga

/-- `VGA_WIDTH`. -/
def width : ℕ := 80

/-- `VGA_HEIGHT`. -/
def height : ℕ := 25

/-- A character with `DEFAULT_ATTR`. -/
def cell (byte : UInt8) : UInt16 := 0x0F00 ||| byte.toUInt16

def blank : UInt16 := 0x0F20

/-- `Writer`, with the memory at `VGA_BUFFER_ADDR`. -/
abbrev Writer := Terminal UInt16

/-- The loop over the cells of a row in `scroll`. -/
def scrollRow (cells : ℕ → UInt16) (row : ℕ) : ℕ → UInt16 :=
  (List.range width).foldl (fun cells col =>
    Function.update cells ((row - 1) * width + col) (cells (row * width + col))) cells

/-- `scroll`. -/
def scroll (cells : ℕ → UInt16) : ℕ → UInt16 :=
  (List.range width).foldl
    (fun cells col => Function.update cells ((height - 1) * width + col) blank)
    ((List.range' 1 (height - 1)).foldl scrollRow cells)

/-- `new_line`. -/
def newLine (t : Writer) : Writer :=
  if t.row + 1 ≥ height then { t with col := 0, cells := scroll t.cells }
  else { t with col := 0, row := t.row + 1 }

/-- `put_at`. -/
def putAt (t : Writer) (row col : ℕ) (byte : UInt8) : Writer :=
  { t with cells := Function.update t.cells (row * width + col) (cell byte) }

/-- `write_byte`. -/
def writeByte (t : Writer) (byte : UInt8) : Writer :=
  if byte = 10 then newLine t
  else
    let t := if t.col ≥ width then newLine t else t
    let t := putAt t t.row t.col byte
    { t with col := t.col + 1 }

/-- `clear`. -/
def clear (t : Writer) : Writer :=
  ⟨(List.range (width * height)).foldl (fun cells i => Function.update cells i blank) t.cells, 0, 0⟩

/-- What is written for a byte: `0xFE` for one that cannot be printed. -/
def shown (byte : UInt8) : UInt8 := if 0x20 ≤ byte ∧ byte ≤ 0x7E ∨ byte = 10 then byte else 0xFE

/-- `write_str`. -/
def writeStr (t : Writer) (text : List UInt8) : Writer :=
  text.foldl (fun t byte => writeByte t (shown byte)) t

/-! ## Scrolling -/

theorem scrollRow_apply (cells : ℕ → UInt16) (row i : ℕ) : scrollRow cells (row + 1) i =
    if row * width ≤ i ∧ i < row * width + width then cells (i + width) else cells i := by
  have hloop : ∀ n ≤ width, (List.range n).foldl (fun cells col =>
      Function.update cells (row * width + col) (cells ((row + 1) * width + col))) cells i =
        if row * width ≤ i ∧ i < row * width + n then cells (i + width) else cells i := by
    intro n hn
    induction n generalizing i with
    | zero => rw [if_neg (by omega)]; rfl
    | succ n ih =>
      rw [List.range_succ, List.foldl_concat, Function.update_apply, ih _ (by omega),
        ih _ (by omega)]
      by_cases hi : i = row * width + n
      · subst hi
        rw [if_pos rfl, if_neg (by rw [Nat.add_one_mul]; omega), if_pos (by omega), Nat.add_one_mul]
        exact congrArg cells (by omega)
      · rw [if_neg hi]
        exact if_congr (by omega) rfl rfl
  exact hloop width le_rfl

theorem scroll_eq (cells : ℕ → UInt16) :
    scroll cells = Terminal.scrolled width height blank cells := by
  have hrows : ∀ n i, (List.range' 1 n).foldl scrollRow cells i = if i < n * width then cells
    (i + width) else cells i := by
    intro n
    induction n with
    | zero => intro i; rw [Nat.zero_mul, if_neg (Nat.not_lt_zero i)]; rfl
    | succ n ih =>
      intro i
      rw [List.range'_1_concat, List.foldl_concat, Nat.add_comm 1 n, scrollRow_apply, ih, ih,
        Nat.add_one_mul]
      split_ifs <;> first | rfl | omega
  have hblank : ∀ (m : ℕ) (cells : ℕ → UInt16) i, (List.range m).foldl
      (fun cells col => Function.update cells ((height - 1) * width + col) blank) cells i =
        if (height - 1) * width ≤ i ∧ i < (height - 1) * width + m then blank else cells i := by
    intro m cells
    induction m with
    | zero => intro i; rw [if_neg (by omega)]; rfl
    | succ m ih =>
      intro i
      rw [List.range_succ, List.foldl_concat, Function.update_apply, ih]
      split_ifs <;> first | rfl | omega
  funext i
  rw [scroll, hblank, hrows, Terminal.scrolled]
  unfold width height
  split_ifs <;> first | rfl | omega

theorem newLine_eq (t : Writer) : newLine t = t.newLine width height blank := by
  unfold newLine Terminal.newLine
  rw [scroll_eq]

/-- The writer is a terminal. -/
theorem writeByte_eq (t : Writer) (byte : UInt8) :
    writeByte t byte = t.put width height blank cell 10 byte := by
  unfold writeByte Terminal.put
  rw [newLine_eq]
  split_ifs <;> rfl

theorem clear_shows (t : Writer) : (clear t).Shows width height blank cell (wrap width 10 []) := by
  have hcells : ∀ (n : ℕ) i, (List.range n).foldl (fun cells i => Function.update cells i blank)
    t.cells i =
      if i < n then blank else t.cells i := by
    intro n
    induction n with
    | zero => intro i; rw [if_neg (Nat.not_lt_zero i)]; rfl
    | succ n ih =>
      intro i
      rw [List.range_succ, List.foldl_concat, Function.update_apply, ih]
      split_ifs <;> first | rfl | omega
  refine Terminal.shows_blank (by decide) (fun r hr c hc => ?_) rfl rfl 10
  have hin : r * width + c < width * height := by
    unfold width height at *
    omega
  unfold clear
  dsimp only
  rw [hcells, if_pos hin]

end Vga

/-- The screen has the last rows of the text that has been written since it has been cleared, with a
mark for each byte that cannot be printed. -/
theorem vga_shows (t : Vga.Writer) (text : List UInt8) {r c : ℕ} (hr : r < Vga.height)
    (hc : c < Vga.width) :
    let lines := wrap Vga.width 10 (text.map Vga.shown)
    (Vga.writeStr (Vga.clear t) text).cells (r * Vga.width + c) =
      (((lines[lines.length - Vga.height + r]?.getD [])[c]?).map Vga.cell).getD Vga.blank := by
  have hwrite := (Vga.clear_shows t).write (by decide) (by decide) (text.map Vga.shown)
  rw [List.foldl_map, List.nil_append] at hwrite
  have heq : Vga.writeStr (Vga.clear t) text = text.foldl (fun t byte =>
      t.put Vga.width Vga.height Vga.blank Vga.cell 10 (Vga.shown byte)) (Vga.clear t) := by
    unfold Vga.writeStr
    simp only [Vga.writeByte_eq]
  rw [heq]
  exact hwrite.cells r hr c hc

/-- A line of 81 characters takes two rows, of which the first is scrolled out by those below. -/
theorem vga_shows_scrolled :
    let t := Vga.writeStr (Vga.clear ⟨fun _ => 0, 0, 0⟩)
      (List.replicate 81 97 ++ List.replicate 24 10 ++ [72, 7])
    t.cells 0 = Vga.cell 97 ∧ t.cells 1 = Vga.blank ∧ t.cells (24 * 80) = Vga.cell 72 ∧
      t.cells (24 * 80 + 1) = Vga.cell 0xFE := by
  have hshows := fun r c hr hc => @vga_shows ⟨fun _ => 0, 0, 0⟩
    (List.replicate 81 97 ++ List.replicate 24 10 ++ [72, 7]) r c hr hc
  exact ⟨(hshows 0 0 (by decide) (by decide)).trans (by decide +kernel),
    (hshows 0 1 (by decide) (by decide)).trans (by decide +kernel),
    (hshows 24 0 (by decide) (by decide)).trans (by decide +kernel),
    (hshows 24 1 (by decide) (by decide)).trans (by decide +kernel)⟩

end Tcmk
