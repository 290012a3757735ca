import Tcmk.Drivers.Gfx
import Tcmk.Lib.Wrap

/-!
# The console (`console.rs`)

The console keeps the last 64 rows of everything that has been printed in a ring. Until the window
manager takes over, it draws the last of them on the whole screen after each print; then the window
manager shows them in a window. `TOTAL` is a `usize` and counts the rows from the beginning on.
-/

namespace Tcmk

open Lib

/-- `MAX_LINES`. -/
def maxLines : ℕ := 64

/-- `MAX_COLS`. -/
def maxCols : ℕ := 128

/-- The statics of `console.rs`. -/
structure TextConsole where
  lines : ℕ → ℕ → UInt8
  lengths : ℕ → ℕ
  head : ℕ
  total : ℕ
  cursorCol : ℕ

namespace TextConsole

def boot : TextConsole := ⟨fun _ _ => 32, fun _ => 0, 0, 1, 0⟩

/-- `newline`. -/
def newline (arch : Arch) (c : TextConsole) : TextConsole :=
  let head := (c.head + 1) % maxLines
  { lines := Function.update c.lines head fun _ => 32
    lengths := Function.update c.lengths head 0
    head := head
    total := (c.total + 1) % 2 ^ arch.wordBits
    cursorCol := 0 }

/-- The store of a character in `write_str`. -/
def putByte (c : TextConsole) (byte : UInt8) : TextConsole :=
  { c with
    lines := Function.update c.lines c.head (Function.update (c.lines c.head) c.cursorCol byte)
    lengths :=
      if c.cursorCol + 1 > c.lengths c.head then Function.update c.lengths c.head (c.cursorCol + 1)
      else c.lengths
    cursorCol := c.cursorCol + 1 }

/-- A byte of `write_str`. -/
def writeByte (arch : Arch) (c : TextConsole) (byte : UInt8) : TextConsole :=
  if byte = 10 then c.newline arch
  else if 0x20 ≤ byte ∧ byte ≤ 0x7E then
    (if c.cursorCol ≥ maxCols then c.newline arch else c).putByte byte
  else c

/-- `write_str`, without the drawing. -/
def writeStr (arch : Arch) (c : TextConsole) (text : List UInt8) : TextConsole :=
  text.foldl (writeByte arch) c

/-- The part of a row that is in use. -/
def row (c : TextConsole) (idx : ℕ) : List UInt8 := (List.range (c.lengths idx)).map (c.lines idx)

/-- `for_each_visible_line`: what it gives to `visit`, in this order. -/
def visibleLines (c : TextConsole) (limit : ℕ) : List (List UInt8) :=
  let total := min c.total maxLines
  let count := min limit total
  (List.range count).map fun i =>
    let offset := count - 1 - i
    c.row ((c.head + maxLines - offset) % maxLines)

/-- The loop of `render_fullscreen` over a row. -/
def drawLine (arch : Arch) (font : ℕ → ℕ → UInt8) (s : Gfx.Screen) (x y : ℕ) (text : List UInt8)
    (buf : Gfx.Buffer) : Gfx.Buffer :=
  match text with
  | [] => buf
  | byte :: text =>
    drawLine arch font s ((x + Gfx.fontWidth) % 2 ^ arch.wordBits) y text
      (Gfx.drawChar arch font s x y byte 0x00C8C8C8 buf)

/-- `render_fullscreen`, before it presents. -/
def renderFullscreen (arch : Arch) (font : ℕ → ℕ → UInt8) (s : Gfx.Screen) (c : TextConsole)
    (buf : Gfx.Buffer) : Gfx.Buffer :=
  (c.visibleLines (s.height / Gfx.fontHeight)).zipIdx.foldl (fun buf line =>
    drawLine arch font s 0 (line.2 * Gfx.fontHeight) line.1 buf) (Gfx.clear arch s Gfx.black buf)

end TextConsole

/-- The console with the screen that it draws on. -/
structure BootLog where
  console : TextConsole
  buf : Gfx.Buffer
  mem : ℕ → UInt8

/-- `write_str`, before the window manager has taken over. -/
def BootLog.print (arch : Arch) (font : ℕ → ℕ → UInt8) (s : Gfx.Screen) (b : BootLog)
    (text : List UInt8) : BootLog :=
  let console := b.console.writeStr arch text
  let buf := console.renderFullscreen arch font s b.buf
  ⟨console, buf, Gfx.present arch s buf b.mem⟩

namespace TextConsole

variable {arch : Arch} {c : TextConsole} {lines : List (List UInt8)} {byte : UInt8}

/-! ## The rows in the ring -/

/-- What is kept of a text. -/
def kept (byte : UInt8) : Bool := byte = 10 || (0x20 ≤ byte && byte ≤ 0x7E)

/-- The ring has the last of these rows. -/
structure Logs (arch : Arch) (c : TextConsole) (lines : List (List UInt8)) : Prop where
  ne : lines ≠ []
  head : c.head = (lines.length - 1) % maxLines
  total : c.total = lines.length % 2 ^ arch.wordBits
  col : c.cursorCol = (lines.getLastD []).length
  rows : ∀ j (hj : j < lines.length), lines.length ≤ j + maxLines → c.row (j % maxLines) = lines[j]

theorem logs_boot : boot.Logs arch [[]] := by
  have hpow : 2 ^ 32 ≤ 2 ^ arch.wordBits := Nat.pow_le_pow_right (by decide) arch.wordBits_ge
  refine ⟨List.cons_ne_nil _ _, rfl, (Nat.mod_eq_of_lt ?_).symm, rfl, fun j hj _ => ?_⟩
  · show 1 < _
    omega
  · obtain rfl : j = 0 := by simpa using hj
    rfl

theorem length_row (idx : ℕ) : (c.row idx).length = c.lengths idx := by
  rw [row, List.length_map, List.length_range]

theorem Logs.newline (h : c.Logs arch lines) : (c.newline arch).Logs arch (lines ++ [[]]) := by
  have hpos : 0 < lines.length := List.length_pos_iff.2 h.ne
  have hlen : (lines ++ [[]]).length = lines.length + 1 := List.length_append
  have hhead : (c.head + 1) % maxLines = lines.length % maxLines := by
    rw [h.head, Nat.mod_add_mod, Nat.sub_add_cancel hpos]
  refine ⟨List.append_ne_nil_of_right_ne_nil _ (List.cons_ne_nil _ _), ?_, ?_, ?_,
    fun j hj hlast => ?_⟩
  · rw [hlen, Nat.add_sub_cancel]
    exact hhead
  · show (c.total + 1) % 2 ^ arch.wordBits = _
    rw [h.total, Nat.mod_add_mod, hlen]
  · rw [List.getLastD_concat]
    rfl
  · rw [hlen] at hj hlast
    rcases Nat.lt_or_ge j lines.length with hlt | hge
    · have hne : j % maxLines ≠ lines.length % maxLines := by
        unfold maxLines at hlast ⊢
        omega
      rw [List.getElem_append_left hlt, ← h.rows j hlt (by omega)]
      unfold TextConsole.newline TextConsole.row
      dsimp only
      rw [hhead, Function.update_of_ne hne, Function.update_of_ne hne]
    · obtain rfl : j = lines.length := by omega
      unfold TextConsole.newline TextConsole.row
      dsimp only
      rw [hhead, Function.update_self]
      simp

theorem Logs.putByte (h : c.Logs arch lines) (byte : UInt8) :
    (c.putByte byte).Logs arch (lines.dropLast ++ [lines.getLastD [] ++ [byte]]) := by
  obtain ⟨init, last, rfl⟩ : ∃ init last, lines = init ++ [last] :=
    ⟨_, _, (List.dropLast_append_getLast h.ne).symm⟩
  have hcol := h.col
  have hhead := h.head
  have htotal := h.total
  have hlen : ∀ l : List UInt8, (init ++ [l]).length = init.length + 1 :=
    fun l => List.length_append
  rw [hlen] at hhead htotal
  rw [Nat.add_sub_cancel] at hhead
  rw [List.getLastD_concat] at hcol
  rw [List.getLastD_concat, List.dropLast_concat]
  have hrow : c.row c.head = last := by
    have := h.rows init.length (by rw [hlen]; omega) (by rw [hlen]; unfold maxLines; omega)
    rw [← hhead] at this
    rw [this, List.getElem_concat_length]
    rfl
  have hlength : c.lengths c.head = c.cursorCol := by
    rw [← length_row, hrow, hcol]
  refine ⟨List.append_ne_nil_of_right_ne_nil _ (List.cons_ne_nil _ _), ?_, ?_, ?_,
    fun j hj hlast => ?_⟩
  · rw [hlen, Nat.add_sub_cancel]
    exact hhead
  · rw [hlen]
    exact htotal
  · rw [List.getLastD_concat, List.length_append, ← hcol]
    rfl
  · rw [hlen] at hj hlast
    unfold TextConsole.putByte TextConsole.row
    dsimp only
    rw [hlength, if_pos (Nat.lt_succ_self _)]
    rcases Nat.lt_or_ge j init.length with hlt | hge
    · have hne : j % maxLines ≠ c.head := by
        rw [hhead]
        unfold maxLines at hlast ⊢
        omega
      rw [Function.update_of_ne hne, Function.update_of_ne hne, List.getElem_append_left hlt]
      have := h.rows j (by rw [hlen]; omega) (by rw [hlen]; omega)
      rw [List.getElem_append_left hlt] at this
      exact this
    · obtain rfl : j = init.length := by omega
      rw [← hhead, Function.update_self, Function.update_self, List.getElem_concat_length rfl,
        List.range_succ, List.map_append, List.map_singleton, Function.update_self]
      refine congrArg (· ++ [byte]) ?_
      rw [← hrow, TextConsole.row, hlength]
      refine List.map_congr_left fun k hk => Function.update_of_ne ?_ ..
      exact Nat.ne_of_lt (List.mem_range.1 hk)

/-- The console lays a text out, but the bytes that cannot be printed are left out. -/
theorem Logs.writeByte (h : c.Logs arch lines) (byte : UInt8) :
    (c.writeByte arch byte).Logs arch (if kept byte then push maxCols 10 byte lines
      else lines) := by
  unfold TextConsole.writeByte push
  by_cases hnl : byte = 10
  · have hkept : kept byte = true := by rw [hnl]; rfl
    rw [if_pos hnl, if_pos hkept, if_pos hnl]
    exact h.newline
  · rw [if_neg hnl, if_neg hnl]
    by_cases hprint : 0x20 ≤ byte ∧ byte ≤ 0x7E
    · have hkept : kept byte = true := by
        rw [kept, decide_eq_true hprint.1, decide_eq_true hprint.2, Bool.and_self, Bool.or_true]
      rw [if_pos hprint, if_pos hkept, h.col]
      by_cases hroom : (lines.getLastD []).length < maxCols
      · rw [if_neg (by omega), if_pos hroom]
        exact h.putByte byte
      · rw [if_pos (by omega), if_neg hroom]
        have hput := h.newline.putByte byte
        rwa [List.getLastD_concat, List.dropLast_concat] at hput
    · have hkept : ¬ kept byte = true := by
        simpa [kept, hnl] using hprint
      rw [if_neg hprint, if_neg hkept]
      exact h

theorem Logs.writeStr {text : List UInt8} (h : c.Logs arch (wrap maxCols 10 text))
    (more : List UInt8) :
    (c.writeStr arch more).Logs arch (wrap maxCols 10 (text ++ more.filter kept)) := by
  unfold TextConsole.writeStr
  induction more generalizing c text with
  | nil => simpa using h
  | cons byte more ih =>
    have hbyte := h.writeByte byte
    rw [List.foldl_cons, List.filter_cons]
    split_ifs at hbyte ⊢
    · rw [← wrap_append (by decide)] at hbyte
      rw [List.append_cons]
      exact ih hbyte
    · exact ih hbyte

/-- The rows that are visible are the last of the text. -/
theorem Logs.visibleLines (h : c.Logs arch lines) (hlines : lines.length < 2 ^ arch.wordBits)
    (limit : ℕ) : c.visibleLines limit = lines.drop (lines.length - min limit maxLines) := by
  have hpos : 0 < lines.length := List.length_pos_iff.2 h.ne
  have htotal : c.total = lines.length := h.total.trans (Nat.mod_eq_of_lt hlines)
  unfold TextConsole.visibleLines
  dsimp only
  rw [htotal, h.head]
  refine List.ext_getElem ?_ fun i hi hi' => ?_
  · rw [List.length_map, List.length_range, List.length_drop]
    omega
  · rw [List.length_map, List.length_range] at hi
    rw [List.getElem_map, List.getElem_range, List.getElem_drop, ← h.rows _ _
      (by unfold maxLines at hi ⊢; omega)]
    refine congrArg c.row ?_
    unfold maxLines at hi ⊢
    omega

/-! ## The screen -/

/-- A row of characters has a point in this column, `dy` rows below its top. -/
def lineAt (font : ℕ → ℕ → UInt8) (text : List UInt8) (x dy : ℕ) : Bool :=
  (text[x / Gfx.fontWidth]?).any fun ch => Gfx.glyphAt font ch (x % Gfx.fontWidth) dy

/-- Rows of characters have a point there. -/
def screenAt (font : ℕ → ℕ → UInt8) (lines : List (List UInt8)) (x y : ℕ) : Bool :=
  (lines[y / Gfx.fontHeight]?).any fun line => lineAt font line x (y % Gfx.fontHeight)

/-- The colour of the text. -/
def textColor : Gfx.Color := 0x00C8C8C8

variable {font : ℕ → ℕ → UInt8} {s : Gfx.Screen}

theorem distance_of_le {a x : ℕ} (hax : a ≤ x) (hx : x < 2 ^ arch.wordBits) :
    distance arch.wordBits a x = x - a := by
  have hadd := @distance_add arch.wordBits a (x - a) (by omega)
  rwa [Nat.add_sub_cancel' hax, Nat.mod_eq_of_lt hx] at hadd

/-- A place before another is far behind it. -/
theorem le_distance {a x n : ℕ} (hxa : x < a) (ha : a + n ≤ 2 ^ arch.wordBits) (hn : 0 < n) :
    n ≤ distance arch.wordBits a x := by
  rw [distance, Nat.mod_eq_of_lt (by omega : a < 2 ^ arch.wordBits), Nat.mod_eq_of_lt (by omega)]
  omega

theorem drawLine_draws {k : ℕ} {text : List UInt8}
    (hlen : 8 * (k + text.length) < 2 ^ arch.wordBits) (y : ℕ) :
    Draws s.width s.height (drawLine arch font s (8 * k) y text)
      (.filled (fun x' y' => decide (k ≤ x' / 8) && (text[x' / 8 - k]?).any fun ch =>
        Gfx.glyphAt font ch (x' % 8) (distance arch.wordBits y y')) fun _ _ => textColor) := by
  induction text generalizing k with
  | nil =>
    refine Draws.id.congr fun x' _ y' _ => ?_
    rw [Layer.filled_apply, List.getElem?_nil, Option.any_none, Bool.and_false]
    rfl
  | cons byte text ih =>
    rw [List.length_cons] at hlen
    have hdraw : ∀ buf, drawLine arch font s (8 * k) y (byte :: text) buf =
        drawLine arch font s ((8 * k + 8) % 2 ^ arch.wordBits) y text
          (Gfx.drawChar arch font s (8 * k) y byte textColor buf) := fun _ => rfl
    have hnext : (8 * k + 8) % 2 ^ arch.wordBits = 8 * (k + 1) := by
      rw [Nat.mod_eq_of_lt (by omega)]
      rfl
    rw [hnext] at hdraw
    refine (((ih (k := k + 1) (by omega)).comp
      (Gfx.drawChar_draws (8 * k) y byte textColor)).congr_op
      hdraw).congr fun x' hx' y' _ => ?_
    have hx'' : x' < 2 ^ arch.wordBits := hx'.trans s.width_lt
    rw [Layer.filled_atop, Layer.filled_apply, Layer.filled_apply]
    refine if_congr ?_ rfl rfl
    rcases Nat.lt_trichotomy (x' / 8) k with hk | hk | hk
    · -- left of the character
      have hfar := @le_distance arch (8 * k) x' 8 (by omega) (by omega) (by decide)
      have hfar' : ¬ distance arch.wordBits (8 * k) x' < 8 := Nat.not_lt.2 hfar
      simp [Gfx.glyphAt, Gfx.fontWidth, hfar', Nat.not_le.2 hk, Nat.not_le.2 (Nat.lt_succ_of_lt hk)]
    · rw [distance_of_le (by omega) hx'', show x' - 8 * k = x' % 8 by omega, hk]
      simp
    · rw [distance_of_le (by omega) hx'']
      have hfar : ¬ x' - 8 * k < 8 := by omega
      have hrest : x' / 8 - k = x' / 8 - (k + 1) + 1 := by omega
      rw [hrest, List.getElem?_cons_succ]
      simp [Gfx.glyphAt, Gfx.fontWidth, hfar, hk.le, Nat.succ_le_of_lt hk]

/-- A row of characters has its points in the rows of the glyphs. -/
theorem lineAt_lt {text : List UInt8} {x dy : ℕ} (h : lineAt font text x dy = true) :
    dy < Gfx.fontHeight := by
  obtain ⟨ch, -, hglyph⟩ := (Option.any_eq_true _ _).1 h
  simp only [Gfx.glyphAt, Bool.and_eq_true, decide_eq_true_eq] at hglyph
  exact hglyph.1.2

/-- The rows stand below each other, so that only one of them can have a point there. -/
theorem any_lineAt {lines : List (List UInt8)} {x y : ℕ} (hy : y < 2 ^ arch.wordBits)
    (hroom : lines.length * Gfx.fontHeight ≤ 2 ^ arch.wordBits) :
    (lines.zipIdx.any fun p =>
      lineAt font p.1 x (distance arch.wordBits (p.2 * Gfx.fontHeight) y)) =
      screenAt font lines x y := by
  unfold Gfx.fontHeight at hroom
  rw [Bool.eq_iff_iff, List.any_eq_true, screenAt, Option.any_eq_true]
  constructor
  · rintro ⟨p, hp, hat⟩
    have hget := List.mem_zipIdx_iff_getElem?.1 hp
    have hrow : p.2 < lines.length := (List.getElem?_eq_some_iff.1 hget).1
    have hdy := lineAt_lt hat
    unfold Gfx.fontHeight at hdy hat ⊢
    have hbelow : p.2 * 16 ≤ y := by
      by_contra hnot
      have hfar := @le_distance arch (p.2 * 16) y 16 (by omega) (by omega) (by decide)
      omega
    rw [distance_of_le hbelow hy] at hdy hat
    have hrow' : y / 16 = p.2 := by omega
    have hmod : y - p.2 * 16 = y % 16 := by omega
    rw [hmod] at hat
    exact ⟨p.1, by rw [hrow', hget], hat⟩
  · rintro ⟨line, hget, hat⟩
    refine ⟨(line, y / Gfx.fontHeight), List.mem_zipIdx_iff_getElem?.2 hget, ?_⟩
    have hmod : y - y / Gfx.fontHeight * Gfx.fontHeight = y % Gfx.fontHeight := by
      unfold Gfx.fontHeight
      omega
    dsimp only
    rw [distance_of_le (Nat.div_mul_le_self ..) hy, hmod]
    exact hat

/-- The whole screen has the visible rows. -/
theorem renderFullscreen_draws (c : TextConsole)
    (hlen : ∀ line ∈ c.visibleLines (s.height / Gfx.fontHeight), line.length ≤ maxCols) :
    Draws s.width s.height (c.renderFullscreen arch font s) fun x y =>
      some (if screenAt font (c.visibleLines (s.height / Gfx.fontHeight)) x y then textColor
        else Gfx.black) := by
  have hcount : (c.visibleLines (s.height / Gfx.fontHeight)).length ≤
    s.height / Gfx.fontHeight := by
    unfold visibleLines
    rw [List.length_map, List.length_range]
    exact Nat.min_le_left ..
  unfold renderFullscreen
  generalize c.visibleLines (s.height / Gfx.fontHeight) = lines at hlen hcount ⊢
  have hpow : 2 ^ 32 ≤ 2 ^ arch.wordBits := Nat.pow_le_pow_right (by decide) arch.wordBits_ge
  have hheight : s.height < 2 ^ arch.wordBits := s.height_lt
  have hline : ∀ p ∈ lines.zipIdx, Draws s.width s.height
      (drawLine arch font s 0 (p.2 * Gfx.fontHeight) p.1)
      (.filled (fun x' y' => lineAt font p.1 x' (distance arch.wordBits (p.2 * Gfx.fontHeight) y'))
        fun _ _ => textColor) := by
    intro p hp
    have hmem : p.1 ∈ lines := List.mem_of_getElem? (List.mem_zipIdx_iff_getElem?.1 hp)
    have hp' : p.1.length ≤ 128 := hlen p.1 hmem
    refine (drawLine_draws (k := 0) (by omega) _).congr fun x' _ y' _ => ?_
    rw [Layer.filled_apply, Layer.filled_apply, Nat.sub_zero, decide_eq_true (Nat.zero_le _),
      Bool.true_and]
    rfl
  have hroom : lines.length * Gfx.fontHeight ≤ 2 ^ arch.wordBits := by
    unfold Gfx.fontHeight at hcount ⊢
    omega
  refine ((Draws.foldl_filled _ hline).comp (Gfx.clear_draws Gfx.black)).congr
    fun x' hx' y' hy' => ?_
  rw [Layer.atop, Layer.filled_apply, any_lineAt (hy'.trans hheight) hroom]
  split_ifs <;> rfl

end TextConsole

/-! ## The log on the screen -/

namespace BootLog

open TextConsole

variable {arch : Arch} {font : ℕ → ℕ → UInt8} {s : Gfx.Screen} {b : BootLog} {text : List UInt8}

/-- What one print does. -/
theorem print_spec (hpitch : s.width * 4 ≤ s.pitch)
    (hfits : s.addr + s.height * s.pitch ≤ 2 ^ arch.wordBits)
    (hlogs : b.console.Logs arch (wrap maxCols 10 text)) (more : List UInt8) :
    (b.print arch font s more).console.Logs arch (wrap maxCols 10 (text ++ more.filter kept)) ∧
      ∀ a, a < s.addr ∨ s.addr + s.height * s.pitch ≤ a → (b.print arch font s more).mem a =
      b.mem a :=
  ⟨hlogs.writeStr more, (@Gfx.present_shows arch s _ b.mem hpitch hfits).2⟩

theorem prints_spec (hpitch : s.width * 4 ≤ s.pitch)
    (hfits : s.addr + s.height * s.pitch ≤ 2 ^ arch.wordBits)
    (hlogs : b.console.Logs arch (wrap maxCols 10 text)) (texts : List (List UInt8)) :
    (texts.foldl (print arch font s) b).console.Logs arch
    (wrap maxCols 10 (text ++ texts.flatten.filter kept)) ∧
      ∀ a, a < s.addr ∨ s.addr + s.height * s.pitch ≤ a →
      (texts.foldl (print arch font s) b).mem a = b.mem a := by
  induction texts generalizing b text with
  | nil => exact ⟨by simpa using hlogs, fun _ _ => rfl⟩
  | cons more texts ih =>
    obtain ⟨hlogs', hmem⟩ := @print_spec arch font s b text hpitch hfits hlogs more
    obtain ⟨hrest, hmem'⟩ := ih hlogs'
    rw [List.foldl_cons, List.flatten_cons, List.filter_append, ← List.append_assoc]
    exact ⟨hrest, fun a ha => (hmem' a ha).trans (hmem a ha)⟩

/-- The framebuffer after a print. -/
theorem print_shows (hpitch : s.width * 4 ≤ s.pitch)
    (hfits : s.addr + s.height * s.pitch ≤ 2 ^ arch.wordBits)
    (hlogs : b.console.Logs arch (wrap maxCols 10 text)) {more : List UInt8}
    {lines : List (List UInt8)} (hlines : lines = wrap maxCols 10 (text ++ more.filter kept))
    (hrows : lines.length < 2 ^ arch.wordBits) {x y : ℕ} (hx : x < s.width) (hy : y < s.height) :
    loadNat arch.wordBits (b.print arch font s more).mem (s.addr + y * s.pitch + x * 4) 4 =
      (if screenAt font (lines.drop (lines.length - min (s.height / Gfx.fontHeight) maxLines)) x
        y then textColor
        else Gfx.black).toNat := by
  subst hlines
  have hvisible := (hlogs.writeStr more).visibleLines hrows (s.height / Gfx.fontHeight)
  have hdraws := @renderFullscreen_draws arch font s (b.console.writeStr arch more) (by
    rw [hvisible]
    exact fun line hline => length_le_of_mem_wrap (List.mem_of_mem_drop hline))
  rw [hvisible] at hdraws
  refine ((@Gfx.present_shows arch s _ b.mem hpitch hfits).1 x hx y hy).trans ?_
  rw [(hdraws b.buf).1 x hx y hy]
  rfl

end BootLog

/-- Until the window manager takes over, the screen has the last rows of everything that has been
printed, after each print, and the memory beside the framebuffer is as it was. The ring of the rows
and the back buffer are not part of this memory. -/
theorem boot_log_shows {arch : Arch} {font : ℕ → ℕ → UInt8} {s : Gfx.Screen} {b : BootLog}
    {texts : List (List UInt8)} {text : List UInt8} {lines : List (List UInt8)}
    (hpitch : s.width * 4 ≤ s.pitch)
    (hfits : s.addr + s.height * s.pitch ≤ 2 ^ arch.wordBits) (hboot : b.console = TextConsole.boot)
    (hlines : lines = wrap maxCols 10 ((texts ++ [text]).flatten.filter TextConsole.kept))
    (hrows : lines.length < 2 ^ arch.wordBits) :
    (∀ x < s.width, ∀ y < s.height,
      loadNat arch.wordBits ((texts ++ [text]).foldl (BootLog.print arch font s) b).mem
          (s.addr + y * s.pitch + x * 4) 4 =
        (if TextConsole.screenAt font
          (lines.drop (lines.length - min (s.height / Gfx.fontHeight) maxLines)) x y then
          TextConsole.textColor else Gfx.black).toNat) ∧
      ∀ a, a < s.addr ∨ s.addr + s.height * s.pitch ≤ a →
        ((texts ++ [text]).foldl (BootLog.print arch font s) b).mem a = b.mem a := by
  have hlogs : b.console.Logs arch (wrap maxCols 10 []) := by
    rw [hboot, wrap_nil]
    exact TextConsole.logs_boot
  refine ⟨fun x hx y hy => ?_, (BootLog.prints_spec hpitch hfits hlogs _).2⟩
  obtain ⟨hlogs', -⟩ := @BootLog.prints_spec arch font s b [] hpitch hfits hlogs texts
  rw [List.foldl_concat]
  refine BootLog.print_shows hpitch hfits hlogs' ?_ hrows hx hy
  rw [hlines, List.flatten_append, List.filter_append]
  simp

/-- A screen with room for two rows of four characters. -/
def smallScreen : Gfx.Screen where
  addr := 0xFD000000
  pitch := 128
  width := 32
  height := 32
  width_le := by decide
  height_le := by decide

theorem boot_log_shows_small :
    loadNat 32
      ([[72, 105, 10], [33]].foldl (BootLog.print .i386 (fun i _ => UInt8.ofNat i) smallScreen)
        ⟨TextConsole.boot, fun _ => 0, fun _ => 0⟩).mem (0xFD000000 + 17 * 128 + 7 * 4) 4 =
      0x00C8C8C8 :=
  ((@boot_log_shows .i386 (fun i _ => UInt8.ofNat i) smallScreen
    ⟨TextConsole.boot, fun _ => 0, fun _ => 0⟩ [[72, 105, 10]] [33] [[72, 105], [33]] (by decide)
    (by decide) rfl (by decide +kernel) (by decide)).1 7 (by decide) 17 (by decide)).trans
    (by decide +kernel)

end Tcmk
