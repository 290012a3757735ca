import Mathlib

/-!
# Wrapped text and terminals

`wrap` lays a text out in lines of at most `w` characters: its lines, each in as many rows as it
takes. The text can also be laid out one character after the other (`wrap_append`), which is what a
terminal does. A `Terminal` has `h` rows of cells and a cursor, and scrolls when the cursor leaves
the last row. `Shows` says that it has the last rows of some text.
-/

namespace Lib

variable {α : Type*}

/-- The rows that one line takes. -/
def rows (w : ℕ) (l : List α) : List (List α) :=
  (List.range ((l.length - 1) / w + 1)).map fun i => (l.drop (i * w)).take w

/-- The rows of a text. -/
def wrap [DecidableEq α] (w : ℕ) (nl : α) (text : List α) : List (List α) :=
  (text.splitOn nl).flatMap (rows w)

/-- One character more. -/
def push [DecidableEq α] (w : ℕ) (nl c : α) (lines : List (List α)) : List (List α) :=
  if c = nl then lines ++ [[]]
  else if (lines.getLastD []).length < w then lines.dropLast ++ [lines.getLastD [] ++ [c]]
  else lines ++ [[c]]

section Wrap

variable {w : ℕ} {l : List α} {c nl : α}

/-- The rows before the last, and the last. -/
theorem rows_eq (w : ℕ) (l : List α) : rows w l =
    (List.range ((l.length - 1) / w)).map (fun i => (l.drop (i * w)).take w) ++
      [(l.drop ((l.length - 1) / w * w)).take w] := by
  rw [rows, List.range_succ, List.map_append, List.map_singleton]

theorem rows_nil (w : ℕ) : rows w ([] : List α) = [[]] := by
  simp [rows]

theorem length_le_of_mem_rows {row : List α} (h : row ∈ rows w l) : row.length ≤ w := by
  obtain ⟨i, -, rfl⟩ := List.mem_map.1 h
  exact List.length_take_le ..

/-- A row that is not among the last characters. -/
theorem take_drop_append {i : ℕ} (h : i * w + w ≤ l.length) :
    ((l ++ [c]).drop (i * w)).take w = (l.drop (i * w)).take w := by
  rw [List.drop_append_of_le_length (by omega), List.take_append_of_le_length]
  rw [List.length_drop]
  omega

theorem rows_append (hw : 0 < w) (l : List α) (c : α) : ∃ init last, rows w l = init ++ [last] ∧
    rows w (l ++ [c]) = if last.length < w then init ++ [last ++ [c]]
    else init ++ [last] ++ [[c]] := by
  refine ⟨_, _, rows_eq w l, ?_⟩
  have hlow : (l.length - 1) / w * w ≤ l.length - 1 := Nat.div_mul_le_self ..
  have hhigh : l.length - 1 < ((l.length - 1) / w + 1) * w := by
    rw [Nat.add_one_mul]
    exact Nat.lt_div_mul_add hw
  have hcount : (l ++ [c]).length - 1 = l.length := by simp
  generalize hq : (l.length - 1) / w = q at hlow hhigh
  rw [Nat.add_one_mul] at hhigh
  have hkeep : (List.range q).map (fun i => ((l ++ [c]).drop (i * w)).take w) =
      (List.range q).map (fun i => (l.drop (i * w)).take w) := by
    refine List.map_congr_left fun i hi => take_drop_append ?_
    have := Nat.mul_le_mul_right w (List.mem_range.1 hi : i + 1 ≤ q)
    rw [Nat.add_one_mul] at this
    omega
  have hlast : (l.drop (q * w)).take w = l.drop (q * w) := by
    rw [List.take_of_length_le]
    rw [List.length_drop]
    omega
  rw [hlast, List.length_drop]
  split_ifs with hfull
  · -- There is room in the last row.
    have hq' : l.length / w = q := Nat.div_eq_of_lt_le (by omega) (by rw [Nat.add_one_mul]; omega)
    rw [rows_eq, hcount, hq', hkeep, List.drop_append_of_le_length (by omega),
      List.take_of_length_le]
    rw [List.length_append, List.length_drop, List.length_singleton]
    omega
  · have hlen : l.length = q * w + w := by omega
    have hq' : l.length / w = q + 1 := by
      rw [hlen, ← Nat.add_one_mul, Nat.mul_div_cancel _ hw]
    rw [rows_eq, hcount, hq', List.range_succ, List.map_append, hkeep, List.map_singleton,
      take_drop_append hlen.ge, hlast, Nat.add_one_mul, ← hlen, List.drop_left,
      List.take_of_length_le (by rw [List.length_singleton]; exact hw)]

variable [DecidableEq α] {text : List α}

/-- The last line of a text, with a character more. -/
theorem splitOn_append (hc : c ≠ nl) (text : List α) :
    ∃ init last, text.splitOn nl = init ++ [last] ∧
    (text ++ [c]).splitOn nl = init ++ [last ++ [c]] := by
  induction text with
  | nil =>
    refine ⟨[], [], List.splitOn_nil _, ?_⟩
    exact List.splitOn_eq_singleton fun h => hc (List.mem_singleton.1 h).symm
  | cons a text ih =>
    obtain ⟨init, last, htext, happend⟩ := ih
    rw [List.cons_append, List.splitOn_cons_eq_if_modifyHead, List.splitOn_cons_eq_if_modifyHead,
      htext, happend]
    split_ifs
    · exact ⟨[] :: init, last, rfl, rfl⟩
    · cases init with
      | nil => exact ⟨[], a :: last, rfl, rfl⟩
      | cons first init => exact ⟨(a :: first) :: init, last, rfl, rfl⟩

theorem wrap_nil (w : ℕ) (nl : α) : wrap w nl [] = [[]] := by
  rw [wrap, List.splitOn_nil, List.flatMap_singleton, rows_nil]

theorem length_le_of_mem_wrap {row : List α} (h : row ∈ wrap w nl text) : row.length ≤ w := by
  obtain ⟨l, -, hrow⟩ := List.mem_flatMap.1 h
  exact length_le_of_mem_rows hrow

/-- A text can be laid out character by character. -/
theorem wrap_append (hw : 0 < w) (nl c : α) (text : List α) :
    wrap w nl (text ++ [c]) = push w nl c (wrap w nl text) := by
  by_cases hc : c = nl
  · subst hc
    rw [push, if_pos rfl, wrap, List.splitOn_append_cons_self, List.flatMap_append,
      List.splitOn_nil, List.flatMap_singleton, rows_nil]
    rfl
  · obtain ⟨init, last, htext, happend⟩ := splitOn_append hc text
    obtain ⟨above, row, hrows, hrows'⟩ := rows_append hw last c
    have hwrap : wrap w nl text = init.flatMap (rows w) ++ above ++ [row] := by
      rw [wrap, htext, List.flatMap_append, List.flatMap_singleton, hrows, List.append_assoc]
    rw [push, if_neg hc, hwrap, List.getLastD_concat, List.dropLast_concat, wrap, happend,
      List.flatMap_append, List.flatMap_singleton, hrows']
    split_ifs <;> simp only [List.append_assoc]

end Wrap

/-! ## Terminals -/

structure Terminal (β : Type*) where
  /-- the cells, row by row -/
  cells : ℕ → β
  row : ℕ
  col : ℕ

namespace Terminal

variable {β : Type*} (w h : ℕ) (blank : β) (glyph : α → β)

/-- The rows go up by one, and the last is blank. -/
def scrolled (cells : ℕ → β) : ℕ → β := fun i =>
  if i < (h - 1) * w then cells (i + w) else if i < h * w then blank else cells i

def newLine (t : Terminal β) : Terminal β :=
  if t.row + 1 ≥ h then ⟨scrolled w h blank t.cells, t.row, 0⟩ else ⟨t.cells, t.row + 1, 0⟩

def putAt (t : Terminal β) (b : β) : Terminal β :=
  ⟨Function.update t.cells (t.row * w + t.col) b, t.row, t.col + 1⟩

def put [DecidableEq α] (nl : α) (t : Terminal β) (c : α) : Terminal β :=
  if c = nl then t.newLine w h blank
  else (if t.col ≥ w then t.newLine w h blank else t).putAt w (glyph c)

/-- The terminal shows the last `h` of these rows, and the cursor is behind the last. -/
structure Shows (t : Terminal β) (lines : List (List α)) : Prop where
  ne : lines ≠ []
  fits : ∀ l ∈ lines, l.length ≤ w
  row : t.row + 1 = min lines.length h
  col : t.col = (lines.getLastD []).length
  cells : ∀ r < h, ∀ c < w,
    t.cells (r * w + c) = (((lines[lines.length - h + r]?.getD [])[c]?).map glyph).getD blank

variable {w h blank glyph} {t : Terminal β} {lines : List (List α)} {c nl : α}

theorem Shows.newLine (hs : t.Shows w h blank glyph lines) (hh : 0 < h) :
    (t.newLine w h blank).Shows w h blank glyph (lines ++ [[]]) := by
  have hlen : (lines ++ [[]]).length = lines.length + 1 := List.length_append
  have hrow := hs.row
  have hlast : ((lines ++ [[]] : List (List α)).getLastD []).length = 0 := by
    rw [List.getLastD_concat]
    rfl
  have hfits : ∀ l ∈ lines ++ [[]], l.length ≤ w := by
    intro l hl
    rcases List.mem_append.1 hl with hl | hl
    · exact hs.fits l hl
    · rw [List.mem_singleton.1 hl]
      exact Nat.zero_le _
  have hne : lines ++ [[]] ≠ [] := List.append_ne_nil_of_right_ne_nil _ (List.cons_ne_nil _ _)
  unfold Terminal.newLine
  split_ifs with hbottom
  · refine ⟨hne, hfits, ?_, hlast.symm, fun r hr c hc => ?_⟩
    · rw [hlen, hrow]
      omega
    · have hcell : r * w + c < h * w := by
        have := Nat.mul_le_mul_right w (hr : r + 1 ≤ h)
        rw [Nat.add_one_mul] at this
        omega
      show scrolled w h blank t.cells (r * w + c) = _
      rw [hlen, scrolled]
      by_cases hr' : r + 1 < h
      · have hcell' : r * w + c < (h - 1) * w := by
          have := Nat.mul_le_mul_right w (Nat.le_sub_one_of_lt hr')
          rw [Nat.add_one_mul] at this
          omega
        rw [if_pos hcell', show r * w + c + w = (r + 1) * w + c by ring, hs.cells (r + 1) hr' c hc,
          show lines.length + 1 - h + r =
            lines.length - h + (r + 1) by omega, List.getElem?_append_left (by omega)]
      · have hcell' : ¬ r * w + c < (h - 1) * w := by
          rw [show h - 1 = r by omega]
          omega
        rw [if_neg hcell', if_pos hcell, show lines.length + 1 - h + r = lines.length by omega,
          List.getElem?_concat_length]
        rfl
  · refine ⟨hne, hfits, ?_, hlast.symm, fun r hr c hc => ?_⟩
    · rw [hlen]
      show t.row + 1 + 1 = _
      omega
    · show t.cells (r * w + c) = _
      rw [hs.cells r hr c hc, hlen, show lines.length - h = 0 by omega, show lines.length + 1 - h =
        0 by omega, Nat.zero_add, List.getElem?_append]
      split_ifs with hlt
      · rfl
      · have hnone : lines[r]? = none := List.getElem?_eq_none (Nat.not_lt.1 hlt)
        rw [hnone]
        rcases Nat.eq_zero_or_pos (r - lines.length) with hzero | hpos
        · rw [hzero]
          rfl
        · rw [List.getElem?_eq_none (l := [[]]) hpos]

/-- A character in the last row, which has room for it. -/
theorem Shows.putAt (hs : t.Shows w h blank glyph lines) (hroom : (lines.getLastD []).length < w) :
    (t.putAt w (glyph c)).Shows w h blank glyph (lines.dropLast ++ [lines.getLastD [] ++ [c]]) := by
  obtain ⟨init, last, rfl⟩ : ∃ init last, lines = init ++ [last] :=
    ⟨_, _, (List.dropLast_append_getLast hs.ne).symm⟩
  rw [List.getLastD_concat] at hroom ⊢
  rw [List.dropLast_concat]
  have hlen : (init ++ [last]).length = init.length + 1 := List.length_append
  have hrow := hs.row
  have hcol := hs.col
  rw [hlen] at hrow
  rw [List.getLastD_concat] at hcol
  refine ⟨List.append_ne_nil_of_right_ne_nil _ (List.cons_ne_nil _ _), ?_, ?_, ?_,
    fun r hr j hj => ?_⟩
  · intro l hl
    rcases List.mem_append.1 hl with hl | hl
    · exact hs.fits l (List.mem_append_left _ hl)
    · rw [List.mem_singleton.1 hl, List.length_append]
      exact hroom
  · rw [List.length_append]
    exact hrow
  · rw [List.getLastD_concat, List.length_append, ← hcol]
    rfl
  · have hcell := hs.cells r hr j hj
    rw [hlen] at hcell
    show Function.update t.cells (t.row * w + t.col) (glyph c) (r * w + j) = _
    rw [List.length_append, List.length_singleton]
    by_cases hr' : init.length + 1 - h + r = init.length
    · -- the row of the cursor
      have hsame : r = t.row := by omega
      rw [hr', List.getElem?_concat_length] at hcell ⊢
      rw [hsame] at hcell ⊢
      rw [hcol]
      rcases Nat.lt_trichotomy j last.length with hj' | hj' | hj'
      · rw [Function.update_of_ne (by omega), hcell, Option.getD_some, Option.getD_some,
          List.getElem?_append_left hj']
      · rw [hj', Function.update_self, Option.getD_some, List.getElem?_concat_length]
        rfl
      · rw [Function.update_of_ne (by omega), hcell, Option.getD_some, Option.getD_some,
          List.getElem?_eq_none (by omega), List.getElem?_eq_none]
        rw [List.length_append, List.length_singleton]
        omega
    · have hother : r * w + j ≠ t.row * w + t.col := by
        intro heq
        have hr'' : (r * w + j) / w = (t.row * w + t.col) / w := congrArg (· / w) heq
        rw [Nat.mul_comm r, Nat.mul_comm t.row, Nat.mul_add_div (by omega),
          Nat.mul_add_div (by omega), Nat.div_eq_of_lt hj, Nat.div_eq_of_lt (by omega)] at hr''
        omega
      rw [Function.update_of_ne hother, hcell]
      rcases Nat.lt_or_gt_of_ne hr' with hlt | hgt
      · rw [List.getElem?_append_left hlt, List.getElem?_append_left hlt]
      · have hbeyond : ∀ l : List α, (init ++ [l])[init.length + 1 - h + r]? = none := by
          intro l
          refine List.getElem?_eq_none ?_
          rw [List.length_append, List.length_singleton]
          omega
        rw [hbeyond, hbeyond]

variable [DecidableEq α]

theorem Shows.put (hs : t.Shows w h blank glyph lines) (hw : 0 < w) (hh : 0 < h) (nl c : α) :
    (t.put w h blank glyph nl c).Shows w h blank glyph (push w nl c lines) := by
  unfold Terminal.put push
  split_ifs with hnl hfull hroom hroom
  · exact hs.newLine hh
  · rw [hs.col] at hfull
    omega
  · -- The row is full.
    have hput := @Shows.putAt α β w h blank glyph (t.newLine w h blank) (lines ++ [[]]) c
      (hs.newLine hh) (by
      rw [List.getLastD_concat]
      exact hw)
    rwa [List.getLastD_concat, List.dropLast_concat] at hput
  · exact hs.putAt hroom
  · rw [hs.col] at hfull
    omega

/-- A terminal that shows a text goes on to show a text behind it. -/
theorem Shows.write (hw : 0 < w) (hh : 0 < h) {text : List α}
    (hs : t.Shows w h blank glyph (wrap w nl text)) (more : List α) :
    (more.foldl (Terminal.put w h blank glyph nl) t).Shows w h blank glyph
    (wrap w nl (text ++ more)) := by
  induction more generalizing t text with
  | nil =>
    rw [List.append_nil]
    exact hs
  | cons c more ih =>
    have hput := hs.put hw hh nl c
    rw [← wrap_append hw] at hput
    rw [List.foldl_cons, List.append_cons]
    exact ih hput

/-- A blank terminal. -/
theorem shows_blank (hh : 0 < h) (hcells : ∀ r < h, ∀ c < w, t.cells (r * w + c) = blank)
    (hrow : t.row = 0) (hcol : t.col = 0) (nl : α) : t.Shows w h blank glyph (wrap w nl []) := by
  rw [wrap_nil]
  refine ⟨List.cons_ne_nil _ _, ?_, ?_, hcol, fun r hr c hc => ?_⟩
  · intro l hl
    rw [List.mem_singleton.1 hl]
    exact Nat.zero_le _
  · rw [hrow]
    exact (Nat.min_eq_left hh).symm
  · rw [hcells r hr c hc]
    show blank = ((((([[]] : List (List α))[1 - h + r]?).getD [])[c]?).map glyph).getD blank
    rcases Nat.eq_zero_or_pos (1 - h + r) with hzero | hpos
    · rw [hzero]
      rfl
    · rw [List.getElem?_eq_none (l := [[]]) hpos]
      rfl

end Terminal

end Lib
