import Tcmk.Arch
import Tcmk.Wm.Confidentiality

/-!
# The order of the windows (`wm.rs`)

`Z_ORDER` has the windows from the back to the front. `create` appends a window with a new slot,
`raise` moves a window to the end, and `handle_mouse` raises the first window from the front that
its test finds under the pointer, and drags it by its title. Every event is one step.

The test adds in `usize`. So a press raises the topmost window that contains the point exactly if
the sums for that window do not wrap (`stacking_iff`); the rest of the law holds in every state.
-/

namespace Tcmk

open Lib

/-- `TITLE_HEIGHT`. -/
def titleHeight : ℕ := 20

/-- The window manager with the places of the windows, `Z_ORDER` and the statics of a drag.
`usize::MAX` is `none`. -/
structure Stacking where
  gui : Gui
  x : ℕ → ℕ
  y : ℕ → ℕ
  zOrder : ℕ → ℕ
  drag : Option ℕ
  dragDx : ℕ
  dragDy : ℕ
  /-- the button at the last event of the mouse -/
  button : Bool

namespace Stacking

def boot : Stacking := ⟨Gui.boot, fun _ => 0, fun _ => 0, fun _ => 0, none, 0, 0, false⟩

/-- `WINDOW_COUNT`. -/
def count (s : Stacking) : ℕ := s.gui.desktop.windows.length

/-- The part of `Z_ORDER` that is in use. -/
def order (s : Stacking) : List ℕ := (List.range s.count).map s.zOrder

/-- The loop of `raise` that moves the entries from `p` on, but the last, one place down. -/
def shiftDown (z : ℕ → ℕ) (p n : ℕ) : ℕ → ℕ :=
  (List.range' p n).foldl (fun z i => Function.update z i (z (i + 1))) z

/-- `raise`. -/
def raise (s : Stacking) (index : ℕ) : Stacking :=
  match s.order.idxOf? index with
  | some p =>
    { s with
      zOrder := Function.update (shiftDown s.zOrder p (s.count - 1 - p)) (s.count - 1) index
      gui := s.gui.raise index }
  | none => { s with gui := s.gui.raise index }

/-- `focus`. -/
def focus (s : Stacking) (index : ℕ) : Stacking := if index < s.count then s.raise index else s

/-- `create`. Only a new slot is appended to `Z_ORDER`. -/
def create (arch : Arch) (s : Stacking) (x y owner space width height : ℕ) (system : Bool) :
    Option ℕ × Stacking :=
  match s.gui.create arch.wordBits owner space width height system with
  | (none, gui) => (none, { s with gui := gui })
  | (some index, gui) =>
    (some index, { s with
      gui := gui
      x := Function.update s.x index x
      y := Function.update s.y index y
      zOrder :=
        if s.gui.desktop.freeSlot = none then Function.update s.zOrder s.count s.count
          else s.zOrder })

/-- `shell::start`, with `mark_shell`. -/
def startShell (arch : Arch) (s : Stacking) (x y owner space width height : ℕ) : Stacking :=
  match s.create arch x y owner space width height true with
  | (none, s) => s
  | (some id, s) => { s with gui := { s.gui with shell := some id } }.focus id

/-- `close_owned_by`. -/
def closeOwnedBy (s : Stacking) (owner : ℕ) : Stacking :=
  { s with
    gui := s.gui.closeOwnedBy owner
    drag := if s.drag.any (s.gui.closes owner) then none else s.drag }

/-- The test of `handle_mouse`. -/
def hits (arch : Arch) (s : Stacking) (mx my index : ℕ) : Bool :=
  match s.gui.desktop.windows[index]? with
  | none => false
  | some w =>
    w.used && decide (mx ≥ s.x index) && decide (mx < (s.x index + w.width) % 2 ^ arch.wordBits) &&
      decide (my ≥ s.y index) &&
        decide (my < (s.y index + (w.height + titleHeight) % 2 ^ arch.wordBits) % 2 ^ arch.wordBits)

/-- The loop of `handle_mouse`, from the front to the back. -/
def windowAt (arch : Arch) (s : Stacking) (mx my : ℕ) : Option ℕ :=
  s.order.reverse.find? (s.hits arch mx my)

/-- `handle_mouse`. -/
def handleMouse (arch : Arch) (s : Stacking) (mx my : ℕ) (left : Bool) : Stacking :=
  if left = false then { s with drag := none }
  else
    match s.drag with
    | some d =>
      { s with
        x := Function.update s.x d (mx - s.dragDx)
        y := Function.update s.y d (my - s.dragDy) }
    | none =>
      match s.windowAt arch mx my with
      | none => s
      | some index =>
        if my < (s.y index + titleHeight) % 2 ^ arch.wordBits then
          { s.raise index with
            drag := some index
            dragDx := mx - s.x index
            dragDy := my - s.y index }
        else s.raise index

end Stacking

inductive StackEvent
  /-- any other allocation of the kernel heap -/
  | kmalloc (size align : ℕ)
  | create (x y owner space width height : ℕ) (system : Bool)
  | startShell (x y owner space width height : ℕ)
  | close (owner : ℕ)
  | focus (index : ℕ)
  | mouse (mx my : ℕ) (left : Bool)

namespace Stacking

def after (arch : Arch) (s : Stacking) : StackEvent → Stacking
  | .kmalloc size align => { s with gui := s.gui.after arch.wordBits (.kmalloc size align) }
  | .create x y owner space width height system =>
    (s.create arch x y owner space width height system).2
  | .startShell x y owner space width height => s.startShell arch x y owner space width height
  | .close owner => s.closeOwnedBy owner
  | .focus index => s.focus index
  | .mouse mx my left => { s.handleMouse arch mx my left with button := left }

end Stacking

def StackStep (arch : Arch) (s : Stacking) (e : StackEvent) (t : Stacking) : Prop :=
  t = s.after arch e

namespace Stacking

variable {arch : Arch} {s t : Stacking} {e : StackEvent} {es : List StackEvent} {index mx my : ℕ}

/-! ## Raising a window -/

theorem shiftDown_apply (z : ℕ → ℕ) (p n j : ℕ) :
    shiftDown z p n j = if p ≤ j ∧ j < p + n then z (j + 1) else z j := by
  unfold shiftDown
  induction n generalizing j with
  | zero => rw [if_neg (by omega)]; rfl
  | succ n ih =>
    rw [List.range'_1_concat, List.foldl_concat, Function.update_apply, ih, ih]
    by_cases hj : j = p + n
    · rw [if_pos hj, if_neg (by omega), if_pos (by omega), hj]
    · rw [if_neg hj]
      exact if_congr (by omega) rfl rfl

theorem length_order (s : Stacking) : s.order.length = s.count := by
  rw [order, List.length_map, List.length_range]

theorem getElem?_order (s : Stacking) (j : ℕ) :
    s.order[j]? = if j < s.count then some (s.zOrder j) else none := by
  rw [order, List.getElem?_map]
  by_cases hj : j < s.count
  · rw [List.getElem?_range hj, if_pos hj]
    rfl
  · rw [List.getElem?_eq_none (by rw [List.length_range]; omega), if_neg hj]
    rfl

theorem raise_count (s : Stacking) (index : ℕ) : (s.raise index).count = s.count := by
  unfold raise
  split <;> rfl

theorem raise_zOrder {p : ℕ} (hp : s.order.idxOf? index = some p) (hlt : p < s.count) (j : ℕ) :
    (s.raise index).zOrder j = if j = s.count - 1 then index
      else if p ≤ j ∧ j < s.count - 1 then s.zOrder (j + 1) else s.zOrder j := by
  unfold raise
  rw [hp]
  dsimp only
  rw [Function.update_apply, shiftDown_apply]
  refine if_congr Iff.rfl rfl (if_congr ?_ rfl rfl)
  omega

/-- The window moves to the front, and the others keep their order. -/
theorem raise_order (h : index ∈ s.order) :
    (s.raise index).order = s.order.erase index ++ [index] := by
  obtain ⟨p, hp⟩ := Option.isSome_iff_exists.1 (List.isSome_idxOf?.2 h)
  have hlt : p < s.count := by
    obtain ⟨hlt, -⟩ := List.idxOf?_eq_some_iff.1 hp
    rwa [length_order] at hlt
  have hlen : (s.order.eraseIdx p).length = s.count - 1 := by
    rw [List.length_eraseIdx, if_pos (by rwa [length_order]), length_order]
  rw [List.erase_eq_eraseIdx, hp]
  refine List.ext_getElem? fun j => ?_
  rw [getElem?_order, raise_count, raise_zOrder hp hlt, List.getElem?_append, hlen]
  rcases Nat.lt_trichotomy j (s.count - 1) with hj | hj | hj
  · rw [if_pos (by omega), if_neg (by omega), if_pos hj, List.getElem?_eraseIdx, getElem?_order,
      getElem?_order]
    split_ifs <;> first | rfl | omega
  · rw [if_pos (by omega), if_pos hj, if_neg (by omega), hj, Nat.sub_self]
    rfl
  · rw [if_neg (by omega), if_neg (by omega), List.getElem?_eq_none]
    rw [List.length_singleton]
    omega

theorem raise_perm (h : index ∈ s.order) : (s.raise index).order.Perm s.order := by
  rw [raise_order h]
  exact (List.perm_append_comm).trans (List.perm_cons_erase h).symm

/-! ## The invariant -/

/-- The order is a permutation of the windows, and a drag is of a window in use, with the button
down. -/
structure Sound (s : Stacking) : Prop where
  order : s.order.Perm (List.range s.count)
  drag : ∀ d, s.drag = some d → s.gui.InUse d
  button : s.button = false → s.drag = none

theorem Sound.mem_order (h : s.Sound) : index ∈ s.order ↔ index < s.count :=
  h.order.mem_iff.trans List.mem_range

theorem inUse_lt (h : s.gui.InUse index) : index < s.count := by
  obtain ⟨w, hw, -⟩ := h
  exact (List.getElem?_eq_some_iff.1 hw).1

theorem sound_boot : boot.Sound := ⟨.refl _, fun _ h => (by cases h), fun _ => rfl⟩

/-- The table and the order stay as they are. -/
theorem Sound.of_windows (h : s.Sound) (hwindows : t.gui.desktop.windows = s.gui.desktop.windows)
    (hz : t.zOrder = s.zOrder) (hdrag : t.drag = s.drag) (hbutton : t.button = s.button) :
    t.Sound := by
  have hcount : t.count = s.count := congrArg List.length hwindows
  have horder : t.order = s.order := by rw [Stacking.order, Stacking.order, hcount, hz]
  refine ⟨?_, fun d hd => ?_, fun hb => ?_⟩
  · rw [horder, hcount]
    exact h.order
  · obtain ⟨w, hw, hused⟩ := h.drag d (hdrag ▸ hd)
    exact ⟨w, hwindows ▸ hw, hused⟩
  · rw [hdrag]
    exact h.button (hbutton ▸ hb)

theorem raise_same (s : Stacking) (index : ℕ) : (s.raise index).gui.desktop = s.gui.desktop ∧
    (s.raise index).drag = s.drag ∧ (s.raise index).button = s.button := by
  unfold raise
  split <;> exact ⟨rfl, rfl, rfl⟩

theorem Sound.raise (h : s.Sound) (hindex : index < s.count) : (s.raise index).Sound := by
  obtain ⟨hdesktop, hdrag, hbutton⟩ := s.raise_same index
  refine ⟨?_, fun d hd => ?_, fun hb => ?_⟩
  · rw [raise_count]
    exact (raise_perm (h.mem_order.2 hindex)).trans h.order
  · obtain ⟨w, hw, hused⟩ := h.drag d (hdrag ▸ hd)
    exact ⟨w, hdesktop ▸ hw, hused⟩
  · rw [hdrag]
    exact h.button (hbutton ▸ hb)

theorem Sound.focus (h : s.Sound) (index : ℕ) : (s.focus index).Sound := by
  unfold Stacking.focus
  split_ifs with hindex
  · exact h.raise hindex
  · exact h

theorem Sound.create (h : s.Sound) (x y owner space width height : ℕ) (system : Bool) :
    (s.create arch x y owner space width height system).2.Sound := by
  obtain ⟨hnone, hwindows⟩ | ⟨d', w, hwindows, hused, -, -, -, -, heq⟩ :=
    @Gui.create_place arch.wordBits s.gui.desktop owner space width height system
  · generalize hr : s.gui.desktop.create arch.wordBits owner space width height system =
      r at hnone hwindows
    obtain ⟨_, d⟩ := r
    subst hnone
    unfold Stacking.create Gui.create
    rw [hr]
    exact h.of_windows hwindows rfl rfl rfl
  · unfold Stacking.create Gui.create
    rw [heq]
    cases hslot : s.gui.desktop.freeSlot with
    | none =>
      have hfree : d'.windows.length = s.count := congrArg List.length hwindows
      refine ⟨?_, fun d hd => ?_, h.button⟩
      · have hcount : (d'.windows ++ [w]).length = s.count + 1 := by
          rw [List.length_append, hfree]
          rfl
        show ((List.range (d'.windows ++ [w]).length).map
          (if (none : Option ℕ) = none then Function.update s.zOrder s.count s.count
            else s.zOrder)).Perm
            (List.range (d'.windows ++ [w]).length)
        have hbelow : (List.range s.count).map (Function.update s.zOrder s.count s.count) =
          s.order :=
          List.map_congr_left fun j hj => Function.update_of_ne (Nat.ne_of_lt (List.mem_range.1 hj))
            ..
        rw [if_pos rfl, hcount, List.range_succ, List.map_append, hbelow, List.map_singleton,
          Function.update_self]
        exact h.order.append_right _
      · obtain ⟨w', hw', hused'⟩ := h.drag d hd
        refine ⟨w', ?_, hused'⟩
        show (d'.windows ++ [w])[d]? = some w'
        rw [List.getElem?_append_left (by rw [hfree]; exact inUse_lt (h.drag d hd)), hwindows]
        exact hw'
    | some i =>
      obtain ⟨hlt, -⟩ := List.findIdx?_eq_some_iff_getElem.1 hslot
      refine ⟨?_, fun d hd => ?_, h.button⟩
      · show ((List.range (d'.windows.set i w).length).map
          (if (some i : Option ℕ) = none then Function.update s.zOrder s.count s.count
            else s.zOrder)).Perm
            (List.range (d'.windows.set i w).length)
        rw [if_neg (Option.some_ne_none i), List.length_set, hwindows]
        exact h.order
      · by_cases hd' : d = i
        · refine ⟨w, ?_, hused⟩
          show (d'.windows.set i w)[d]? = some w
          rw [hd', hwindows, List.getElem?_set_self hlt]
        · obtain ⟨w', hw', hused'⟩ := h.drag d hd
          refine ⟨w', ?_, hused'⟩
          show (d'.windows.set i w)[d]? = some w'
          rw [List.getElem?_set_ne (Ne.symm hd'), hwindows]
          exact hw'

theorem Sound.startShell (h : s.Sound) (x y owner space width height : ℕ) :
    (s.startShell arch x y owner space width height).Sound := by
  have hcreate : (s.create arch x y owner space width height true).2.Sound := h.create ..
  unfold Stacking.startShell
  generalize s.create arch x y owner space width height true = r at hcreate ⊢
  obtain ⟨index, t⟩ := r
  cases index with
  | none => exact hcreate
  | some id =>
    exact (hcreate.of_windows (t := { t with gui := { t.gui with shell := some id } }) rfl rfl rfl
      rfl).focus id

/-- The window that is dragged is not among those that the call closes, or the drag ends. -/
theorem Sound.closeOwnedBy (h : s.Sound) (owner : ℕ) : (s.closeOwnedBy owner).Sound := by
  have hcount : (s.closeOwnedBy owner).count = s.count := List.length_map ..
  refine ⟨?_, fun d hd => ?_, fun hb => ?_⟩
  · show ((List.range (s.closeOwnedBy owner).count).map s.zOrder).Perm _
    rw [hcount]
    exact h.order
  · change (if s.drag.any (s.gui.closes owner) then none else s.drag) = some d at hd
    split_ifs at hd with hany
    obtain ⟨w, hw, hused⟩ := h.drag d hd
    rw [hd, Option.any_some, Gui.closes, hw, Bool.not_eq_true] at hany
    refine ⟨w, ?_, hused⟩
    show (s.gui.desktop.windows.map _)[d]? = some w
    rw [List.getElem?_map, hw, Option.map_some, if_pos]
    simp only [hused, Bool.true_and, Bool.and_eq_false_iff, Bool.not_eq_false',
      beq_eq_false_iff_ne] at hany
    simpa [hused] using hany
  · show (if s.drag.any (s.gui.closes owner) then none else s.drag) = none
    rw [h.button hb]
    rfl

theorem windowAt_mem (h : s.windowAt arch mx my = some index) :
    index ∈ s.order ∧ s.hits arch mx my index = true :=
  ⟨List.mem_reverse.1 (List.mem_of_find?_eq_some h), List.find?_some h⟩

theorem hits_inUse (h : s.hits arch mx my index = true) : s.gui.InUse index := by
  unfold hits at h
  cases hw : s.gui.desktop.windows[index]? with
  | none =>
    rw [hw] at h
    cases h
  | some w =>
    rw [hw] at h
    simp only [Bool.and_eq_true] at h
    exact ⟨w, hw, h.1.1.1.1⟩

theorem Sound.mouse (h : s.Sound) (mx my : ℕ) (left : Bool) :
    (s.after arch (.mouse mx my left)).Sound := by
  unfold after handleMouse
  dsimp only
  cases left with
  | false => exact ⟨h.order, fun d hd => (by cases hd), fun _ => rfl⟩
  | true =>
    rw [if_neg Bool.noConfusion]
    cases hdrag : s.drag with
    | some d => exact ⟨h.order, fun d' hd' => h.drag d' (hdrag.trans hd'), fun hb => by cases hb⟩
    | none =>
      dsimp only
      cases hwindow : s.windowAt arch mx my with
      | none => exact ⟨h.order, h.drag, fun hb => by cases hb⟩
      | some index =>
        obtain ⟨hmem, hhits⟩ := windowAt_mem hwindow
        have hraise := h.raise (h.mem_order.1 hmem)
        dsimp only
        split_ifs
        · refine ⟨hraise.order, fun d hd => ?_, fun hb => by cases hb⟩
          obtain ⟨w, hw, hused⟩ := hits_inUse hhits
          obtain rfl := Option.some.inj hd
          exact ⟨w, (s.raise_same index).1 ▸ hw, hused⟩
        · exact ⟨hraise.order, hraise.drag, fun hb => by cases hb⟩

theorem Sound.step (h : s.Sound) (hstep : StackStep arch s e t) : t.Sound := by
  obtain rfl := hstep
  cases e with
  | kmalloc size align =>
    exact h.of_windows (Gui.kmalloc_windows s.gui.desktop size align) rfl rfl rfl
  | create x y owner space width height system => exact h.create x y owner space width height system
  | startShell x y owner space width height => exact h.startShell x y owner space width height
  | close owner => exact h.closeOwnedBy owner
  | focus index => exact h.focus index
  | mouse mx my left => exact h.mouse mx my left

theorem sound_run (h : Run (StackStep arch) boot es s) : s.Sound :=
  h.invariant (I := Sound) (fun _ _ _ hs hstep => hs.step hstep) sound_boot

/-! ## The law -/

/-- The window is in use, and the point is in it. -/
def covers (s : Stacking) (mx my index : ℕ) : Bool :=
  match s.gui.desktop.windows[index]? with
  | none => false
  | some w =>
    w.used && decide (s.x index ≤ mx) && decide (mx < s.x index + w.width) &&
      decide (s.y index ≤ my) &&
      decide (my < s.y index + (w.height + titleHeight))

/-- The first window from the front that contains the point. -/
def Topmost (s : Stacking) (mx my index : ℕ) : Prop :=
  ∃ below above, s.order = below ++ index :: above ∧ s.covers mx my index = true ∧
    ∀ j ∈ above, s.covers mx my j = false

/-- The window that an event of the mouse raises. -/
def raised (arch : Arch) (s : Stacking) (mx my : ℕ) (left : Bool) : Option ℕ :=
  if left = true ∧ s.drag = none then s.windowAt arch mx my else none

/-- The order is a permutation, a window that is raised moves to the front and the others keep their
order, a window that is dragged is in use, and a press at the point raises the topmost window that
contains it and no other. -/
structure Lawful (arch : Arch) (s : Stacking) (mx my : ℕ) : Prop where
  order : s.order.Perm (List.range s.count)
  raise : ∀ index < s.count, (s.raise index).order = s.order.erase index ++ [index]
  drag : ∀ d, s.drag = some d → s.gui.InUse d
  moved : ∀ left, (s.after arch (.mouse mx my left)).order =
    (s.raised arch mx my left).elim s.order fun index => (s.raise index).order
  press : s.button = false → ∀ index, s.raised arch mx my true = some index ↔ s.Topmost mx my index

/-- The sums that the test computes for the topmost window do not wrap below the point. -/
def Within (arch : Arch) (s : Stacking) (mx my : ℕ) : Prop :=
  s.button = false → ∀ index w, s.Topmost mx my index → s.gui.desktop.windows[index]? = some w →
    mx < (s.x index + w.width) % 2 ^ arch.wordBits ∧
      my < (s.y index + (w.height + titleHeight) % 2 ^ arch.wordBits) % 2 ^ arch.wordBits

theorem topmost_iff : s.Topmost mx my index ↔ s.order.reverse.find? (s.covers mx my) =
    some index := by
  rw [List.find?_eq_some_iff_append]
  constructor
  · rintro ⟨below, above, horder, hcovers, habove⟩
    refine ⟨hcovers, above.reverse, below.reverse, ?_, fun j hj => ?_⟩
    · rw [horder, List.reverse_append, List.reverse_cons, List.append_assoc, List.singleton_append]
    · rw [habove j (List.mem_reverse.1 hj)]
      rfl
  · rintro ⟨hcovers, above, below, horder, habove⟩
    refine ⟨below.reverse, above.reverse, ?_, hcovers, fun j hj => ?_⟩
    · rw [← List.reverse_reverse s.order, horder, List.reverse_append, List.reverse_cons,
        List.append_assoc, List.singleton_append]
    · simpa using habove j (List.mem_reverse.1 hj)

instance : Decidable (s.Within arch mx my) :=
  decidable_of_iff (∀ index ∈ s.order.reverse.find? (s.covers mx my),
    ∀ w ∈ s.gui.desktop.windows[index]?, s.button = false →
      mx < (s.x index + w.width) % 2 ^ arch.wordBits ∧
        my < (s.y index + (w.height + titleHeight) % 2 ^ arch.wordBits) % 2 ^ arch.wordBits)
    ⟨fun h hbutton index w htop hw => h index (topmost_iff.1 htop) w hw hbutton,
      fun h index htop w hw hbutton => h hbutton index w (topmost_iff.2 htop) hw⟩

/-- Two tests, the first of which is the stricter, find the same if what the second finds passes the
first. -/
theorem find?_congr_iff {α : Type*} {p q : α → Bool} (h : ∀ a, p a = true → q a = true)
    (l : List α) :
    (∀ a, l.find? p = some a ↔ l.find? q = some a) ↔ ∀ a, l.find? q = some a → p a = true := by
  refine ⟨fun heq a ha => List.find?_some ((heq a).2 ha), fun hpass => ?_⟩
  induction l with
  | nil => exact fun _ => Iff.rfl
  | cons b l ih =>
    by_cases hq : q b = true
    · have hp : p b = true := hpass b (List.find?_cons_of_pos hq)
      intro a
      rw [List.find?_cons_of_pos hp, List.find?_cons_of_pos hq]
    · have hp : ¬p b = true := fun hp => hq (h b hp)
      rw [List.find?_cons_of_neg hp, List.find?_cons_of_neg hq]
      exact ih fun a ha => hpass a (by rwa [List.find?_cons_of_neg hq])

theorem hits_iff : s.hits arch mx my index = true ↔ s.covers mx my index = true ∧
    ∀ w, s.gui.desktop.windows[index]? = some w → mx < (s.x index + w.width) % 2 ^ arch.wordBits ∧
      my < (s.y index + (w.height + titleHeight) % 2 ^ arch.wordBits) % 2 ^ arch.wordBits := by
  unfold hits covers
  cases s.gui.desktop.windows[index]? with
  | none => exact iff_of_false Bool.false_ne_true fun h => Bool.false_ne_true h.1
  | some w =>
    have hx := Nat.mod_le (s.x index + w.width) (2 ^ arch.wordBits)
    have hheight := Nat.mod_le (w.height + titleHeight) (2 ^ arch.wordBits)
    have hy := Nat.mod_le (s.y index + (w.height + titleHeight) % 2 ^ arch.wordBits)
      (2 ^ arch.wordBits)
    simp only [Bool.and_eq_true, decide_eq_true_eq, Option.some.injEq, forall_eq']
    constructor
    · rintro ⟨⟨⟨⟨hused, hleft⟩, hright⟩, htop⟩, hbottom⟩
      exact ⟨⟨⟨⟨⟨hused, hleft⟩, by omega⟩, htop⟩, by omega⟩, hright, hbottom⟩
    · rintro ⟨⟨⟨⟨⟨hused, hleft⟩, -⟩, htop⟩, -⟩, hright, hbottom⟩
      exact ⟨⟨⟨⟨hused, hleft⟩, hright⟩, htop⟩, hbottom⟩

theorem after_mouse_order (s : Stacking) (mx my : ℕ) (left : Bool) :
    (s.after arch (.mouse mx my left)).order =
      (s.raised arch mx my left).elim s.order fun index => (s.raise index).order := by
  unfold after handleMouse raised
  dsimp only
  cases left with
  | false => rfl
  | true =>
    cases hdrag : s.drag with
    | some d => rfl
    | none =>
      rw [if_neg Bool.noConfusion, if_pos ⟨rfl, rfl⟩]
      dsimp only
      cases s.windowAt arch mx my with
      | none => rfl
      | some index =>
        dsimp only
        split_ifs <;> rfl

theorem Sound.press_iff (h : s.Sound) :
    (s.button = false → ∀ index, s.raised arch mx my true = some index ↔ s.Topmost mx my index) ↔
      s.Within arch mx my := by
  refine forall_congr' fun hbutton => ?_
  have hraised : s.raised arch mx my true = s.windowAt arch mx my := if_pos ⟨rfl, h.button hbutton⟩
  simp only [hraised, topmost_iff, windowAt]
  rw [find?_congr_iff fun index hhits => (hits_iff.1 hhits).1]
  refine forall_congr' fun index =>
    ⟨fun hpass w htop hw => (hits_iff.1 (hpass htop)).2 w hw, fun hsum htop => ?_⟩
  exact hits_iff.2 ⟨List.find?_some htop, fun w hw => hsum w htop hw⟩

end Stacking

/-- In every state the windows are stacked as they should be and a press finds the topmost window,
exactly if the sums for this window do not wrap. -/
theorem stacking_iff {arch : Arch} {es : List StackEvent} {s : Stacking} (mx my : ℕ)
    (h : Run (StackStep arch) Stacking.boot es s) : s.Lawful arch mx my ↔ s.Within arch mx my := by
  have hs := Stacking.sound_run h
  refine ⟨fun hlaw => hs.press_iff.1 hlaw.press, fun hwithin => ?_⟩
  exact
    { order := hs.order
      raise := fun index hindex => Stacking.raise_order (hs.mem_order.2 hindex)
      drag := hs.drag
      moved := s.after_mouse_order mx my
      press := hs.press_iff.2 hwithin }

/-- Two windows, one over the other. -/
def twoWindows : Stacking :=
  (Stacking.boot.after .i386 (.create 10 20 1 0 100 50 false)).after .i386
    (.create 40 30 1 0 100 50 false)

theorem stacking_press : twoWindows.Lawful .i386 60 40 := by
  have hrun : Run (StackStep .i386) Stacking.boot
      [.create 10 20 1 0 100 50 false, .create 40 30 1 0 100 50 false] twoWindows :=
    .cons rfl (.cons rfl (.nil _))
  exact (stacking_iff 60 40 hrun).2 (by decide +kernel)

/-- A window with 64 bytes of pixels and a right edge of `2 ^ 32 + 84`. A press on it finds
nothing. -/
theorem stacking_wraps : ¬∀ (arch : Arch) (es : List StackEvent) (s : Stacking) (mx my : ℕ),
    Run (StackStep arch) Stacking.boot es s → s.Lawful arch mx my := by
  intro hall
  let s := Stacking.boot.after .i386 (.create 100 100 1 1 0xFFFFFFF0 0xFFFFFFFF false)
  have hlaw := hall .i386 [.create 100 100 1 1 0xFFFFFFF0 0xFFFFFFFF false] s 200 200
    (.cons rfl (.nil _))
  have htop : s.Topmost 200 200 0 := Stacking.topmost_iff.2 (by decide +kernel)
  have hraised := (hlaw.press (by decide +kernel) 0).2 htop
  have hnone : s.raised .i386 200 200 true = none := by decide +kernel
  rw [hnone] at hraised
  cases hraised

end Tcmk
