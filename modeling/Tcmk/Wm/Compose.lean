import Tcmk.Wm.Render
import Tcmk.Wm.Stacking

/-!
# What the screen shows (`compose` of `wm.rs`)

`compose` draws the desktop, then the windows from the back to the front, each with its frame, then
the mouse pointer, and presents the result. A system window is rendered into its buffer just before
it is copied. So each point of the screen has the colour of the topmost window that has a colour
there, and of the memory beside the framebuffer only the buffers of system windows change
(`compose_shows`).

A press raises the window that the point belongs to (`press_shown`): apart from the right and the
lower edge, the last column of the contents and titles that are longer than their windows, which
`handle_mouse` does not test, what is pressed is what is seen.
-/

namespace Tcmk

open Lib

/-- `BORDER`. -/
def border : ℕ := 1

/-- What is drawn apart from the places of the windows. `title i` is `title[..title_len]` of the
window `i`, and `pixels i` is what its buffer holds when it is copied. -/
structure Contents where
  title : ℕ → List UInt8
  pixels : ℕ → ℕ → Gfx.Color
  status : List UInt8
  mouseX : ℕ
  mouseY : ℕ

/-- What `compose` reads apart from the windows and their buffers: `ACTIVE`, the titles, the text of
`status_line`, the place of the mouse, and what the system windows show. -/
structure Scene where
  active : Bool
  title : ℕ → List UInt8
  status : List UInt8
  mouseX : ℕ
  mouseY : ℕ
  console : TextConsole
  shell : ShellScreen

/-- `core::str::from_utf8(..).unwrap_or("?")`. -/
def textOrMark (bytes : List UInt8) : List UInt8 :=
  if (ByteArray.mk bytes.toArray).validateUTF8 then bytes else [63]

/-- `CURSOR`. -/
def cursorShape : List String := [
  "X           ",
  "XX          ",
  "XoX         ",
  "XooX        ",
  "XoooX       ",
  "XooooX      ",
  "XoooooX     ",
  "XooooooX    ",
  "XoooooooX   ",
  "XooooooooX  ",
  "XoooooooooX ",
  "XooooooXXXXX",
  "XoooXooX    ",
  "XooX XooX   ",
  "XoX  XooX   ",
  "XX    XooX  ",
  "X     XooX  ",
  "       XX   ",
  "            "]

/-- The points of the pointer, with their colours: the row, the column and the colour. -/
def cursorPoints : List (ℕ × ℕ × Gfx.Color) :=
  cursorShape.zipIdx.flatMap fun line => line.1.toList.zipIdx.filterMap fun ch =>
    if ch.1 = 'X' then some (line.2, ch.2, Gfx.black)
    else if ch.1 = 'o' then some (line.2, ch.2, Gfx.white)
    else none

namespace Stacking

variable (arch : Arch) (font : ℕ → ℕ → UInt8) (scr : Gfx.Screen)

/-- `draw_desktop`. -/
def drawDesktop (status : List UInt8) (buf : Gfx.Buffer) : Gfx.Buffer :=
  let buf := Gfx.clear arch scr Gfx.desktopBg buf
  let buf := Gfx.fillRect arch scr 0 0 scr.width 24 0x00161E2A buf
  let buf := Gfx.drawText arch font scr 8 4 "The Cursed Moon Kernel".toUTF8.toList Gfx.accent buf
  Gfx.drawText arch font scr 320 4 status 0x0090A0B0 buf

/-- The colour of the edges of a window. -/
def edgeColor (focused : Bool) : Gfx.Color := if focused then Gfx.accent else 0x00404850

def titleColor (focused : Bool) : Gfx.Color :=
  if focused then Gfx.titleActive else Gfx.titleInactive

/-- `draw_frame`. -/
def drawFrame (x y : ℕ) (w : Window) (title : List UInt8) (focused : Bool) (buf : Gfx.Buffer) :
    Gfx.Buffer :=
  let width := (w.width + border * 2) % 2 ^ arch.wordBits
  let buf := Gfx.fillRect arch scr x y width titleHeight (titleColor focused) buf
  let buf := Gfx.drawText arch font scr ((x + 6) % 2 ^ arch.wordBits) ((y + 2) % 2 ^ arch.wordBits)
    (textOrMark title) Gfx.white buf
  Gfx.strokeRect arch scr x y width ((w.height + titleHeight + border) % 2 ^ arch.wordBits)
    (edgeColor focused) buf

/-- The rendering of a system window: the memory after it. -/
def render (s : Stacking) (c : Scene) (index : ℕ) (w : Window) (mem : ℕ → UInt8) : ℕ → UInt8 :=
  if w.system = true then
    if s.gui.shell = some index then w.renderShell arch font c.shell mem
    else w.renderConsole arch font c.console mem
  else mem

/-- The frame and the copy of the buffer. -/
def paint (s : Stacking) (index : ℕ) (w : Window) (title : List UInt8) (pixels : ℕ → Gfx.Color)
    (buf : Gfx.Buffer) : Gfx.Buffer :=
  let buf := drawFrame arch font scr (s.x index) (s.y index) w title
    (s.gui.focused == some index) buf
  Gfx.blit arch scr ((s.x index + border) % 2 ^ arch.wordBits)
    ((s.y index + titleHeight) % 2 ^ arch.wordBits) w.width w.height
    (w.width * w.height % 2 ^ arch.wordBits) pixels buf

/-- A round of the loop of `compose`, on the back buffer and the memory. -/
def drawWindow (s : Stacking) (c : Scene) (index : ℕ) (out : Gfx.Buffer × (ℕ → UInt8)) :
    Gfx.Buffer × (ℕ → UInt8) :=
  match s.gui.desktop.windows[index]? with
  | none => out
  | some w =>
    if w.used = false then out
    else
      let mem := s.render arch font c index w out.2
      (s.paint arch font scr index w (c.title index) (w.pixel arch mem) out.1, mem)

/-- `compose`, up to the pointer. -/
def drawWindows (s : Stacking) (c : Scene) (out : Gfx.Buffer × (ℕ → UInt8)) :
    Gfx.Buffer × (ℕ → UInt8) :=
  s.order.foldl (fun out index => s.drawWindow arch font scr c index out)
    (drawDesktop arch font scr c.status out.1, out.2)

/-- `draw_cursor`. -/
def drawCursor (x y : ℕ) (buf : Gfx.Buffer) : Gfx.Buffer :=
  cursorPoints.foldl (fun buf p =>
    Gfx.putPixel scr ((x + p.2.1) % 2 ^ arch.wordBits) ((y + p.1) % 2 ^ arch.wordBits) p.2.2 buf)
      buf

/-- `compose`: the back buffer and the memory after it. -/
def compose (s : Stacking) (c : Scene) (buf : Gfx.Buffer) (mem : ℕ → UInt8) :
    Gfx.Buffer × (ℕ → UInt8) :=
  if c.active = false then (buf, mem)
  else
    let out := s.drawWindows arch font scr c (buf, mem)
    let buf := drawCursor arch scr c.mouseX c.mouseY out.1
    (buf, Gfx.present arch scr buf out.2)

/-! ## The contents of the windows -/

/-- The memory after the rendering of a window. -/
def rendered (s : Stacking) (c : Scene) (mem : ℕ → UInt8) (index : ℕ) : ℕ → UInt8 :=
  match s.gui.desktop.windows[index]? with
  | none => mem
  | some w => if w.used = false then mem else s.render arch font c index w mem

/-- The memory when the window is copied: it and the windows behind it have been rendered. -/
def memoryAt (s : Stacking) (c : Scene) (mem : ℕ → UInt8) (index : ℕ) : ℕ → UInt8 :=
  (s.order.takeWhile (· ≠ index) ++ [index]).foldl (s.rendered arch font c) mem

/-- What `compose` draws. -/
def contents (s : Stacking) (c : Scene) (mem : ℕ → UInt8) : Contents where
  title := c.title
  pixels index :=
    match s.gui.desktop.windows[index]? with
    | none => fun _ => Gfx.black
    | some w => w.pixel arch (s.memoryAt arch font c mem index)
  status := c.status
  mouseX := c.mouseX
  mouseY := c.mouseY

/-- A round of the loop, with the contents given. -/
def paintWindow (s : Stacking) (k : Contents) (index : ℕ) (buf : Gfx.Buffer) : Gfx.Buffer :=
  match s.gui.desktop.windows[index]? with
  | none => buf
  | some w =>
    if w.used = false then buf
    else s.paint arch font scr index w (k.title index) (k.pixels index) buf

/-! ## The layers -/

/-- The desktop: two texts over a bar over the background. -/
def desktopLayer (status : List UInt8) : Layer Gfx.Color :=
  (Layer.filled (Gfx.textAt arch font 320 4 status) fun _ _ => 0x0090A0B0).atop
    ((Layer.filled (Gfx.textAt arch font 8 4 "The Cursed Moon Kernel".toUTF8.toList) fun _ _ =>
      Gfx.accent).atop
      ((Layer.filled
        (Gfx.inRect 0 ((0 + scr.width) % 2 ^ arch.wordBits) 0 ((0 + 24) % 2 ^ arch.wordBits))
        fun _ _ => 0x00161E2A).atop fun _ _ => some Gfx.desktopBg))

/-- The contents of a window. -/
def contentLayer (x y : ℕ) (w : Window) (pixels : ℕ → Gfx.Color) : Layer Gfx.Color :=
  let left := (x + border) % 2 ^ arch.wordBits
  let top := (y + titleHeight) % 2 ^ arch.wordBits
  Layer.filled (fun x' y' => Gfx.inRect left (left + w.width) top (top + w.height) x' y' &&
    decide (Gfx.blitIdx arch left top w.width x' y' < w.width * w.height % 2 ^ arch.wordBits))
    fun x' y' => pixels (Gfx.blitIdx arch left top w.width x' y')

/-- The frame of a window: the edges over the title over its background. -/
def frameLayer (x y : ℕ) (w : Window) (title : List UInt8) (focused : Bool) : Layer Gfx.Color :=
  let width := (w.width + border * 2) % 2 ^ arch.wordBits
  (Layer.filled (Gfx.onEdge arch x y width ((w.height + titleHeight + border) % 2 ^ arch.wordBits))
    fun _ _ => edgeColor focused).atop
    ((Layer.filled (Gfx.textAt arch font ((x + 6) % 2 ^ arch.wordBits) ((y + 2) % 2 ^ arch.wordBits)
      (textOrMark title))
      fun _ _ => Gfx.white).atop
      (Layer.filled
        (Gfx.inRect x ((x + width) % 2 ^ arch.wordBits) y ((y + titleHeight) % 2 ^ arch.wordBits))
        fun _ _ => titleColor focused))

/-- What a window shows, if it is in use. -/
def windowLayer (s : Stacking) (c : Contents) (index : ℕ) : Layer Gfx.Color :=
  match s.gui.desktop.windows[index]? with
  | none => Layer.empty
  | some w =>
    if w.used = false then Layer.empty
    else
      (contentLayer arch (s.x index) (s.y index) w (c.pixels index)).atop
        (frameLayer arch font (s.x index) (s.y index) w (c.title index)
          (s.gui.focused == some index))

def cursorLayer (x y : ℕ) : Layer Gfx.Color :=
  Layer.pile (cursorPoints.map fun p => Layer.filled
    (fun x' y' =>
      decide (x' = (x + p.2.1) % 2 ^ arch.wordBits ∧ y' = (y + p.1) % 2 ^ arch.wordBits))
        fun _ _ => p.2.2)

/-- The windows over the desktop, from the back to the front. -/
def windowsLayer (s : Stacking) (c : Contents) : Layer Gfx.Color :=
  (Layer.pile (s.order.map (s.windowLayer arch font c))).atop (desktopLayer arch font scr c.status)

variable {arch font scr} {s : Stacking} {c : Scene} {k : Contents} {index mx my : ℕ}

theorem drawDesktop_draws (status : List UInt8) :
    Draws scr.width scr.height (drawDesktop arch font scr status)
      (desktopLayer arch font scr status) :=
  (Gfx.drawText_draws 320 4 status _).comp ((Gfx.drawText_draws 8 4 _ _).comp
    ((Gfx.fillRect_draws 0 0 scr.width 24 _).comp (Gfx.clear_draws _)))

theorem drawFrame_draws (x y : ℕ) (w : Window) (title : List UInt8) (focused : Bool) :
    Draws scr.width scr.height (drawFrame arch font scr x y w title focused)
      (frameLayer arch font x y w title focused) := by
  have hback := @Gfx.fillRect_draws arch scr x y ((w.width + border * 2) % 2 ^ arch.wordBits)
    titleHeight (titleColor focused)
  have htitle := @Gfx.drawText_draws arch font scr ((x + 6) % 2 ^ arch.wordBits)
    ((y + 2) % 2 ^ arch.wordBits) (textOrMark title) Gfx.white
  have hedges := @Gfx.strokeRect_draws arch scr x y ((w.width + border * 2) % 2 ^ arch.wordBits)
    ((w.height + titleHeight + border) % 2 ^ arch.wordBits) (edgeColor focused)
  exact hedges.comp (htitle.comp hback)

theorem paint_draws (s : Stacking) (index : ℕ) (w : Window) (title : List UInt8)
    (pixels : ℕ → Gfx.Color) :
    Draws scr.width scr.height (s.paint arch font scr index w title pixels)
      ((contentLayer arch (s.x index) (s.y index) w pixels).atop
        (frameLayer arch font (s.x index) (s.y index) w title (s.gui.focused == some index))) := by
  have hframe := @drawFrame_draws arch font scr (s.x index) (s.y index) w title
    (s.gui.focused == some index)
  have hleft : (s.x index + border) % 2 ^ arch.wordBits < 2 ^ arch.wordBits :=
    Nat.mod_lt _ (Nat.two_pow_pos _)
  have htop : (s.y index + titleHeight) % 2 ^ arch.wordBits < 2 ^ arch.wordBits :=
    Nat.mod_lt _ (Nat.two_pow_pos _)
  have hcontent := @Gfx.blit_draws arch scr _ _ hleft htop w.width w.height
    (w.width * w.height % 2 ^ arch.wordBits) pixels
  exact hcontent.comp hframe

theorem paintWindow_draws (s : Stacking) (k : Contents) (index : ℕ) :
    Draws scr.width scr.height (s.paintWindow arch font scr k index)
      (s.windowLayer arch font k index) := by
  unfold paintWindow windowLayer
  cases s.gui.desktop.windows[index]? with
  | none => exact Draws.id
  | some w =>
    dsimp only
    by_cases hused : w.used = false
    · simp only [if_pos hused]
      exact Draws.id
    · simp only [if_neg hused]
      exact paint_draws s index w (k.title index) (k.pixels index)

/-- A round draws the window as it is in memory after its rendering. -/
theorem drawWindow_eq {k : Contents} {buf : Gfx.Buffer} {mem : ℕ → UInt8}
    (htitle : k.title = c.title)
    (hpixels : ∀ w, s.gui.desktop.windows[index]? = some w →
      k.pixels index = w.pixel arch (s.rendered arch font c mem index)) :
    s.drawWindow arch font scr c index (buf, mem) =
      (s.paintWindow arch font scr k index buf, s.rendered arch font c mem index) := by
  unfold drawWindow paintWindow
  unfold rendered at hpixels ⊢
  cases hw : s.gui.desktop.windows[index]? with
  | none => rfl
  | some w =>
    have hw' := hpixels w hw
    rw [hw] at hw'
    dsimp only at hw' ⊢
    by_cases hused : w.used = false
    · simp only [if_pos hused]
    · simp only [if_neg hused] at hw' ⊢
      rw [htitle, hw']

theorem memoryAt_of_split {pre post : List ℕ} {mem : ℕ → UInt8} (hnodup : s.order.Nodup)
    (horder : s.order = pre ++ index :: post) : s.memoryAt arch font c mem index =
      s.rendered arch font c (pre.foldl (s.rendered arch font c) mem) index := by
  have hpre : index ∉ pre := by
    rw [horder, List.nodup_append] at hnodup
    exact fun hmem => hnodup.2.2 index hmem index List.mem_cons_self rfl
  have hwhile : s.order.takeWhile (· ≠ index) = pre := by
    rw [horder, List.takeWhile_append_of_pos fun j hj => ?_]
    · simp
    · refine decide_eq_true fun heq => hpre ?_
      rwa [heq] at hj
  rw [memoryAt, hwhile, List.foldl_append]
  rfl

/-- The windows are drawn with these contents. -/
theorem foldl_drawWindow {pre post : List ℕ} {buf : Gfx.Buffer} {mem : ℕ → UInt8}
    (hnodup : s.order.Nodup) (horder : s.order = pre ++ post) :
    pre.foldl (fun out index => s.drawWindow arch font scr c index out) (buf, mem) =
      (pre.foldl (fun buf index =>
        s.paintWindow arch font scr (s.contents arch font c mem) index buf)
          buf,
        pre.foldl (s.rendered arch font c) mem) := by
  induction pre using List.reverseRecOn generalizing post with
  | nil => rfl
  | append_singleton pre index ih =>
    rw [List.append_assoc, List.singleton_append] at horder
    have hpixels : ∀ w, s.gui.desktop.windows[index]? = some w →
        (s.contents arch font c mem).pixels index =
          w.pixel arch (s.rendered arch font c (pre.foldl (s.rendered arch font c) mem) index) := by
      intro w hw
      rw [← memoryAt_of_split hnodup horder]
      unfold contents
      dsimp only
      rw [hw]
    simp only [List.foldl_append, List.foldl_cons, List.foldl_nil, ih horder]
    exact drawWindow_eq rfl hpixels

theorem drawWindows_eq {buf : Gfx.Buffer} {mem : ℕ → UInt8} (hnodup : s.order.Nodup) :
    s.drawWindows arch font scr c (buf, mem) =
      (s.order.foldl (fun buf index =>
        s.paintWindow arch font scr (s.contents arch font c mem) index buf)
          (drawDesktop arch font scr c.status buf),
        s.order.foldl (s.rendered arch font c) mem) :=
  foldl_drawWindow hnodup (List.append_nil _).symm

theorem drawWindows_draws (c : Scene) (mem : ℕ → UInt8) (hnodup : s.order.Nodup) :
    Draws scr.width scr.height (fun buf => (s.drawWindows arch font scr c (buf, mem)).1)
      (s.windowsLayer arch font scr (s.contents arch font c mem)) := by
  have hwindows := Draws.foldl s.order fun index _ =>
    @paintWindow_draws arch font scr s (s.contents arch font c mem) index
  refine (hwindows.comp (@drawDesktop_draws arch font scr c.status)).congr_op fun buf => ?_
  rw [drawWindows_eq hnodup]

/-- The byte belongs to the buffer of a system window. -/
def SystemPixels (arch : Arch) (s : Stacking) (addr : ℕ) : Prop :=
  ∃ (index : ℕ) (w : Window), s.gui.desktop.windows[index]? = some w ∧ w.used = true ∧
    w.system = true ∧ w.Owns arch addr

/-- Nothing else is rendered. -/
theorem rendered_apply {mem : ℕ → UInt8} {addr : ℕ} (haddr : ¬ s.SystemPixels arch addr) :
    s.rendered arch font c mem index addr = mem addr := by
  unfold rendered
  cases hw : s.gui.desktop.windows[index]? with
  | none => rfl
  | some w =>
    dsimp only
    by_cases hused : w.used = false
    · rw [if_pos hused]
    rw [if_neg hused, render]
    by_cases hsystem : w.system = true
    · have hnot : ¬ w.Owns arch addr := fun howns =>
        haddr ⟨index, w, hw, Bool.eq_true_of_not_eq_false hused, hsystem, howns⟩
      rw [if_pos hsystem]
      split_ifs
      · exact Window.renderShell_local c.shell mem addr hnot
      · exact Window.renderConsole_local c.console mem addr hnot
    · rw [if_neg hsystem]

theorem foldl_rendered_apply {indices : List ℕ} {mem : ℕ → UInt8} {addr : ℕ}
    (haddr : ¬ s.SystemPixels arch addr) :
    indices.foldl (s.rendered arch font c) mem addr = mem addr := by
  induction indices generalizing mem with
  | nil => rfl
  | cons index indices ih =>
    rw [List.foldl_cons, ih, rendered_apply haddr]

theorem drawCursor_draws (x y : ℕ) : Draws scr.width scr.height (drawCursor arch scr x y)
    (cursorLayer arch x y) :=
  Draws.foldl cursorPoints fun _ _ => Gfx.putPixel_draws _ _ _

/-- The desktop has a colour everywhere. -/
theorem desktopLayer_some (status : List UInt8) (x y : ℕ) :
    ∃ color, desktopLayer arch font scr status x y = some color := by
  unfold desktopLayer Layer.atop Layer.filled
  split_ifs <;> exact ⟨_, rfl⟩

/-! ## What is shown where -/

/-- The topmost window that has a colour at the point. -/
def shownAt (arch : Arch) (font : ℕ → ℕ → UInt8) (s : Stacking) (c : Contents) (x y : ℕ) :
    Option ℕ :=
  s.order.reverse.find? fun index => (s.windowLayer arch font c index x y).isSome

/-- The colour of a point: that of the pointer, of the topmost window, or of the desktop. -/
def colorAt (arch : Arch) (font : ℕ → ℕ → UInt8) (scr : Gfx.Screen) (s : Stacking) (c : Contents)
    (x y : ℕ) : Option Gfx.Color :=
  (cursorLayer arch c.mouseX c.mouseY x y).or
    (((s.shownAt arch font c x y).bind fun index => s.windowLayer arch font c index x y).or
      (desktopLayer arch font scr c.status x y))

theorem colorAt_eq (s : Stacking) (c : Contents) (x y : ℕ) : s.colorAt arch font scr c x y =
    (cursorLayer arch c.mouseX c.mouseY).atop (s.windowsLayer arch font scr c) x y := by
  rw [Layer.atop, windowsLayer, Layer.atop, Layer.pile_map]
  rfl

theorem colorAt_some (s : Stacking) (c : Contents) (x y : ℕ) :
    ∃ color, s.colorAt arch font scr c x y = some color := by
  obtain ⟨color, hcolor⟩ := @desktopLayer_some arch font scr c.status x y
  rw [colorAt, hcolor]
  generalize cursorLayer arch c.mouseX c.mouseY x y = pointer
  generalize ((s.shownAt arch font c x y).bind fun index => s.windowLayer arch font c index x y) =
    window
  cases pointer <;> cases window <;> exact ⟨_, rfl⟩

/-! ## Pressing what is shown -/

/-- The sums for the windows in use do not wrap. -/
def Fits (arch : Arch) (s : Stacking) : Prop :=
  ∀ index w, s.gui.desktop.windows[index]? = some w → w.used = true →
    s.x index + w.width + 2 < 2 ^ arch.wordBits ∧ s.y index + w.height + 21 < 2 ^ arch.wordBits ∧
      w.width * w.height < 2 ^ arch.wordBits

theorem covers_iff : s.covers mx my index = true ↔ ∃ w, s.gui.desktop.windows[index]? = some w ∧
    w.used = true ∧
    s.x index ≤ mx ∧ mx < s.x index + w.width ∧ s.y index ≤ my ∧
    my < s.y index + (w.height + 20) := by
  unfold covers
  cases s.gui.desktop.windows[index]? with
  | none => simp
  | some w =>
    simp only [Bool.and_eq_true, decide_eq_true_iff, Option.some.injEq, exists_eq_left']
    constructor
    · rintro ⟨⟨⟨⟨hused, hleft⟩, hright⟩, htop⟩, hbottom⟩
      exact ⟨hused, hleft, hright, htop, hbottom⟩
    · rintro ⟨hused, hleft, hright, htop, hbottom⟩
      exact ⟨⟨⟨⟨hused, hleft⟩, hright⟩, htop⟩, hbottom⟩

/-- A point below the title, right of the left edge, is one of the contents. -/
theorem contentLayer_some {x y : ℕ} {w : Window} {pixels : ℕ → Gfx.Color}
    (hx : x + w.width + 2 < 2 ^ arch.wordBits) (hy : y + w.height + 21 < 2 ^ arch.wordBits)
    (hlen : w.width * w.height < 2 ^ arch.wordBits) (hleft : x < mx) (hright : mx < x + w.width + 1)
    (htop : y + 20 ≤ my) (hbottom : my < y + w.height + 20) :
    contentLayer arch x y w pixels mx my =
      some (pixels ((my - (y + 20)) * w.width + (mx - (x + 1)))) := by
  have hrow := Nat.mul_le_mul_right w.width (by omega : my - (y + 20) + 1 ≤ w.height)
  rw [Nat.add_one_mul, Nat.mul_comm w.height] at hrow
  unfold contentLayer border titleHeight
  rw [Nat.mod_eq_of_lt (by omega : x + 1 < 2 ^ arch.wordBits),
    Nat.mod_eq_of_lt (by omega : y + 20 < 2 ^ arch.wordBits), Nat.mod_eq_of_lt hlen]
  have hidx : Gfx.blitIdx arch (x + 1) (y + 20) w.width mx my = (my - (y + 20)) * w.width +
    (mx - (x + 1)) := by
    rw [Gfx.blitIdx, Nat.mod_eq_of_lt (by omega)]
  rw [Layer.filled_apply, hidx, if_pos]
  simp only [Gfx.inRect, Bool.and_eq_true, decide_eq_true_eq]
  omega

/-- A frame has a colour in its title and on its left edge. -/
theorem frameLayer_some {x y : ℕ} {w : Window} {title : List UInt8} {focused : Bool}
    (hx : x + w.width + 2 < 2 ^ arch.wordBits) (hy : y + w.height + 21 < 2 ^ arch.wordBits)
    (hleft : x ≤ mx) (hright : mx < x + w.width) (htop : y ≤ my)
    (hbottom : my < y + (w.height + 20)) (hframe : my < y + 20 ∨ mx = x) :
    (frameLayer arch font x y w title focused mx my).isSome = true := by
  unfold frameLayer border titleHeight
  rw [Nat.mod_eq_of_lt (by omega : w.width + 1 * 2 < 2 ^ arch.wordBits),
    Nat.mod_eq_of_lt (by omega : w.height + 20 + 1 < 2 ^ arch.wordBits),
    Nat.mod_eq_of_lt (by omega : x + (w.width + 1 * 2) < 2 ^ arch.wordBits),
    Nat.mod_eq_of_lt (by omega : y + 20 < 2 ^ arch.wordBits), Layer.isSome_atop, Layer.isSome_atop,
    Bool.or_eq_true, Bool.or_eq_true]
  rcases hframe with htitle | hedge
  · right; right
    rw [Layer.filled_apply, if_pos]
    · rfl
    · simp only [Gfx.inRect, Bool.and_eq_true, decide_eq_true_eq]
      omega
  · left
    rw [Layer.filled_apply, if_pos]
    · rfl
    · rw [Gfx.onEdge_iff (by omega) (by omega)]
      omega

/-- A window has a colour wherever a press finds it. -/
theorem windowLayer_some (hfits : s.Fits arch) (hcovers : s.covers mx my index = true) :
    (s.windowLayer arch font k index mx my).isSome = true := by
  obtain ⟨w, hw, hused, hleft, hright, htop, hbottom⟩ := covers_iff.1 hcovers
  obtain ⟨hx, hy, hlen⟩ := hfits index w hw hused
  have hnot : ¬ w.used = false := by rw [hused]; exact Bool.noConfusion
  unfold windowLayer
  rw [hw]
  dsimp only
  rw [if_neg hnot, Layer.isSome_atop, Bool.or_eq_true]
  by_cases hcontent : s.x index < mx ∧ s.y index + 20 ≤ my
  · left
    rw [contentLayer_some hx hy hlen hcontent.1 (by omega) hcontent.2 (by omega)]
    rfl
  · exact .inr (frameLayer_some hx hy hleft hright htop hbottom (by omega))

theorem Fits.within (hfits : s.Fits arch) (mx my : ℕ) : s.Within arch mx my := by
  intro _ index w htop hw
  obtain ⟨-, -, -, hcovers, -⟩ := htop
  obtain ⟨w', hw', hused, hleft, hright, htop, hbottom⟩ := covers_iff.1 hcovers
  obtain rfl : w = w' := Option.some.inj (hw.symm.trans hw')
  obtain ⟨hx, hy, -⟩ := hfits index w hw hused
  unfold titleHeight
  rw [Nat.mod_eq_of_lt (by omega : s.x index + w.width < 2 ^ arch.wordBits),
    Nat.mod_eq_of_lt (by omega : w.height + 20 < 2 ^ arch.wordBits),
    Nat.mod_eq_of_lt (by omega : s.y index + (w.height + 20) < 2 ^ arch.wordBits)]
  exact ⟨hright, hbottom⟩

/-- If the window that is shown contains the point, it is the topmost that does. -/
theorem topmost_of_shown (hfits : s.Fits arch) (hshown : s.shownAt arch font k mx my = some index)
    (hcovers : s.covers mx my index = true) : s.Topmost mx my index := by
  rw [topmost_iff, List.find?_eq_some_iff_append]
  obtain ⟨-, above, below, horder, habove⟩ := List.find?_eq_some_iff_append.1 hshown
  refine ⟨hcovers, above, below, horder, fun j hj => ?_⟩
  have hnone := habove j hj
  rw [Bool.not_eq_true'] at hnone ⊢
  cases hj' : s.covers mx my j with
  | false => rfl
  | true =>
    rw [windowLayer_some hfits hj'] at hnone
    cases hnone

end Stacking

/-- Each point of the screen has the colour of the pointer, of the topmost window that has a colour
there, or of the desktop. Of the memory, only the framebuffer and the buffers of system windows
change, and of the back buffer the words that the screen has. -/
theorem compose_shows {arch : Arch} {font : ℕ → ℕ → UInt8} {scr : Gfx.Screen} {s : Stacking}
    {c : Scene} {buf : Gfx.Buffer} {mem : ℕ → UInt8} (hactive : c.active = true)
    (hnodup : s.order.Nodup) (hpitch : scr.width * 4 ≤ scr.pitch)
    (hfits : scr.addr + scr.height * scr.pitch ≤ 2 ^ arch.wordBits) :
    (∀ x < scr.width, ∀ y < scr.height, ∃ color,
      s.colorAt arch font scr (s.contents arch font c mem) x y = some color ∧
        loadNat arch.wordBits (s.compose arch font scr c buf mem).2
          (scr.addr + y * scr.pitch + x * 4) 4 = color.toNat) ∧
      (∀ a, (a < scr.addr ∨ scr.addr + scr.height * scr.pitch ≤ a) → ¬ s.SystemPixels arch a →
        (s.compose arch font scr c buf mem).2 a = mem a) ∧
      ∀ i, scr.width * scr.height ≤ i → (s.compose arch font scr c buf mem).1 i = buf i := by
  have hdraws := (@Stacking.drawCursor_draws arch scr c.mouseX c.mouseY).comp
    (@Stacking.drawWindows_draws arch font scr s c mem hnodup)
  have hcompose : s.compose arch font scr c buf mem =
      (_, Gfx.present arch scr _ (s.drawWindows arch font scr c (buf, mem)).2) :=
    if_neg fun hoff => Bool.noConfusion (hactive.symm.trans hoff)
  rw [hcompose]
  obtain ⟨hshows, hmem⟩ := @Gfx.present_shows arch scr
    (Stacking.drawCursor arch scr c.mouseX c.mouseY (s.drawWindows arch font scr c (buf, mem)).1)
    (s.drawWindows arch font scr c (buf, mem)).2 hpitch hfits
  refine ⟨fun x hx y hy => ?_, fun a ha haddr => ?_, (hdraws buf).2⟩
  · obtain ⟨color, hcolor⟩ := @Stacking.colorAt_some arch font scr s
      (s.contents arch font c mem) x y
    refine ⟨color, hcolor, (hshows x hx y hy).trans (congrArg UInt32.toNat ?_)⟩
    refine ((hdraws buf).1 x hx y hy).trans ?_
    rw [Stacking.colorAt_eq] at hcolor
    exact congrArg (Option.getD · _) hcolor
  · refine (hmem a ha).trans ?_
    rw [Stacking.drawWindows_eq hnodup]
    exact Stacking.foldl_rendered_apply haddr

/-- A screen of 160 times 120 points. -/
def deskScreen : Gfx.Screen where
  addr := 0xFD000000
  pitch := 640
  width := 160
  height := 120
  width_le := by decide
  height_le := by decide

def quietScene : Scene where
  active := true
  title _ := [65]
  status := [84]
  mouseX := 0
  mouseY := 0
  console := TextConsole.boot
  shell := ⟨fun _ _ => 32, 0, 0, 0⟩

/-- The window of the shell, and one beside it. -/
def shellAndWindow : Stacking :=
  (Stacking.boot.startShell .i386 10 30 0 0 16 16).after .i386 (.create 60 30 1 0 40 40 false)

theorem compose_shows_shell :
    loadNat 32 (shellAndWindow.compose .i386 (fun i _ => UInt8.ofNat i) deskScreen quietScene
      (fun _ => 0) fun _ => 0).2 (0xFD000000 + 55 * 640 + 13 * 4) 4 = 0x00080C10 := by
  have hnodup : shellAndWindow.order.Nodup := by decide +kernel
  obtain ⟨color, hcolor, hload⟩ := (@compose_shows .i386 (fun i _ => UInt8.ofNat i) deskScreen
    shellAndWindow quietScene (fun _ => 0) (fun _ => 0) rfl hnodup (by decide) (by decide)).1
    13 (by decide) 55 (by decide)
  have hshown : shellAndWindow.colorAt .i386 (fun i _ => UInt8.ofNat i) deskScreen
      (shellAndWindow.contents .i386 (fun i _ => UInt8.ofNat i) quietScene fun _ => 0) 13 55 =
        some 0x00080C10 := by
    decide +kernel
  rw [hshown] at hcolor
  cases hcolor
  exact hload

/-- A press where a window is shown raises this window, unless the point is on an edge, in the last
column of the contents or in a title that its test leaves out; and a press raises the window that is
shown there, unless such a part of another window covers it. -/
theorem press_shown {arch : Arch} {es : List StackEvent} {s : Stacking} (font : ℕ → ℕ → UInt8)
    (c : Contents) (mx my : ℕ) (h : Run (StackStep arch) Stacking.boot es s)
    (hbutton : s.button = false) (hfits : s.Fits arch) :
    (∀ index, s.shownAt arch font c mx my = some index → s.covers mx my index = true →
      s.raised arch mx my true = some index) ∧
      ∀ index, s.raised arch mx my true = some index →
        ∃ j, s.shownAt arch font c mx my = some j ∧ (j = index ∨ s.covers mx my j = false) := by
  have hpress := (Stacking.sound_run h).press_iff.2 (hfits.within mx my) hbutton
  have hraised : ∀ index, s.shownAt arch font c mx my = some index → s.covers mx my index = true →
      s.raised arch mx my true = some index := fun index hshown hcovers =>
    (hpress index).2 (Stacking.topmost_of_shown hfits hshown hcovers)
  refine ⟨hraised, fun index hindex => ?_⟩
  obtain ⟨below, above, horder, hcovers, -⟩ := (hpress index).1 hindex
  have hsome : (s.shownAt arch font c mx my).isSome = true := by
    refine List.find?_isSome.2
      ⟨index, List.mem_reverse.2 ?_, Stacking.windowLayer_some hfits hcovers⟩
    rw [horder]
    exact List.mem_append_right _ List.mem_cons_self
  obtain ⟨j, hj⟩ := Option.isSome_iff_exists.1 hsome
  refine ⟨j, hj, ?_⟩
  cases hcovers' : s.covers mx my j with
  | false => exact .inr rfl
  | true => exact .inl (Option.some.inj ((hraised j hj hcovers').symm.trans hindex))

/-- Contents by which each point of a window shows its own place. -/
def lettered : Contents where
  title _ := [65]
  pixels index i := UInt32.ofNat (10000 * index + i)
  status := [84]
  mouseX := 0
  mouseY := 0

theorem press_shown_twoWindows : twoWindows.raised .i386 60 40 true = some 1 := by
  have hrun : Run (StackStep .i386) Stacking.boot
      [.create 10 20 1 0 100 50 false, .create 40 30 1 0 100 50 false] twoWindows :=
    .cons rfl (.cons rfl (.nil _))
  have hall : twoWindows.gui.desktop.windows.zipIdx.all (fun p => decide (p.1.used = true →
      twoWindows.x p.2 + p.1.width + 2 < 2 ^ 32 ∧ twoWindows.y p.2 + p.1.height + 21 < 2 ^ 32 ∧
        p.1.width * p.1.height < 2 ^ 32)) = true := by
    decide +kernel
  have hfits : twoWindows.Fits .i386 := by
    intro index w hw hused
    exact of_decide_eq_true (List.all_eq_true.1 hall (w, index) (List.mem_zipIdx_iff_getElem?.2 hw))
      hused
  exact (press_shown (fun i _ => UInt8.ofNat i) lettered 60 40 hrun (by decide +kernel) hfits).1 1
    (by decide +kernel) (by decide +kernel)

end Tcmk
