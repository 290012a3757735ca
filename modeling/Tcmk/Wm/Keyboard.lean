import Tcmk.Lib.Ring
import Tcmk.Wm.Window

/-!
# Keys and focus (`gui_api.rs`, `wm.rs`)

Every slot of the window table has a ring of keys. A key goes to the window that has the focus, and
the system calls take keys from a slot: `win_poll_key` and the message calls of NT from the slot
that the caller names, `read` on standard input from the caller's first window.

The table and its allocation are those of `Desktop`. The z-order is left out: which of the windows
in use lies on top under the pointer is up to the event.
-/

namespace Tcmk

open Lib

/-- `KEY_QUEUE`. -/
def keyQueue : ℕ := 16

/-- A row of `KEYS`, with its `KEY_HEAD` and `KEY_TAIL`. -/
structure KeyRing where
  keys : ℕ → UInt8
  head : ℕ
  tail : ℕ

namespace KeyRing

def initial : KeyRing := ⟨fun _ => 0, 0, 0⟩

/-- The next key would meet the tail. -/
def full (q : KeyRing) : Bool := (q.head + 1) % keyQueue == q.tail

/-- `deliver_key`. -/
def deliverKey (q : KeyRing) (ascii : UInt8) : KeyRing :=
  if q.full then q
  else { q with keys := Function.update q.keys q.head ascii, head := (q.head + 1) % keyQueue }

/-- `has_key`. -/
def hasKey (q : KeyRing) : Bool := q.tail != q.head

/-- `poll_key`. -/
def pollKey (q : KeyRing) : UInt8 × KeyRing :=
  if q.tail = q.head then (0, q) else (q.keys q.tail, { q with tail := (q.tail + 1) % keyQueue })

end KeyRing

/-- The window manager and its statics `FOCUSED`, `SHELL_WINDOW` and the rings. `usize::MAX` is
`none`. -/
structure Gui where
  desktop : Desktop
  focused : Option ℕ
  shell : Option ℕ
  rings : ℕ → KeyRing

namespace Gui

def boot : Gui := ⟨Desktop.boot, none, none, fun _ => KeyRing.initial⟩

/-- `create`. A new window takes the focus only if there is none. -/
def create (wordBits : ℕ) (s : Gui) (owner space width height : ℕ) (system : Bool) :
    Option ℕ × Gui :=
  match s.desktop.create wordBits owner space width height system with
  | (none, desktop) => (none, { s with desktop := desktop })
  | (some index, desktop) =>
    (some index, { s with
      desktop := desktop, focused := if s.focused = none then some index else s.focused })

/-- The call closes the window. -/
def closes (s : Gui) (owner index : ℕ) : Bool :=
  match s.desktop.windows[index]? with
  | none => false
  | some w => w.used && !w.system && w.owner == owner

/-- `close_owned_by`. The focus of a window that is closed goes back to the shell. The shell's own
window is not closed, so that the loop's later rounds do not see the new focus. -/
def closeOwnedBy (s : Gui) (owner : ℕ) : Gui :=
  { s with
    desktop := s.desktop.closeOwnedBy owner
    focused := if s.focused.any (s.closes owner) then s.shell else s.focused }

/-- `raise`. -/
def raise (s : Gui) (index : ℕ) : Gui := { s with focused := some index }

/-- `focus`. -/
def focus (s : Gui) (index : ℕ) : Gui :=
  if index < s.desktop.windows.length then s.raise index else s

/-- `shell::start`, with `mark_shell`. -/
def startShell (wordBits : ℕ) (s : Gui) (owner space width height : ℕ) : Gui :=
  match s.create wordBits owner space width height true with
  | (none, s) => s
  | (some id, s) => { s with shell := some id }.focus id

/-- `deliver_key`. -/
def deliverKey (s : Gui) (id : ℕ) (ascii : UInt8) : Gui :=
  if id ≥ maxWindows then s
  else { s with rings := Function.update s.rings id ((s.rings id).deliverKey ascii) }

/-- The window that `handle_input` delivers a key to. Keys for the shell are not queued. -/
def target (s : Gui) : Option ℕ := if s.focused = s.shell then none else s.focused

/-- `handle_input` for a key. -/
def handleKey (s : Gui) (ascii : UInt8) : Gui :=
  match s.target with
  | none => s
  | some f => s.deliverKey f ascii

/-- `has_key`. -/
def hasKey (s : Gui) (id : ℕ) : Bool := id < maxWindows && (s.rings id).hasKey

/-- `poll_key`. -/
def pollKey (s : Gui) (id : ℕ) : UInt8 × Gui :=
  if id ≥ maxWindows then (0, s)
  else
    ((s.rings id).pollKey.1, { s with rings := Function.update s.rings id (s.rings id).pollKey.2 })

/-- `first_window_of`. -/
def firstWindowOf (s : Gui) (owner : ℕ) : Option ℕ :=
  s.desktop.windows.findIdx? fun w => w.used && !w.system && w.owner == owner

/-- The loop of `read` on standard input, for at most `room` more bytes. -/
def readKeys (s : Gui) (window : ℕ) : ℕ → List UInt8 × Gui
  | 0 => ([], s)
  | room + 1 =>
    let r := s.pollKey window
    if r.1 = 0 then ([], r.2)
    else
      let rest := readKeys r.2 window room
      (r.1 :: rest.1, rest.2)

/-- `read` on a standard input that is not redirected. -/
def readStdin (s : Gui) (task room : ℕ) : List UInt8 × Gui :=
  match s.firstWindowOf task with
  | none => ([], s)
  | some window => s.readKeys window room

end Gui

inductive GuiEvent
  /-- any other allocation of the kernel heap -/
  | kmalloc (size align : ℕ)
  | create (owner space width height : ℕ) (system : Bool)
  | startShell (owner space width height : ℕ)
  | close (owner : ℕ)
  /-- the shell's command -/
  | focus (index : ℕ)
  /-- `handle_mouse`: a click into a window -/
  | click (index : ℕ)
  | key (ascii : UInt8)
  /-- `win_poll_key`, and the message calls of NT -/
  | pollKey (task window : ℕ)
  | readStdin (task room : ℕ)
  deriving DecidableEq

namespace Gui

/-- The window is in use. -/
def InUse (s : Gui) (index : ℕ) : Prop :=
  ∃ w, s.desktop.windows[index]? = some w ∧ w.used = true

/-- The window is in use, and it is the task's. -/
def Owns (s : Gui) (task index : ℕ) : Prop :=
  ∃ w, s.desktop.windows[index]? = some w ∧ w.used = true ∧ w.owner = task

/-- A click goes to a window that is in use. -/
def Enabled (s : Gui) : GuiEvent → Prop
  | .click index => s.InUse index
  | _ => True

def after (wordBits : ℕ) (s : Gui) : GuiEvent → Gui
  | .kmalloc size align => { s with desktop := (s.desktop.kmalloc size align).2 }
  | .create owner space width height system => (s.create wordBits owner space width height system).2
  | .startShell owner space width height => s.startShell wordBits owner space width height
  | .close owner => s.closeOwnedBy owner
  | .focus index => s.focus index
  | .click index => s.raise index
  | .key ascii => s.handleKey ascii
  | .pollKey _ window => (s.pollKey window).2
  | .readStdin task room => (s.readStdin task room).2

/-- What a task gets from an event. -/
def answer (task : ℕ) (s : Gui) : GuiEvent → Option (List UInt8)
  | .pollKey t window => if t = task then some [(s.pollKey window).1] else none
  | .readStdin t room => if t = task then some (s.readStdin task room).1 else none
  | _ => none

/-- One step. -/
def Step (wordBits : ℕ) (s : Gui) (e : GuiEvent) (t : Gui) : Prop :=
  s.Enabled e ∧ t = s.after wordBits e

end Gui

end Tcmk
