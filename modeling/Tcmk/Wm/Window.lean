import Tcmk.Arch
import Tcmk.Lib.Run
import Tcmk.Memory.Heap

/-!
# Window buffers (`wm.rs`)

A window's pixels are a block of the kernel heap, and `create` opens the block's pages to the
process that the window belongs to. The model keeps every block that `kmalloc_aligned` has given
out and every page that has been opened. `wordBits` is the width of `usize`.
-/

namespace Tcmk

open Lib

/-- `MAX_WINDOWS`. -/
def maxWindows : ℕ := 8

/-- `WINDOW_MAP_BASE`. -/
def windowMapBase : ℕ := 0x00D00000

/-- `WINDOW_MAP_SLOT`. -/
def windowMapSlot : ℕ := 0x00080000

/-- `WINDOW_MAP_SLOTS`. -/
def windowMapSlots : ℕ := 4

/-- A block that `kmalloc_aligned` has given out. -/
structure Block where
  start : ℕ
  len : ℕ
  align : ℕ
  deriving DecidableEq

namespace Block

/-- The address after the block. -/
def limit (b : Block) : ℕ := b.start + b.len

/-- The byte is in the block. -/
def Covers (b : Block) (addr : ℕ) : Prop := b.start ≤ addr ∧ addr < b.limit

end Block

/-- `Window`. -/
structure Window where
  used : Bool
  width : ℕ
  height : ℕ
  buffer : ℕ
  system : Bool
  owner : ℕ
  userAddr : ℕ

/-- A physical page that processes may write: those of the address space `space`, or of every
one if it is `0`. -/
structure OpenPage where
  space : ℕ
  page : ℕ
  /-- the window's block -/
  block : Block

/-- The heap and the window manager. -/
structure Desktop where
  heap : Heap
  /-- the blocks of the heap, the latest first -/
  blocks : List Block
  windows : List Window
  opened : List OpenPage

namespace Desktop

def boot : Desktop := ⟨Heap.initial, [], [], []⟩

/-- `kmalloc_aligned`. -/
def kmalloc (s : Desktop) (size align : ℕ) : Option Block × Desktop :=
  match s.heap.kmallocAligned size align with
  | none => (none, s)
  | some (start, heap) =>
    (some ⟨start, size, align⟩, { s with heap := heap, blocks := ⟨start, size, align⟩ :: s.blocks })

/-- `free_slot`. -/
def freeSlot (s : Desktop) : Option ℕ := s.windows.findIdx? fun w => !w.used

/-- `owned_window_count`. -/
def ownedWindowCount (s : Desktop) (owner : ℕ) : ℕ :=
  s.windows.countP fun w => w.used && !w.system && w.owner == owner

/-- The loop of `map_user_frames`, from the page `vaddr` on. `user_pte` gives no entry outside the
user's 4 MiB. -/
def mapPages (space : ℕ) (block : Block) : ℕ → ℕ → ℕ → List OpenPage → Bool × List OpenPage
  | 0, _, _, opened => (true, opened)
  | n + 1, vaddr, page, opened =>
    if vaddr / 2 ^ 22 ≠ userPde then (false, opened)
    else mapPages space block n (vaddr + pageSize) (page + 1) (⟨space, page, block⟩ :: opened)

/-- `map_user_frames`. -/
def mapUserFrames (s : Desktop) (space vaddr : ℕ) (block : Block) : Bool × Desktop :=
  if block.len = 0 then (true, s)
  else if vaddr % pageSize ≠ 0 ∨ block.start % pageSize ≠ 0 then (false, s)
  else
    let pages := (block.len + pageSize - 1) / pageSize
    let (ok, opened) := mapPages space block pages vaddr (block.start / pageSize) s.opened
    (ok, { s with opened := opened })

/-- `protect_user_range`: the pages are opened in the kernel's own page tables. -/
def protectUserRange (s : Desktop) (block : Block) : Desktop :=
  if block.len = 0 then s
  else
    let first := block.start / pageSize
    let last := (block.start + block.len - 1) / pageSize
    { s with
      opened := (List.range' first (last + 1 - first)).map (⟨0, ·, block⟩) ++ s.opened }

/-- The end of `create`: the window gets a slot of the table. -/
def place (s : Desktop) (slot : Option ℕ) (w : Window) : Option ℕ × Desktop :=
  match slot with
  | some index => (some index, { s with windows := s.windows.set index w })
  | none => (some s.windows.length, { s with windows := s.windows ++ [w] })

/-- `create`, called by the task `owner` with the address space `space`. -/
def create (wordBits : ℕ) (s : Desktop) (owner space width height : ℕ) (system : Bool) :
    Option ℕ × Desktop :=
  if width = 0 ∨ height = 0 then (none, s)
  else
    let slot := s.freeSlot
    if slot = none ∧ s.windows.length ≥ maxWindows then (none, s)
    else
      let bytes := width * height * 4 % 2 ^ wordBits
      match s.kmalloc bytes pageSize with
      | (none, s) => (none, s)
      | (some block, s) =>
        if space ≠ 0 ∧ system = false then
          let n := s.ownedWindowCount owner
          if n ≥ windowMapSlots ∨ bytes > windowMapSlot then (none, s)
          else
            let vaddr := windowMapBase + n * windowMapSlot
            match s.mapUserFrames space vaddr block with
            | (false, s) => (none, s)
            | (true, s) => s.place slot ⟨true, width, height, block.start, system, owner, vaddr⟩
        else if system = false then
          (s.protectUserRange block).place slot
            ⟨true, width, height, block.start, system, owner, block.start⟩
        else s.place slot ⟨true, width, height, block.start, system, owner, 0⟩

/-- `close_owned_by`. The pages stay open, and the block stays allocated. -/
def closeOwnedBy (s : Desktop) (owner : ℕ) : Desktop :=
  { s with windows := s.windows.map fun w =>
      if !w.used || w.system || w.owner != owner then w
      else { w with used := false, userAddr := 0 } }

end Desktop

inductive DesktopEvent
  /-- any other allocation -/
  | kmalloc (size align : ℕ)
  | create (owner space width height : ℕ) (system : Bool)
  | close (owner : ℕ)

def Desktop.after (wordBits : ℕ) (s : Desktop) : DesktopEvent → Desktop
  | .kmalloc size align => (s.kmalloc size align).2
  | .create owner space width height system => (s.create wordBits owner space width height system).2
  | .close owner => s.closeOwnedBy owner

/-- One step. -/
def DesktopStep (wordBits : ℕ) (s : Desktop) (e : DesktopEvent) (s' : Desktop) : Prop :=
  s' = s.after wordBits e

end Tcmk
