import Mathlib

/-!
# The pipe table (`core/pipe.rs`)

Four kernel pipes, each a ring of `pipeCapacity` bytes. `head` and `tail` are kept modulo
`pipeCapacity + 1`, so that a full ring differs from an empty one; a byte at position `p` is
stored in the cell `p % pipeCapacity` of the pipe's part of the shared array `BUFFERS`.

The calls run with interrupts disabled, so each of them is one step.
-/

namespace Tcmk

/-- `MAX_PIPES`. -/
def maxPipes : ℕ := 4

/-- `PIPE_CAPACITY`. -/
def pipeCapacity : ℕ := 1024

/-- One entry of `PIPES`. -/
structure Pipe where
  used : Bool
  head : ℕ
  tail : ℕ
  writers : ℕ
  readers : ℕ
  deriving DecidableEq, Repr

/-- `Pipe::new`. -/
def Pipe.new : Pipe := ⟨false, 0, 0, 0, 0⟩

/-- The statics `PIPES` and `BUFFERS`. -/
structure PipeTable where
  pipes : ℕ → Pipe
  buffers : ℕ → UInt8

namespace PipeTable

/-- The table at boot. -/
def initial : PipeTable := ⟨fun _ => Pipe.new, fun _ => 0⟩

/-- Replace one pipe's record. -/
def setPipe (t : PipeTable) (index : ℕ) (p : Pipe) : PipeTable :=
  { t with pipes := Function.update t.pipes index p }

@[simp] theorem setPipe_pipes (t : PipeTable) (index : ℕ) (p : Pipe) :
    (t.setPipe index p).pipes = Function.update t.pipes index p := rfl

@[simp] theorem setPipe_buffers (t : PipeTable) (index : ℕ) (p : Pipe) :
    (t.setPipe index p).buffers = t.buffers := rfl

/-- The cell of `BUFFERS` that holds position `pos` of a pipe. -/
def slot (index pos : ℕ) : ℕ := index * pipeCapacity + pos % pipeCapacity

/-- `create`: take the first free pipe. -/
def create (t : PipeTable) : Option (ℕ × PipeTable) :=
  match (List.range maxPipes).find? fun i => !(t.pipes i).used with
  | some i => some (i, t.setPipe i ⟨true, 0, 0, 1, 1⟩)
  | none => none

/-- `info`: (pending bytes, writers, readers). `wordBits` is the width of `usize`, which the
`wrapping_sub` depends on. -/
def info (wordBits : ℕ) (t : PipeTable) (index : ℕ) : Option (ℕ × ℕ × ℕ) :=
  if index ≥ maxPipes then none
  else
    let pipe := t.pipes index
    if !pipe.used then none
    else
      some ((pipe.head + 2 ^ wordBits - pipe.tail) % 2 ^ wordBits % (pipeCapacity + 1),
        pipe.writers, pipe.readers)

/-- The loop of `write`: gives the new head, the number of bytes written and the buffers. -/
def writeLoop (index tail : ℕ) : List UInt8 → ℕ → ℕ → (ℕ → UInt8) → ℕ × ℕ × (ℕ → UInt8)
  | [], head, written, buffers => (head, written, buffers)
  | byte :: bytes, head, written, buffers =>
    let next := (head + 1) % (pipeCapacity + 1)
    if next = tail then (head, written, buffers) -- the ring is full
    else
      writeLoop index tail bytes next (written + 1)
        (Function.update buffers (slot index head) byte)

/-- `write`: the number of bytes taken from `bytes`, and the table after it. -/
def write (t : PipeTable) (index : ℕ) (bytes : List UInt8) : ℕ × PipeTable :=
  if index ≥ maxPipes || !(t.pipes index).used then (0, t)
  else if (t.pipes index).readers = 0 then (0, t)
  else
    let pipe := t.pipes index
    let (head, written, buffers) := writeLoop index pipe.tail bytes pipe.head 0 t.buffers
    (written, { t with
      pipes := Function.update t.pipes index { pipe with head := head }
      buffers := buffers })

/-- The loop of `read` with room for `room` more bytes: the bytes read and the new tail. -/
def readLoop (index head : ℕ) (buffers : ℕ → UInt8) : ℕ → ℕ → List UInt8 × ℕ
  | 0, tail => ([], tail)
  | room + 1, tail =>
    if tail ≠ head then
      let (rest, tail') := readLoop index head buffers room ((tail + 1) % (pipeCapacity + 1))
      (buffers (slot index tail) :: rest, tail')
    else ([], tail)

/-- `read` into a slice of `room` bytes: the bytes it stores there, and the table after it. -/
def read (t : PipeTable) (index room : ℕ) : List UInt8 × PipeTable :=
  if index ≥ maxPipes || !(t.pipes index).used then ([], t)
  else
    let pipe := t.pipes index
    let (out, tail) := readLoop index pipe.head t.buffers room pipe.tail
    (out, t.setPipe index { pipe with tail := tail })

/-- `close_end`: one end goes; the pipe is free again when no end is left. -/
def closeEnd (t : PipeTable) (index : ℕ) (writer : Bool) : PipeTable :=
  if index ≥ maxPipes || !(t.pipes index).used then t
  else
    let pipe := t.pipes index
    let pipe := if writer then { pipe with writers := pipe.writers - 1 }
      else { pipe with readers := pipe.readers - 1 }
    t.setPipe index { pipe with
      used := !(pipe.writers == 0 && pipe.readers == 0) }

/-- `add_ref`: an end got one more owner. -/
def addRef (t : PipeTable) (index : ℕ) (writer : Bool) : PipeTable :=
  if index ≥ maxPipes || !(t.pipes index).used then t
  else
    let pipe := t.pipes index
    t.setPipe index (if writer then { pipe with writers := pipe.writers + 1 }
      else { pipe with readers := pipe.readers + 1 })

end PipeTable

end Tcmk
