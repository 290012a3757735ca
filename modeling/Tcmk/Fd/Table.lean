import Tcmk.Pipe.Table
import Tcmk.Sched.Machine

/-!
# File descriptors (`core/fd.rs` and the file calls of `kernel_api.rs`)

Every task has a table of `maxFds` descriptors. A descriptor for an end of a pipe counts among
the pipe's writers or readers. Every call acts on the table of the current task and is one step.

The file system, the windows and the caller's buffers are not part of this model: a call gets what
the VFS answers as an argument.
-/

namespace Tcmk

open Lib

/-- `MAX_FDS`. -/
def maxFds : ℕ := 16

/-- `FIRST_FREE_FD`: `0`, `1` and `2` are only taken by `dup2`. -/
def firstFreeFd : ℕ := 3

inductive FdKind
  | file
  | pipeRead
  | pipeWrite
  deriving DecidableEq

/-- `FileDescriptor`. The node is that of the VFS, or the number of the pipe. -/
structure FileDescriptor where
  used : Bool
  kind : FdKind
  node : ℕ
  offset : ℕ
  deriving DecidableEq

/-- `FileDescriptor::empty`. -/
def FileDescriptor.empty : FileDescriptor := ⟨false, .file, 0, 0⟩

/-- `KernelError`. -/
inductive KernelError
  | badFileDescriptor
  | fault
  | notFound
  | tooManyOpenFiles
  | notSupported
  deriving DecidableEq

/-- `retain`. -/
def PipeTable.retain (t : PipeTable) (entry : FileDescriptor) : PipeTable :=
  match entry.kind with
  | .pipeRead => t.addRef entry.node false
  | .pipeWrite => t.addRef entry.node true
  | .file => t

/-- `release`. -/
def PipeTable.release (t : PipeTable) (entry : FileDescriptor) : PipeTable :=
  match entry.kind with
  | .pipeRead => t.closeEnd entry.node false
  | .pipeWrite => t.closeEnd entry.node true
  | .file => t

/-- The statics `TABLES`, `PIPES` and `BUFFERS`. -/
structure FdState where
  tables : ℕ → ℕ → FileDescriptor
  pipes : PipeTable

namespace FdState

/-- After `init`. -/
def initial : FdState := ⟨fun _ _ => FileDescriptor.empty, PipeTable.initial⟩

/-- Write one entry. -/
def put (s : FdState) (task fd : ℕ) (entry : FileDescriptor) : FdState :=
  { s with tables := Function.update s.tables task (Function.update (s.tables task) fd entry) }

def retain (s : FdState) (entry : FileDescriptor) : FdState :=
  { s with pipes := s.pipes.retain entry }

def release (s : FdState) (entry : FileDescriptor) : FdState :=
  { s with pipes := s.pipes.release entry }

/-- `clone_into`. -/
def cloneInto (s : FdState) (parent child : ℕ) : FdState :=
  if child ≥ maxTasks then s
  else
    (List.range maxFds).foldl (fun s i =>
      let entry := s.tables parent i
      let s := s.put child i entry
      if entry.used then s.retain entry else s) s

/-- `close_all`. -/
def closeAll (s : FdState) (task : ℕ) : FdState :=
  if task ≥ maxTasks then s
  else
    (List.range maxFds).foldl (fun s i =>
      let entry := s.tables task i
      if !entry.used then s else (s.release entry).put task i .empty) s

/-- The lowest free descriptor from `FIRST_FREE_FD` on. -/
def firstFree (s : FdState) (task : ℕ) : Option ℕ :=
  (List.range' firstFreeFd (maxFds - firstFreeFd)).find? fun fd => !(s.tables task fd).used

/-- `allocate`. -/
def allocate (s : FdState) (task node : ℕ) : Option (ℕ × FdState) :=
  (s.firstFree task).map fun fd => (fd, s.put task fd ⟨true, .file, node, 0⟩)

/-- `allocate_pipe`. -/
def allocatePipe (s : FdState) (task pipe : ℕ) (kind : FdKind) : Option (ℕ × FdState) :=
  (s.firstFree task).map fun fd => (fd, s.put task fd ⟨true, kind, pipe, 0⟩)

/-- `get`. -/
def get (s : FdState) (task fd : ℕ) : Option FileDescriptor :=
  if fd ≥ maxFds then none
  else if (s.tables task fd).used then some (s.tables task fd)
  else none

/-- `dup`. -/
def dup (s : FdState) (task oldfd : ℕ) : Option (ℕ × FdState) :=
  if oldfd ≥ maxFds ∨ (s.tables task oldfd).used = false then none
  else
    let entry := s.tables task oldfd
    (s.firstFree task).map fun fd => (fd, (s.put task fd entry).retain entry)

/-- `dup2`. -/
def dup2 (s : FdState) (task oldfd newfd : ℕ) : Option (ℕ × FdState) :=
  if oldfd ≥ maxFds ∨ newfd ≥ maxFds ∨ (s.tables task oldfd).used = false then none
  else if oldfd = newfd then some (newfd, s)
  else
    let entry := s.tables task oldfd
    let previous := s.tables task newfd
    let s := if previous.used then s.release previous else s
    some (newfd, (s.put task newfd entry).retain entry)

/-- `advance`. -/
def advance (s : FdState) (task fd delta : ℕ) : FdState :=
  if fd ≥ maxFds then s
  else
    let entry := s.tables task fd
    if entry.used then s.put task fd { entry with offset := entry.offset + delta } else s

/-- `fd::close`. -/
def close (s : FdState) (task fd : ℕ) : Bool × FdState :=
  if fd ≥ maxFds then (false, s)
  else
    let entry := s.tables task fd
    if !entry.used then (false, s)
    else (true, (s.release entry).put task fd .empty)

/-! ## Calls -/

/-- `pipe::close_end`. -/
def closeEnd (s : FdState) (index : ℕ) (writer : Bool) : FdState :=
  { s with pipes := s.pipes.closeEnd index writer }

/-- `create_pipe`, with its two failure exits. -/
def createPipe (s : FdState) (task : ℕ) : Except KernelError (ℕ × ℕ) × FdState :=
  match s.pipes.create with
  | none => (.error .tooManyOpenFiles, s)
  | some (index, pipes) =>
    let s := { s with pipes := pipes }
    match s.allocatePipe task index .pipeRead with
    | none => (.error .tooManyOpenFiles, (s.closeEnd index false).closeEnd index true)
    | some (readFd, s) =>
      match s.allocatePipe task index .pipeWrite with
      | none => (.error .tooManyOpenFiles, ((s.close task readFd).2).closeEnd index true)
      | some (writeFd, s) => (.ok (readFd, writeFd), s)

/-- `open`. `node` is the file that the VFS finds or creates. -/
def openFile (s : FdState) (task : ℕ) (node : Option ℕ) : Except KernelError ℕ × FdState :=
  match node with
  | none => (.error .notFound, s)
  | some node =>
    match s.allocate task node with
    | none => (.error .tooManyOpenFiles, s)
    | some (fd, s) => (.ok fd, s)

/-- `write`. `file` is what `vfs::write_at` answers. -/
def write (s : FdState) (task fd : ℕ) (bytes : List UInt8) (file : Option ℕ) :
    Except KernelError ℕ × FdState :=
  match s.get task fd with
  | none =>
    -- `stdout` and `stderr` are the console.
    if fd = 1 ∨ fd = 2 then (.ok bytes.length, s) else (.error .badFileDescriptor, s)
  | some entry =>
    match entry.kind with
    | .pipeWrite =>
      let (written, pipes) := s.pipes.write entry.node bytes
      (.ok written, { s with pipes := pipes })
    | .pipeRead => (.error .badFileDescriptor, s)
    | .file =>
      match file with
      | none => (.error .notSupported, s)
      | some written => (.ok written, s.advance task fd written)

/-- `read` into `room` bytes. `file` is what `vfs::read` answers, and `keys` is the number of keys
that wait in the window of the task. -/
def read (s : FdState) (task fd room : ℕ) (file : Option ℕ) (keys : ℕ) :
    Except KernelError ℕ × FdState :=
  match s.get task fd with
  | none => if fd = 0 then (.ok (min room keys), s) else (.error .badFileDescriptor, s)
  | some entry =>
    match entry.kind with
    | .pipeRead =>
      let (bytes, pipes) := s.pipes.read entry.node room
      (.ok bytes.length, { s with pipes := pipes })
    | .pipeWrite => (.error .badFileDescriptor, s)
    | .file =>
      match file with
      | none => (.error .badFileDescriptor, s)
      | some n => (.ok n, s.advance task fd n)

end FdState

/-! ## Readiness -/

/-- `POLLIN`. -/
def pollIn : UInt16 := 0x001

/-- `POLLOUT`. -/
def pollOut : UInt16 := 0x004

/-- `POLLERR`. -/
def pollErr : UInt16 := 0x008

/-- `POLLHUP`. -/
def pollHup : UInt16 := 0x010

/-- `POLLNVAL`. -/
def pollNval : UInt16 := 0x020

/-- `readiness`. `key` says whether a key waits in the window of the task, if it has one. -/
def FdState.readiness (wordBits : ℕ) (s : FdState) (task : ℕ) (key : Bool) (fd : ℕ) : UInt16 :=
  match s.get task fd with
  | some entry =>
    match entry.kind with
    | .file => pollIn ||| pollOut
    | .pipeRead =>
      match s.pipes.info wordBits entry.node with
      | some (pending, writers, _) =>
        (if pending > 0 then pollIn else 0) ||| (if writers = 0 then pollHup else 0)
      | none => pollNval
    | .pipeWrite =>
      match s.pipes.info wordBits entry.node with
      | some (pending, _, readers) =>
        if readers = 0 then pollErr
        else if pending < pipeCapacity then pollOut
        else 0
      | none => pollNval
  | none =>
    if fd = 0 then (if key then pollIn else 0)
    else if fd = 1 ∨ fd = 2 then pollOut
    else pollNval

/-! ## The system -/

/-- A file call of the current task. -/
inductive FileCall
  | createPipe
  | open (node : Option ℕ)
  | dup (oldfd : ℕ)
  | dup2 (oldfd newfd : ℕ)
  | close (fd : ℕ)
  | write (fd : ℕ) (bytes : List UInt8) (file : Option ℕ)
  | read (fd room : ℕ) (file : Option ℕ) (keys : ℕ)

def FdState.call (s : FdState) (task : ℕ) : FileCall → FdState
  | .createPipe => (s.createPipe task).2
  | .open node => (s.openFile task node).2
  | .dup oldfd => ((s.dup task oldfd).map Prod.snd).getD s
  | .dup2 oldfd newfd => ((s.dup2 task oldfd newfd).map Prod.snd).getD s
  | .close fd => (s.close task fd).2
  | .write fd bytes file => (s.write task fd bytes file).2
  | .read fd room file keys => (s.read task fd room file keys).2

/-- The tasks and their descriptors. -/
structure System where
  kernel : Kernel
  files : FdState

inductive SystemEvent
  | kernel (e : KernelEvent)
  | file (c : FileCall)

namespace System

def boot : System := ⟨Kernel.boot, FdState.initial⟩

/-- What an event of the kernel does to the descriptors: `fork` copies them, `terminate_current`
and `terminate` close them. -/
def filesAfter (s : System) : KernelEvent → FdState
  | .call (.spawn true) =>
    match (s.kernel.sched.spawnInner true).1 with
    | some child => s.files.cloneInto s.kernel.sched.current child
    | none => s.files
  | .call .exit => s.files.closeAll s.kernel.sched.current
  | .call (.terminate index) =>
    match s.kernel.sched.terminate index with
    | some _ => s.files.closeAll index
    | none => s.files
  | _ => s.files

def after (s : System) : SystemEvent → System
  | .kernel e => ⟨s.kernel.after e, s.filesAfter e⟩
  | .file c => { s with files := s.files.call s.kernel.sched.current c }

def Enabled (s : System) : SystemEvent → Prop
  | .kernel e => s.kernel.Enabled e
  | .file _ => s.kernel.point s.kernel.sched.current = .free

instance (s : System) (e : SystemEvent) : Decidable (s.Enabled e) := by
  cases e <;> unfold Enabled <;> infer_instance

end System

/-- One step of the system. -/
def SystemStep (s : System) (e : SystemEvent) (s' : System) : Prop := s.Enabled e ∧ s' = s.after e

end Tcmk
