import Tcmk.Fs.Paths

/-!
# The virtual file system (`core/vfs.rs`)

The VFS puts the files of the kernel image (`Ram`) and those of TCMKFS (`Disk`) into one table of
nodes, which are found by their full paths. Slots are taken in order; a removed file's slot stays
where it is, unused. A node keeps at most `maxPath` bytes of its path.

The contents of the `Ram` files, and with them `read` and `load`, are left out. A call of TCMKFS
runs through its pauses.
-/

namespace Tcmk

open Lib

/-- `MAX_NODES`. -/
def maxNodes : ℕ := 32

/-- `MAX_PATH`. -/
def maxPath : ℕ := 64

inductive Source
  | ram
  | disk
  deriving DecidableEq, Repr

/-- `Node`; `path` is `path[..path_len]`. -/
structure Node where
  path : List UInt8
  size : ℕ
  source : Source
  inode : ℕ
  used : Bool
  deriving DecidableEq

/-- `Node::empty`. -/
def Node.empty : Node := ⟨[], 0, .ram, 0, false⟩

namespace Fs

/-- `entry_kind`. -/
def entryKind (s : Fs) (index : ℕ) : Option UInt32 :=
  match s.inodeRef index with
  | none => none
  | some inode => if inode.kind = kindFree then none else some inode.kind

/-- `entry_size`. -/
def entrySize (s : Fs) (index : ℕ) : Option ℕ :=
  match s.inodeRef index with
  | none => none
  | some inode => if inode.kind ≠ kindFile then none else some inode.size.toNat

end Fs

/-- The statics `NODES` and `NODE_COUNT`, over TCMKFS. -/
structure Vfs where
  nodes : ℕ → Node
  nodeCount : ℕ
  fs : Fs

namespace Vfs

/-- Before the first mount. -/
def boot (fs : Fs) : Vfs := ⟨fun _ => Node.empty, 0, fs⟩

/-- A call of TCMKFS. -/
def call {α : Type} (s : Vfs) (x : FsProg α) : Except Stop α × Vfs :=
  ((x.run s.fs).1, { s with fs := (x.run s.fs).2 })

/-- Write one node. -/
def setNode (s : Vfs) (index : ℕ) (node : Node) : Vfs :=
  { s with nodes := Function.update s.nodes index node }

@[simp] theorem setNode_nodes_self (s : Vfs) (index : ℕ) (node : Node) :
    (s.setNode index node).nodes index = node := Function.update_self ..

theorem setNode_nodes_of_ne {i index : ℕ} (h : i ≠ index) (s : Vfs) (node : Node) :
    (s.setNode index node).nodes i = s.nodes i := Function.update_of_ne h ..

/-- Take the next slot, as `mount_static` and `attach_disk_node` do. -/
def push (s : Vfs) (node : Node) : Option (ℕ × Vfs) :=
  if s.nodeCount ≥ maxNodes then none
  else some (s.nodeCount, { s.setNode s.nodeCount node with nodeCount := s.nodeCount + 1 })

/-- `mount_static`. -/
def mountStatic (s : Vfs) (path : List UInt8) (size : ℕ) : Option (ℕ × Vfs) :=
  s.push ⟨path.take maxPath, size, .ram, 0, true⟩

/-- `attach_disk_node`. -/
def attachDiskNode (s : Vfs) (path : List UInt8) (inode size : ℕ) : Option (ℕ × Vfs) :=
  s.push ⟨path.take maxPath, size, .disk, inode, true⟩

/-- `lookup`. -/
def lookup (s : Vfs) (path : List UInt8) : Option ℕ :=
  (List.range s.nodeCount).find? fun i => (s.nodes i).used && (s.nodes i).path == path

/-- `node_at`. -/
def nodeAt (s : Vfs) (index : ℕ) : Option Node :=
  if index ≥ s.nodeCount then none
  else if (s.nodes index).used then some (s.nodes index) else none

/-- `source`. -/
def source (s : Vfs) (node : ℕ) : Option Source := (s.nodeAt node).map Node.source

/-- One round of `mount_disk_files`. -/
def mountDiskFile (s : Vfs) (inode : ℕ) : Vfs :=
  if s.fs.entryKind inode ≠ some kindFile then s
  else
    match s.fs.pathOf inode with
    | none => s
    | some path =>
      if path = [] then s
      else if (s.lookup path).isSome then s
      else
        match s.attachDiskNode path inode ((s.fs.entrySize inode).getD 0) with
        | none => s
        | some (_, t) => t

/-- `mount_disk_files`. The number of nodes added is what `NODE_COUNT` grows by. -/
def mountDiskFiles (s : Vfs) : Vfs :=
  if !s.fs.mounted then s else (List.range maxInodes).foldl mountDiskFile s

/-- `refresh_disk_node`. -/
def refreshDiskNode (s : Vfs) (path : List UInt8) : Vfs :=
  match s.fs.lookup path with
  | none => s
  | some inode =>
    let size := (s.fs.entrySize inode).getD 0
    match s.lookup path with
    | some index =>
      s.setNode index { s.nodes index with inode := inode, size := size, source := .disk }
    | none =>
      match s.attachDiskNode path inode size with
      | none => s
      | some (_, t) => t

/-- `write_file`. -/
def writeFile (arch : Arch) (s : Vfs) (path data : List UInt8) : Except Stop ℕ × Vfs :=
  if (s.lookup path).bind s.source = some .ram then (.error (.err .exists), s)
  else
    match s.call (Fs.writeAll arch path data) with
    | (.error e, t) => (.error e, t)
    | (.ok written, t) => (.ok written, t.refreshDiskNode path)

/-- `write_at`. -/
def writeAt (arch : Arch) (s : Vfs) (node offset : ℕ) (data : List UInt8) : Except Stop ℕ × Vfs :=
  match s.nodeAt node with
  | none => (.error (.err .notFound), s)
  | some n =>
    if n.source ≠ .disk then (.error (.err .notFound), s)
    else
      match s.call (Fs.write arch n.inode offset data) with
      | (.error e, t) => (.error e, t)
      | (.ok written, t) =>
        (.ok written, t.setNode node { t.nodes node with size := (t.fs.entrySize n.inode).getD 0 })

/-- `create_file`. -/
def createFile (s : Vfs) (path : List UInt8) : Except Stop ℕ × Vfs :=
  match s.lookup path with
  | some index => (.ok index, s)
  | none =>
    match s.call (Fs.create path) with
    | (.error e, t) => (.error e, t)
    | (.ok inode, t) =>
      match t.attachDiskNode path inode 0 with
      | none => (.error (.err .tooManyFiles), t)
      | some (index, u) => (.ok index, u)

/-- `mkdir`. -/
def mkdir (s : Vfs) (path : List UInt8) : Except Stop Unit × Vfs :=
  s.call (Fs.mkdir path >>= fun _ => pure ())

/-- `rmdir`. -/
def rmdir (s : Vfs) (path : List UInt8) : Except Stop Unit × Vfs := s.call (Fs.rmdir path)

/-- `remove_file`. -/
def removeFile (s : Vfs) (path : List UInt8) : Except Stop Unit × Vfs :=
  match s.lookup path with
  | none => (.error (.err .notFound), s)
  | some index =>
    match s.nodeAt index with
    | none => (.error (.err .notFound), s)
    | some node =>
      if node.source ≠ .disk then (.error (.err .notFound), s)
      else
        match s.call (Fs.remove node.inode) with
        | (.error e, t) => (.error e, t)
        | (.ok _, t) => (.ok (), t.setNode index { t.nodes index with used := false })

/-- `file_count`. -/
def fileCount (s : Vfs) : ℕ := ((List.range s.nodeCount).filter fun i => (s.nodeAt i).isSome).length

/-! ## Runs -/

/-- A call that may change the table of nodes or TCMKFS. `format` is the shell's command. -/
inductive Call
  | mountStatic (path : List UInt8) (size : ℕ)
  | mount
  | mountDiskFiles
  | createFile (path : List UInt8)
  | removeFile (path : List UInt8)
  | writeFile (path data : List UInt8)
  | writeAt (node offset : ℕ) (data : List UInt8)
  | mkdir (path : List UInt8)
  | rmdir (path : List UInt8)
  | format (label : List UInt8)
  deriving DecidableEq

/-- Execute a call; the value is left out where it says nothing new. -/
def exec (arch : Arch) (s : Vfs) : Call → Except Stop FsReply × Vfs
  | .mountStatic path size =>
    match s.mountStatic path size with
    | none => (.ok .done, s)
    | some (_, t) => (.ok .done, t)
  | .mount => ((s.call Fs.mount).1.map fun _ => .done, (s.call Fs.mount).2)
  | .mountDiskFiles => (.ok .done, s.mountDiskFiles)
  | .createFile path => ((s.createFile path).1.map .index, (s.createFile path).2)
  | .removeFile path => ((s.removeFile path).1.map fun _ => .done, (s.removeFile path).2)
  | .writeFile path data =>
    ((s.writeFile arch path data).1.map .count, (s.writeFile arch path data).2)
  | .writeAt node offset data =>
    ((s.writeAt arch node offset data).1.map .count, (s.writeAt arch node offset data).2)
  | .mkdir path => ((s.mkdir path).1.map fun _ => .done, (s.mkdir path).2)
  | .rmdir path => ((s.rmdir path).1.map fun _ => .done, (s.rmdir path).2)
  | .format label =>
    ((s.call (Fs.format label)).1.map fun _ => .done, (s.call (Fs.format label)).2)

/-- The time of the real-time clock. -/
def at_ (s : Vfs) (unixTime : UInt32) : Vfs := { s with fs := { s.fs with unixTime := unixTime } }

/-- A call, the time it sees, and its reply. -/
structure Event where
  call : Call
  unixTime : UInt32
  reply : Except Stop FsReply
  deriving DecidableEq

/-- The call returns its reply. -/
def Step (arch : Arch) (s : Vfs) (e : Event) (t : Vfs) : Prop :=
  e.reply ≠ .error .panic ∧ (s.at_ e.unixTime).exec arch e.call = (e.reply, t)

/-- The events of a list of calls, all at the clock's present time, and the state they lead to. -/
def execCalls (arch : Arch) : List Call → Vfs → List Event × Vfs
  | [], s => ([], s)
  | call :: calls, s =>
    let result := s.exec arch call
    let rest := execCalls arch calls result.2
    (⟨call, s.fs.unixTime, result.1⟩ :: rest.1, rest.2)

theorem run_execCalls {arch : Arch} {calls : List Call} {s : Vfs}
    (h : ∀ e ∈ (execCalls arch calls s).1, e.reply ≠ .error .panic) :
    Run (Step arch) s (execCalls arch calls s).1 (execCalls arch calls s).2 := by
  induction calls generalizing s with
  | nil => exact .nil s
  | cons call calls ih =>
    exact .cons ⟨h _ (List.mem_cons_self ..), rfl⟩
      (ih fun e he => h e (List.mem_cons_of_mem _ he))

end Vfs

end Tcmk
