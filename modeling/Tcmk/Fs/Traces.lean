import Tcmk.Fs.Atomicity
import Tcmk.Fs.Vfs
import Tcmk.Fd.Table

/-!
# What a failed `create_file` or `open` leaves behind

A new file takes an inode, a slot of the VFS and, in `open`, a descriptor, in this order, and
nothing is given back. `traceless_creation`: a failing call leaves the inode table, the disk and the
names alone exactly if it takes no inode, or if the device stores the inode table and the slot and
the descriptor are there as well.

Slots are not used again. In a run from boot, `NODE_COUNT` is the number of the files that are there
and of those that have been removed (`nodeCount_run`), so that a file can be created only as long as
these are fewer than `MAX_NODES` together.
-/

namespace Tcmk

open Lib

namespace Fs

variable {s t : Fs} {path : List UInt8} {kind : UInt32}

/-- A call for a new entry at the path gets as far as taking an inode. -/
def Enterable (s : Fs) (path : List UInt8) : Prop :=
  s.mounted = true ∧ s.resolve path = none ∧ (∃ p, s.splitParent path = .ok p) ∧
    ∃ i < maxInodes, i ≠ rootInode ∧ (s.inodes i).kind = kindFree

theorem makeEntry_refused (h : ¬ s.Enterable path) :
    ∃ e, (makeEntry kind path).run s = (.error (.err e), s) := by
  rw [makeEntry, Prog.run_bind, Prog.run_get]
  show ∃ e, (if (!s.mounted) = true then fail .notMounted
    else if (s.resolve path).isSome = true then fail .exists else _ : FsProg ℕ).run s = _
  split_ifs with hmounted hexists
  · exact ⟨_, rfl⟩
  · exact ⟨_, rfl⟩
  cases hsplit : s.splitParent path with
  | error e => exact ⟨_, rfl⟩
  | ok p =>
    obtain ⟨parent, leaf⟩ := p
    refine ⟨.tooManyFiles, ?_⟩
    have hnone : ((List.range maxInodes).find? fun i =>
        (s.inodes i).kind == kindFree && i != rootInode) = none := by
      refine List.find?_eq_none.2 fun i hi hfree =>
        h ⟨by simpa using hmounted, by simpa using hexists,
        ⟨_, hsplit⟩, i, List.mem_range.1 hi, ?_, ?_⟩
      · simp only [Bool.and_eq_true, bne_iff_ne] at hfree
        exact hfree.2
      · simp only [Bool.and_eq_true, beq_iff_eq] at hfree
        exact hfree.1
    show (allocateInode parent leaf kind >>= _).run s = _
    rw [allocateInode, Prog.run_bind, Prog.run_bind, Prog.run_get]
    show Prod.mk _ _ = _
    simp only [hnone]
    rfl

/-- A new entry: it is in the table, and the call returns its inode if the table could be stored. -/
theorem makeEntry_run (h : s.Enterable path) : ∃ parent leaf index t,
    s.splitParent path = .ok (parent, leaf) ∧ index < maxInodes ∧ index ≠ rootInode ∧
    (s.inodes index).kind = kindFree ∧
    SameTables (s.setInode index (newInode parent leaf kind s.unixTime)) t ∧
    (s.disk.Serves s.disk.time (inodeTransfers s.partLba) ∧
        (makeEntry kind path).run s = (.ok index, t) ∨
      ¬ s.disk.Serves s.disk.time (inodeTransfers s.partLba) ∧
        (makeEntry kind path).run s = (.error (.err .io), t)) := by
  obtain ⟨hmounted, hnew, ⟨⟨parent, leaf⟩, hsplit⟩, free, hfree, hroot, hkind⟩ := h
  obtain ⟨index, hindex⟩ : ∃ index, ((List.range maxInodes).find? fun i =>
      (s.inodes i).kind == kindFree && i != rootInode) = some index :=
    Option.isSome_iff_exists.1
      (List.find?_isSome.2 ⟨free, List.mem_range.2 hfree, by simp [hkind, hroot]⟩)
  have hmem := List.mem_range.1 (List.mem_of_find?_eq_some hindex)
  have hfound := List.find?_some hindex
  simp only [Bool.and_eq_true, beq_iff_eq, bne_iff_ne] at hfound
  have hleaf : ¬ leaf.length > maxName := by
    have := splitParent_leaf hsplit
    omega
  generalize hu : s.setInode index (newInode parent leaf kind s.unixTime) = u
  have hrun : (makeEntry kind path).run s = (flushInodes >>= fun _ => pure index).run u := by
    rw [makeEntry, Prog.run_bind, Prog.run_get]
    show (if (!s.mounted) = true then fail .notMounted
      else if (s.resolve path).isSome = true then fail .exists else _ : FsProg ℕ).run s = _
    rw [hmounted, hnew, if_neg (by decide), if_neg (by decide), hsplit]
    show (allocateInode parent leaf kind >>= _).run s = _
    rw [allocateInode, Prog.run_bind, Prog.run_bind, Prog.run_get]
    simp only [hindex, if_neg hleaf]
    rw [← hu]
    rfl
  have hserves : u.disk.Serves u.disk.time (inodeTransfers u.partLba) ↔
      s.disk.Serves s.disk.time (inodeTransfers s.partLba) := by
    rw [← hu]
    rfl
  have hflush := Prog.Post.and (@performs_flushInodes u) (@keepsTables_flushInodes u)
  refine ⟨parent, leaf, index, (flushInodes.run u).2, hsplit, hmem, hfound.2, hfound.1, ?_, ?_⟩
  · unfold Prog.Post at hflush
    cases hr : flushInodes.run u with
    | mk r t =>
      rw [hr] at hflush
      rw [hu]
      cases r with
      | ok a => exact hflush.2
      | error stop => exact hflush.2.2
  · rw [hrun, Prog.run_bind]
    unfold Prog.Post at hflush
    cases hr : flushInodes.run u with
    | mk r t =>
      rw [hr] at hflush
      cases r with
      | ok a => exact .inl ⟨hserves.1 hflush.1.1, rfl⟩
      | error stop =>
        obtain ⟨rfl, hnot⟩ := hflush.1
        exact .inr ⟨fun h => hnot (hserves.2 h), rfl⟩

/-- The entry shows in the table. -/
theorem newInode_changes {index parent : ℕ} {leaf : List UInt8} (hkind : kind ≠ kindFree)
    (hfree : (s.inodes index).kind = kindFree)
    (h : SameTables (s.setInode index (newInode parent leaf kind s.unixTime)) t) :
    t.inodes ≠ s.inodes := by
  intro heq
  have hnew := congrArg Inode.kind (congrFun (heq.symm.trans h.inodes) index)
  rw [setInode_inodes_self, hfree] at hnew
  exact hkind hnew.symm

end Fs

namespace Vfs

variable {s t u : Vfs} {path : List UInt8} {index : ℕ} {node : Node}

/-! ## A failed call -/

/-- The table of entries, the sectors of the disk and the names are as they were. -/
structure Traceless (s t : Vfs) : Prop where
  inodes : t.fs.inodes = s.fs.inodes
  sectors : t.fs.disk.sectors = s.fs.disk.sectors
  nodes : t.nodes = s.nodes
  nodeCount : t.nodeCount = s.nodeCount

theorem Traceless.refl (s : Vfs) : Traceless s s := ⟨rfl, rfl, rfl, rfl⟩

/-- The path is new to the VFS, and TCMKFS can enter it. -/
def Creates (s : Vfs) (path : List UInt8) : Prop := s.lookup path = none ∧ s.fs.Enterable path

/-- The device stores the inode table. -/
def Serves (s : Vfs) : Prop :=
  s.fs.disk.Serves s.fs.disk.time (Fs.inodeTransfers s.fs.partLba)

theorem boot_serves (fs : Fs) : (boot fs).Serves ↔
    fs.disk.Serves fs.disk.time (Fs.inodeTransfers fs.partLba) := Iff.rfl

theorem push_full {s : Vfs} (h : maxNodes ≤ s.nodeCount) : s.push node = none := if_pos h

theorem push_room {s : Vfs} (h : s.nodeCount < maxNodes) : s.push node =
    some (s.nodeCount, { s.setNode s.nodeCount node with nodeCount := s.nodeCount + 1 }) :=
  if_neg (not_le.2 h)

/-- Without a new entry nothing changes. -/
theorem createFile_refused (h : ¬ s.Creates path) : (s.createFile path).2 = s ∧
    ∀ stop, (s.createFile path).1 = .error stop → ∃ e, stop = .err e := by
  rw [createFile]
  cases hlookup : s.lookup path with
  | some index => exact ⟨rfl, fun _ h => by cases h⟩
  | none =>
    obtain ⟨e, he⟩ := @Fs.makeEntry_refused s.fs path kindFile fun hentry => h ⟨hlookup, hentry⟩
    have hcall : s.call (Fs.create path) = (.error (.err e), s) := by
      rw [call, Fs.create, he]
    simp only [hcall]
    exact ⟨trivial, fun stop hstop => ⟨e, by cases hstop; rfl⟩⟩

/-- A new entry is in the table, and the call succeeds if it could be stored and there is a slot. -/
theorem createFile_creates (h : s.Creates path) : (s.createFile path).2.fs.inodes ≠ s.fs.inodes ∧
    (∀ stop, (s.createFile path).1 = .error stop → ∃ e, stop = .err e) ∧
    ((∃ i, (s.createFile path).1 = .ok i) ↔ s.Serves ∧ s.nodeCount < maxNodes) := by
  obtain ⟨hlookup, hentry⟩ := h
  obtain ⟨parent, leaf, inode, t, -, -, -, hfree, htables, hrun⟩ :=
    @Fs.makeEntry_run s.fs path kindFile hentry
  have hchanged := Fs.newInode_changes (by decide) hfree htables
  rw [createFile]
  simp only [hlookup]
  rcases hrun with ⟨hserves, hrun⟩ | ⟨hserves, hrun⟩
  · have hcall : s.call (Fs.create path) = (.ok inode, { s with fs := t }) := by
      rw [call, Fs.create, hrun]
    simp only [hcall, attachDiskNode]
    by_cases hroom : s.nodeCount < maxNodes
    · rw [push_room (show (Vfs.mk s.nodes s.nodeCount t).nodeCount < maxNodes from hroom)]
      exact ⟨hchanged, fun _ h => (by cases h), fun _ => ⟨hserves, hroom⟩, fun _ => ⟨_, rfl⟩⟩
    · rw [push_full (show maxNodes ≤ (Vfs.mk s.nodes s.nodeCount t).nodeCount from not_lt.1 hroom)]
      exact ⟨hchanged, fun _ h => ⟨_, by cases h; rfl⟩, fun ⟨_, h⟩ => (by cases h),
        fun h => absurd h.2 hroom⟩
  · have hcall : s.call (Fs.create path) = (.error (.err .io), { s with fs := t }) := by
      rw [call, Fs.create, hrun]
    simp only [hcall]
    exact ⟨hchanged, fun _ h => ⟨_, by cases h; rfl⟩, fun ⟨_, h⟩ => (by cases h),
      fun h => absurd h.1 hserves⟩

/-- If `create_file` fails, it has left no trace. -/
def CreateTraceless (s : Vfs) (path : List UInt8) : Prop :=
  ∀ stop, (s.createFile path).1 = .error stop → Traceless s (s.createFile path).2

theorem createTraceless_iff :
    s.CreateTraceless path ↔ (s.Creates path → s.Serves ∧ s.nodeCount < maxNodes) := by
  by_cases h : s.Creates path
  · obtain ⟨hchanged, -, hok⟩ := createFile_creates h
    rw [forall_prop_of_true h, ← hok]
    constructor
    · intro htraceless
      cases hr : (s.createFile path).1 with
      | ok i => exact ⟨i, rfl⟩
      | error stop => exact absurd (htraceless stop hr).inodes hchanged
    · rintro ⟨i, hi⟩ stop hstop
      cases hi.symm.trans hstop
  · have hsame := (createFile_refused h).1
    refine iff_of_true (fun _ _ => ?_) fun hcreates => absurd hcreates h
    rw [hsame]
    exact .refl s

end Vfs

/-! ## `open` -/

/-- The VFS and the descriptor tables. -/
structure FileTables where
  vfs : Vfs
  fds : FdState

namespace FileTables

variable {s t : FileTables} {task : ℕ} {path : List UInt8} {create : Bool}

/-- The node that `open` opens. -/
def openNode (s : FileTables) (path : List UInt8) (create : Bool) : Except Stop ℕ × Vfs :=
  match s.vfs.lookup path with
  | some n => (.ok n, s.vfs)
  | none => if create then s.vfs.createFile path else (.error (.err .notFound), s.vfs)

/-- `kernel_api::open` by a task; it has no result if the file system panics. -/
def «open» (s : FileTables) (task : ℕ) (path : List UInt8) (create : Bool) :
    Option (Except KernelError ℕ) × FileTables :=
  match s.openNode path create with
  | (.error .panic, t) => (none, { s with vfs := t })
  | (.error (.err _), t) => (some (.error .notFound), { s with vfs := t })
  | (.ok node, t) =>
    match s.fds.allocate task node with
    | none => (some (.error .tooManyOpenFiles), { s with vfs := t })
    | some (fd, fds) => (some (.ok fd), ⟨t, fds⟩)

/-- If `open` fails, it has left no trace. -/
def OpenTraceless (s : FileTables) (task : ℕ) (path : List UInt8) (create : Bool) : Prop :=
  ∀ e, (s.open task path create).1 = some (.error e) →
    Vfs.Traceless s.vfs (s.open task path create).2.vfs

/-- The call makes a new file. -/
def Creates (s : FileTables) (path : List UInt8) (create : Bool) : Prop :=
  create = true ∧ s.vfs.Creates path

theorem openNode_kept (h : ¬ s.Creates path create) : (s.openNode path create).2 = s.vfs := by
  rw [openNode]
  cases s.vfs.lookup path with
  | some n => rfl
  | none =>
    cases create with
    | false => rfl
    | true => exact (Vfs.createFile_refused fun hcreates => h ⟨rfl, hcreates⟩).1

theorem openNode_creates (h : s.Creates path create) :
    s.openNode path create = s.vfs.createFile path := by
  obtain ⟨rfl, hcreates⟩ := h
  rw [openNode, hcreates.1]
  rfl

/-- Whatever comes of it, `open` changes the VFS as far as it gets a node. -/
theorem open_vfs : (s.open task path create).2.vfs = (s.openNode path create).2 := by
  rw [FileTables.open]
  generalize s.openNode path create = r
  obtain ⟨r, t⟩ := r
  cases r with
  | error stop => cases stop <;> rfl
  | ok node =>
    simp only
    cases s.fds.allocate task node <;> rfl

theorem allocate_isSome {node : ℕ} :
    (s.fds.allocate task node).isSome = (s.fds.firstFree task).isSome := Option.isSome_map

theorem openTraceless_iff : s.OpenTraceless task path create ↔
    (s.Creates path create →
      (s.vfs.Serves ∧ s.vfs.nodeCount < maxNodes) ∧ (s.fds.firstFree task).isSome = true) := by
  unfold OpenTraceless
  rw [open_vfs]
  by_cases h : s.Creates path create
  · obtain ⟨hchanged, herr, hok⟩ := Vfs.createFile_creates h.2
    have hnot : ¬ Vfs.Traceless s.vfs (s.openNode path create).2 := fun ht => by
      rw [openNode_creates h] at ht
      exact hchanged ht.inodes
    rw [forall_prop_of_true h, ← hok]
    simp only [hnot, imp_false]
    rw [FileTables.open, openNode_creates h]
    generalize s.vfs.createFile path = r at herr ⊢
    obtain ⟨r, t⟩ := r
    cases r with
    | error stop =>
      obtain ⟨e, rfl⟩ := herr stop rfl
      exact iff_of_false (fun h => h _ rfl) fun ⟨⟨_, h⟩, _⟩ => by cases h
    | ok node =>
      rw [← @allocate_isSome s task node]
      simp only
      cases s.fds.allocate task node with
      | none => exact iff_of_false (fun h => h _ rfl) fun h => by cases h.2
      | some p => exact iff_of_true (fun _ h => by cases h) ⟨⟨node, rfl⟩, rfl⟩
  · refine iff_of_true (fun _ _ => ?_) fun hcreates => absurd hcreates h
    rw [openNode_kept h]
    exact .refl _

end FileTables

/-! ## Runs -/

namespace Vfs

variable {arch : Arch} {s t u : Vfs} {path : List UInt8} {index : ℕ} {node : Node} {e : Event}
  {es : List Event}

/-- The number of slots whose files have been removed. -/
def vacated (s : Vfs) : ℕ :=
  ((Finset.range s.nodeCount).filter fun i => (s.nodes i).used = false).card

theorem fileCount_add_vacated (s : Vfs) : s.fileCount + s.vacated = s.nodeCount := by
  have hlive : s.fileCount =
      ((Finset.range s.nodeCount).filter fun i => (s.nodes i).used = true).card := by
    rw [fileCount, ← List.toFinset_card_of_nodup (List.nodup_range.filter _)]
    refine congrArg Finset.card (Finset.ext fun i => ?_)
    rw [List.mem_toFinset, List.mem_filter, List.mem_range, Finset.mem_filter, Finset.mem_range]
    refine and_congr_right fun hi => ?_
    rw [nodeAt, if_neg (not_le.2 hi)]
    cases (s.nodes i).used <;> simp
  have hnot : s.vacated =
      ((Finset.range s.nodeCount).filter fun i => ¬ (s.nodes i).used = true).card := by
    simp only [vacated, Bool.not_eq_true]
  rw [hlive, hnot, Finset.card_filter_add_card_filter_not, Finset.card_range]

theorem vacated_congr (hcount : t.nodeCount = s.nodeCount)
    (hused : ∀ i, (t.nodes i).used = (s.nodes i).used) : t.vacated = s.vacated := by
  simp only [vacated, hcount, hused]

@[simp] theorem call_nodes {α : Type} (s : Vfs) (x : FsProg α) : (s.call x).2.nodes = s.nodes := rfl

@[simp] theorem call_nodeCount {α : Type} (s : Vfs) (x : FsProg α) :
    (s.call x).2.nodeCount = s.nodeCount := rfl

theorem call_vacated {α : Type} (s : Vfs) (x : FsProg α) : (s.call x).2.vacated = s.vacated := rfl

/-- A new node is in use. -/
theorem push_vacated {p : ℕ × Vfs} (hused : node.used = true) (h : s.push node = some p) :
    p.2.vacated = s.vacated := by
  unfold push at h
  split at h
  · cases h
  cases h
  simp only [vacated, setNode, Finset.range_add_one]
  rw [Finset.filter_insert, Function.update_self, if_neg (by rw [hused]; decide)]
  refine congrArg Finset.card (Finset.filter_congr fun i hi => ?_)
  rw [Function.update_of_ne (Finset.mem_range.1 hi).ne]

/-- A change of a node in use that stays so. -/
theorem setNode_vacated (hused : node.used = (s.nodes index).used) :
    (s.setNode index node).vacated = s.vacated := by
  refine vacated_congr rfl fun i => ?_
  by_cases hi : i = index
  · rw [hi, setNode_nodes_self, hused]
  · rw [setNode_nodes_of_ne hi]

theorem lookup_some (h : s.lookup path = some index) :
    index < s.nodeCount ∧ (s.nodes index).used = true ∧ (s.nodes index).path = path := by
  have hmem := List.mem_range.1 (List.mem_of_find?_eq_some h)
  have hfound := List.find?_some h
  simp only [Bool.and_eq_true, beq_iff_eq] at hfound
  exact ⟨hmem, hfound⟩

/-- A removed node's slot. -/
theorem setNode_vacates (hindex : index < s.nodeCount) (hold : (s.nodes index).used = true)
    (hnew : node.used = false) : (s.setNode index node).vacated = s.vacated + 1 := by
  have hfilter : (Finset.range s.nodeCount).filter
      (fun i => ((s.setNode index node).nodes i).used = false) =
      insert index ((Finset.range s.nodeCount).filter fun i => (s.nodes i).used = false) := by
    ext i
    rw [Finset.mem_insert, Finset.mem_filter, Finset.mem_filter, Finset.mem_range]
    by_cases hi : i = index
    · rw [hi, setNode_nodes_self]
      exact iff_of_true ⟨hindex, hnew⟩ (.inl rfl)
    · rw [setNode_nodes_of_ne hi]
      exact (or_iff_right hi).symm
  show ((Finset.range s.nodeCount).filter _).card = _
  rw [hfilter, Finset.card_insert_of_notMem, vacated]
  rw [Finset.mem_filter, hold]
  exact fun h => Bool.noConfusion h.2

theorem mountDiskFile_vacated (s : Vfs) (inode : ℕ) :
    (s.mountDiskFile inode).vacated = s.vacated := by
  unfold mountDiskFile
  split
  · rfl
  split
  · rfl
  split
  · rfl
  split
  · rfl
  split
  · rfl
  rename_i hpush
  exact push_vacated (p := (_, _)) rfl hpush

theorem mountDiskFiles_vacated (s : Vfs) : s.mountDiskFiles.vacated = s.vacated := by
  unfold mountDiskFiles
  split
  · rfl
  rename_i hmounted
  clear hmounted
  generalize List.range maxInodes = inodes
  induction inodes generalizing s with
  | nil => rfl
  | cons inode inodes ih => rw [List.foldl_cons, ih, mountDiskFile_vacated]

theorem refreshDiskNode_vacated (s : Vfs) (path : List UInt8) :
    (s.refreshDiskNode path).vacated = s.vacated := by
  unfold refreshDiskNode
  split
  · rfl
  simp only
  split
  · exact setNode_vacated rfl
  split
  · rfl
  rename_i hpush
  exact push_vacated (p := (_, _)) rfl hpush

theorem writeFile_vacated (s : Vfs) (path data : List UInt8) :
    (s.writeFile arch path data).2.vacated = s.vacated := by
  unfold writeFile
  split
  · rfl
  have hcall := call_vacated s (Fs.writeAll arch path data)
  generalize s.call (Fs.writeAll arch path data) = r at hcall ⊢
  obtain ⟨r, t⟩ := r
  cases r with
  | error stop => exact hcall
  | ok written => exact (refreshDiskNode_vacated t path).trans hcall

theorem writeAt_vacated (s : Vfs) (index offset : ℕ) (data : List UInt8) :
    (s.writeAt arch index offset data).2.vacated = s.vacated := by
  unfold writeAt
  split
  · rfl
  rename_i n hnode
  split
  · rfl
  have hcall := call_vacated s (Fs.write arch n.inode offset data)
  generalize s.call (Fs.write arch n.inode offset data) = r at hcall ⊢
  obtain ⟨r, t⟩ := r
  cases r with
  | error stop => exact hcall
  | ok written =>
    refine Eq.trans (b := t.vacated) (setNode_vacated (s := t) ?_) hcall
    rfl

theorem createFile_vacated (s : Vfs) (path : List UInt8) :
    (s.createFile path).2.vacated = s.vacated := by
  unfold createFile
  split
  · rfl
  have hcall := call_vacated s (Fs.create path)
  generalize s.call (Fs.create path) = r at hcall ⊢
  obtain ⟨r, t⟩ := r
  cases r with
  | error stop => exact hcall
  | ok inode =>
    simp only
    split
    · exact hcall
    · rename_i hpush
      exact (push_vacated (p := (_, _)) rfl hpush).trans hcall

theorem removeFile_vacated (s : Vfs) (path : List UInt8) : (s.removeFile path).2.vacated =
    s.vacated + if (s.removeFile path).1.isOk then 1 else 0 := by
  unfold removeFile
  cases hlookup : s.lookup path with
  | none => rfl
  | some index =>
    obtain ⟨hindex, hused, -⟩ := lookup_some hlookup
    have hnode : s.nodeAt index = some (s.nodes index) := by
      rw [nodeAt, if_neg (not_le.2 hindex), if_pos hused]
    simp only [hnode]
    split
    · rfl
    have hnodes := call_nodes s (Fs.remove (s.nodes index).inode)
    have hcount := call_nodeCount s (Fs.remove (s.nodes index).inode)
    have hcall := call_vacated s (Fs.remove (s.nodes index).inode)
    generalize s.call (Fs.remove (s.nodes index).inode) = r at hnodes hcount hcall ⊢
    obtain ⟨r, t⟩ := r
    cases r with
    | error stop => exact hcall
    | ok a =>
      refine (setNode_vacates (s := t) (hcount ▸ hindex) ?_ rfl).trans (congrArg (· + 1) hcall)
      exact (congrArg Node.used (congrFun hnodes index)).trans hused

/-- The event is a removal that succeeded. -/
def Event.removes (e : Event) : Bool :=
  match e.call with
  | .removeFile _ => e.reply.isOk
  | _ => false

/-- The number of files removed. -/
def removals (es : List Event) : ℕ := es.countP Event.removes

theorem isOk_map {α β : Type} (r : Except Stop α) (f : α → β) : (r.map f).isOk = r.isOk := by
  cases r <;> rfl

theorem step_vacated (h : Step arch s e t) : t.vacated = s.vacated + if e.removes then 1
    else 0 := by
  obtain ⟨-, h⟩ := h
  have hreply := congrArg Prod.fst h
  obtain rfl := congrArg Prod.snd h
  have hs : (s.at_ e.unixTime).vacated = s.vacated := rfl
  rw [← hs]
  unfold Event.removes
  cases hcall : e.call with
  | mountStatic path size =>
    simp only [exec]
    split
    · rfl
    · rename_i hpush
      exact push_vacated (p := (_, _)) rfl hpush
  | mount => exact call_vacated _ _
  | mountDiskFiles => exact mountDiskFiles_vacated _
  | createFile path => exact createFile_vacated _ path
  | removeFile path =>
    rw [hcall] at hreply
    refine (removeFile_vacated _ path).trans ?_
    rw [← show _ = e.reply from hreply]
    simp only [exec, isOk_map]
  | writeFile path data => exact writeFile_vacated _ path data
  | writeAt node offset data => exact writeAt_vacated _ node offset data
  | mkdir path => exact call_vacated _ _
  | rmdir path => exact call_vacated _ _
  | format label => exact call_vacated _ _

theorem run_vacated (h : Run (Step arch) s es t) : t.vacated = s.vacated + removals es := by
  induction h with
  | nil s => rfl
  | @cons s t u e es hstep _ ih =>
    rw [ih, step_vacated hstep, removals, removals, List.countP_cons]
    omega

/-- The slots taken since boot. -/
theorem nodeCount_run {fs : Fs} (h : Run (Step arch) (boot fs) es s) :
    s.nodeCount = s.fileCount + removals es := by
  rw [← fileCount_add_vacated s, run_vacated h]
  exact congrArg _ (Nat.zero_add _)

/-- **Creation.** A failed `create_file` leaves no trace exactly if it does not get as far as taking
an inode, or the device stores the table of inodes and a slot is left; for `open` a descriptor must
be free as well. After any run from boot, a new path can be created whenever fewer than `MAX_NODES`
files are there, exactly if those that are there and those that have been removed since boot are
fewer than `MAX_NODES` together and the device stores the table. -/
theorem traceless_creation (s : Vfs) (path : List UInt8) :
    (s.CreateTraceless path ↔ (s.Creates path → s.Serves ∧ s.nodeCount < maxNodes)) ∧
    (∀ (fds : FdState) (task : ℕ) (create : Bool),
      FileTables.OpenTraceless ⟨s, fds⟩ task path create ↔
      (FileTables.Creates ⟨s, fds⟩ path create →
        (s.Serves ∧ s.nodeCount < maxNodes) ∧ (fds.firstFree task).isSome = true)) ∧
    ∀ (arch : Arch) (fs : Fs) (es : List Event), Run (Step arch) (boot fs) es s → s.Creates path →
      ((s.fileCount < maxNodes → ∃ i, (s.createFile path).1 = .ok i) ↔
        (s.fileCount < maxNodes → s.Serves ∧ s.fileCount + removals es < maxNodes)) := by
  refine ⟨createTraceless_iff, fun fds task create => FileTables.openTraceless_iff,
    fun arch fs es hrun hcreates => ?_⟩
  rw [(createFile_creates hcreates).2.2, nodeCount_run hrun]

/-- The kernel's twenty files, twelve new ones, and one of these removed again. -/
def fillCalls : List Call :=
  (List.range 20).map (fun i => .mountStatic [slash, UInt8.ofNat (97 + i)] 1) ++
    (List.range 12).map (fun i => .createFile [UInt8.ofNat (97 + i)]) ++ [.removeFile [97]]

def filledVfs : Vfs := (execCalls .i386 fillCalls (boot formattedFs)).2

/-- `create_file` fails, although there are only 31 files and inodes are left. -/
theorem filledVfs_fails :
    (∀ e ∈ (execCalls .i386 fillCalls (boot formattedFs)).1, e.reply ≠ .error .panic) ∧
      filledVfs.fileCount < maxNodes ∧ filledVfs.lookup [122] = none ∧
      filledVfs.fs.mounted = true ∧ filledVfs.fs.resolve [122] = none ∧
      filledVfs.fs.splitParent [122] = .ok (rootInode, [122]) ∧
      (filledVfs.fs.inodes 3).kind = kindFree ∧
      (filledVfs.createFile [122]).1 = .error (.err .tooManyFiles) := by
  decide +kernel

theorem traceless_creation_fails : ¬ ((∀ (s : Vfs) (path : List UInt8), s.CreateTraceless path) ∧
    (∀ (s : FileTables) (task : ℕ) (path : List UInt8) (create : Bool),
      s.OpenTraceless task path create) ∧
    ∀ (arch : Arch) (fs : Fs) (es : List Event) (s : Vfs), Run (Step arch) (boot fs) es s →
      ∀ path, s.Creates path → s.fileCount < maxNodes → ∃ i, (s.createFile path).1 = .ok i) := by
  obtain ⟨hreplies, hcount, hlookup, hmounted, hnew, hsplit, hfree, hfails⟩ := filledVfs_fails
  have hcreates : filledVfs.Creates [122] :=
    ⟨hlookup, hmounted, hnew, ⟨_, hsplit⟩, 3, by decide, by decide, hfree⟩
  rintro ⟨-, -, hruns⟩
  obtain ⟨i, hi⟩ := hruns .i386 formattedFs _ filledVfs (run_execCalls hreplies) [122]
    hcreates hcount
  cases hi.symm.trans hfails

theorem traceless_creation_boot : (boot formattedFs).CreateTraceless [97] ∧
    ∃ i, ((boot formattedFs).createFile [97]).1 = .ok i := by
  have hcreates : (boot formattedFs).Creates [97] :=
    ⟨rfl, by decide +kernel, by decide +kernel, ⟨(rootInode, [97]), by decide +kernel⟩, 3,
      by decide, by decide, by decide +kernel⟩
  have hserves : (boot formattedFs).Serves := (boot_serves formattedFs).2 (by decide +kernel)
  have hempty : (boot formattedFs).fileCount + removals [] < maxNodes := by decide +kernel
  obtain ⟨htraceless, -, hsucceeds⟩ := traceless_creation (boot formattedFs) [97]
  exact ⟨htraceless.2 fun _ => ⟨hserves, Nat.zero_lt_succ 31⟩,
    (hsucceeds .i386 formattedFs [] (.nil _) hcreates).2 (fun _ => ⟨hserves, hempty⟩) hempty⟩

end Vfs

end Tcmk
