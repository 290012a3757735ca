import Tcmk.Fs.Recovery

/-!
# Nothing is kept only in memory

Every call that succeeds flushes the tables it has changed, so that the disk then holds the inode
table and the bitmap of the memory (`Kept`), not only the files that `Synced` is about.

`persistence`: after a successful `format` and any calls that succeed, mounting the disk in a
kernel with other tables, or none, gives the inode table, the bitmap and the counters that the
memory had, and so the same names, paths and contents.
-/

namespace Tcmk

open Lib

namespace Fs

variable {s t u m : Fs} {D : Sectors} {index : ℕ}

/-- The inode table on the disk is that of the memory. -/
def InodesKept (s : Fs) : Prop :=
  ∀ i < maxInodes, Inode.Same (s.inodes i) ((s.onDisk s.disk.sectors).inodes i)

/-- The bitmap on the disk is that of the memory. -/
def BitmapKept (s : Fs) : Prop :=
  ∀ b < bitmapSectors * sectorSize, (s.onDisk s.disk.sectors).bitmap b = s.bitmap b

/-- Both tables are on the disk. -/
structure Kept (s : Fs) : Prop where
  placed : Placed s
  inodes : InodesKept s
  bitmap : BitmapKept s

/-! ## Flushes -/

/-- A flush of the inode table keeps the bitmap on the disk as it is. -/
theorem flushInodes_kept (hs : Placed s) :
    Prog.Post flushInodes s
      (fun _ t => Placed t ∧ InodesKept t ∧ (BitmapKept s → BitmapKept t)) fun _ _ => True := by
  refine (flushInodes_post hs).mono (fun _ t ⟨_, τ, ht⟩ => ?_) fun _ _ _ => trivial
  have hinodes : ∀ i < maxInodes, _ := fun i hi => by
    have h := onDisk_flushInodes s s.disk inodeTableSectors i
    simp only at h
    rw [if_pos (by simp only [maxInodes, inodeTableSectors] at hi ⊢; omega),
      ← Disk.atTime_sectors _ τ] at h
    exact h
  have hbitmap := bitmap_flushInodes s s.disk (Nat.le_refl inodeTableSectors)
  rw [← Disk.atTime_sectors _ τ] at hbitmap
  generalize Disk.atTime _ τ = d at ht hinodes hbitmap
  subst ht
  exact ⟨hs, hinodes, fun hb b hlt => (congrFun hbitmap b).trans (hb b hlt)⟩

/-- A flush of the bitmap keeps the inode table on the disk as it is. -/
theorem flushBitmap_kept (hs : Placed s) (hinodes : InodesKept s) :
    Prog.Post flushBitmap s (fun _ t => Kept t) fun _ _ => True := by
  refine (flushBitmap_post hs).mono (fun _ t ⟨_, τ, ht⟩ => ?_) fun _ _ _ => trivial
  have hsame : ∀ i < maxInodes, _ := fun i hi => by
    have h := inodes_flushBitmap s s.disk bitmapSectors hi
    rw [← Disk.atTime_sectors _ τ] at h
    exact h
  have hbitmap : ∀ b < bitmapSectors * sectorSize, _ := fun b hb => by
    have h := bitmap_flushBitmap s s.disk bitmapSectors b
    rw [if_pos (Nat.div_lt_of_lt_mul (by rwa [Nat.mul_comm])), ← Disk.atTime_sectors _ τ] at h
    exact h
  generalize Disk.atTime _ τ = d at ht hsame hbitmap
  subst ht
  refine ⟨hs, fun i hi => ?_, hbitmap⟩
  have h := hinodes i hi
  rw [← hsame i hi] at h
  exact h

theorem flushTables_kept (hs : Placed s) :
    Prog.Post flushInodes s (fun _ t => Prog.Post flushBitmap t (fun _ u => Kept u)
      fun _ _ => True) fun _ _ => True :=
  (flushInodes_kept hs).mono (fun _ _ ⟨ht, hinodes, _⟩ => flushBitmap_kept ht hinodes)
    fun _ _ h => h

/-- The superblock's sector holds neither table. -/
theorem writeSuper_kept (hs : Kept s) (sb : SuperBlock) :
    Prog.Post (writeSuper sb) s (fun _ t => Kept t) fun _ _ => True := by
  refine (writeSuper_post sb).mono (fun _ t ⟨_, τ, ht⟩ => ?_) fun _ _ _ => trivial
  subst ht
  have hsame := onDisk_writeSuper s s.disk sb 1 (Nat.le_refl 1)
  refine ⟨hs.placed, fun i hi => ?_, fun b hb => ?_⟩
  · have h := hs.inodes i hi
    rw [← hsame] at h
    exact h
  · exact (congrFun (congrArg Fs.bitmap hsame) b).trans (hs.bitmap b hb)

/-! ## Calls -/

/-- A program that, when it succeeds, leaves both tables on the disk. -/
def KeepsKept {α : Type} (x : FsProg α) (s : Fs) : Prop :=
  Prog.Post x s (fun _ t => Kept t) fun _ _ => True

theorem KeepsKept.map {α β : Type} {x : FsProg α} {f : α → β} (h : KeepsKept x s) :
    KeepsKept (x >>= fun a => pure (f a)) s :=
  Prog.post_bind.2 (Prog.Post.mono h (fun _ _ ht => Prog.post_pure.2 ht) fun _ _ ht => ht)

/-- A call that has changed one inode flushes the inode table only. -/
theorem keepsKept_setInode (hs : Kept s) (inode : Inode) :
    KeepsKept flushInodes (s.setInode index inode) :=
  (@flushInodes_kept (s.setInode index inode) hs.placed).mono
    (fun _ _ ⟨hplaced, hinodes, hbitmap⟩ => ⟨hplaced, hinodes, hbitmap hs.bitmap⟩) fun _ _ h => h

theorem keepsKept_makeEntry (hs : Kept s) (kind : UInt32) (path : List UInt8) :
    KeepsKept (makeEntry kind path) s := by
  unfold KeepsKept
  rw [makeEntry]
  simp only [Prog.post_bind, Prog.post_get]
  split
  · trivial
  split
  · trivial
  split
  · trivial
  rw [allocateInode]
  simp only [Prog.post_bind, Prog.post_get]
  split
  · trivial
  split
  · trivial
  simp only [Prog.post_bind, Prog.post_modify, Prog.post_pure]
  exact keepsKept_setInode hs _

theorem keepsKept_rmdir (hs : Kept s) (path : List UInt8) : KeepsKept (rmdir path) s := by
  unfold KeepsKept
  rw [rmdir]
  simp only [Prog.post_bind, Prog.post_get]
  split
  · trivial
  split
  · trivial
  split
  · trivial
  split
  · trivial
  split
  · trivial
  exact keepsKept_setInode hs _

theorem keepsKept_remove (hs : Synced s) (index : ℕ) : KeepsKept (remove index) s := by
  unfold KeepsKept
  rw [remove]
  simp only [Prog.post_bind, Prog.post_get]
  split
  · trivial
  split
  · trivial
  rename_i hfile
  rw [not_or, not_le, not_not] at hfile
  refine Prog.post_bind.2 ((freeBlocks_post hs.books hfile.1 hfile.2).mono
    (fun _ t hfreed => ?_) fun _ _ h => h.elim)
  obtain ⟨⟨bitmap, free, ht⟩, -⟩ := hfreed
  subst ht
  simp only [Prog.post_bind, Prog.post_modify]
  exact flushTables_kept hs.attached.placed

theorem keepsKept_write (arch : Arch) (hs : Synced s) (index offset : ℕ) (data : List UInt8) :
    KeepsKept (write arch index offset data) s := by
  unfold KeepsKept
  rw [write]
  simp only [Prog.post_bind, Prog.post_get]
  split
  · trivial
  split
  · trivial
  rename_i hfile
  rw [not_or, not_le, not_not] at hfile
  obtain ⟨hindex, hkind⟩ := hfile
  split
  · trivial
  rename_i hstop
  rw [not_lt] at hstop
  have hhave := hs.books.blockCount_le hindex hkind
  have hneeded := blockCount_le hstop
  have hown : OwnPointers s index (blockCount (s.inodes index).size.toNat) := fun _ h => h.2.2
  refine Prog.post_bind.2 ((allocBlocks_post (c := False) hindex hown _ (Nat.le_refl _) (by omega)
    (.refl s index _) (by rw [pending_self, Set.union_empty]; exact hs.books)).mono
    (fun _ u hend => ?_) fun _ _ _ => trivial)
  have halloc := hend.1
  refine Prog.post_bind.2 ((keepsTables_writeLoop _ _ _ _ _ _ _ u).mono (fun _ v hv => ?_)
    fun _ _ _ => trivial)
  refine Prog.post_bind.2 (Prog.post_modify.2 ?_)
  have hplaced := hv.placed (halloc.placed hs.attached.placed)
  have hflush := @flushTables_kept (v.finishWrite index ((offset + data.length) %
    2 ^ arch.wordBits)) hplaced
  simp only [Prog.post_bind, Prog.post_pure] at hflush ⊢
  exact hflush

theorem keepsKept_replaceFile (hs : Synced s) (hkept : Kept s) (name : List UInt8) :
    KeepsKept (replaceFile name) s := by
  unfold KeepsKept
  rw [replaceFile]
  refine Prog.post_bind.2 (Prog.post_get.2 ?_)
  cases s.lookup name with
  | none => exact keepsKept_makeEntry hkept _ _
  | some i =>
    refine Prog.post_bind.2 ((keepsKept_remove hs i).mono (fun _ t ht => ?_) fun _ _ h => h)
    exact keepsKept_makeEntry ht _ _

theorem keepsKept_writeAll (arch : Arch) (hs : Synced s) (hkept : Kept s)
    (name data : List UInt8) : KeepsKept (writeAll arch name data) s := by
  refine Prog.post_bind.2 (((keepsKept_replaceFile hs hkept name).and
    (replaceFile_crashes (G := fun _ _ => True) hs (fun _ _ _ => trivial) name)).mono
    (fun i t ⟨_, _, ht⟩ => ?_) fun _ _ _ => trivial)
  exact keepsKept_write arch ht i 0 data

theorem keepsKept_sync (hs : Placed s) : KeepsKept sync s := by
  unfold KeepsKept
  rw [sync]
  simp only [Prog.post_bind, Prog.post_get]
  split
  · trivial
  simp only [Prog.post_bind]
  refine (flushTables_kept hs).mono (fun _ t ht => ht.mono (fun _ u hu => ?_) fun _ _ h => h)
    fun _ _ h => h
  refine (readSuper_post (s := u)).mono (fun sb v hv => ?_) fun _ _ _ => trivial
  obtain ⟨-, τ, rfl⟩ := hv
  simp only [Prog.post_get]
  have hkept : Kept (u.withDisk (u.disk.atTime τ)) := ⟨hu.placed, hu.inodes, hu.bitmap⟩
  exact writeSuper_kept hkept _

theorem OnlyRead.kept (h : OnlyRead s t) (hs : Kept s) : Kept t := by
  obtain ⟨mem, τ, rfl⟩ := h
  exact ⟨hs.placed, hs.inodes, hs.bitmap⟩

theorem keepsKept_read (hs : Kept s) (index offset room : ℕ) :
    KeepsKept (read index offset room) s := by
  unfold KeepsKept
  rw [read]
  simp only [Prog.post_bind, Prog.post_get]
  split
  · trivial
  split
  · trivial
  split
  · exact hs
  exact (readLoop_onlyRead _ _ _ _ s).mono (fun _ _ h => h.kept hs) fun _ _ _ => trivial

theorem keepsKept_exec (arch : Arch) (call : FsCall) (hs : Synced s) (hkept : Kept s) :
    KeepsKept (call.exec arch) s := by
  cases call with
  | create path => exact (keepsKept_makeEntry hkept _ _).map
  | mkdir path => exact (keepsKept_makeEntry hkept _ _).map
  | rmdir path => exact (keepsKept_rmdir hkept _).map
  | remove index => exact (keepsKept_remove hs _).map
  | read index offset room => exact (keepsKept_read hkept _ _ _).map
  | write index offset data => exact (keepsKept_write arch hs _ _ _).map
  | writeAll name data => exact (keepsKept_writeAll arch hs hkept _ _).map
  | sync => exact (keepsKept_sync hkept.placed).map

/-! ## Runs of successful calls -/

theorem kept_run {arch : Arch} {es : List FsEvent} (hs : Synced s) (hkept : Kept s)
    (hrun : Run (FsStep arch) s es t) (hw : ∀ e ∈ es, e.call.WellTyped arch)
    (hok : ∀ e ∈ es, ∃ r, e.reply = .ok r) : Synced t ∧ Kept t := by
  induction hrun with
  | nil s => exact ⟨hs, hkept⟩
  | @cons s t u e es hstep _ ih =>
    obtain ⟨r, hr⟩ := hok _ (List.mem_cons_self ..)
    have ht := (synced_step hs (hw _ (List.mem_cons_self ..)) (fun _ he => by
      rw [hr] at he
      cases he) hstep).1
    have hkeeps := keepsKept_exec arch e.call (hs.withTime e.unixTime)
      ⟨hkept.placed, hkept.inodes, hkept.bitmap⟩
    have hrun := hstep.2
    rw [hr] at hrun
    exact ih ht (Prog.Post.of_ok hkeeps hrun) (fun e he => hw e (List.mem_cons_of_mem _ he))
      fun e he => hok e (List.mem_cons_of_mem _ he)

theorem format_kept {label : List UInt8} (h : (format label).run s = (.ok (), t)) : Kept t := by
  refine Prog.Post.of_ok (x := format label) (Q := fun _ t => Kept t) (E := fun _ _ => True) ?_ h
  rw [format]
  refine Prog.post_bind.2 (Prog.post_get.2 ?_)
  cases s.partition with
  | none => trivial
  | some p =>
    obtain ⟨lba, sectors⟩ := p
    simp only
    split
    · trivial
    refine Prog.post_bind.2 (Prog.post_modify.2 ?_)
    by_cases hplaced : Placed (s.cleared lba (capacityBlocks sectors))
    · have hflush := flushTables_kept hplaced
      simp only [Prog.post_bind, Prog.post_modify, Prog.post_pure]
      refine hflush.mono (fun _ u hu => hu.mono (fun _ v hv => ?_) fun _ _ h => h) fun _ _ h => h
      refine (writeSuper_kept hv _).mono (fun _ w hw => ?_) fun _ _ h => h
      have hmounted : Kept { w with mounted := true } := ⟨hw.placed, hw.inodes, hw.bitmap⟩
      refine (keepsKept_makeEntry hmounted _ _).mono (fun _ x hx => ?_) fun _ _ h => h
      exact (keepsKept_makeEntry hx _ _).mono (fun _ _ hy => hy) fun _ _ h => h
    · have hflushes := @flushes_placed (s.cleared lba (capacityBlocks sectors))
      simp only [Prog.post_bind, Prog.post_modify, Prog.post_pure] at hflushes ⊢
      exact (hflushes _).mono (fun _ u hu => hu.mono (fun _ v hv => hv.mono
        (fun _ w hw => absurd hw hplaced) fun _ _ h => h) fun _ _ h => h) fun _ _ h => h

/-! ## What mounting gives -/

/-- The file system that `m` has is that of `t`: the tables and counters, and what they say. -/
structure Reproduces (t m : Fs) : Prop where
  inodes : ∀ i < maxInodes, Inode.Same (t.inodes i) (m.inodes i)
  bitmap : ∀ b < bitmapSectors * sectorSize, m.bitmap b = t.bitmap b
  totalBlocks : m.totalBlocks = t.totalBlocks
  freeBlocks : m.freeBlocks = t.freeBlocks
  names : ∀ i < maxInodes, nameOf (m.inodes i) = nameOf (t.inodes i)
  paths : ∀ path, m.resolve path = t.resolve path
  contents : ∀ index < maxInodes, ∀ p < maxFileSize, m.byteAt index p = t.byteAt index p

theorem nameOf_same {a b : Inode} (h : Inode.Same a b) : nameOf b = nameOf a := by
  have hname : (List.range maxName).map b.name = (List.range maxName).map a.name :=
    List.map_congr_left fun j hj => h.name j (List.mem_range.1 hj)
  rw [nameOf, nameOf, hname]

section Same

variable (h : ∀ i < maxInodes, Inode.Same (t.inodes i) (m.inodes i))
include h

theorem childOf_same (parent : ℕ) (name : List UInt8) :
    m.childOf parent name = t.childOf parent name := by
  rw [childOf, childOf]
  split
  · rfl
  · refine List.find?_congr fun i hi => ?_
    have hi := h i (List.mem_range.1 hi)
    rw [hi.kind, hi.parent, nameOf_same hi]

theorem resolveFrom_same (parts : List (List UInt8)) (current depth : ℕ) :
    m.resolveFrom parts current depth = t.resolveFrom parts current depth := by
  induction parts generalizing current depth with
  | nil => rfl
  | cons part parts ih =>
    rw [resolveFrom, resolveFrom, ih]
    by_cases hcurrent : current ≥ maxInodes
    · simp only [inodeRef, if_pos hcurrent]
    · simp only [inodeRef, if_neg hcurrent, (h current (not_le.1 hcurrent)).kind,
        childOf_same h current part, ih]

end Same

/-- The tables found on a disk that keeps those of the memory. -/
theorem Loaded.reproduces (hm : Loaded t t.disk.sectors m) (hkept : Kept t)
    (hbooks : Books t t.live False) : Reproduces t m := by
  have hinodes : ∀ i < maxInodes, Inode.Same (t.inodes i) (m.inodes i) := fun i hi => by
    rw [hm.inodes i hi]
    exact hkept.inodes i hi
  have hbitmap : ∀ b < bitmapSectors * sectorSize, m.bitmap b = t.bitmap b := fun b hb =>
    (hm.bitmap b hb).trans (hkept.bitmap b hb)
  have hbits : ∀ b < maxBlocks, bitGet m.bitmap b = bitGet t.bitmap b := fun b hb => by
    rw [bitGet, bitGet, hbitmap (b / 8) (by
      simp only [maxBlocks, bitmapSectors, sectorSize] at hb ⊢
      omega)]
  refine ⟨hinodes, hbitmap, hm.totalBlocks, ?_, fun i hi => nameOf_same (hinodes i hi),
    fun path => resolveFrom_same hinodes _ _ _, fun index hindex p hp => ?_⟩
  · -- `mount` counts the clear bits, and `FREE_BLOCKS` was their number.
    have hcount : countFree m.bitmap t.totalBlocks.toNat =
        countFree t.bitmap t.totalBlocks.toNat := by
      rw [countFree, countFree]
      refine congrArg List.length (List.filter_congr fun b hb => ?_)
      rw [hbits b (Nat.lt_of_lt_of_le (List.mem_range.1 hb) hbooks.total_le)]
    rw [hm.freeBlocks, hm.totalBlocks, hcount, ← hbooks.free, UInt32.ofNat_toNat]
  · have hpointer : m.pointer (index, p / blockSize) = t.pointer (index, p / blockSize) := by
      rw [pointer, pointer, (hinodes index hindex).blocks _ (by
        simp only [maxFileSize, blockSize, directBlocks] at hp ⊢
        omega)]
    rw [byteAt, byteAt, hpointer, blockByte, blockByte, hm.partLba, hm.sectors]

/-- **Persistence.** After a successful `format` and calls that all succeed, let a kernel `b` with
any tables mount the same disk. It finds the same inode table, bitmap and counters, and so the
same names, directory tree and contents, unless the device fails a transfer of the mount. -/
theorem persistence {arch : Arch} {s₀ b : Fs} {label : List UInt8} {es : List FsEvent}
    (hformat : (format label).run s₀ = (.ok (), s)) (hrun : Run (FsStep arch) s es t)
    (htyped : ∀ e ∈ es, e.call.WellTyped arch) (hok : ∀ e ∈ es, ∃ r, e.reply = .ok r)
    (hdisk : b.disk.sectors = t.disk.sectors)
    (hdevice : t.disk.present = b.disk.present ∧ t.disk.totalSectors = b.disk.totalSectors)
    (hpart : b.partition = t.partition) :
    Prog.Post mount b (fun _ m => Reproduces t m) fun stop _ => stop = .err .io ∧
    b.disk.Faulty := by
  obtain ⟨hsynced, hkept⟩ := kept_run (format_synced hformat) (format_kept hformat) hrun htyped hok
  have hmount := mount_loaded hsynced.attached (hdisk ▸ hsynced.good.super) hdevice hpart
  rw [hdisk] at hmount
  exact hmount.mono (fun _ _ hm => hm.reproduces hkept hsynced.books) fun _ _ h => h

theorem exists_of_isOk {r : Except Stop FsReply} (h : r.isOk = true) : ∃ v, r = .ok v := by
  cases r with
  | ok v => exact ⟨v, rfl⟩
  | error e => cases h

/-- A directory with a file in it, a file rewritten, and one removed. -/
def persistenceCalls : List FsCall :=
  [.mkdir [100], .create [100, 47, 97], .write 4 0 [1, 2, 3], .writeAll [98] [7, 8],
    .writeAll [98] [9], .remove 4]

def persistedFs : Fs := (execCalls .i386 persistenceCalls formattedFs).2

theorem run_persistence : Run (FsStep .i386) formattedFs
    (execCalls .i386 persistenceCalls formattedFs).1 persistedFs :=
  run_execCalls (by decide +kernel)

theorem persistence_events : ∀ e ∈ (execCalls .i386 persistenceCalls formattedFs).1,
    e.call.WellTyped .i386 ∧ e.reply.isOk = true := by
  decide +kernel

theorem persistence_device : persistedFs.disk.present = blankFs.disk.present ∧
    persistedFs.disk.totalSectors = blankFs.disk.totalSectors ∧
      blankFs.partition = persistedFs.partition := by
  decide +kernel

attribute [irreducible] persistedFs

theorem persistence_remount :
    Prog.Post mount
    { blankFs with disk := { blankFs.disk with sectors := persistedFs.disk.sectors } }
      (fun _ m => Reproduces persistedFs m) fun stop _ => stop = .err .io ∧
        Disk.Faulty { blankFs.disk with sectors := persistedFs.disk.sectors } :=
  persistence format_blankFs run_persistence (fun e he => (persistence_events e he).1)
    (fun e he => exists_of_isOk (persistence_events e he).2) rfl
    ⟨persistence_device.1, persistence_device.2.1⟩ persistence_device.2.2

end Fs

end Tcmk
