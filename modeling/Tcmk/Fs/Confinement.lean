import Tcmk.Fs.Crash

/-!
# Where the file system writes

A volume is the 37 sectors of the superblock, the inode table and the bitmap, and the sectors of
the data blocks. After `format` no call writes a sector outside of it, whatever the arguments and
whatever the device reports: the data of a file goes to blocks its inode owns, and these are below
`TOTAL_BLOCKS` (`Books`). The boot loader's area between the bitmap and the first data block is no
part of the volume.

`WritesIn V` is about the log of the device, so it also holds of every disk that a crash leaves.
-/

namespace Tcmk

open Lib

namespace Disk

variable {V W : Set ℕ} {d d' d'' : Disk}

/-- The device went from `d` to `d'` by writes to sectors of `V`. -/
def WritesIn (V : Set ℕ) (d d' : Disk) : Prop :=
  ∃ ws, d'.writes = d.writes ++ ws ∧ d'.sectors = replay d.sectors ws ∧ ∀ w ∈ ws, w.1 ∈ V

namespace WritesIn

theorem refl (V : Set ℕ) (d : Disk) : WritesIn V d d :=
  ⟨[], (List.append_nil _).symm, rfl, fun _ hw => absurd hw List.not_mem_nil⟩

theorem trans (h : WritesIn V d d') (h' : WritesIn V d' d'') : WritesIn V d d'' := by
  obtain ⟨ws, hw, hs, hV⟩ := h
  obtain ⟨vs, hv, ht, hV'⟩ := h'
  refine ⟨ws ++ vs, by rw [hv, hw, List.append_assoc], by rw [ht, hs, replay_append], ?_⟩
  intro w hmem
  rcases List.mem_append.1 hmem with hmem | hmem
  · exact hV w hmem
  · exact hV' w hmem

theorem mono (h : WritesIn V d d') (hVW : V ⊆ W) : WritesIn W d d' := by
  obtain ⟨ws, hw, hs, hV⟩ := h
  exact ⟨ws, hw, hs, fun w hmem => hVW (hV w hmem)⟩

theorem sectors_of_notMem (h : WritesIn V d d') {l : ℕ} (hl : l ∉ V) :
    d'.sectors l = d.sectors l := by
  obtain ⟨ws, -, hs, hV⟩ := h
  rw [hs]
  exact replay_of_ne fun w hw he => hl (he ▸ hV w hw)

end WritesIn

theorem writesIn_putRange (d : Disk) {lba n : ℕ} (bytes : ℕ → UInt8) (τ : ℕ)
    (hV : ∀ k < n, lba + k ∈ V) : WritesIn V d ((d.putRange lba bytes n).atTime τ) := by
  induction n with
  | zero => exact .refl V d
  | succ n ih =>
    refine (ih fun k hk => hV k (Nat.lt_succ_of_lt hk)).trans
      ⟨[(lba + n, fun b => bytes (n * sectorSize + b))], rfl, rfl, fun w hw => ?_⟩
    rw [List.mem_singleton.1 hw]
    exact hV n (Nat.lt_succ_self n)

end Disk

namespace Fs

variable {s t u : Fs} {V : Set ℕ} {index : ℕ}

/-- The sectors of the volume: the metadata and the data blocks. -/
def volume (s : Fs) : Set ℕ :=
  {l | s.partLba.toNat ≤ l ∧ l < s.partLba.toNat + bitmapSector + bitmapSectors ∨
    s.partLba.toNat + dataStartSector ≤ l ∧
      l < s.partLba.toNat + dataStartSector + s.totalBlocks.toNat * sectorsPerBlock}

/-- From `s` to `t` the volume has stayed where it is, and only its sectors have been written. -/
structure Confined (s t : Fs) : Prop where
  partLba : t.partLba = s.partLba
  totalBlocks : t.totalBlocks = s.totalBlocks
  partition : t.partition = s.partition
  writes : s.disk.WritesIn s.volume t.disk

namespace Confined

theorem volume (h : Confined s t) : t.volume = s.volume := by
  simp only [Fs.volume, h.partLba, h.totalBlocks]

theorem refl (s : Fs) : Confined s s := ⟨rfl, rfl, rfl, .refl _ _⟩

theorem trans (h : Confined s t) (h' : Confined t u) : Confined s u :=
  ⟨h'.partLba.trans h.partLba, h'.totalBlocks.trans h.totalBlocks,
    h'.partition.trans h.partition, h.writes.trans (h.volume ▸ h'.writes)⟩

theorem placed (h : Confined s t) (hs : Placed s) : Placed t := by
  rwa [Placed, h.partLba]

/-- A step in memory. -/
theorem of_disk (hlba : t.partLba = s.partLba) (htotal : t.totalBlocks = s.totalBlocks)
    (hpartition : t.partition = s.partition) (hdisk : t.disk = s.disk) : Confined s t :=
  ⟨hlba, htotal, hpartition, hdisk ▸ .refl _ _⟩

end Confined

/-- A program that writes the volume only, however it ends. -/
def Confines {α : Type} (x : FsProg α) (s : Fs) : Prop :=
  Prog.Post x s (fun _ t => Confined s t) fun _ t => Confined s t

theorem Confines.bind {α β : Type} {x : FsProg α} {f : α → FsProg β} (h : Confines x s)
    (h' : ∀ a t, Confined s t → Confines (f a) t) : Confines (x >>= f) s :=
  Prog.post_bind.2 (Prog.Post.mono h (fun a t ht => (h' a t ht).mono (fun _ _ hu => ht.trans hu)
    fun _ _ hu => ht.trans hu) fun _ _ ht => ht)

theorem confines_pure {α : Type} (a : α) : Confines (pure a) s := Confined.refl s

theorem confines_fail {α : Type} (e : FsError) : Confines (fail e : FsProg α) s := Confined.refl s

/-! ## The commands -/

theorem metadata_mem {k : ℕ} (hk : k < bitmapSector + bitmapSectors) :
    s.partLba.toNat + k ∈ s.volume := .inl ⟨Nat.le_add_right .., by omega⟩

theorem confined_putRange {lba n : ℕ} (bytes : ℕ → UInt8) (τ : ℕ)
    (hV : ∀ k < n, lba + k ∈ s.volume) :
    Confined s (s.withDisk ((s.disk.putRange lba bytes n).atTime τ)) :=
  ⟨rfl, rfl, rfl, s.disk.writesIn_putRange bytes τ hV⟩

theorem confines_flushInodes (h : Placed s) : Confines flushInodes s := by
  have hmem : ∀ k < inodeTableSectors, s.partLba.toNat + inodeTableSector + k ∈ s.volume := by
    intro k hk
    rw [Nat.add_assoc]
    refine metadata_mem ?_
    simp only [inodeTableSector, inodeTableSectors, bitmapSector, bitmapSectors] at hk ⊢
    omega
  refine (flushInodes_post h).mono (fun _ t ht => ?_) fun _ t ht => ?_
  · obtain ⟨-, τ, rfl⟩ := ht
    exact confined_putRange _ τ hmem
  · obtain ⟨-, ⟨k, hk, τ, rfl⟩, -⟩ := ht
    exact confined_putRange _ τ fun j hj => hmem j (Nat.lt_of_lt_of_le hj hk)

theorem confines_flushBitmap (h : Placed s) : Confines flushBitmap s := by
  have hmem : ∀ k < bitmapSectors, s.partLba.toNat + bitmapSector + k ∈ s.volume := by
    intro k hk
    rw [Nat.add_assoc]
    exact metadata_mem (Nat.add_lt_add_left hk _)
  refine (flushBitmap_post h).mono (fun _ t ht => ?_) fun _ t ht => ?_
  · obtain ⟨-, τ, rfl⟩ := ht
    exact confined_putRange _ τ hmem
  · obtain ⟨-, ⟨k, hk, τ, rfl⟩, -⟩ := ht
    exact confined_putRange _ τ fun j hj => hmem j (Nat.lt_of_lt_of_le hj hk)

theorem confines_writeSuper (sb : SuperBlock) : Confines (writeSuper sb) s := by
  have hmem : ∀ k < 1, s.partLba.toNat + k ∈ s.volume := by
    intro k hk
    refine metadata_mem ?_
    simp only [bitmapSector, bitmapSectors]
    omega
  refine (writeSuper_post sb).mono (fun _ t ht => ?_) fun _ t ht => ?_
  · obtain ⟨-, τ, rfl⟩ := ht
    exact confined_putRange _ τ hmem
  · obtain ⟨-, k, hk, τ, rfl⟩ := ht
    exact confined_putRange _ τ fun j hj => hmem j (Nat.lt_of_lt_of_le hj hk)

theorem confines_readSuper : Confines readSuper s := by
  refine readSuper_post.mono (fun _ t ht => ?_) fun _ t ht => ?_
  · obtain ⟨-, τ, rfl⟩ := ht
    exact ⟨rfl, rfl, rfl, .refl _ _⟩
  · obtain ⟨-, ⟨τ, rfl⟩, -⟩ := ht
    exact ⟨rfl, rfl, rfl, .refl _ _⟩

theorem confines_readBlock (block : UInt32) : Confines (readBlock block) s := by
  refine (readBlock_post block).mono (fun _ t ht => ?_) fun _ t ht => ?_
  · obtain ⟨τ, rfl⟩ := ht
    exact ⟨rfl, rfl, rfl, .refl _ _⟩
  · obtain ⟨-, k, τ, rfl⟩ := ht
    exact ⟨rfl, rfl, rfl, .refl _ _⟩

/-- A data block below `TOTAL_BLOCKS` lies in the volume. -/
theorem confines_writeBlock (h : Placed s) (htotal : s.totalBlocks.toNat ≤ maxBlocks)
    {block : UInt32} (hblock : block.toNat < s.totalBlocks.toNat) :
    Confines (writeBlock block) s := by
  have hmem : ∀ k < sectorsPerBlock, (blockLba s.partLba block).toNat + k ∈ s.volume := by
    intro k hk
    rw [h.blockLba (Nat.lt_of_lt_of_le hblock htotal)]
    simp only [sectorsPerBlock] at hk ⊢
    exact .inr ⟨by omega, by simp only [sectorsPerBlock]; omega⟩
  refine (writeBlock_post block).mono (fun _ t ht => ?_) fun _ t ht => ?_
  · obtain ⟨τ, rfl⟩ := ht
    exact confined_putRange _ τ hmem
  · obtain ⟨-, k, hk, τ, rfl⟩ := ht
    exact confined_putRange _ τ fun j hj => hmem j (Nat.lt_of_lt_of_le hj hk)

/-! ## The calls without data -/

theorem confines_flushTables (h : Placed s) :
    Confines (flushInodes >>= fun _ => flushBitmap) s :=
  (confines_flushInodes h).bind fun _ _ ht => confines_flushBitmap (ht.placed h)

theorem confines_makeEntry (h : Placed s) (kind : UInt32) (path : List UInt8) :
    Confines (makeEntry kind path) s := by
  rw [Confines, makeEntry]
  simp only [Prog.post_bind, Prog.post_get]
  split
  · exact confines_fail _
  split
  · exact confines_fail _
  split
  · exact confines_fail _
  rw [allocateInode]
  simp only [Prog.post_bind, Prog.post_get]
  split
  · exact Confined.refl s
  rename_i parent leaf _ _ i _
  split
  · exact Confined.refl s
  simp only [Prog.post_bind, Prog.post_modify, Prog.post_pure]
  have hset : Confined s (s.setInode i (newInode parent leaf kind s.unixTime)) :=
    .of_disk rfl rfl rfl rfl
  exact (confines_flushInodes (hset.placed h)).mono (fun _ _ ht => hset.trans ht)
    fun _ _ ht => hset.trans ht

theorem confines_rmdir (h : Placed s) (path : List UInt8) : Confines (rmdir path) s := by
  rw [Confines, rmdir]
  simp only [Prog.post_bind, Prog.post_get]
  split
  · exact confines_fail _
  split
  · exact confines_fail _
  split
  · exact confines_fail _
  split
  · exact confines_fail _
  split
  · exact confines_fail _
  · simp only [Prog.post_bind, Prog.post_modify]
    rename_i index _ _ _ _
    have hset : Confined s (s.setInode index Inode.empty) := .of_disk rfl rfl rfl rfl
    exact (confines_flushInodes (hset.placed h)).mono (fun _ _ ht => hset.trans ht)
      fun _ _ ht => hset.trans ht

theorem confines_freeBlock (block : UInt32) : Confines (freeBlock block) s := by
  rw [Confines, freeBlock]
  simp only [Prog.post_bind, Prog.post_get]
  split
  · exact Confined.refl s
  split
  · exact Confined.of_disk rfl rfl rfl rfl
  · exact Confined.refl s

theorem confines_remove (h : Placed s) (index : ℕ) : Confines (remove index) s := by
  rw [Confines, remove]
  simp only [Prog.post_bind, Prog.post_get]
  split
  · exact confines_fail _
  split
  · exact confines_fail _
  refine Prog.post_bind.2 ((Prog.Post.forRange (I := fun _ t => Confined s t) _ (.refl s)
    fun i t _ _ ht => ?_).mono (fun _ t ht => ?_) fun _ _ ht => ht)
  · simp only [Prog.post_bind, Prog.post_get]
    split
    · exact ht
    · exact (confines_freeBlock _).mono (fun _ _ hu => ht.trans hu) fun _ _ hu => ht.trans hu
  · refine Prog.post_bind.2 (Prog.post_modify.2 ?_)
    have hset : Confined s (t.setInode index Inode.empty) := ht.trans (.of_disk rfl rfl rfl rfl)
    exact (confines_flushTables (hset.placed h)).mono (fun _ _ hu => hset.trans hu)
      fun _ _ hu => hset.trans hu

theorem confines_replaceFile (h : Placed s) (name : List UInt8) :
    Confines (replaceFile name) s := by
  rw [Confines, replaceFile]
  simp only [Prog.post_bind, Prog.post_get]
  split
  · exact (confines_remove h _).bind fun _ _ ht => confines_makeEntry (ht.placed h) _ _
  · exact confines_makeEntry h _ _

theorem confines_readLoop (index fuel position left : ℕ) :
    Confines (readLoop index fuel position left) s := by
  induction fuel generalizing position left s with
  | zero => exact .refl s
  | succ fuel ih =>
    rw [readLoop]
    split
    · exact .refl s
    rw [Confines]
    simp only [Prog.post_bind, Prog.post_get]
    split
    · exact .refl s
    · simp only [Prog.post_bind, Prog.post_get]
      refine (confines_readBlock _).mono (fun _ t ht => ?_) fun _ _ ht => ht
      exact (ih _ _).mono (fun _ _ hu => ht.trans hu) fun _ _ hu => ht.trans hu

theorem confines_read (index offset room : ℕ) : Confines (read index offset room) s := by
  rw [Confines, read]
  simp only [Prog.post_bind, Prog.post_get]
  split
  · exact confines_fail _
  split
  · exact confines_fail _
  split
  · exact confines_pure _
  · exact confines_readLoop ..

/-! ## Writing a file -/

theorem Allocating.confined {have_ : ℕ} (h : Allocating s index have_ t) : Confined s t := by
  obtain ⟨blocks, bitmap, free, -, rfl⟩ := h
  exact .of_disk rfl rfl rfl rfl

theorem confines_prepareScratch (index have_ blockIndex chunk : ℕ) :
    Confines (prepareScratch index have_ blockIndex chunk) s := by
  rw [Confines, prepareScratch]
  split
  · split
    · simp only [Prog.post_bind, Prog.post_get]
      split
      · exact Confined.refl s
      · exact confines_readBlock _
    · exact Prog.post_modify.2 (.of_disk rfl rfl rfl rfl)
  · exact Confined.refl s

/-- The data loop writes the blocks of the file's first `blockCount stop` pointers. -/
theorem confines_writeLoop (arch : Arch) {offset : ℕ} (have_ : ℕ) {data : List UInt8} (fuel : ℕ)
    {done : ℕ} (hwrap : offset + data.length < 2 ^ arch.wordBits) (h : Placed s)
    (htotal : s.totalBlocks.toNat ≤ maxBlocks)
    (hpointers : ∀ k < blockCount (offset + data.length),
      s.pointer (index, k) < s.totalBlocks.toNat) :
    Confines (writeLoop arch index offset have_ data fuel done) s := by
  induction fuel generalizing done s with
  | zero => exact .refl s
  | succ fuel ih =>
    rw [writeLoop]
    split
    · exact .refl s
    rename_i hdone
    rw [not_le] at hdone
    have hposition : (offset + done) % 2 ^ arch.wordBits = offset + done :=
      Nat.mod_eq_of_lt (by omega)
    simp only [hposition]
    generalize hchunk : min (blockSize - (offset + done) % blockSize) (data.length - done) = chunk
    -- Neither the preparation nor the copy changes a table.
    refine Prog.post_bind.2 (((confines_prepareScratch _ _ _ _).and
      (keepsTables_prepareScratch index have_ ((offset + done) / blockSize) chunk s)).mono
        (fun _ t ht => ?_) fun _ _ ht => ht.1)
    obtain ⟨ht, htables⟩ := ht
    refine Prog.post_bind.2 (Prog.post_modify.2 ?_)
    set v := t.fillScratch ((offset + done) % blockSize) chunk data done with hv
    have hsv : Confined s v := ht.trans (.of_disk rfl rfl rfl rfl)
    have hinodes : v.inodes = s.inodes := htables.inodes
    simp only [Prog.post_bind, Prog.post_get]
    split
    · exact hsv
    have hlive : (offset + done) / blockSize < blockCount (offset + data.length) := by
      simp only [blockCount, blockSize]
      omega
    have hblock : ((v.inodes index).blocks ((offset + done) / blockSize)).toNat <
        v.totalBlocks.toNat := by
      rw [hinodes, hsv.totalBlocks]
      exact hpointers _ hlive
    have hvtotal : v.totalBlocks.toNat ≤ maxBlocks := by rwa [hsv.totalBlocks]
    refine Prog.post_bind.2 (((confines_writeBlock (hsv.placed h) hvtotal hblock).and
      (keepsTables_writeBlock _)).mono (fun _ u hu => ?_) fun _ _ hu => hsv.trans hu.1)
    obtain ⟨hu, hutables⟩ := hu
    have hsu := hsv.trans hu
    refine (ih (hsu.placed h) (by rwa [hsu.totalBlocks]) fun k hk => ?_).mono
      (fun _ _ hw => hsu.trans hw) fun _ _ hw => hsu.trans hw
    rw [hsu.totalBlocks, pointer, hutables.inodes, hinodes]
    exact hpointers k hk

theorem confines_finish (h : Placed s) (index stop n : ℕ) :
    Confines (do
      Prog.modify fun s => s.finishWrite index stop
      flushInodes
      flushBitmap
      pure n) s := by
  have hset : Confined s (s.finishWrite index stop) := .of_disk rfl rfl rfl rfl
  refine Prog.post_bind.2 (Prog.post_modify.2 ?_)
  refine Prog.Post.mono ((confines_flushInodes (hset.placed h)).bind (f := fun _ => _)
    fun _ t ht => (confines_flushBitmap (ht.placed (hset.placed h))).bind fun _ _ _ =>
      confines_pure n) (fun _ _ hu => hset.trans hu) fun _ _ hu => hset.trans hu

theorem confines_write (arch : Arch) {offset : ℕ} {data : List UInt8} (h : Placed s)
    (hs : Books s s.live False) (hoffset : arch.IsUsize offset)
    (hlen : arch.IsSliceLen data.length) :
    Confines (write arch index offset data) s := by
  rw [Confines, write]
  simp only [Prog.post_bind, Prog.post_get]
  split
  · exact confines_fail _
  split
  · exact confines_fail _
  rename_i hfile
  rw [not_or, not_le, not_not] at hfile
  obtain ⟨hindex, hkind⟩ := hfile
  split
  · exact confines_fail _
  rename_i hmax
  rw [not_lt] at hmax
  have hown : OwnPointers s index (blockCount (s.inodes index).size.toNat) := fun _ h => h.2.2
  have hhave := hs.blockCount_le hindex hkind
  have hneeded := blockCount_le hmax
  refine Prog.post_bind.2 ((allocBlocks_post hindex hown _ (Nat.le_refl _) (by omega)
    (.refl s index _) (by rwa [pending_self, Set.union_empty])).mono
    (fun _ u hu => ?_) fun _ u hu => hu.2.1.confined)
  obtain ⟨halloc, hbooks⟩ := hu
  rw [pending_add_sub] at hbooks
  have hsu := halloc.confined
  by_cases hwrap : offset + data.length < 2 ^ arch.wordBits
  · rw [Nat.mod_eq_of_lt hwrap] at hmax hneeded hbooks ⊢
    refine Prog.post_bind.2 ((confines_writeLoop arch _ _ hwrap (hsu.placed h) hbooks.total_le
      fun k hk => hbooks.lt _ ?_).mono (fun _ v hv => ?_) fun _ _ hv => hsu.trans hv)
    · by_cases hold : k < blockCount (s.inodes index).size.toNat
      · exact .inl ⟨hindex, hkind, hold⟩
      · exact .inr ⟨rfl, not_lt.1 hold, hk⟩
    · have hsv := hsu.trans hv
      exact (confines_finish (hsv.placed h) index (offset + data.length) data.length).mono
        (fun _ _ hw => hsv.trans hw) fun _ _ hw => hsv.trans hw
  · refine Prog.post_bind.2 ((writeLoop_wrapped arch hoffset hlen hwrap
      (Q := fun _ _ => False)).mono (fun _ _ hv => hv.elim) fun _ v hv => ?_)
    obtain ⟨-, hdisk, htables⟩ := hv
    exact hsu.trans (.of_disk htables.partLba htables.totalBlocks htables.partition hdisk)

/-! ## Every call -/

theorem confines_sync (h : Placed s) : Confines sync s := by
  rw [Confines, sync]
  simp only [Prog.post_bind, Prog.post_get]
  split
  · exact confines_fail _
  · refine (confines_flushInodes h).bind (f := fun _ => _) fun _ t ht => ?_
    refine (confines_flushBitmap (ht.placed h)).bind (f := fun _ => _) fun _ u hu => ?_
    exact confines_readSuper.bind fun sb v _ => confines_writeSuper (s := v) _

theorem confines_exec (arch : Arch) {call : FsCall} (hcall : call.WellTyped arch) (h : Placed s)
    (hs : Books s s.live False) : Confines (call.exec arch) s := by
  cases call with
  | create path => exact (confines_makeEntry h _ _).bind fun _ _ _ => confines_pure _
  | mkdir path => exact (confines_makeEntry h _ _).bind fun _ _ _ => confines_pure _
  | rmdir path => exact (confines_rmdir h _).bind fun _ _ _ => confines_pure _
  | remove index => exact (confines_remove h _).bind fun _ _ _ => confines_pure _
  | read index offset room => exact (confines_read _ _ _).bind fun _ _ _ => confines_pure _
  | write index offset data =>
    exact (confines_write arch h hs hcall.1 hcall.2).bind fun _ _ _ => confines_pure _
  | writeAll name data =>
    -- The books of the state in between are those of `replaceFile`.
    have hlen : arch.IsSliceLen data.length := hcall
    have hzero : arch.IsUsize 0 := Nat.two_pow_pos _
    refine Confines.bind ?_ fun _ _ _ => confines_pure _
    refine Prog.post_bind.2 (((confines_replaceFile h name).and
      (keepsBooks_replaceFile name False hs)).mono (fun _ t ht => ?_) fun _ _ ht => ht.1)
    exact (confines_write arch (ht.1.placed h) ht.2 hzero hlen).mono
      (fun _ _ hu => ht.1.trans hu) fun _ _ hu => ht.1.trans hu
  | sync => exact (confines_sync h).bind fun _ _ _ => confines_pure _

/-- What a call needs: a volume the driver can address, and its books. -/
structure Settled (s : Fs) : Prop where
  placed : Placed s
  books : Books s s.live False

/-- One call, whatever becomes of it. -/
theorem Settled.call {arch : Arch} {call : FsCall} {unixTime : UInt32} {r : Except Stop FsReply}
    (hs : Settled s) (hcall : call.WellTyped arch)
    (hrun : (call.exec arch).run { s with unixTime := unixTime } = (r, t)) : Confined s t := by
  have hnow : Confined s { s with unixTime := unixTime } := .of_disk rfl rfl rfl rfl
  have hbooks := hs.books.congr (t := { s with unixTime := unixTime }) rfl rfl rfl fun _ _ => rfl
  have hpost := confines_exec arch hcall (hnow.placed hs.placed) hbooks
  cases r with
  | ok a => exact hnow.trans (hpost.of_ok hrun)
  | error e => exact hnow.trans (hpost.of_error hrun)

theorem Settled.run {arch : Arch} {es : List FsEvent} (hs : Settled s)
    (hcalls : ∀ e ∈ es, e.call.WellTyped arch) (hrun : Run (FsStep arch) s es t) :
    Settled t ∧ Confined s t := by
  induction hrun with
  | nil s => exact ⟨hs, .refl s⟩
  | cons hstep _ ih =>
    obtain ⟨hcall, hcalls⟩ := List.forall_mem_cons.1 hcalls
    have hconfined := hs.call hcall hstep.2
    obtain ⟨hsettled, hrest⟩ := ih ⟨hconfined.placed hs.placed, (books_step hs.books hstep).weaken
      False.elim⟩ hcalls
    exact ⟨hsettled, hconfined.trans hrest⟩

/-! ## From formatting on -/

/-- The tables that `format` flushes lie on the disk from `lba` on; the rest of it happens in the
volume of a settled state. -/
theorem format_settled {label : List UInt8} (h : (format label).run s = (.ok (), t)) :
    ∃ lba sectors, s.partition = some (lba, sectors) ∧ t.partition = s.partition ∧
      t.partLba = lba ∧ t.totalBlocks = capacityBlocks sectors ∧ Settled t ∧
        s.disk.WritesIn t.volume t.disk := by
  have hbooks : Books t t.live False := (format_books h).weaken False.elim
  suffices hsuff : ∃ lba sectors, s.partition = some (lba, sectors) ∧ t.partition = s.partition ∧
      t.partLba = lba ∧ t.totalBlocks = capacityBlocks sectors ∧ Placed t ∧
        s.disk.WritesIn t.volume t.disk by
    obtain ⟨lba, sectors, hpart, hsame, hlba, htotal, hplaced, hwrites⟩ := hsuff
    exact ⟨lba, sectors, hpart, hsame, hlba, htotal, ⟨hplaced, hbooks⟩, hwrites⟩
  refine Prog.Post.of_ok (x := format label) (E := fun _ _ => True) (Q := fun _ t => ∃ lba sectors,
    s.partition = some (lba, sectors) ∧ t.partition = s.partition ∧ t.partLba = lba ∧
      t.totalBlocks = capacityBlocks sectors ∧ Placed t ∧ s.disk.WritesIn t.volume t.disk) ?_ h
  rw [format]
  simp only [Prog.post_bind, Prog.post_get]
  split
  · trivial
  rename_i lba sectors hpart
  split
  · trivial
  simp only [Prog.post_bind, Prog.post_modify]
  change Prog.Post flushInodes (s.cleared lba (capacityBlocks sectors)) _ _
  by_cases hplace : lba.toNat < 2 ^ 28
  · have hs : Placed (s.cleared lba (capacityBlocks sectors)) := hplace
    refine (confines_flushInodes hs).mono (fun _ u hu => ?_) fun _ _ _ => trivial
    refine (confines_flushBitmap (hu.placed hs)).mono (fun _ v hv => ?_) fun _ _ _ => trivial
    refine (confines_writeSuper _).mono (fun _ w hw => ?_) fun _ _ _ => trivial
    have hw' : Confined (s.cleared lba (capacityBlocks sectors)) { w with mounted := true } :=
      ((hu.trans hv).trans hw).trans (.of_disk rfl rfl rfl rfl)
    refine (confines_makeEntry (hw'.placed hs) _ _).mono (fun _ x hx => ?_) fun _ _ _ => trivial
    have hx' := hw'.trans hx
    refine (confines_makeEntry (hx'.placed hs) _ _).mono (fun _ y hy => ?_) fun _ _ _ => trivial
    have hy' := hx'.trans hy
    refine ⟨lba, sectors, hpart, hy'.partition, hy'.partLba, hy'.totalBlocks, hy'.placed hs, ?_⟩
    rw [hy'.volume]
    exact hy'.writes
  · -- The driver refuses the superblock's sector.
    refine keepsTables_flushInodes.mono (fun _ u hu => ?_) fun _ _ _ => trivial
    refine keepsTables_flushBitmap.mono (fun _ v hv => ?_) fun _ _ _ => trivial
    refine (writeSuper_post _).mono (fun _ w hw => ?_) fun _ _ _ => trivial
    refine absurd hw.1.2.2 ?_
    rw [hv.partLba, hu.partLba]
    exact hplace

/-- The volume lies in the partition that `format` found, and leaves its boot area alone. -/
theorem volume_subset {lba sectors : UInt32} (hlba : s.partLba = lba)
    (htotal : s.totalBlocks = capacityBlocks sectors)
    (hmetadata : bitmapSector + bitmapSectors ≤ sectors.toNat) {l : ℕ} (hl : l ∈ s.volume) :
    (lba.toNat ≤ l ∧ l < lba.toNat + sectors.toNat) ∧
      ¬ (lba.toNat + bitmapSector + bitmapSectors ≤ l ∧ l < lba.toNat + dataStartSector) := by
  have hcapacity : s.totalBlocks.toNat = 0 ∨
      dataStartSector + s.totalBlocks.toNat * sectorsPerBlock ≤ sectors.toNat := by
    have hstart : (UInt32.ofNat dataStartSector).toNat = 4096 := rfl
    have hper : (UInt32.ofNat sectorsPerBlock).toNat = 8 := rfl
    rw [htotal, capacityBlocks]
    split
    · exact .inl rfl
    · rename_i hlt
      rw [UInt32.not_le] at hlt
      have hle := UInt32.le_of_lt hlt
      rw [UInt32.lt_iff_toNat_lt, hstart] at hlt
      refine .inr ?_
      rw [UInt32.toNat_min, UInt32.toNat_div, UInt32.toNat_sub_of_le _ _ hle, hstart, hper]
      simp only [dataStartSector, sectorsPerBlock]
      omega
  simp only [volume, Set.mem_ofPred_eq, hlba] at hl
  simp only [bitmapSector, bitmapSectors, dataStartSector, sectorsPerBlock] at *
  omega

/-- **Confinement.** After a successful `format` of a partition that has room for the metadata,
any calls, whatever they returned, and one more, which may even panic: every sector that has been
written since before the `format` lies in the partition, and not in its boot area. -/
theorem volume_confined {arch : Arch} {s₀ : Fs} {label : List UInt8} {es : List FsEvent}
    {call : FsCall} {unixTime : UInt32} {r : Except Stop FsReply} {lba sectors : UInt32}
    (hformat : (format label).run s₀ = (.ok (), s)) (hrun : Run (FsStep arch) s es t)
    (hcalls : ∀ e ∈ es, e.call.WellTyped arch) (hcall : call.WellTyped arch)
    (hlast : (call.exec arch).run { t with unixTime := unixTime } = (r, u))
    (hpartition : s₀.partition = some (lba, sectors))
    (hroom : bitmapSector + bitmapSectors ≤ sectors.toNat) :
    s₀.disk.WritesIn {l | (lba.toNat ≤ l ∧ l < lba.toNat + sectors.toNat) ∧
      ¬ (lba.toNat + bitmapSector + bitmapSectors ≤ l ∧ l < lba.toNat + dataStartSector)}
      u.disk := by
  obtain ⟨lba', sectors', hpart, -, hlba, htotal, hsettled, hwrites⟩ := format_settled hformat
  obtain ⟨rfl, rfl⟩ : lba' = lba ∧ sectors' = sectors := by
    rw [hpart] at hpartition
    exact Prod.mk.inj (Option.some.inj hpartition)
  obtain ⟨ht, hst⟩ := hsettled.run hcalls hrun
  have hsu := hst.trans (ht.call hcall hlast)
  exact (hwrites.trans hsu.writes).mono fun l hl => volume_subset hlba htotal hroom hl

/-- Two files on a small disk. -/
theorem volume_confined_twoFiles : blankFs.disk.WritesIn
    {l | ((64 : UInt32).toNat ≤ l ∧ l < (64 : UInt32).toNat + (8000 : UInt32).toNat) ∧
      ¬ ((64 : UInt32).toNat + bitmapSector + bitmapSectors ≤ l ∧
        l < (64 : UInt32).toNat + dataStartSector)}
    ((FsCall.exec .i386 .sync).run
      { (execCalls .i386 ownershipCalls formattedFs).2 with unixTime := 9 }).2.disk :=
  volume_confined format_blankFs (run_execCalls (by decide +kernel)) (by decide +kernel)
    (show FsCall.WellTyped .i386 .sync from trivial) Prod.mk.eta.symm rfl (by decide)

end Fs

end Tcmk
