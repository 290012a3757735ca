import Tcmk.Lib.WriteLog
import Tcmk.Fs.Contents

/-!
# Crashes

A crash leaves the disk that some prefix of the sector writes has made. Mounting it gives the
inodes and the bitmap found there (`onDisk`). They are `Good` when every block of a file is
marked and no two files share one.

A write that allocates blocks flushes the inode table before the bitmap. From the moment its
inode is on the disk until the last of its new blocks is marked there, the disk has a file with
an unmarked block (`Exposed`). `crash_consistent`: a crash at any other point, of any call after
any calls whose transfers succeeded, leaves a good disk.

Between calls the tables on disk agree with those in memory as far as files go (`Synced`). A
flush is seen sector by sector, for the table on disk is then partly old and partly new.
-/

namespace Tcmk

open Lib

/-! ## The log of a device -/

namespace Disk

variable {G : ℕ → Sectors → Prop} {d d' d'' : Disk}

/-- The device went from `d` to `d'` by sector writes, and each of the disks on the way has
the property `G` of its number of writes. -/
def Logged (G : ℕ → Sectors → Prop) (d d' : Disk) : Prop :=
  ∃ ws, d'.writes = d.writes ++ ws ∧ d'.sectors = replay d.sectors ws ∧
    Through G d.writes.length d.sectors ws

namespace Logged

theorem refl (h : G d.writes.length d.sectors) : Logged G d d :=
  ⟨[], (List.append_nil _).symm, rfl, .nil h⟩

theorem trans (h : Logged G d d') (h' : Logged G d' d'') : Logged G d d'' := by
  obtain ⟨ws, hw, hs, hG⟩ := h
  obtain ⟨vs, hv, ht, hG'⟩ := h'
  refine ⟨ws ++ vs, by rw [hv, hw, List.append_assoc], by rw [ht, hs, replay_append], ?_⟩
  rw [hw, hs, List.length_append] at hG'
  exact hG.append hG'

theorem mono {G' : ℕ → Sectors → Prop} (h : Logged G d d') (hG : ∀ n D, G n D → G' n D) :
    Logged G' d d' := by
  obtain ⟨ws, hw, hs, hthrough⟩ := h
  exact ⟨ws, hw, hs, fun k hk => hG _ _ (hthrough k hk)⟩

theorem atTime (h : Logged G d d') (τ : ℕ) : Logged G d (d'.atTime τ) := h

theorem last (h : Logged G d d') : G d'.writes.length d'.sectors := by
  obtain ⟨ws, hw, hs, hG⟩ := h
  rw [hw, hs, List.length_append]
  have := hG ws.length (Nat.le_refl _)
  rwa [List.take_length] at this

end Logged

@[simp] theorem length_putRange (d : Disk) (lba : ℕ) (bytes : ℕ → UInt8) (n : ℕ) :
    (d.putRange lba bytes n).writes.length = d.writes.length + n := by
  induction n with
  | zero => rfl
  | succ n ih =>
    rw [putRange, put, List.length_append, ih]
    rfl

theorem logged_putRange {lba : ℕ} {bytes : ℕ → UInt8} (n : ℕ)
    (h : ∀ k ≤ n, G (d.writes.length + k) (d.putRange lba bytes k).sectors) :
    Logged G d (d.putRange lba bytes n) := by
  induction n with
  | zero => exact .refl (h 0 (Nat.le_refl _))
  | succ n ih =>
    refine (ih fun k hk => h k (Nat.le_succ_of_le hk)).trans
      ⟨[(lba + n, fun b => bytes (n * sectorSize + b))], rfl, rfl, Through.concat (.nil ?_) ?_⟩
    · rw [length_putRange]
      exact h n (Nat.le_succ n)
    · rw [length_putRange]
      exact h (n + 1) (Nat.le_refl _)

end Disk

namespace Fs

variable {s t u : Fs} {D D' : Sectors} {G : ℕ → Sectors → Prop} {index : ℕ}

/-! ## What is on a disk -/

/-- The tables that `mount` finds on a disk. -/
def onDisk (s : Fs) (D : Sectors) : Fs :=
  { s with
    inodes := fun i => Inode.ofBytes (D (s.partLba.toNat + inodeTableSector + i / 2))
      (i % 2 * inodeSize)
    bitmap := fun b => D (s.partLba.toNat + bitmapSector + b / sectorSize) (b % sectorSize) }

/-- `mount` accepts the superblock and finds the right size in it. -/
def SuperOk (s : Fs) (D : Sectors) : Prop :=
  (SuperBlock.ofBytes (D s.partLba.toNat)).magic = magic ∧
    (SuperBlock.ofBytes (D s.partLba.toNat)).version = version ∧
    (SuperBlock.ofBytes (D s.partLba.toNat)).totalBlocks = s.totalBlocks

/-- Every block of a file on the disk is marked there, and no two files share one. -/
structure Good (s : Fs) (D : Sectors) : Prop where
  super : SuperOk s D
  slot : ∀ a ∈ (s.onDisk D).live, a.2 < directBlocks
  lt : ∀ a ∈ (s.onDisk D).live, (s.onDisk D).pointer a < s.totalBlocks.toNat
  owns : Owns (s.onDisk D).live (s.onDisk D).pointer (s.onDisk D).used

/-- The sectors of the metadata are the same. -/
def SameMeta (s : Fs) (D D' : Sectors) : Prop :=
  ∀ l, s.partLba.toNat ≤ l → l < s.partLba.toNat + bitmapSector + bitmapSectors → D' l = D l

theorem SameMeta.refl (s : Fs) (D : Sectors) : SameMeta s D D := fun _ _ _ => rfl

theorem SameMeta.super (h : SameMeta s D D') : SuperOk s D' ↔ SuperOk s D := by
  rw [SuperOk, SuperOk, h _ (Nat.le_refl _) (by simp only [bitmapSector]; omega)]

theorem SameMeta.inodes (h : SameMeta s D D') {i : ℕ} (hi : i < maxInodes) :
    (s.onDisk D').inodes i = (s.onDisk D).inodes i := by
  simp only [onDisk]
  rw [h _ (by omega) (by
    simp only [maxInodes, inodeTableSector, bitmapSector, bitmapSectors] at hi ⊢
    omega)]

theorem SameMeta.bit (h : SameMeta s D D') {b : ℕ} (hb : b < maxBlocks) :
    bitGet (s.onDisk D').bitmap b = bitGet (s.onDisk D).bitmap b := by
  simp only [onDisk, bitGet]
  rw [h _ (Nat.le_trans (Nat.le_add_right _ _) (Nat.le_add_right _ _)) (by
    simp only [maxBlocks, bitmapSector, bitmapSectors, sectorSize] at hb ⊢
    omega)]

/-- Two tables name the same files, sizes and blocks. -/
def FilesSub (s t : Fs) : Prop := ∀ a ∈ t.live, a ∈ s.live ∧ t.pointer a = s.pointer a

/-- A disk whose files are among those of a good disk, and whose bitmap marks their blocks. -/
theorem Good.of_sub (h : Good s D) (hsuper : SuperOk s D')
    (hfiles : FilesSub (s.onDisk D) (s.onDisk D'))
    (hbits : ∀ a ∈ (s.onDisk D').live, (s.onDisk D').used ((s.onDisk D').pointer a)) :
    Good s D' := by
  refine ⟨hsuper, fun a ha => h.slot a (hfiles a ha).1, fun a ha => ?_, hbits,
    fun a ha b hb hab => ?_⟩
  · rw [(hfiles a ha).2]
    exact h.lt a (hfiles a ha).1
  · rw [(hfiles a ha).2, (hfiles b hb).2] at hab
    exact h.owns.inj (hfiles a ha).1 (hfiles b hb).1 hab

/-- A file's slot depends on its inode's kind and size only. -/
theorem mem_live_congr {a : ℕ × ℕ} (hkind : (t.inodes a.1).kind = (s.inodes a.1).kind)
    (hsize : (t.inodes a.1).size = (s.inodes a.1).size) : a ∈ t.live ↔ a ∈ s.live := by
  simp only [live, Set.mem_ofPred_eq, hkind, hsize]

/-- The same files. -/
theorem SameMeta.files (h : SameMeta s D D') :
    FilesSub (s.onDisk D) (s.onDisk D') ∧ FilesSub (s.onDisk D') (s.onDisk D) := by
  constructor
  · intro a ha
    have heq := h.inodes ha.1
    exact ⟨(mem_live_congr (by rw [heq]) (by rw [heq])).1 ha, by simp only [pointer, heq]⟩
  · intro a ha
    have heq := h.inodes ha.1
    exact ⟨(mem_live_congr (by rw [heq]) (by rw [heq])).2 ha, by simp only [pointer, heq]⟩

theorem Good.sameMeta (h : Good s D) (hmeta : SameMeta s D D') : Good s D' := by
  have hfiles := hmeta.files.1
  refine h.of_sub (hmeta.super.2 h.super) hfiles fun a ha => ?_
  rw [(hfiles a ha).2]
  obtain ⟨hlt, hset⟩ := h.owns.used a (hfiles a ha).1
  exact ⟨hlt, by rw [hmeta.bit hlt]; exact hset⟩

/-! ## Flushing the inode table -/

/-- The part of the inode table that `k` sectors cover is new, the rest is old. -/
theorem onDisk_flushInodes (s : Fs) (d : Disk) (k i : ℕ) :
    let new := (s.onDisk (d.putRange (s.partLba.toNat + inodeTableSector)
      (inodeTableByte s.inodes) k).sectors).inodes i
    if i / 2 < k then Inode.Same (s.inodes i) new else new = (s.onDisk d.sectors).inodes i := by
  intro new
  by_cases hk : i / 2 < k
  · rw [if_pos hk]
    refine ofBytes_same fun b hb => ?_
    rw [Disk.putRange_sectors, if_pos ⟨Nat.le_add_right _ _, Nat.add_lt_add_left hk _⟩,
      Nat.add_sub_cancel_left, inodeTableByte]
    simp only [inodeSize, sectorSize] at hb ⊢
    rw [show (i / 2 * 512 + (i % 2 * 256 + b)) / 256 = i by omega,
      show (i / 2 * 512 + (i % 2 * 256 + b)) % 256 = b by omega]
  · rw [if_neg hk]
    show Inode.ofBytes _ _ = Inode.ofBytes _ _
    rw [Disk.putRange_sectors_of_not]
    exact .inr (by omega)

/-- The rest of the metadata is not touched by a flush of the inode table. -/
theorem bitmap_flushInodes (s : Fs) (d : Disk) {k : ℕ} (hk : k ≤ inodeTableSectors) :
    (s.onDisk (d.putRange (s.partLba.toNat + inodeTableSector)
      (inodeTableByte s.inodes) k).sectors).bitmap = (s.onDisk d.sectors).bitmap := by
  funext b
  simp only [onDisk]
  rw [Disk.putRange_sectors_of_not]
  refine .inr ?_
  simp only [inodeTableSector, inodeTableSectors, bitmapSector] at hk ⊢
  generalize b / sectorSize = q
  omega

theorem bit_flushInodes (s : Fs) (d : Disk) {k b : ℕ} (hk : k ≤ inodeTableSectors) :
    bitGet (s.onDisk (d.putRange (s.partLba.toNat + inodeTableSector)
      (inodeTableByte s.inodes) k).sectors).bitmap b = bitGet (s.onDisk d.sectors).bitmap b := by
  rw [bitmap_flushInodes s d hk]

theorem super_flushInodes (s : Fs) (d : Disk) {k : ℕ} :
    SuperOk s (d.putRange (s.partLba.toNat + inodeTableSector)
      (inodeTableByte s.inodes) k).sectors ↔ SuperOk s d.sectors := by
  rw [SuperOk, SuperOk, Disk.putRange_sectors_of_not]
  exact .inl (by simp only [inodeTableSector]; omega)

/-- Memory has a sub-table of the disk's files in the inodes that the first `k` sectors cover:
then the disk is good after these sectors. -/
theorem good_flushInodes (h : Good s s.disk.sectors) {k : ℕ} (hk : k ≤ inodeTableSectors)
    (hfiles : ∀ a ∈ s.live, a.1 / 2 < k → a ∈ (s.onDisk s.disk.sectors).live ∧
      s.pointer a = (s.onDisk s.disk.sectors).pointer a) :
    Good s (s.disk.putRange (s.partLba.toNat + inodeTableSector)
      (inodeTableByte s.inodes) k).sectors := by
  have hsub : FilesSub (s.onDisk s.disk.sectors) (s.onDisk (s.disk.putRange
      (s.partLba.toNat + inodeTableSector) (inodeTableByte s.inodes) k).sectors) := by
    intro a ha
    have hmix := onDisk_flushInodes s s.disk k a.1
    simp only at hmix
    split at hmix
    · rename_i hlt
      have hmem : a ∈ s.live := (mem_live_congr hmix.kind hmix.size).1 ha
      obtain ⟨hold, hptr⟩ := hfiles a hmem hlt
      refine ⟨hold, ?_⟩
      rw [← hptr]
      simp only [pointer, hmix.blocks a.2 (h.slot a hold)]
    · exact ⟨(mem_live_congr (by rw [hmix]) (by rw [hmix])).1 ha, by simp only [pointer, hmix]⟩
  refine h.of_sub ((super_flushInodes s s.disk).2 h.super) hsub fun a ha => ?_
  rw [(hsub a ha).2]
  obtain ⟨hlt, hset⟩ := h.owns.used a (hsub a ha).1
  exact ⟨hlt, by rw [bit_flushInodes s s.disk hk]; exact hset⟩

/-- After the whole flush the disk has the files of the memory. -/
theorem files_flushInodes (hslot : ∀ a ∈ s.live, a.2 < directBlocks) (d : Disk) :
    FilesSub s (s.onDisk (d.putRange (s.partLba.toNat + inodeTableSector)
        (inodeTableByte s.inodes) inodeTableSectors).sectors) ∧
      FilesSub (s.onDisk (d.putRange (s.partLba.toNat + inodeTableSector)
        (inodeTableByte s.inodes) inodeTableSectors).sectors) s := by
  have hsame : ∀ a : ℕ × ℕ, a.1 < maxInodes → _ := fun a ha => by
    have h := onDisk_flushInodes s d inodeTableSectors a.1
    simp only at h
    rw [if_pos (by simp only [maxInodes, inodeTableSectors] at ha ⊢; omega)] at h
    exact h
  constructor
  · intro a ha
    have hnew := hsame a ha.1
    have hmem : a ∈ s.live := (mem_live_congr hnew.kind hnew.size).1 ha
    exact ⟨hmem, by simp only [pointer, hnew.blocks a.2 (hslot a hmem)]⟩
  · intro a ha
    have hnew := hsame a ha.1
    exact ⟨(mem_live_congr hnew.kind hnew.size).2 ha,
      by simp only [pointer, hnew.blocks a.2 (hslot a ha)]⟩

/-- What the disk `d'` is after a flush of the inode table of `s` to the disk `d`. -/
structure InodesFlushed (s : Fs) (d d' : Disk) : Prop where
  device : Disk.SameDevice d d'
  length : d'.writes.length = d.writes.length + inodeTableSectors
  down : FilesSub s (s.onDisk d'.sectors)
  up : FilesSub (s.onDisk d'.sectors) s
  bit : ∀ b, bitGet (s.onDisk d'.sectors).bitmap b = bitGet (s.onDisk d.sectors).bitmap b
  super : SuperOk s d'.sectors ↔ SuperOk s d.sectors

theorem inodesFlushed (hslot : ∀ a ∈ s.live, a.2 < directBlocks) (d : Disk) (τ : ℕ) :
    InodesFlushed s d ((d.putRange (s.partLba.toNat + inodeTableSector)
      (inodeTableByte s.inodes) inodeTableSectors).atTime τ) where
  device := ⟨by simp, by simp, by simp⟩
  length := by rw [Disk.atTime_writes, Disk.length_putRange]
  down := (files_flushInodes hslot d).1
  up := (files_flushInodes hslot d).2
  bit _ := bit_flushInodes s d (Nat.le_refl _)
  super := super_flushInodes s d

/-! ## Flushing the bitmap -/

theorem bitmap_flushBitmap (s : Fs) (d : Disk) (k b : ℕ) :
    (s.onDisk (d.putRange (s.partLba.toNat + bitmapSector) s.bitmap k).sectors).bitmap b =
      if b / sectorSize < k then s.bitmap b else (s.onDisk d.sectors).bitmap b := by
  simp only [onDisk]
  rw [Disk.putRange_sectors]
  by_cases hk : b / sectorSize < k
  · rw [if_pos ⟨Nat.le_add_right _ _, Nat.add_lt_add_left hk _⟩, if_pos hk,
      Nat.add_sub_cancel_left, Nat.div_add_mod']
  · rw [if_neg (fun h => hk (by omega)), if_neg hk]

theorem bit_flushBitmap (s : Fs) (d : Disk) (k : ℕ) {b : ℕ} :
    bitGet (s.onDisk (d.putRange (s.partLba.toNat + bitmapSector) s.bitmap k).sectors).bitmap b =
      if b / 8 / sectorSize < k then bitGet s.bitmap b
      else bitGet (s.onDisk d.sectors).bitmap b := by
  simp only [bitGet]
  rw [bitmap_flushBitmap]
  split <;> rfl

theorem inodes_flushBitmap (s : Fs) (d : Disk) (k : ℕ) {i : ℕ} (hi : i < maxInodes) :
    (s.onDisk (d.putRange (s.partLba.toNat + bitmapSector) s.bitmap k).sectors).inodes i =
      (s.onDisk d.sectors).inodes i := by
  simp only [onDisk]
  rw [Disk.putRange_sectors_of_not]
  refine .inl ?_
  simp only [maxInodes, inodeTableSector, bitmapSector] at hi ⊢
  omega

theorem super_flushBitmap (s : Fs) (d : Disk) (k : ℕ) :
    SuperOk s (d.putRange (s.partLba.toNat + bitmapSector) s.bitmap k).sectors ↔
      SuperOk s d.sectors := by
  rw [SuperOk, SuperOk, Disk.putRange_sectors_of_not]
  exact .inl (by simp only [bitmapSector]; omega)

theorem files_flushBitmap (s : Fs) (d : Disk) (k : ℕ) :
    FilesSub (s.onDisk d.sectors)
        (s.onDisk (d.putRange (s.partLba.toNat + bitmapSector) s.bitmap k).sectors) ∧
      FilesSub (s.onDisk (d.putRange (s.partLba.toNat + bitmapSector) s.bitmap k).sectors)
        (s.onDisk d.sectors) := by
  constructor
  · intro a ha
    have heq := inodes_flushBitmap s d k ha.1
    exact ⟨(mem_live_congr (by rw [heq]) (by rw [heq])).1 ha, by simp only [pointer, heq]⟩
  · intro a ha
    have heq := inodes_flushBitmap s d k ha.1
    exact ⟨(mem_live_congr (by rw [heq]) (by rw [heq])).2 ha, by simp only [pointer, heq]⟩

theorem FilesSub.trans {v : Fs} (h : FilesSub s t) (h' : FilesSub t v) : FilesSub s v :=
  fun a ha => ⟨(h a (h' a ha).1).1, (h' a ha).2.trans (h a (h' a ha).1).2⟩

/-- The files on the disk are those of the memory, and the blocks that are not marked there yet
are marked by the sectors flushed: then the disk is good. -/
theorem good_flushBitmap {c : Prop} (hbooks : Books s s.live c) {d : Disk}
    (hsuper : SuperOk s d.sectors) (hfiles : FilesSub s (s.onDisk d.sectors)) {k : ℕ}
    (hbits : ∀ a ∈ s.live, (s.onDisk d.sectors).used (s.pointer a) ∨
      s.pointer a / 8 / sectorSize < k) :
    Good s (d.putRange (s.partLba.toNat + bitmapSector) s.bitmap k).sectors := by
  have hsub := hfiles.trans (files_flushBitmap s d k).1
  refine ⟨(super_flushBitmap s d k).2 hsuper, fun a ha => (hbooks.slot a (hsub a ha).1).2,
    fun a ha => ?_, fun a ha => ?_, fun a ha b hb hab => ?_⟩
  · rw [(hsub a ha).2]
    exact hbooks.lt a (hsub a ha).1
  · have hmem := (hsub a ha).1
    obtain ⟨hlt, hset⟩ := hbooks.owns.used a hmem
    rw [(hsub a ha).2]
    refine ⟨hlt, ?_⟩
    rw [bit_flushBitmap]
    split
    · exact hset
    · rename_i hk
      exact ((hbits a hmem).resolve_right hk).2
  · rw [(hsub a ha).2, (hsub b hb).2] at hab
    exact hbooks.owns.inj (hsub a ha).1 (hsub b hb).1 hab

/-! ## Between calls -/

/-- The partition is where the device can address its metadata, and has the size that memory
knows. -/
structure Attached (s : Fs) : Prop where
  placed : Placed s
  partition : ∃ sectors, s.partition = some (s.partLba, sectors) ∧
    s.totalBlocks = capacityBlocks sectors
  super : s.disk.InRange s.partLba.toNat 1
  inodes : s.disk.InRange (s.partLba.toNat + 25) 8
  bitmap : s.disk.InRange (s.partLba.toNat + bitmapSector) bitmapSectors

/-- The files on disk are those in memory, and the disk is good. -/
structure Synced (s : Fs) : Prop where
  attached : Attached s
  books : Books s s.live False
  down : FilesSub s (s.onDisk s.disk.sectors)
  up : FilesSub (s.onDisk s.disk.sectors) s
  good : Good s s.disk.sectors

theorem Attached.withDisk (h : Attached s) {d : Disk} (hdevice : Disk.SameDevice s.disk d) :
    Attached (s.withDisk d) :=
  ⟨h.placed, h.partition, hdevice.inRange h.super, hdevice.inRange h.inodes,
    hdevice.inRange h.bitmap⟩

/-- The two are on the same volume of the same device. -/
structure SameVolume (s t : Fs) : Prop where
  partLba : t.partLba = s.partLba
  totalBlocks : t.totalBlocks = s.totalBlocks
  fault : t.disk.fault = s.disk.fault

theorem SameVolume.refl (s : Fs) : SameVolume s s := ⟨rfl, rfl, rfl⟩

theorem SameVolume.trans (h : SameVolume s t) (h' : SameVolume t u) : SameVolume s u :=
  ⟨h'.partLba.trans h.partLba, h'.totalBlocks.trans h.totalBlocks, h'.fault.trans h.fault⟩

theorem SameVolume.symm (h : SameVolume s t) : SameVolume t s :=
  ⟨h.partLba.symm, h.totalBlocks.symm, h.fault.symm⟩

theorem SameVolume.faulty (h : SameVolume s t) : t.disk.Faulty ↔ s.disk.Faulty := by
  rw [Disk.Faulty, Disk.Faulty, h.fault]

theorem Good.congr (h : Good s D) (hpart : t.partLba = s.partLba)
    (htotal : t.totalBlocks = s.totalBlocks) : Good t D := by
  have hinodes : (t.onDisk D).inodes = (s.onDisk D).inodes := by simp only [onDisk, hpart]
  have hbitmap : (t.onDisk D).bitmap = (s.onDisk D).bitmap := by simp only [onDisk, hpart]
  have hlive : (t.onDisk D).live = (s.onDisk D).live := by simp only [live, hinodes]
  have hptr : (t.onDisk D).pointer = (s.onDisk D).pointer := by
    funext a
    simp only [pointer, hinodes]
  have hused : (t.onDisk D).used = (s.onDisk D).used := by
    funext b
    simp only [used, hbitmap]
  refine ⟨?_, ?_, ?_, ?_⟩
  · rw [SuperOk, hpart, htotal]
    exact h.super
  · rw [hlive]
    exact h.slot
  · rw [hlive, hptr, htotal]
    exact h.lt
  · rw [hlive, hptr, hused]
    exact h.owns

theorem Synced.withDisk (hattached : Attached s) (hbooks : Books s s.live False) {d : Disk}
    (hdevice : Disk.SameDevice s.disk d)
    (hdown : FilesSub s (s.onDisk d.sectors)) (hup : FilesSub (s.onDisk d.sectors) s)
    (hgood : Good s d.sectors) : Synced (s.withDisk d) :=
  ⟨hattached.withDisk hdevice, hbooks.congr rfl rfl rfl fun _ _ => rfl, hdown, hup,
    hgood.congr rfl rfl⟩

/-- The step from `s` to `t` wrote sectors only so that the disk always had the property `G`. -/
structure Went (G : ℕ → Sectors → Prop) (s t : Fs) : Prop where
  log : s.disk.Logged G t.disk
  volume : SameVolume s t

theorem Went.refl (h : G s.disk.writes.length s.disk.sectors) : Went G s s :=
  ⟨.refl h, .refl s⟩

/-- The disk has not been written to. -/
theorem Went.of_disk (h : G s.disk.writes.length s.disk.sectors) {τ : ℕ}
    (hdisk : t.disk = s.disk.atTime τ) (hpart : t.partLba = s.partLba)
    (htotal : t.totalBlocks = s.totalBlocks) : Went G s t :=
  ⟨by rw [hdisk]; exact (Disk.Logged.refl h).atTime τ, hpart, htotal, by rw [hdisk]; rfl⟩

theorem Went.trans (h : Went G s t) (h' : Went G t u) : Went G s u :=
  ⟨h.log.trans h'.log, h.volume.trans h'.volume⟩

theorem Went.putRange {lba n : ℕ} {bytes : ℕ → UInt8} (τ : ℕ)
    (h : ∀ k ≤ n, G (s.disk.writes.length + k) (s.disk.putRange lba bytes k).sectors) :
    Went G s (s.withDisk ((s.disk.putRange lba bytes n).atTime τ)) :=
  ⟨(Disk.logged_putRange n h).atTime τ, rfl, rfl, Disk.putRange_fault ..⟩

/-- The call has returned, and not because the device failed a transfer. -/
def Survived (stop : Stop) (s : Fs) : Prop :=
  stop ≠ .panic ∧ (stop = .err .io → ¬ s.disk.Faulty)

/-- A program whose sector writes since `s` all have the property `G`, and which ends with memory
and disk in agreement unless a transfer fails. -/
def CrashesFrom {α : Type} (G : ℕ → Sectors → Prop) (s : Fs) (x : FsProg α) (t : Fs) : Prop :=
  Prog.Post x t (fun _ u => Went G s u ∧ Synced u)
    fun stop u => Went G s u ∧ (Survived stop s → Synced u)

/-- The same, from the start of the program on. -/
def Crashes {α : Type} (G : ℕ → Sectors → Prop) (x : FsProg α) (s : Fs) : Prop :=
  CrashesFrom G s x s

theorem Crashes.since {α : Type} {x : FsProg α} (h : Crashes G x t) (hst : Went G s t) :
    CrashesFrom G s x t :=
  Prog.Post.mono h (fun _ _ hu => ⟨hst.trans hu.1, hu.2⟩) fun _ _ hu =>
    ⟨hst.trans hu.1, fun hsurv => hu.2 ⟨hsurv.1, fun he => mt hst.volume.faulty.1 (hsurv.2 he)⟩⟩

/-- A good disk always has the property. -/
def Allows (G : ℕ → Sectors → Prop) (s : Fs) : Prop := ∀ n D, Good s D → G n D

theorem Allows.congr (h : Allows G s) (hvol : SameVolume s t) : Allows G t :=
  fun n D hD => h n D (hD.congr hvol.partLba.symm hvol.totalBlocks.symm)

theorem crashes_pure (hs : Synced s) (hG : Allows G s) : Went G s s ∧ Synced s :=
  ⟨.refl (hG _ _ hs.good), hs⟩

theorem crashes_stop (hs : Synced s) (hG : Allows G s) (stop : Stop) :
    Went G s s ∧ (Survived stop s → Synced s) := ⟨.refl (hG _ _ hs.good), fun _ => hs⟩

theorem Crashes.bind {α β : Type} {x : FsProg α} {f : α → FsProg β} (h : Crashes G x s)
    (h' : ∀ a t, SameVolume s t → Synced t → Crashes G (f a) t) :
    Crashes G (x >>= f) s := by
  refine Prog.post_bind.2 (Prog.Post.mono h (fun a t ⟨hlog, ht⟩ => ?_) fun _ _ he => he)
  exact (h' a t hlog.volume ht).since hlog

/-- A flush of an inode table whose files are on the disk already, or are fewer. -/
theorem crashes_flushInodes (hattached : Attached s) (hbooks : Books s s.live False)
    (hgood : Good s s.disk.sectors) (hfiles : FilesSub (s.onDisk s.disk.sectors) s)
    (hG : Allows G s) : Crashes G flushInodes s := by
  have hstep : ∀ k ≤ inodeTableSectors, Good s (s.disk.putRange
      (s.partLba.toNat + inodeTableSector) (inodeTableByte s.inodes) k).sectors :=
    fun k hk => good_flushInodes hgood hk fun a ha _ => hfiles a ha
  have hlast := hstep _ (Nat.le_refl _)
  refine (flushInodes_post hattached.placed).mono (fun _ t ⟨_, τ, ht⟩ => ?_)
    fun stop t ⟨he, ⟨k, hk, τ, ht⟩, hcause⟩ => ?_
  · have hflushed := inodesFlushed (fun a ha => (hbooks.slot a ha).2) s.disk τ
    have hwent : Went G s t := ht ▸ .putRange τ fun k hk => hG _ _ (hstep k hk)
    rw [← Disk.atTime_sectors _ τ] at hlast
    generalize Disk.atTime _ τ = d at ht hflushed hlast
    subst ht
    exact ⟨hwent, .withDisk hattached hbooks hflushed.device hflushed.down hflushed.up hlast⟩
  · subst ht
    exact ⟨.putRange τ fun j hj => hG _ _ (hstep j (hj.trans hk)),
      fun h => (hcause.resolve_left (h.2 he) hattached.inodes).elim⟩

/-- What the disk `d'` is after a flush of the bitmap of `s` to the disk `d`. -/
structure BitmapFlushed (s : Fs) (d d' : Disk) : Prop where
  device : Disk.SameDevice d d'
  down : FilesSub (s.onDisk d.sectors) (s.onDisk d'.sectors)
  up : FilesSub (s.onDisk d'.sectors) (s.onDisk d.sectors)
  super : SuperOk s d'.sectors ↔ SuperOk s d.sectors

theorem bitmapFlushed (s : Fs) (d : Disk) (τ : ℕ) :
    BitmapFlushed s d ((d.putRange (s.partLba.toNat + bitmapSector) s.bitmap
      bitmapSectors).atTime τ) where
  device := ⟨by simp, by simp, by simp⟩
  down := (files_flushBitmap s d bitmapSectors).1
  up := (files_flushBitmap s d bitmapSectors).2
  super := super_flushBitmap s d bitmapSectors

/-- A flush of the bitmap when the files are on the disk. Some of their blocks may not be marked
there yet; while they are not, the property must hold for another reason. -/
theorem crashes_flushBitmap_new (hattached : Attached s) (hbooks : Books s s.live False)
    (hsuper : SuperOk s s.disk.sectors) (hdown : FilesSub s (s.onDisk s.disk.sectors))
    (hup : FilesSub (s.onDisk s.disk.sectors) s) (hG : Allows G s)
    (hbits : ∀ k ≤ bitmapSectors, (∀ a ∈ s.live, (s.onDisk s.disk.sectors).used (s.pointer a) ∨
      s.pointer a / 8 / sectorSize < k) ∨ ∀ D, G (s.disk.writes.length + k) D) :
    Crashes G flushBitmap s := by
  have hstep : ∀ k ≤ bitmapSectors, G (s.disk.writes.length + k)
      (s.disk.putRange (s.partLba.toNat + bitmapSector) s.bitmap k).sectors := fun k hk => by
    rcases hbits k hk with h | h
    · exact hG _ _ (good_flushBitmap hbooks hsuper hdown h)
    · exact h _
  have hlast : Good s (s.disk.putRange (s.partLba.toNat + bitmapSector) s.bitmap
      bitmapSectors).sectors := good_flushBitmap hbooks hsuper hdown fun a ha => .inr (by
    have := (hbooks.owns.used a ha).1
    simp only [maxBlocks, sectorSize, bitmapSectors] at this ⊢
    omega)
  refine (flushBitmap_post hattached.placed).mono (fun _ t hflush => ?_)
    fun stop t hstop => ?_
  · obtain ⟨_, τ, ht⟩ := hflush
    have hflushed := bitmapFlushed s s.disk τ
    have hwent : Went G s t := ht ▸ .putRange τ hstep
    rw [← Disk.atTime_sectors _ τ] at hlast
    generalize Disk.atTime _ τ = d at ht hflushed hlast
    subst ht
    exact ⟨hwent, .withDisk hattached hbooks hflushed.device (hdown.trans hflushed.down)
      (hflushed.up.trans hup) hlast⟩
  · obtain ⟨he, ⟨k, hk, τ, ht⟩, hcause⟩ := hstop
    subst ht
    exact ⟨.putRange τ fun j hj => hstep j (hj.trans hk),
      fun h => (hcause.resolve_left (h.2 he) hattached.bitmap).elim⟩

theorem crashes_flushBitmap (hs : Synced s) (hG : Allows G s) : Crashes G flushBitmap s :=
  crashes_flushBitmap_new hs.attached hs.books hs.good.super hs.down hs.up hG fun k _ =>
    .inl fun a ha => .inl (by
      rw [(hs.up a ha).2]
      exact hs.good.owns.used a (hs.up a ha).1)

/-! ## Calls without a window -/

theorem FilesSub.setInode (h : FilesSub (s.onDisk D) s) {inode : Inode}
    (hold : (s.inodes index).kind ≠ kindFile) (hnew : inode.size = 0) :
    FilesSub (s.onDisk D) (s.setInode index inode) := by
  intro a ha
  rw [live_setInode hold hnew] at ha
  have hne : a.1 ≠ index := fun heq => hold (heq ▸ ha.2.1)
  rw [pointer_setInode hne]
  exact h a ha

theorem empty_size : Inode.empty.size = 0 := rfl

theorem newInode_size (parent : ℕ) (name : List UInt8) (kind unixTime : UInt32) :
    (newInode parent name kind unixTime).size = 0 := rfl

theorem crashes_setInode (hs : Synced s) (hG : Allows G s) (inode : Inode)
    (hold : (s.inodes index).kind ≠ kindFile) (hnew : inode.size = 0) :
    CrashesFrom G s flushInodes (s.setInode index inode) :=
  (@crashes_flushInodes (s.setInode index inode) G ⟨hs.attached.placed, hs.attached.partition,
    hs.attached.super, hs.attached.inodes, hs.attached.bitmap⟩ (hs.books.setInode hold hnew)
    (hs.good.congr rfl rfl) (hs.up.setInode hold hnew) (hG.congr ⟨rfl, rfl, rfl⟩)).since
    (.of_disk (hG _ _ hs.good) (Disk.atTime_time _).symm rfl rfl)

theorem makeEntry_crashes (hs : Synced s) (hG : Allows G s) (kind : UInt32)
    (path : List UInt8) : Crashes G (makeEntry kind path) s := by
  unfold Crashes CrashesFrom
  rw [makeEntry]
  simp only [Prog.post_bind, Prog.post_get]
  split
  · exact crashes_stop hs hG _
  split
  · exact crashes_stop hs hG _
  split
  · exact crashes_stop hs hG _
  rw [allocateInode]
  simp only [Prog.post_bind, Prog.post_get]
  split
  · exact crashes_stop hs hG _
  rename_i i hi
  split
  · exact crashes_stop hs hG _
  have hfree := List.find?_some hi
  simp only [Bool.and_eq_true, beq_iff_eq, bne_iff_ne] at hfree
  simp only [Prog.post_bind, Prog.post_modify, Prog.post_pure]
  exact crashes_setInode hs hG _ (by rw [hfree.1]; decide) (newInode_size ..)

theorem rmdir_crashes (hs : Synced s) (hG : Allows G s) (path : List UInt8) :
    Crashes G (rmdir path) s := by
  unfold Crashes CrashesFrom
  rw [rmdir]
  simp only [Prog.post_bind, Prog.post_get]
  split
  · exact crashes_stop hs hG _
  split
  · exact crashes_stop hs hG _
  split
  · exact crashes_stop hs hG _
  split
  · exact crashes_stop hs hG _
  rename_i hdir
  rw [not_or, not_le, not_not] at hdir
  split
  · exact crashes_stop hs hG _
  simp only [Prog.post_bind, Prog.post_modify]
  exact crashes_setInode hs hG _ (by rw [hdir.2]; decide) empty_size

theorem remove_crashes (hs : Synced s) (hG : Allows G s) (index : ℕ) :
    Crashes G (remove index) s := by
  unfold Crashes CrashesFrom
  rw [remove]
  simp only [Prog.post_bind, Prog.post_get]
  split
  · exact crashes_stop hs hG _
  split
  · exact crashes_stop hs hG _
  rename_i hfile
  rw [not_or, not_le, not_not] at hfile
  refine Prog.post_bind.2 ((freeBlocks_post hs.books hfile.1 hfile.2).mono
    (fun _ t hfreed => ?_) fun _ _ h => h.elim)
  obtain ⟨⟨bitmap, free, ht⟩, hbooks⟩ := hfreed
  subst ht
  have hsub : FilesSub (s.onDisk s.disk.sectors)
      (Fs.setInode { s with bitmap := bitmap, freeBlocks := free } index Inode.empty) := by
    intro a ha
    rw [@live_setInode_empty { s with bitmap := bitmap, freeBlocks := free } index hfile.2] at ha
    obtain ⟨hmem, hnot⟩ := ha
    have hne : a.1 ≠ index := fun heq => hnot ⟨heq, heq ▸ hmem.2.2⟩
    rw [pointer_setInode hne]
    exact hs.up a hmem
  have hflush := @crashes_flushInodes
    (Fs.setInode { s with bitmap := bitmap, freeBlocks := free } index Inode.empty) G
    ⟨hs.attached.placed, hs.attached.partition, hs.attached.super, hs.attached.inodes,
      hs.attached.bitmap⟩ hbooks (hs.good.congr rfl rfl) hsub (hG.congr ⟨rfl, rfl, rfl⟩)
  refine Prog.post_bind.2 (Prog.post_modify.2 ?_)
  exact (hflush.bind fun _ u hvol hu => crashes_flushBitmap hu
    (hG.congr ⟨hvol.partLba, hvol.totalBlocks, hvol.fault⟩)).since
    (.of_disk (hG _ _ hs.good) (Disk.atTime_time _).symm rfl rfl)

/-! ### The superblock -/

theorem super_writeSuper (d : Disk) {sb : SuperBlock} (hmagic : sb.magic = magic)
    (hversion : sb.version = version) (htotal : sb.totalBlocks = s.totalBlocks) :
    SuperOk s (d.putRange s.partLba.toNat sb.byte 1).sectors := by
  have hbytes : ∀ b < sectorSize,
      (d.putRange s.partLba.toNat sb.byte 1).sectors s.partLba.toNat b = sb.byte b := fun b _ => by
    rw [Disk.putRange_sectors, if_pos ⟨Nat.le_refl _, Nat.lt_succ_self _⟩, Nat.sub_self,
      Nat.zero_mul, Nat.zero_add]
  obtain ⟨h₁, h₂, h₃⟩ := superBlock_ofBytes hbytes
  exact ⟨h₁.trans hmagic, h₂.trans hversion, h₃.trans htotal⟩

/-- The superblock's sector holds nothing else. -/
theorem onDisk_writeSuper (s : Fs) (d : Disk) (sb : SuperBlock) (k : ℕ) (hk : k ≤ 1) :
    s.onDisk (d.putRange s.partLba.toNat sb.byte k).sectors = s.onDisk d.sectors := by
  have hsector : ∀ l, s.partLba.toNat < l →
      (d.putRange s.partLba.toNat sb.byte k).sectors l = d.sectors l := fun l hl =>
    Disk.putRange_sectors_of_not _ _ _ _ (.inr (by omega))
  simp only [onDisk]
  rw [show (fun i => Inode.ofBytes ((d.putRange s.partLba.toNat sb.byte k).sectors
      (s.partLba.toNat + inodeTableSector + i / 2)) (i % 2 * inodeSize)) = fun i =>
        Inode.ofBytes (d.sectors (s.partLba.toNat + inodeTableSector + i / 2))
          (i % 2 * inodeSize) from funext fun i => by
    rw [hsector _ (by simp only [inodeTableSector]; omega)]]
  rw [show (fun b => (d.putRange s.partLba.toNat sb.byte k).sectors
      (s.partLba.toNat + bitmapSector + b / sectorSize) (b % sectorSize)) = fun b =>
        d.sectors (s.partLba.toNat + bitmapSector + b / sectorSize) (b % sectorSize) from
    funext fun b => by
      rw [hsector _ (by
        simp only [bitmapSector]
        generalize b / sectorSize = q
        omega)]]

theorem crashes_writeSuper (hs : Synced s) (hG : Allows G s) {sb : SuperBlock}
    (hmagic : sb.magic = magic) (hversion : sb.version = version)
    (htotal : sb.totalBlocks = s.totalBlocks) : Crashes G (writeSuper sb) s := by
  have hstep : ∀ k ≤ 1, Good s (s.disk.putRange s.partLba.toNat sb.byte k).sectors := by
    intro k hk
    have hsame := onDisk_writeSuper s s.disk sb k hk
    refine ⟨?_, by rw [hsame]; exact hs.good.slot, by rw [hsame]; exact hs.good.lt,
      by rw [hsame]; exact hs.good.owns⟩
    rcases Nat.le_one_iff_eq_zero_or_eq_one.1 hk with rfl | rfl
    · exact hs.good.super
    · exact super_writeSuper _ hmagic hversion htotal
  have hsynced : ∀ k ≤ 1, ∀ τ,
      Synced (s.withDisk ((s.disk.putRange s.partLba.toNat sb.byte k).atTime τ)) := by
    intro k hk τ
    have hsame := onDisk_writeSuper s s.disk sb k hk
    exact .withDisk hs.attached hs.books ⟨by simp, by simp, by simp⟩
      (by rw [Disk.atTime_sectors, hsame]; exact hs.down)
      (by rw [Disk.atTime_sectors, hsame]; exact hs.up) (hstep k hk)
  refine (writeSuper_post sb).mono (fun _ t ⟨_, τ, ht⟩ => ?_) fun stop t ⟨_, k, hk, τ, ht⟩ => ?_
  · subst ht
    exact ⟨.putRange τ fun k hk => hG _ _ (hstep k hk), hsynced 1 (Nat.le_refl _) τ⟩
  · subst ht
    exact ⟨.putRange τ fun j hj => hG _ _ (hstep j (hj.trans hk)), fun _ => hsynced k hk τ⟩

theorem Synced.atTime (hs : Synced s) (τ : ℕ) : Synced (s.withDisk (s.disk.atTime τ)) :=
  .withDisk hs.attached hs.books ⟨rfl, rfl, rfl⟩ hs.down hs.up hs.good

theorem sync_crashes (hs : Synced s) (hG : Allows G s) : Crashes G sync s := by
  unfold Crashes CrashesFrom
  rw [sync]
  simp only [Prog.post_bind, Prog.post_get]
  split
  · exact crashes_stop hs hG _
  have hflush := crashes_flushInodes hs.attached hs.books hs.good hs.up hG
  refine hflush.bind fun _ t hvol ht => ?_
  have hG' := hG.congr hvol
  refine (crashes_flushBitmap ht hG').bind fun _ u hvol hu => ?_
  have hG'' := hG'.congr hvol
  refine Prog.post_bind.2 (readSuper_post.mono (fun sb v hread => ?_)
    fun _ v hread => ?_)
  · obtain ⟨hsb, τ, hv⟩ := hread
    subst hv
    simp only [Prog.post_bind, Prog.post_get]
    obtain ⟨hmagic, hversion, htotal⟩ := hu.good.super
    rw [← hsb] at hmagic hversion htotal
    refine (@crashes_writeSuper (u.withDisk (u.disk.atTime τ)) G (hu.atTime τ)
      (hG''.congr ⟨rfl, rfl, rfl⟩) { sb with
        freeBlocks := u.freeBlocks, fileCount := UInt32.ofNat u.fileCount }
      hmagic hversion htotal).since (.of_disk (hG'' _ _ hu.good) rfl rfl rfl)
  · obtain ⟨_, ⟨τ, hv⟩, _⟩ := hread
    subst hv
    exact ⟨.of_disk (hG'' _ _ hu.good) rfl rfl rfl, fun _ => hu.atTime τ⟩

/-! ### Reading -/

/-- Only `SCRATCH` and the device's clock have changed. -/
def OnlyRead (s t : Fs) : Prop :=
  ∃ mem τ, t = ({ s with scratch := mem } : Fs).withDisk (s.disk.atTime τ)

theorem OnlyRead.refl (s : Fs) : OnlyRead s s := ⟨s.scratch, s.disk.time, rfl⟩

theorem OnlyRead.scratch (s : Fs) (mem : ℕ → UInt8) : OnlyRead s { s with scratch := mem } :=
  ⟨mem, s.disk.time, rfl⟩

theorem OnlyRead.trans (h : OnlyRead s t) (h' : OnlyRead t u) : OnlyRead s u := by
  obtain ⟨_, _, rfl⟩ := h
  obtain ⟨mem, τ, rfl⟩ := h'
  exact ⟨mem, τ, rfl⟩

theorem OnlyRead.went (h : OnlyRead s t) (hG : G s.disk.writes.length s.disk.sectors) :
    Went G s t := by
  obtain ⟨mem, τ, rfl⟩ := h
  exact .of_disk hG rfl rfl rfl

theorem OnlyRead.synced (h : OnlyRead s t) (hs : Synced s) : Synced t := by
  obtain ⟨mem, τ, rfl⟩ := h
  obtain ⟨hplaced, hpartition, hsuper, hinodes, hbitmap⟩ := hs.attached
  exact ⟨⟨hplaced, hpartition, hsuper, hinodes, hbitmap⟩, hs.books.congr rfl rfl rfl
    fun _ _ => rfl, hs.down, hs.up, hs.good.congr rfl rfl⟩

theorem readBlock_onlyRead (block : UInt32) :
    Prog.Post (readBlock block) s (fun _ t => OnlyRead s t) fun _ t => OnlyRead s t :=
  (readBlock_post block).mono (fun _ _ ⟨τ, ht⟩ => ⟨_, τ, ht⟩) fun _ _ ⟨_, _, τ, ht⟩ => ⟨_, τ, ht⟩

theorem readLoop_onlyRead (index fuel position left : ℕ) (s : Fs) :
    Prog.Post (readLoop index fuel position left) s (fun _ t => OnlyRead s t)
      fun _ t => OnlyRead s t := by
  induction fuel generalizing position left s with
  | zero => exact .refl s
  | succ fuel ih =>
    rw [readLoop]
    split
    · exact .refl s
    simp only [Prog.post_bind, Prog.post_get]
    split
    · exact .refl s
    refine Prog.post_bind.2 ((readBlock_onlyRead _).mono (fun _ t ht => ?_) fun _ _ h => h)
    simp only [Prog.post_bind, Prog.post_get, Prog.post_pure]
    exact (ih _ _ t).mono (fun _ _ h => ht.trans h) fun _ _ h => ht.trans h

theorem read_crashes (hs : Synced s) (hG : Allows G s) (index offset room : ℕ) :
    Crashes G (read index offset room) s := by
  unfold Crashes CrashesFrom
  rw [read]
  simp only [Prog.post_bind, Prog.post_get]
  split
  · exact crashes_stop hs hG _
  split
  · exact crashes_stop hs hG _
  split
  · exact crashes_pure hs hG
  have hread : ∀ {t}, OnlyRead s t → Went G s t ∧ Synced t := fun h =>
    ⟨h.went (hG _ _ hs.good), h.synced hs⟩
  exact (readLoop_onlyRead _ _ _ _ s).mono (fun _ _ h => hread h)
    fun _ _ h => ⟨(hread h).1, fun _ => (hread h).2⟩

end Fs

end Tcmk
