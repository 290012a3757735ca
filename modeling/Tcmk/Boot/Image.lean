import Tcmk.Lib.Slice
import Tcmk.Fs.Disk

/-!
# The disk image (`tools/make_disk.py`)

The script puts a TCMKFS partition behind a hybrid ISO image and fills the partition's boot area:
stage 2, with its parameters patched in, and the kernel as one block of memory. `build` is the
script; it returns `none` where the script exits with a message or an exception.

A file is its length and its bytes. Past the end of a file the bytes are zero, which is what a
file gets there when it grows.
-/

namespace Tcmk.Boot

open Lib

/-- `TYPE_TCMKFS`. -/
def typeTcmkfs : ℕ := 0x7F

/-- `PARTITION_TABLE_OFFSET`. -/
def partitionTableOffset : ℕ := 446

/-- `ENTRY_SIZE`. -/
def entrySize : ℕ := 16

/-- `BOOT_AREA_SECTOR`. -/
def bootAreaSector : ℕ := 40

/-- `STAGE2_SECTORS`. -/
def stage2Sectors : ℕ := 32

/-- `KERNEL_BLOB_SECTOR`. -/
def kernelBlobSector : ℕ := bootAreaSector + stage2Sectors

/-- `KERNEL_BASE`. -/
def kernelBase : ℕ := 0x00100000

/-- `STAGE2_MAGIC`: `"TCMKB2"`. -/
def stage2Magic : List UInt8 := [84, 67, 77, 75, 66, 50]

/-! ## Numbers in byte strings -/

theorem guard_some {p : Prop} [Decidable p] {u : Unit} :
    (guard p : Option Unit) = some u ↔ p := by
  by_cases hp : p
  · simp [guard, hp]
  · simp [guard, hp]

/-- `struct.unpack_from` of one number of `n` bytes. -/
def unpack (n : ℕ) (data : List UInt8) (off : ℕ) : Option ℕ :=
  if off + n ≤ data.length then some (leNat (fun i => data.getD i 0) off n) else none

/-- `struct.pack_into("<I", …)`. -/
def packInto (s : List UInt8) (off v : ℕ) : Option (List UInt8) :=
  if off + 4 ≤ s.length ∧ v < 2 ^ 32 then
    some (assign s off (off + 4) ((List.range 4).map (leByte v)))
  else none

/-! ## The kernel -/

/-- A loadable segment. -/
structure Segment where
  offset : ℕ
  paddr : ℕ
  filesz : ℕ
  memsz : ℕ
  deriving DecidableEq

/-- The program header at `base`: its type and what is kept of it. -/
def programHeader (data : List UInt8) (base : ℕ) : Option (ℕ × Segment) := do
  let type ← unpack 4 data base
  let offset ← unpack 4 data (base + 4)
  let _vaddr ← unpack 4 data (base + 8)
  let paddr ← unpack 4 data (base + 12)
  let filesz ← unpack 4 data (base + 16)
  let memsz ← unpack 4 data (base + 20)
  pure (type, ⟨offset, paddr, filesz, memsz⟩)

/-- `read_elf_segments`. -/
def readElfSegments (data : List UInt8) : Option (ℕ × List Segment) := do
  guard (data.take 4 = [0x7F, 0x45, 0x4C, 0x46] ∧ data[4]? = some 1)
  let entry ← unpack 4 data 24
  let phoff ← unpack 4 data 28
  let phentsize ← unpack 2 data 42
  let phnum ← unpack 2 data 44
  let headers ← (List.range phnum).mapM fun i => programHeader data (phoff + i * phentsize)
  let segments := (headers.filter fun h => h.1 = 1 ∧ h.2.memsz ≠ 0).map Prod.snd
  guard (segments ≠ [])
  pure (entry, segments)

/-- What `build_blob` returns: the block, the entry point and the part of memory behind the block
that has to be cleared. -/
structure Blob where
  bytes : List UInt8
  entry : ℕ
  bssStart : ℕ
  bssEnd : ℕ

/-- One round of the loop of `build_blob`. -/
def placeSegment (data blob : List UInt8) (segment : Segment) : List UInt8 :=
  assign blob (segment.paddr - kernelBase) (segment.paddr - kernelBase + segment.filesz)
    (slice data segment.offset (segment.offset + segment.filesz))

/-- `build_blob`. -/
def buildBlob (data : List UInt8) : Option Blob := do
  let (entry, segments) ← readElfSegments data
  let fileEnd ← (segments.map fun s => s.paddr + s.filesz).max?
  let memEnd ← (segments.map fun s => s.paddr + s.memsz).max?
  let lowest ← (segments.map Segment.paddr).min?
  guard (lowest = kernelBase)
  pure ⟨segments.foldl (placeSegment data) (List.replicate (fileEnd - kernelBase) 0), entry,
    fileEnd, memEnd⟩

/-! ### What the block holds

The linker's part: the segments lie in the file and do not overlap in memory. -/

structure Linked (data : List UInt8) (segments : List Segment) : Prop where
  inFile : ∀ s ∈ segments, s.offset + s.filesz ≤ data.length
  fits : ∀ s ∈ segments, s.filesz ≤ s.memsz
  apart : segments.Pairwise fun s t => s.paddr + s.memsz ≤ t.paddr ∨ t.paddr + t.memsz ≤ s.paddr

namespace Segment

/-- The segment has this address in memory. -/
def Covers (s : Segment) (a : ℕ) : Prop := s.paddr ≤ a ∧ a < s.paddr + s.memsz

instance (s : Segment) (a : ℕ) : Decidable (s.Covers a) := inferInstanceAs (Decidable (_ ∧ _))

/-- What the file says the memory holds at an address of the segment. -/
def byteAt (data : List UInt8) (s : Segment) (a : ℕ) : UInt8 :=
  if a - s.paddr < s.filesz then data.getD (s.offset + (a - s.paddr)) 0 else 0

end Segment

/-- The memory that the ELF file describes. -/
def elfByte (data : List UInt8) (segments : List Segment) (a : ℕ) : Option UInt8 :=
  (segments.find? fun s => s.Covers a).map fun s => s.byteAt data a

variable {data blob : List UInt8} {segments : List Segment} {s : Segment} {a : ℕ} {b : UInt8}

theorem elfByte_some (h : elfByte data segments a = some b) :
    ∃ s ∈ segments, s.Covers a ∧ s.byteAt data a = b := by
  rw [elfByte, Option.map_eq_some_iff] at h
  obtain ⟨s, hs, rfl⟩ := h
  exact ⟨s, List.mem_of_find?_eq_some hs, by simpa using List.find?_some hs, rfl⟩

theorem Linked.unique (h : Linked data segments) {t : Segment} (hs : s ∈ segments)
    (ht : t ∈ segments) (hsa : s.Covers a) (hta : t.Covers a) : s = t := by
  by_contra hne
  have hsymm : Std.Symm fun s t : Segment =>
      s.paddr + s.memsz ≤ t.paddr ∨ t.paddr + t.memsz ≤ s.paddr := ⟨fun _ _ h => h.symm⟩
  have := h.apart.forall hs ht hne
  simp only [Segment.Covers] at hsa hta
  omega

theorem length_placeSegment (hfile : s.offset + s.filesz ≤ data.length)
    (hblob : s.paddr - kernelBase + s.filesz ≤ blob.length) :
    (placeSegment data blob s).length = blob.length := by
  refine length_assign hblob ?_
  rw [length_slice hfile]
  omega

theorem getD_placeSegment (hfile : s.offset + s.filesz ≤ data.length) (hbase : kernelBase ≤ s.paddr)
    (hblob : s.paddr - kernelBase + s.filesz ≤ blob.length) (ha : kernelBase ≤ a) :
    (placeSegment data blob s).getD (a - kernelBase) 0 =
      if s.paddr ≤ a ∧ a < s.paddr + s.filesz then data.getD (s.offset + (a - s.paddr)) 0
      else blob.getD (a - kernelBase) 0 := by
  have hlen : (slice data s.offset (s.offset + s.filesz)).length = s.filesz := by
    rw [length_slice hfile]
    omega
  have hend : s.paddr - kernelBase + (slice data s.offset (s.offset + s.filesz)).length =
      s.paddr - kernelBase + s.filesz := by rw [hlen]
  split
  · rename_i h
    rw [show a - kernelBase = s.paddr - kernelBase + (a - s.paddr) by omega, placeSegment,
      getD_assign hblob hend (by omega), getD_slice (by omega)]
  · exact getD_assign_of_not hblob hend (by omega)

/-- The block after all segments have been placed: the bytes of the file, and zeros between. -/
theorem foldl_placeSegment (hbase : ∀ s ∈ segments, kernelBase ≤ s.paddr)
    (hfile : ∀ s ∈ segments, s.offset + s.filesz ≤ data.length)
    (hblob : ∀ s ∈ segments, s.paddr - kernelBase + s.filesz ≤ blob.length)
    (ha : kernelBase ≤ a) :
    (segments.foldl (placeSegment data) blob).length = blob.length ∧
      ((∀ s ∈ segments, ¬ (s.paddr ≤ a ∧ a < s.paddr + s.filesz)) →
        (segments.foldl (placeSegment data) blob).getD (a - kernelBase) 0 =
          blob.getD (a - kernelBase) 0) ∧
      ∀ s ∈ segments, s.paddr ≤ a ∧ a < s.paddr + s.filesz →
        (∀ t ∈ segments, t.paddr ≤ a ∧ a < t.paddr + t.filesz → t = s) →
        (segments.foldl (placeSegment data) blob).getD (a - kernelBase) 0 =
          data.getD (s.offset + (a - s.paddr)) 0 := by
  induction segments generalizing blob with
  | nil =>
    rw [List.foldl_nil]
    exact ⟨rfl, fun _ => rfl, fun _ hs => absurd hs List.not_mem_nil⟩
  | cons t ts ih =>
    rw [List.forall_mem_cons] at hbase hfile hblob
    have hlen : (placeSegment data blob t).length = blob.length :=
      length_placeSegment hfile.1 hblob.1
    have hfit : ∀ s ∈ ts, s.paddr - kernelBase + s.filesz ≤ (placeSegment data blob t).length := by
      rw [hlen]
      exact hblob.2
    obtain ⟨hlength, hzero, hplaced⟩ := ih hbase.2 hfile.2 hfit
    have hget := getD_placeSegment hfile.1 hbase.1 hblob.1 ha
    rw [List.foldl_cons]
    refine ⟨hlength.trans hlen, fun hnot => ?_, fun s hs hsa huniq => ?_⟩
    · rw [List.forall_mem_cons] at hnot
      rw [hzero hnot.2, hget, if_neg hnot.1]
    · rw [List.forall_mem_cons] at huniq
      by_cases hmem : s ∈ ts
      · exact hplaced s hmem hsa huniq.2
      · obtain rfl : s = t := (List.mem_cons.1 hs).resolve_right hmem
        rw [hzero fun u hu hua => hmem (huniq.2 u hu hua ▸ hu), hget, if_pos hsa]

/-- What `build_blob` makes of a linked kernel: the block ends where the last file part does, and
it and the zeros behind it are the memory that the file describes. -/
theorem buildBlob_spec {out : Blob} (h : buildBlob data = some out) :
    ∃ segments, readElfSegments data = some (out.entry, segments) ∧
      (Linked data segments → out.bytes.length = out.bssStart - kernelBase ∧
        kernelBase ≤ out.bssStart ∧
        ∀ a b, elfByte data segments a = some b → kernelBase ≤ a ∧ a < out.bssEnd ∧
          out.bytes.getD (a - kernelBase) 0 = b) := by
  simp only [buildBlob, Option.bind_eq_bind, Option.bind_eq_some_iff, Prod.exists,
    Option.pure_def, Option.some.injEq, guard_some] at h
  obtain ⟨entry, segments, hread, fileEnd, hfileEnd, memEnd, hmemEnd, lowest, hlowest, _, rfl,
    rfl⟩ := h
  refine ⟨segments, hread, fun hlinked => ?_⟩
  simp only [List.max?_eq_some_iff, List.min?_eq_some_iff, List.mem_map, forall_exists_index,
    and_imp, forall_apply_eq_imp_iff₂] at hfileEnd hmemEnd hlowest
  obtain ⟨⟨first, hfirst, hfirstEnd⟩, hfileEnd⟩ := hfileEnd
  have hbase := hlowest.2
  have hfit : ∀ s ∈ segments, s.paddr - kernelBase + s.filesz ≤
      (List.replicate (fileEnd - kernelBase) (0 : UInt8)).length := fun s hs => by
    have := hfileEnd s hs
    have := hbase s hs
    rw [List.length_replicate]
    omega
  have hplace := fun {a} (ha : kernelBase ≤ a) =>
    foldl_placeSegment hbase hlinked.inFile hfit ha
  have hend : kernelBase ≤ fileEnd := by
    have := hbase first hfirst
    omega
  refine ⟨?_, hend, fun a b hab => ?_⟩
  · rw [(hplace (Nat.le_refl _)).1, List.length_replicate]
  obtain ⟨s, hs, hsa, rfl⟩ := elfByte_some hab
  have hsa' := hsa
  simp only [Segment.Covers] at hsa'
  have ha : kernelBase ≤ a := (hbase s hs).trans hsa'.1
  refine ⟨ha, Nat.lt_of_lt_of_le hsa'.2 (hmemEnd.2 s hs), ?_⟩
  obtain ⟨-, hzero, hplaced⟩ := hplace ha
  have huniq : ∀ t ∈ segments, t.paddr ≤ a ∧ a < t.paddr + t.filesz → t = s := fun t ht hta =>
    hlinked.unique ht hs ⟨hta.1, by have := hlinked.fits t ht; omega⟩ hsa
  rw [Segment.byteAt]
  split
  · exact hplaced s hs ⟨hsa'.1, by omega⟩ huniq
  · rename_i hpast
    rw [hzero fun t ht hta => ?_]
    · simp [List.getD_eq_getElem?_getD, List.getElem?_replicate]
      split <;> rfl
    · obtain rfl := huniq t ht hta
      omega

/-! ## Stage 2 -/

/-- `patch_stage2`. The offsets are `P_BLOB_LBA`, …, `P_BSS_END`. -/
def patchStage2 (stage2 : List UInt8) (blobLba blobSectors entry bssStart bssEnd : ℕ) :
    Option (List UInt8) := do
  guard (slice stage2 3 9 = stage2Magic)
  let s ← packInto stage2 9 blobLba
  let s ← packInto s 13 blobSectors
  let s ← packInto s 17 kernelBase
  let s ← packInto s 21 entry
  let s ← packInto s 25 bssStart
  packInto s 29 bssEnd

section Patch

variable {stage2 s t : List UInt8} {off v lba sectors entry bssStart bssEnd i : ℕ}

theorem packInto_some (h : packInto s off v = some t) : v < 2 ^ 32 ∧ off + 4 ≤ s.length ∧
    t.length = s.length ∧ (∀ k < 4, t.getD (off + k) 0 = leByte v k) ∧
    ∀ i, ¬ (off ≤ i ∧ i < off + 4) → t.getD i 0 = s.getD i 0 := by
  rw [packInto] at h
  split at h
  · rename_i hle
    cases h
    have hlen : off + ((List.range 4).map (leByte v)).length = off + 4 := by simp
    refine ⟨hle.2, hle.1, length_assign hle.1 hlen, fun k hk => ?_, fun i hi => ?_⟩
    · rw [getD_assign hle.1 hlen (by simpa using hk)]
      simp [List.getD_eq_getElem?_getD, hk]
    · exact getD_assign_of_not hle.1 hlen hi
  · cases h

/-- The number at an offset of a byte string. -/
def field (s : List UInt8) (off : ℕ) : ℕ := leNat (fun i => s.getD i 0) off 4

theorem field_packInto (h : packInto s off v = some t) : field t off = v := by
  obtain ⟨hv, -, -, hin, -⟩ := packInto_some h
  rw [field, leNat_of_leByte v hin]
  exact Nat.mod_eq_of_lt hv

theorem field_packInto_of_ne (h : packInto s off v = some t) (hi : i + 4 ≤ off ∨ off + 4 ≤ i) :
    field t i = field s i := by
  obtain ⟨-, -, -, -, hout⟩ := packInto_some h
  exact leNat_congr fun k hk => hout _ (by omega)

/-- The parameters of stage 2. -/
structure Params (s : List UInt8) (lba sectors entry bssStart bssEnd : ℕ) : Prop where
  blobLba : field s 9 = lba
  blobSectors : field s 13 = sectors
  loadAddr : field s 17 = kernelBase
  kernelEntry : field s 21 = entry
  clearFrom : field s 25 = bssStart
  clearTo : field s 29 = bssEnd
  fits : lba < 2 ^ 32 ∧ sectors < 2 ^ 32 ∧ entry < 2 ^ 32 ∧ bssStart < 2 ^ 32 ∧ bssEnd < 2 ^ 32
  long : 33 ≤ s.length

theorem patchStage2_some (h : patchStage2 stage2 lba sectors entry bssStart bssEnd = some s) :
    Params s lba sectors entry bssStart bssEnd ∧ s.length = stage2.length := by
  simp only [patchStage2, Option.bind_eq_bind, Option.bind_eq_some_iff, guard_some] at h
  obtain ⟨_, _, s₁, h₁, s₂, h₂, s₃, h₃, s₄, h₄, s₅, h₅, h₆⟩ := h
  have hlong := packInto_some h₆
  refine ⟨⟨?_, ?_, ?_, ?_, ?_, field_packInto h₆, ⟨(packInto_some h₁).1, (packInto_some h₂).1,
    (packInto_some h₄).1, (packInto_some h₅).1, hlong.1⟩, ?_⟩, ?_⟩
  · rw [field_packInto_of_ne h₆ (by omega), field_packInto_of_ne h₅ (by omega),
      field_packInto_of_ne h₄ (by omega), field_packInto_of_ne h₃ (by omega),
      field_packInto_of_ne h₂ (by omega), field_packInto h₁]
  · rw [field_packInto_of_ne h₆ (by omega), field_packInto_of_ne h₅ (by omega),
      field_packInto_of_ne h₄ (by omega), field_packInto_of_ne h₃ (by omega), field_packInto h₂]
  · rw [field_packInto_of_ne h₆ (by omega), field_packInto_of_ne h₅ (by omega),
      field_packInto_of_ne h₄ (by omega), field_packInto h₃]
  · rw [field_packInto_of_ne h₆ (by omega), field_packInto_of_ne h₅ (by omega), field_packInto h₄]
  · rw [field_packInto_of_ne h₆ (by omega), field_packInto h₅]
  · rw [hlong.2.2.1]
    omega
  · rw [hlong.2.2.1, (packInto_some h₅).2.2.1, (packInto_some h₄).2.2.1, (packInto_some h₃).2.2.1,
      (packInto_some h₂).2.2.1, (packInto_some h₁).2.2.1]

end Patch

/-! ## Files -/

/-- A file. -/
structure DiskFile where
  size : ℕ
  bytes : ℕ → UInt8

namespace DiskFile

/-- `shutil.copyfile` of a file with this contents. -/
def ofList (l : List UInt8) : DiskFile := ⟨l.length, fun x => l.getD x 0⟩

/-- `f.truncate(n)`. -/
def truncate (f : DiskFile) (n : ℕ) : DiskFile := ⟨n, fun x => if x < n then f.bytes x else 0⟩

/-- `f.seek(off)` and `f.write(l)`. -/
def write (f : DiskFile) (off : ℕ) (l : List UInt8) : DiskFile :=
  ⟨max f.size (off + l.length),
    fun x => if off ≤ x ∧ x < off + l.length then l.getD (x - off) 0 else f.bytes x⟩

@[simp] theorem bytes_write (f : DiskFile) (off : ℕ) (l : List UInt8) (x : ℕ) :
    (f.write off l).bytes x =
      if off ≤ x ∧ x < off + l.length then l.getD (x - off) 0 else f.bytes x := rfl

/-- The file as a disk. -/
def sectors (f : DiskFile) : Sectors := fun lba b => f.bytes (lba * sectorSize + b)

end DiskFile

/-! ## The image -/

/-- The number of sectors that so many bytes take. -/
def sectorsOf (n : ℕ) : ℕ := (n + sectorSize - 1) / sectorSize

/-- `part_start`: behind the ISO image, on a boundary of 1 MiB. -/
def partStart (isoSize : ℕ) : ℕ := (sectorsOf isoSize + 2048 - 1) / 2048 * 2048

/-- `part_sectors`. -/
def partSectors (dataMib : ℕ) : ℕ := dataMib * 1024 * 1024 / sectorSize

/-- Where an entry of the partition table starts. -/
def entryAt (slot : ℕ) : ℕ := partitionTableOffset + slot * entrySize

/-- The 16 bytes of the new entry: no boot flag, the type, and where the partition lies. -/
def partitionEntry (start sectors : ℕ) : List UInt8 :=
  [0, 0xFE, 0xFF, 0xFF, UInt8.ofNat typeTcmkfs, 0xFE, 0xFF, 0xFF] ++
    (List.range 4).map (leByte start) ++ (List.range 4).map (leByte sectors)

/-- The first free entry. -/
def freeSlot (mbr : ℕ → UInt8) : Option ℕ :=
  (List.range 4).find? fun i => mbr (entryAt i + 4) == 0

/-- `build`. -/
def build (iso : List UInt8) (dataMib : ℕ) (stage2 kernel : List UInt8) : Option DiskFile := do
  guard (stage2.length ≤ stage2Sectors * sectorSize)
  let blob ← buildBlob kernel
  let blobSectors := sectorsOf blob.bytes.length
  guard (kernelBlobSector + blobSectors ≤ dataStartSector)
  let start := partStart iso.length
  let sectors := partSectors dataMib
  let stage2 ← patchStage2 stage2 (start + kernelBlobSector) blobSectors blob.entry blob.bssStart
    blob.bssEnd
  let f := (DiskFile.ofList iso).truncate ((start + sectors) * sectorSize)
  guard (f.bytes 510 = 0x55 ∧ f.bytes 511 = 0xAA)
  let slot ← freeSlot f.bytes
  guard (start < 2 ^ 32 ∧ sectors < 2 ^ 32)
  let f := f.write (entryAt slot) (partitionEntry start sectors)
  let f := f.write ((start + bootAreaSector) * sectorSize) stage2
  pure (f.write ((start + kernelBlobSector) * sectorSize) blob.bytes)

/-! ### What is where -/

/-- The parts of an image that `build` has put together. -/
structure Built (iso : List UInt8) (dataMib : ℕ) (stage2 kernel : List UInt8) (f : DiskFile)
    (blob : Blob) (patched : List UInt8) (slot : ℕ) : Prop where
  built : buildBlob kernel = some blob
  room : kernelBlobSector + sectorsOf blob.bytes.length ≤ dataStartSector
  params : Params patched (partStart iso.length + kernelBlobSector)
    (sectorsOf blob.bytes.length) blob.entry blob.bssStart blob.bssEnd
  short : patched.length ≤ stage2Sectors * sectorSize
  long : 512 ≤ iso.length
  size : (partStart iso.length + partSectors dataMib) * sectorSize ≤ f.size
  small : partStart iso.length < 2 ^ 32 ∧ partSectors dataMib < 2 ^ 32
  slot_lt : slot < 4
  signature : f.bytes 510 = 0x55 ∧ f.bytes 511 = 0xAA
  entry : ∀ i < entrySize, f.bytes (entryAt slot + i) =
    (partitionEntry (partStart iso.length) (partSectors dataMib)).getD i 0
  mbr : ∀ x < 512, ¬ (entryAt slot ≤ x ∧ x < entryAt slot + entrySize) →
    f.bytes x = iso.getD x 0
  stage2Byte : ∀ i < patched.length,
    f.bytes ((partStart iso.length + bootAreaSector) * sectorSize + i) = patched.getD i 0
  blobByte : ∀ i < sectorsOf blob.bytes.length * sectorSize,
    f.bytes ((partStart iso.length + kernelBlobSector) * sectorSize + i) = blob.bytes.getD i 0

variable {iso stage2 kernel : List UInt8} {dataMib : ℕ} {f : DiskFile}

theorem sectorsOf_le (n : ℕ) : n ≤ sectorsOf n * sectorSize := by
  simp only [sectorsOf, sectorSize]
  omega

theorem sectorsOf_lt (n : ℕ) : sectorsOf n * sectorSize < n + sectorSize := by
  simp only [sectorsOf, sectorSize]
  omega

/-- The partition starts behind the ISO image. -/
theorem le_partStart (n : ℕ) : n ≤ partStart n * sectorSize := by
  have hround : sectorsOf n ≤ partStart n := by
    simp only [partStart]
    omega
  exact (sectorsOf_le n).trans (Nat.mul_le_mul_right _ hround)

theorem build_some (h : build iso dataMib stage2 kernel = some f) :
    ∃ blob patched slot, Built iso dataMib stage2 kernel f blob patched slot := by
  simp only [build, Option.bind_eq_bind, Option.bind_eq_some_iff, guard_some, Option.pure_def,
    Option.some.injEq] at h
  obtain ⟨_, hstage2, blob, hblob, _, hroom, patched, hpatched, _, hsignature, slot, hslot, _,
    hsmall, rfl⟩ := h
  obtain ⟨hparams, hlength⟩ := patchStage2_some hpatched
  have hslotlt : slot < 4 := List.mem_range.1 (List.mem_of_find?_eq_some hslot)
  have hlong : 512 ≤ iso.length := by
    by_contra hlt
    have : (DiskFile.ofList iso).bytes 511 = 0 := List.getD_eq_default _ _ (by omega)
    have hbyte := hsignature.2
    simp only [DiskFile.truncate, this, ite_self] at hbyte
    cases hbyte
  have hstart := le_partStart iso.length
  have hshort : patched.length ≤ stage2Sectors * sectorSize := hlength ▸ hstage2
  have hblobend := sectorsOf_le blob.bytes.length
  have hentry : (partitionEntry (partStart iso.length) (partSectors dataMib)).length = 16 := by
    simp [partitionEntry]
  generalize hf : (DiskFile.ofList iso).truncate
    ((partStart iso.length + partSectors dataMib) * sectorSize) = f at hsignature hslot ⊢
  have hzero : ∀ x, iso.length ≤ x → f.bytes x = 0 := fun x hx => by
    rw [← hf]
    simp only [DiskFile.truncate, DiskFile.ofList, List.getD_eq_default _ _ hx, ite_self]
  have hiso : ∀ x < 512, f.bytes x = iso.getD x 0 := fun x hx => by
    rw [← hf]
    simp only [DiskFile.truncate, DiskFile.ofList]
    rw [if_pos (by simp only [sectorSize] at hstart ⊢; omega)]
  have hsize : f.size = (partStart iso.length + partSectors dataMib) * sectorSize := hf ▸ rfl
  have hshort' := hshort
  simp only [stage2Sectors, sectorSize] at hstart hshort' hblobend hsize
  refine ⟨blob, patched, slot, hblob, hroom, hparams, hshort, hlong, ?_, hsmall, hslotlt, ⟨?_, ?_⟩,
    fun i hi => ?_, fun x hx hnot => ?_, fun i hi => ?_, fun i hi => ?_⟩
  all_goals simp only [bootAreaSector, kernelBlobSector, stage2Sectors, sectorSize, entryAt,
    partitionTableOffset, entrySize] at *
  · simp only [DiskFile.write]
    omega
  · rw [DiskFile.bytes_write, if_neg (by omega), DiskFile.bytes_write, if_neg (by omega),
      DiskFile.bytes_write, if_neg (by omega)]
    exact hsignature.1
  · rw [DiskFile.bytes_write, if_neg (by omega), DiskFile.bytes_write, if_neg (by omega),
      DiskFile.bytes_write, if_neg (by omega)]
    exact hsignature.2
  · rw [DiskFile.bytes_write, if_neg (by omega), DiskFile.bytes_write, if_neg (by omega),
      DiskFile.bytes_write, if_pos (by omega), Nat.add_sub_cancel_left]
  · rw [DiskFile.bytes_write, if_neg (by omega), DiskFile.bytes_write, if_neg (by omega),
      DiskFile.bytes_write, if_neg (by omega)]
    exact hiso x hx
  · rw [DiskFile.bytes_write, if_neg (by omega), DiskFile.bytes_write, if_pos (by omega),
      Nat.add_sub_cancel_left]
  · rw [DiskFile.bytes_write]
    by_cases hlt : i < blob.bytes.length
    · rw [if_pos (by omega), Nat.add_sub_cancel_left]
    · -- The last sector of the block is filled up with what was there before.
      have hpast : partStart iso.length * 512 ≤ (partStart iso.length + (40 + 32)) * 512 + i := by
        omega
      rw [if_neg (by omega), DiskFile.bytes_write, if_neg (by omega), DiskFile.bytes_write,
        if_neg (by omega), hzero _ (hstart.trans hpast), List.getD_eq_default _ _ (by omega)]

end Tcmk.Boot
