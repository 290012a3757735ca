import Tcmk.Lib.Bytes

/-!
# The layout of TCMKFS (`core/tcmkfs.rs`)

A partition holds the superblock, an inode table of 64 entries of 256 bytes, a bitmap of 16384
bits, the boot area, and from sector 4096 on the data blocks of eight sectors each. Here are the
constants, the records, and their bytes on disk.
-/

namespace Tcmk

open Lib

/-- `SECTOR_SIZE`. -/
def sectorSize : ℕ := 512

/-- `MAGIC`. -/
def magic : UInt32 := 0x4B4D4354

/-- `VERSION`. -/
def version : UInt32 := 2

/-- `BLOCK_SIZE`. -/
def blockSize : ℕ := 4096

/-- `SECTORS_PER_BLOCK`. -/
def sectorsPerBlock : ℕ := 8

/-- `MAX_INODES`. -/
def maxInodes : ℕ := 64

/-- `INODE_SIZE`. -/
def inodeSize : ℕ := 256

/-- `INODE_TABLE_SECTOR`. -/
def inodeTableSector : ℕ := 1

/-- `INODE_TABLE_SECTORS`. -/
def inodeTableSectors : ℕ := 32

/-- `BITMAP_SECTOR`. -/
def bitmapSector : ℕ := 33

/-- `BITMAP_SECTORS`. -/
def bitmapSectors : ℕ := 4

/-- `MAX_BLOCKS`. -/
def maxBlocks : ℕ := 16384

/-- `DATA_START_SECTOR`. -/
def dataStartSector : ℕ := 4096

/-- `DIRECT_BLOCKS`. -/
def directBlocks : ℕ := 40

/-- `MAX_FILE_SIZE`. -/
def maxFileSize : ℕ := 163840

/-- `MAX_NAME`. -/
def maxName : ℕ := 64

/-- `KIND_FREE`. -/
def kindFree : UInt32 := 0

/-- `KIND_FILE`. -/
def kindFile : UInt32 := 1

/-- `KIND_DIR`. -/
def kindDir : UInt32 := 2

/-- `ROOT_INODE`. -/
def rootInode : ℕ := 0

/-- `MAX_DEPTH`. -/
def maxDepth : ℕ := 8

/-- `block_count`. -/
def blockCount (size : ℕ) : ℕ := (size + (blockSize - 1)) / blockSize

/-- `capacity_blocks`: how many data blocks fit the partition. -/
def capacityBlocks (partitionSectors : UInt32) : UInt32 :=
  if partitionSectors ≤ UInt32.ofNat dataStartSector then 0
  else
    let usable := (partitionSectors - UInt32.ofNat dataStartSector) / UInt32.ofNat sectorsPerBlock
    min usable (UInt32.ofNat maxBlocks)

/-! ## Records -/

/-- `Inode`. The fixed-size arrays are functions; only their first `MAX_NAME`,
`DIRECT_BLOCKS` and 12 entries exist. -/
structure Inode where
  kind : UInt32
  size : UInt32
  mtime : UInt32
  flags : UInt32
  parent : UInt32
  name : ℕ → UInt8
  blocks : ℕ → UInt32
  pad : ℕ → UInt8

/-- `Inode::empty`. -/
def Inode.empty : Inode := ⟨kindFree, 0, 0, 0, 0, fun _ => 0, fun _ => 0, fun _ => 0⟩

/-- `SuperBlock`. -/
structure SuperBlock where
  magic : UInt32
  version : UInt32
  totalBlocks : UInt32
  freeBlocks : UInt32
  inodeCount : UInt32
  fileCount : UInt32
  blockSize : UInt32
  dataStart : UInt32
  label : ℕ → UInt8

/-- Byte `k` of a `u32` in memory. -/
def u32Byte (x : UInt32) (k : ℕ) : UInt8 := leByte x.toNat k

/-- The `u32` at an offset. -/
def u32At (mem : ℕ → UInt8) (off : ℕ) : UInt32 := UInt32.ofNat (leNat mem off 4)

theorem u32At_congr {mem mem' : ℕ → UInt8} {off off' : ℕ}
    (h : ∀ k < 4, mem (off + k) = mem' (off' + k)) : u32At mem off = u32At mem' off' :=
  congrArg _ (leNat_congr h)

theorem u32At_of_u32Byte {mem : ℕ → UInt8} {off : ℕ} {x : UInt32}
    (h : ∀ k < 4, mem (off + k) = u32Byte x k) : u32At mem off = x := by
  have hlt : x.toNat < 256 ^ 4 := x.toNat_lt
  rw [u32At, leNat_of_leByte x.toNat h, Nat.mod_eq_of_lt hlt, UInt32.ofNat_toNat]

/-- The bytes of an inode, in the order of its fields. -/
def Inode.byte (inode : Inode) (b : ℕ) : UInt8 :=
  if b < 4 then u32Byte inode.kind b
  else if b < 8 then u32Byte inode.size (b - 4)
  else if b < 12 then u32Byte inode.mtime (b - 8)
  else if b < 16 then u32Byte inode.flags (b - 12)
  else if b < 20 then u32Byte inode.parent (b - 16)
  else if b < 84 then inode.name (b - 20)
  else if b < 244 then u32Byte (inode.blocks ((b - 84) / 4)) ((b - 84) % 4)
  else inode.pad (b - 244)

/-- The inode whose bytes lie at `off`. -/
def Inode.ofBytes (mem : ℕ → UInt8) (off : ℕ) : Inode where
  kind := u32At mem off
  size := u32At mem (off + 4)
  mtime := u32At mem (off + 8)
  flags := u32At mem (off + 12)
  parent := u32At mem (off + 16)
  name j := mem (off + 20 + j)
  blocks j := u32At mem (off + 84 + 4 * j)
  pad j := mem (off + 244 + j)

/-- The bytes of the superblock's sector; the rest of the sector is zero. -/
def SuperBlock.byte (sb : SuperBlock) (b : ℕ) : UInt8 :=
  if b < 4 then u32Byte sb.magic b
  else if b < 8 then u32Byte sb.version (b - 4)
  else if b < 12 then u32Byte sb.totalBlocks (b - 8)
  else if b < 16 then u32Byte sb.freeBlocks (b - 12)
  else if b < 20 then u32Byte sb.inodeCount (b - 16)
  else if b < 24 then u32Byte sb.fileCount (b - 20)
  else if b < 28 then u32Byte sb.blockSize (b - 24)
  else if b < 32 then u32Byte sb.dataStart (b - 28)
  else if b < 48 then sb.label (b - 32)
  else 0

def SuperBlock.ofBytes (mem : ℕ → UInt8) : SuperBlock where
  magic := u32At mem 0
  version := u32At mem 4
  totalBlocks := u32At mem 8
  freeBlocks := u32At mem 12
  inodeCount := u32At mem 16
  fileCount := u32At mem 20
  blockSize := u32At mem 24
  dataStart := u32At mem 28
  label j := mem (32 + j)

/-- Byte `b` of the inode table in memory. -/
def inodeTableByte (inodes : ℕ → Inode) (b : ℕ) : UInt8 :=
  (inodes (b / inodeSize)).byte (b % inodeSize)

/-! ## Round trips -/

section RoundTrip

variable {mem : ℕ → UInt8} {off : ℕ} {inode : Inode}

theorem ofBytes_kind (h : ∀ b < inodeSize, mem (off + b) = inode.byte b) :
    (Inode.ofBytes mem off).kind = inode.kind :=
  u32At_of_u32Byte fun k hk => by
    rw [h k (Nat.lt_of_lt_of_le hk (by decide)), Inode.byte, if_pos hk]

theorem ofBytes_size (h : ∀ b < inodeSize, mem (off + b) = inode.byte b) :
    (Inode.ofBytes mem off).size = inode.size :=
  u32At_of_u32Byte fun k hk => by
    rw [Nat.add_assoc, h (4 + k) (by simp only [inodeSize]; omega)]
    simp only [Inode.byte]
    rw [if_neg (by omega), if_pos (by omega), Nat.add_sub_cancel_left]

theorem ofBytes_blocks (h : ∀ b < inodeSize, mem (off + b) = inode.byte b) {j : ℕ}
    (hj : j < directBlocks) : (Inode.ofBytes mem off).blocks j = inode.blocks j :=
  u32At_of_u32Byte fun k hk => by
    simp only [directBlocks] at hj
    rw [show off + 84 + 4 * j + k = off + (84 + 4 * j + k) by omega,
      h (84 + 4 * j + k) (by simp only [inodeSize]; omega)]
    simp only [Inode.byte]
    rw [if_neg (by omega), if_neg (by omega), if_neg (by omega), if_neg (by omega),
      if_neg (by omega), if_neg (by omega), if_pos (by omega),
      show (84 + 4 * j + k - 84) / 4 = j by omega, show (84 + 4 * j + k - 84) % 4 = k by omega]

/-- The two have the same fields; of the arrays, the entries that exist. -/
structure Inode.Same (a b : Inode) : Prop where
  kind : b.kind = a.kind
  size : b.size = a.size
  mtime : b.mtime = a.mtime
  flags : b.flags = a.flags
  parent : b.parent = a.parent
  name : ∀ j < maxName, b.name j = a.name j
  blocks : ∀ j < directBlocks, b.blocks j = a.blocks j
  pad : ∀ j < 12, b.pad j = a.pad j

/-- An inode read back from its bytes. -/
theorem ofBytes_same (h : ∀ b < inodeSize, mem (off + b) = inode.byte b) :
    Inode.Same inode (Inode.ofBytes mem off) where
  kind := ofBytes_kind h
  size := ofBytes_size h
  mtime := u32At_of_u32Byte fun k hk => by
    rw [Nat.add_assoc, h (8 + k) (by simp only [inodeSize]; omega)]
    simp only [Inode.byte]
    rw [if_neg (by omega), if_neg (by omega), if_pos (by omega), Nat.add_sub_cancel_left]
  flags := u32At_of_u32Byte fun k hk => by
    rw [Nat.add_assoc, h (12 + k) (by simp only [inodeSize]; omega)]
    simp only [Inode.byte]
    rw [if_neg (by omega), if_neg (by omega), if_neg (by omega), if_pos (by omega),
      Nat.add_sub_cancel_left]
  parent := u32At_of_u32Byte fun k hk => by
    rw [Nat.add_assoc, h (16 + k) (by simp only [inodeSize]; omega)]
    simp only [Inode.byte]
    rw [if_neg (by omega), if_neg (by omega), if_neg (by omega), if_neg (by omega),
      if_pos (by omega), Nat.add_sub_cancel_left]
  name j hj := by
    simp only [maxName] at hj
    show mem (off + 20 + j) = _
    rw [Nat.add_assoc, h (20 + j) (by simp only [inodeSize]; omega)]
    simp only [Inode.byte]
    rw [if_neg (by omega), if_neg (by omega), if_neg (by omega), if_neg (by omega),
      if_neg (by omega), if_pos (by omega), Nat.add_sub_cancel_left]
  blocks j hj := ofBytes_blocks h hj
  pad j hj := by
    show mem (off + 244 + j) = _
    rw [Nat.add_assoc, h (244 + j) (by simp only [inodeSize]; omega)]
    simp only [Inode.byte]
    rw [if_neg (by omega), if_neg (by omega), if_neg (by omega), if_neg (by omega),
      if_neg (by omega), if_neg (by omega), if_neg (by omega), Nat.add_sub_cancel_left]

/-- The fields of the superblock that `mount` reads. -/
theorem superBlock_ofBytes {sb : SuperBlock} (h : ∀ b < sectorSize, mem b = sb.byte b) :
    (SuperBlock.ofBytes mem).magic = sb.magic ∧ (SuperBlock.ofBytes mem).version = sb.version ∧
      (SuperBlock.ofBytes mem).totalBlocks = sb.totalBlocks := by
  refine ⟨u32At_of_u32Byte fun k hk => ?_, u32At_of_u32Byte fun k hk => ?_,
    u32At_of_u32Byte fun k hk => ?_⟩
  · rw [h _ (by simp only [sectorSize]; omega), SuperBlock.byte, if_pos (by omega), Nat.zero_add]
  · rw [h _ (by simp only [sectorSize]; omega), SuperBlock.byte, if_neg (by omega),
      if_pos (by omega), Nat.add_sub_cancel_left]
  · rw [h _ (by simp only [sectorSize]; omega), SuperBlock.byte, if_neg (by omega),
      if_neg (by omega), if_pos (by omega), Nat.add_sub_cancel_left]

end RoundTrip

end Tcmk
