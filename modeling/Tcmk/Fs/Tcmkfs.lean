import Tcmk.Text
import Tcmk.Fs.Disk

/-!
# TCMKFS (`core/tcmkfs.rs`)

The file system's calls as programs on `Fs`. A call ends with a value, with an error of the file
system, or with a panic (an array index out of range), after which the kernel does not go on.
The names follow the source; `arch` is the word size that the `usize` arithmetic of `write`
depends on. The statistics counter `WRITES` is left out.
-/

namespace Tcmk

open Lib

/-- `FsError`. -/
inductive FsError
  | noDevice
  | noPartition
  | notFormatted
  | notMounted
  | io
  | full
  | tooManyFiles
  | nameTooLong
  | fileTooLarge
  | notFound
  | exists
  | badVersion
  | badPath
  | notEmpty
  | tooDeep
  deriving DecidableEq, Repr

/-- How a call can stop without a value. -/
inductive Stop
  | err (e : FsError)
  | panic
  deriving DecidableEq, Repr

/-- A program of the file system. -/
abbrev FsProg := Prog Fs Stop

/-- `return Err(e)`. -/
def fail {α : Type} (e : FsError) : FsProg α := Prog.throw (.err e)

/-- `io`: every error of the device is `Io`. -/
def io {α : Type} (x : BlockProg α) : FsProg α := x.mapError fun _ => .err .io

namespace Fs

/-! ## Sectors -/

/-- Store one sector into a byte array at `sector * sectorSize`. -/
def storeSector (mem : ℕ → UInt8) (sector : ℕ) (bytes : ℕ → UInt8) : ℕ → UInt8 :=
  fun b => if b / sectorSize = sector then bytes (b % sectorSize) else mem b

/-- Store one sector into the inode table: two inodes. -/
def storeInodes (inodes : ℕ → Inode) (sector : ℕ) (bytes : ℕ → UInt8) : ℕ → Inode :=
  fun i => if i / 2 = sector then Inode.ofBytes bytes (i % 2 * inodeSize) else inodes i

/-- `read_super`. -/
def readSuper : FsProg SuperBlock := do
  let s ← Prog.get
  -- The sector is a local of the call; nothing else sees it.
  io (Block.read s.partLba 1 sectorSize fun _ _ s => s)
  let t ← Prog.get
  pure (SuperBlock.ofBytes (t.disk.sectors s.partLba.toNat))

/-- `write_super`. -/
def writeSuper (sb : SuperBlock) : FsProg Unit := do
  let s ← Prog.get
  io (Block.write s.partLba 1 sectorSize fun _ => sb.byte)

/-- `flush_inodes`: 32 sectors in groups of eight. -/
def flushInodes : FsProg Unit :=
  Prog.forRange 4 0 fun chunk => do
    let s ← Prog.get
    io (Block.write
      (s.partLba + UInt32.ofNat inodeTableSector + UInt32.ofNat chunk * 8) 8 (8 * sectorSize)
      fun s b => inodeTableByte s.inodes (chunk * 8 * sectorSize + b))

/-- `load_inodes`. -/
def loadInodes : FsProg Unit :=
  Prog.forRange 4 0 fun chunk => do
    let s ← Prog.get
    io (Block.read
      (s.partLba + UInt32.ofNat inodeTableSector + UInt32.ofNat chunk * 8) 8 (8 * sectorSize)
      fun sector bytes s =>
        { s with inodes := storeInodes s.inodes (chunk * 8 + sector) bytes })

/-- `flush_bitmap`. -/
def flushBitmap : FsProg Unit := do
  let s ← Prog.get
  io (Block.write (s.partLba + UInt32.ofNat bitmapSector) bitmapSectors
    (bitmapSectors * sectorSize) fun s => s.bitmap)

/-- `load_bitmap`. -/
def loadBitmap : FsProg Unit := do
  let s ← Prog.get
  io (Block.read (s.partLba + UInt32.ofNat bitmapSector) bitmapSectors
    (bitmapSectors * sectorSize) fun sector bytes s =>
      { s with bitmap := storeSector s.bitmap sector bytes })

/-- The first sector of a data block. -/
def blockLba (partLba index : UInt32) : UInt32 :=
  partLba + UInt32.ofNat dataStartSector + index * UInt32.ofNat sectorsPerBlock

/-- `read_block` into `SCRATCH`, its only target. -/
def readBlock (index : UInt32) : FsProg Unit := do
  let s ← Prog.get
  io (Block.read (blockLba s.partLba index) sectorsPerBlock blockSize fun sector bytes s =>
    { s with scratch := storeSector s.scratch sector bytes })

/-- `write_block` from `SCRATCH`, its only source. -/
def writeBlock (index : UInt32) : FsProg Unit := do
  let s ← Prog.get
  io (Block.write (blockLba s.partLba index) sectorsPerBlock blockSize fun s => s.scratch)

/-! ## The bitmap -/

/-- The bits of `alloc_block`'s search. -/
def firstFree (bitmap : ℕ → UInt8) (total : ℕ) : Option ℕ :=
  (List.range total).find? fun i => !bitGet bitmap i

/-- `alloc_block`. -/
def allocBlock : FsProg (Option UInt32) := do
  let s ← Prog.get
  match firstFree s.bitmap s.totalBlocks.toNat with
  | some i =>
    Prog.modify fun s =>
      { s with bitmap := bitSet s.bitmap i true, freeBlocks := s.freeBlocks - 1 }
    pure (some (UInt32.ofNat i))
  | none => pure none

/-- `free_block`. The source indexes `BITMAP` unchecked; an index past it has no meaning and
ends the model's run. -/
def freeBlock (index : UInt32) : FsProg Unit := do
  let s ← Prog.get
  if index.toNat ≥ maxBlocks then Prog.throw .panic
  else if bitGet s.bitmap index.toNat then
    Prog.modify fun s =>
      { s with bitmap := bitSet s.bitmap index.toNat false, freeBlocks := s.freeBlocks + 1 }
  else pure ()

/-! ## Inodes and paths -/

/-- Replace one inode. -/
def setInode (s : Fs) (index : ℕ) (inode : Inode) : Fs :=
  { s with inodes := Function.update s.inodes index inode }

/-- `inode_ref`. -/
def inodeRef (s : Fs) (index : ℕ) : Option Inode :=
  if index ≥ maxInodes then none else some (s.inodes index)

/-- `name_of`. -/
def nameOf (inode : Inode) : List UInt8 :=
  let name := ((List.range maxName).map inode.name).takeWhile (· != 0)
  if utf8Valid name then name else []

/-- `child_of`. -/
def childOf (s : Fs) (parent : ℕ) (name : List UInt8) : Option ℕ :=
  if name = [] then some parent
  else
    (List.range maxInodes).find? fun i =>
      (s.inodes i).kind != kindFree && (s.inodes i).parent.toNat == parent && i != rootInode &&
        nameOf (s.inodes i) == name

/-- The loop of `resolve`. -/
def resolveFrom (s : Fs) : List (List UInt8) → ℕ → ℕ → Option ℕ
  | [], current, _ => some current
  | part :: parts, current, depth =>
    if part = [] ∨ part = [dot] then resolveFrom s parts current depth
    else if depth + 1 > maxDepth then none
    else
      match s.inodeRef current with
      | none => none
      | some inode =>
        if inode.kind ≠ kindDir then none
        else
          match s.childOf current part with
          | none => none
          | some child => resolveFrom s parts child (depth + 1)

/-- `resolve`. -/
def resolve (s : Fs) (path : List UInt8) : Option ℕ := resolveFrom s (splitPath path) rootInode 0

/-- `lookup`: files only. -/
def lookup (s : Fs) (path : List UInt8) : Option ℕ :=
  match s.resolve path with
  | none => none
  | some index =>
    match s.inodeRef index with
    | none => none
    | some inode => if inode.kind = kindFile then some index else none

/-- `split_parent`. -/
def splitParent (s : Fs) (path : List UInt8) : Except FsError (ℕ × List UInt8) :=
  let trimmed := trimSlashes path
  let dir := beforeLast trimmed
  let leaf := lastComponent trimmed
  if leaf = [] ∨ leaf.length ≥ maxName then .error .nameTooLong
  else if ((splitPath trimmed).filter fun p => p != [] && p != [dot]).length > maxDepth then
    .error .tooDeep
  else
    match s.resolve (if dir = [] then [slash] else dir) with
    | none => .error .badPath
    | some parent =>
      match s.inodeRef parent with
      | none => .error .badPath
      | some inode => if inode.kind ≠ kindDir then .error .badPath else .ok (parent, leaf)

/-- The inode that `allocate_inode` makes. -/
def newInode (parent : ℕ) (name : List UInt8) (kind unixTime : UInt32) : Inode :=
  { Inode.empty with
    kind := kind, parent := UInt32.ofNat parent, mtime := unixTime, name := fun j => name.getD j 0 }

/-- `allocate_inode`. -/
def allocateInode (parent : ℕ) (name : List UInt8) (kind : UInt32) : FsProg ℕ := do
  let s ← Prog.get
  match (List.range maxInodes).find? fun i => (s.inodes i).kind == kindFree && i != rootInode with
  | none => fail .tooManyFiles
  | some i =>
    if name.length > maxName then Prog.throw .panic
    else
      Prog.modify fun s => s.setInode i (newInode parent name kind s.unixTime)
      pure i

/-- `file_count`. -/
def fileCount (s : Fs) : ℕ :=
  ((List.range maxInodes).filter fun i => (s.inodes i).kind == kindFile).length

/-- The common body of `create` and `mkdir`. -/
def makeEntry (kind : UInt32) (path : List UInt8) : FsProg ℕ := do
  let s ← Prog.get
  if !s.mounted then fail .notMounted
  else if (s.resolve path).isSome then fail .exists
  else
    match s.splitParent path with
    | .error e => fail e
    | .ok (parent, leaf) =>
      let index ← allocateInode parent leaf kind
      flushInodes
      pure index

/-- `create`. -/
def create (path : List UInt8) : FsProg ℕ := makeEntry kindFile path

/-- `mkdir`. -/
def mkdir (path : List UInt8) : FsProg ℕ := makeEntry kindDir path

/-- `rmdir`. -/
def rmdir (path : List UInt8) : FsProg Unit := do
  let s ← Prog.get
  if !s.mounted then fail .notMounted
  else
    match s.resolve path with
    | none => fail .notFound
    | some index =>
      if index = rootInode then fail .badPath
      else if index ≥ maxInodes ∨ (s.inodes index).kind ≠ kindDir then fail .notFound
      else if (List.range maxInodes).any fun i =>
          (s.inodes i).kind != kindFree && (s.inodes i).parent.toNat == index && i != index then
        fail .notEmpty
      else
        Prog.modify fun s => s.setInode index Inode.empty
        flushInodes

/-- `remove`. -/
def remove (index : ℕ) : FsProg Unit := do
  let s ← Prog.get
  if !s.mounted then fail .notMounted
  else if index ≥ maxInodes ∨ (s.inodes index).kind ≠ kindFile then fail .notFound
  else
    Prog.forRange (blockCount (s.inodes index).size.toNat) 0 fun i => do
      let s ← Prog.get
      if i ≥ directBlocks then Prog.throw .panic else freeBlock ((s.inodes index).blocks i)
    Prog.modify fun s => s.setInode index Inode.empty
    flushInodes
    flushBitmap

/-! ## Reading -/

/-- The loop of `read`: the bytes from `position` on, `left` of them. `fuel` bounds the rounds;
each round takes at least one byte. -/
def readLoop (index : ℕ) : ℕ → ℕ → ℕ → FsProg (List UInt8)
  | 0, _, _ => pure []
  | fuel + 1, position, left => do
    if left = 0 then pure []
    else
      let inBlock := position % blockSize
      let chunk := min (blockSize - inBlock) left
      let s ← Prog.get
      if position / blockSize ≥ directBlocks then Prog.throw .panic
      else
        readBlock ((s.inodes index).blocks (position / blockSize))
        let s ← Prog.get
        let bytes := (List.range chunk).map fun k => s.scratch (inBlock + k)
        let rest ← readLoop index fuel (position + chunk) (left - chunk)
        pure (bytes ++ rest)

/-- `read` into a buffer of `room` bytes: the bytes stored at its start. -/
def read (index offset room : ℕ) : FsProg (List UInt8) := do
  let s ← Prog.get
  if !s.mounted then fail .notMounted
  else if index ≥ maxInodes ∨ (s.inodes index).kind ≠ kindFile then fail .notFound
  else
    let size := (s.inodes index).size.toNat
    if offset ≥ size then pure []
    else readLoop index (min (size - offset) room) offset (min (size - offset) room)

/-! ## Writing -/

/-- Set one block pointer of an inode. -/
def setBlock (s : Fs) (index i : ℕ) (block : UInt32) : Fs :=
  s.setInode index
    { s.inodes index with blocks := Function.update (s.inodes index).blocks i block }

/-- The allocation loop of `write`: `count` blocks from the pointer `i` on; when the disk is
full, those from `have_` on are given back. -/
def allocBlocks (index have_ : ℕ) : ℕ → ℕ → FsProg Unit
  | 0, _ => pure ()
  | count + 1, i => do
    match ← allocBlock with
    | some block =>
      if i ≥ directBlocks then Prog.throw .panic
      else
        Prog.modify fun s => s.setBlock index i block
        allocBlocks index have_ count (i + 1)
    | none =>
      Prog.forRange (i - have_) have_ fun j => do
        let s ← Prog.get
        freeBlock ((s.inodes index).blocks j)
        Prog.modify fun s => s.setBlock index j 0
      fail .full

/-- `scratch.fill(0)`. -/
def clearScratch (s : Fs) : Fs := { s with scratch := fun _ => 0 }

/-- Copy `chunk` bytes of the data, from `data[done]` on, into `SCRATCH` at `inBlock`. -/
def fillScratch (s : Fs) (inBlock chunk : ℕ) (data : List UInt8) (done : ℕ) : Fs :=
  { s with scratch := fun b =>
      if inBlock ≤ b ∧ b < inBlock + chunk then data.getD (done + (b - inBlock)) 0
      else s.scratch b }

/-- Before a partial block is written, `SCRATCH` gets what the rest of the block keeps: its old
bytes, or zeros in a new block. -/
def prepareScratch (index have_ blockIndex chunk : ℕ) : FsProg Unit :=
  if chunk < blockSize then
    if blockIndex < have_ then do
      let s ← Prog.get
      if blockIndex ≥ directBlocks then Prog.throw .panic
      else readBlock ((s.inodes index).blocks blockIndex)
    else Prog.modify clearScratch
  else pure ()

/-- The loop of `write`, from `done` bytes on. -/
def writeLoop (arch : Arch) (index offset have_ : ℕ) (data : List UInt8) : ℕ → ℕ → FsProg Unit
  | 0, _ => pure ()
  | fuel + 1, done => do
    if done ≥ data.length then pure ()
    else
      let position := (offset + done) % 2 ^ arch.wordBits
      let blockIndex := position / blockSize
      let inBlock := position % blockSize
      let chunk := min (blockSize - inBlock) (data.length - done)
      prepareScratch index have_ blockIndex chunk
      Prog.modify fun s => s.fillScratch inBlock chunk data done
      let s ← Prog.get
      if blockIndex ≥ directBlocks then Prog.throw .panic
      else
        writeBlock ((s.inodes index).blocks blockIndex)
        writeLoop arch index offset have_ data fuel (done + chunk)

/-- `write`. -/
def write (arch : Arch) (index offset : ℕ) (data : List UInt8) : FsProg ℕ := do
  let s ← Prog.get
  if !s.mounted then fail .notMounted
  else if index ≥ maxInodes ∨ (s.inodes index).kind ≠ kindFile then fail .notFound
  else
    let stop := (offset + data.length) % 2 ^ arch.wordBits
    if stop > maxFileSize then fail .fileTooLarge
    else
      let have_ := blockCount (s.inodes index).size.toNat
      allocBlocks index have_ (blockCount stop - have_) have_
      writeLoop arch index offset have_ data data.length 0
      Prog.modify fun s => s.setInode index { s.inodes index with
        size := if stop > (s.inodes index).size.toNat then UInt32.ofNat stop
          else (s.inodes index).size
        mtime := s.unixTime }
      flushInodes
      flushBitmap
      pure data.length

/-- The file that `write_all` fills: the old one is removed first. -/
def replaceFile (name : List UInt8) : FsProg ℕ := do
  let s ← Prog.get
  match s.lookup name with
  | some i =>
    remove i
    create name
  | none => create name

/-- `write_all`. -/
def writeAll (arch : Arch) (name data : List UInt8) : FsProg ℕ := do
  let index ← replaceFile name
  write arch index 0 data

/-! ## Formatting and mounting -/

/-- `"/home"`. -/
def homeDir : List UInt8 := [47, 104, 111, 109, 101]

/-- `"/tmp"`. -/
def tmpDir : List UInt8 := [47, 116, 109, 112]

/-- The root directory's inode in a new file system. -/
def rootDir (unixTime : UInt32) : Inode :=
  { Inode.empty with kind := kindDir, parent := UInt32.ofNat rootInode, mtime := unixTime }

/-- `format`. -/
def format (label : List UInt8) : FsProg Unit := do
  let s ← Prog.get
  match s.partition with
  | none => fail .noPartition
  | some (lba, sectors) =>
    if !s.disk.present then fail .noDevice
    else
      let total := capacityBlocks sectors
      Prog.modify fun s => { s with
        partLba := lba
        totalBlocks := total
        freeBlocks := total
        inodes := Function.update (fun i => if i < maxInodes then Inode.empty else s.inodes i)
          rootInode (rootDir s.unixTime)
        bitmap := fun b => if b < bitmapSectors * sectorSize then 0 else s.bitmap b }
      flushInodes
      flushBitmap
      writeSuper {
        magic := magic, version := version, totalBlocks := total, freeBlocks := total
        inodeCount := UInt32.ofNat maxInodes, fileCount := 0
        blockSize := UInt32.ofNat Tcmk.blockSize, dataStart := UInt32.ofNat dataStartSector
        label := fun j => (label.take 15).getD j 0 }
      Prog.modify fun s => { s with mounted := true }
      let _ ← mkdir homeDir
      let _ ← mkdir tmpDir
      pure ()

/-- The number of clear bits below `total`. -/
def countFree (bitmap : ℕ → UInt8) (total : ℕ) : ℕ :=
  ((List.range total).filter fun i => !bitGet bitmap i).length

/-- `mount`. -/
def mount : FsProg Unit := do
  let s ← Prog.get
  match s.partition with
  | none => fail .noPartition
  | some (lba, sectors) =>
    if !s.disk.present then fail .noDevice
    else
      Prog.modify fun s => { s with partLba := lba }
      let sb ← readSuper
      if sb.magic ≠ magic then fail .notFormatted
      else if sb.version ≠ version then fail .badVersion
      else
        let total := min sb.totalBlocks (capacityBlocks sectors)
        Prog.modify fun s => { s with totalBlocks := total }
        loadInodes
        loadBitmap
        Prog.modify fun s => { s with
          freeBlocks := UInt32.ofNat (countFree s.bitmap total.toNat), mounted := true }

/-- `sync`. -/
def sync : FsProg Unit := do
  let s ← Prog.get
  if !s.mounted then fail .notMounted
  else
    flushInodes
    flushBitmap
    let sb ← readSuper
    let s ← Prog.get
    writeSuper { sb with freeBlocks := s.freeBlocks, fileCount := UInt32.ofNat s.fileCount }

end Fs

end Tcmk
