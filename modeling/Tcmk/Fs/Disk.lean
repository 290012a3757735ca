import Tcmk.Lib.Prog
import Tcmk.Arch
import Tcmk.Fs.Layout

/-!
# The file system's state and the block device (`drivers/block.rs`, `drivers/ata.rs`)

`Fs` holds the statics of `tcmkfs.rs` and what they work on: the disk, the partition scan's
result and the real-time clock. A disk command is a program on this state. The device decides at
each of its waits whether the transfer goes on (`fault`); the sectors written so far are kept in
`writes`, oldest first.

A task may have to wait for the device lock, for the data of each sector and, after a write, for the
flush of the cache. While a command is under way, the lock keeps other tasks from the device. So the
model lets them run at one place before a transfer, and at another before the flush.
-/

namespace Tcmk

open Lib

/-- `BlockError`. -/
inductive BlockError
  | noDevice
  | outOfRange
  | bufferTooSmall
  | deviceError
  | timeout
  deriving DecidableEq, Repr

/-- The sectors of a disk. -/
abbrev Sectors := ℕ → ℕ → UInt8

/-- The disk behind the driver. `fault time lba` is the device's answer to the wait number
`time`, made for sector `lba`. -/
structure Disk where
  present : Bool
  totalSectors : UInt32
  sectors : Sectors
  fault : ℕ → ℕ → Option BlockError
  time : ℕ
  writes : List (ℕ × (ℕ → UInt8))

/-- The statics of TCMKFS and their surroundings. -/
structure Fs where
  inodes : ℕ → Inode
  bitmap : ℕ → UInt8
  scratch : ℕ → UInt8
  mounted : Bool
  partLba : UInt32
  totalBlocks : UInt32
  freeBlocks : UInt32
  disk : Disk
  /-- `partition::tcmkfs()`: first sector and length. -/
  partition : Option (UInt32 × UInt32)
  /-- `rtc::unix_time()`. -/
  unixTime : UInt32

namespace Disk

/-- One sector goes to the disk. -/
def put (d : Disk) (lba : ℕ) (bytes : ℕ → UInt8) : Disk :=
  { d with sectors := Function.update d.sectors lba bytes, writes := d.writes ++ [(lba, bytes)] }

/-- Time passes. -/
def tick (d : Disk) : Disk := { d with time := d.time + 1 }

end Disk

/-- A program of the block layer. -/
abbrev BlockProg := Prog Fs BlockError

namespace Block

/-- Wait for the device (`wait_while_busy`, `wait_for_data`). -/
def await (lba : ℕ) : BlockProg Unit := do
  let s ← Prog.get
  Prog.modify fun s => { s with disk := s.disk.tick }
  match s.disk.fault s.disk.time lba with
  | some e => Prog.throw e
  | none => pure ()

/-- `setup_lba`. -/
def setupLba (lba : UInt32) (count : ℕ) : BlockProg Unit := do
  let s ← Prog.get
  if !s.disk.present then Prog.throw .noDevice
  else if lba.toNat + count ≥ 2 ^ 32 ∨ lba.toNat + count > s.disk.totalSectors.toNat then
    Prog.throw .outOfRange
  else if lba.toNat ≥ 2 ^ 28 then Prog.throw .outOfRange
  else await lba.toNat

/-- `read`: the bytes of each sector go to `store`, which is given the sector's number within
the command. `length` is the length of the buffer. -/
def read (lba : UInt32) (count length : ℕ) (store : ℕ → (ℕ → UInt8) → Fs → Fs) :
    BlockProg Unit := do
  if count = 0 then pure ()
  else if length < count * sectorSize then Prog.throw .bufferTooSmall
  else
    Prog.yield
    setupLba lba count
    Prog.forRange count 0 fun sector => do
      await (lba.toNat + sector)
      Prog.modify fun s => store sector (s.disk.sectors (lba.toNat + sector)) s

/-- `write`: `source` gives the bytes of the buffer, which stays in use until the transfer. -/
def write (lba : UInt32) (count length : ℕ) (source : Fs → ℕ → UInt8) : BlockProg Unit := do
  if count = 0 then pure ()
  else if length < count * sectorSize then Prog.throw .bufferTooSmall
  else
    Prog.yield
    setupLba lba count
    Prog.forRange count 0 fun sector => do
      await (lba.toNat + sector)
      Prog.modify fun s => { s with
        disk := s.disk.put (lba.toNat + sector) fun b => source s (sector * sectorSize + b) }
    await lba.toNat
    -- The flush of the device's cache may take long.
    Prog.yield
    await lba.toNat

end Block

end Tcmk
