import Tcmk.Arch
import Tcmk.Lib.Memory
import Tcmk.Lib.Prog

/-!
# What the binary loaders work on

A loader gets the file as a slice, and writes the program to the memory of the process. All its
arithmetic is done modulo `2 ^ w`, where `w` is the width of `usize`. It checks itself where it
reads and writes, so the model lets it read beyond the slice: `Image.beyond` is what it finds there.
The log records all accesses, and the sums that have passed a check, before they are reduced.
-/

namespace Tcmk

open Lib

/-- `mmu::USER_MEM_START`: where the memory of a process begins. -/
def userMemStart : ℕ := 0x00C00000

/-- `mmu::USER_MEM_SIZE`: what the loaders take as its size. -/
def userMemSize : ℕ := 0x00200000

/-- `mmu::USER_MAP_SIZE`: how much of it is reserved. -/
def userMapSize : ℕ := 512 * 1024

namespace Loader

/-- A file image. -/
structure Image where
  bytes : List UInt8
  /-- what lies outside the slice, by its offset -/
  beyond : ℕ → UInt8

/-- `image.len()`. -/
def Image.len (image : Image) : ℕ := image.bytes.length

/-- The byte at an offset. -/
def Image.byte (image : Image) (off : ℕ) : UInt8 := image.bytes.getD off (image.beyond off)

/-- A number as bytes. -/
def bytesOf (n v : ℕ) : List UInt8 := (List.range n).map (leByte v)

inductive Access
  /-- of the file, at an offset -/
  | file (off len : ℕ)
  /-- of the memory -/
  | read (addr len : ℕ)
  | write (addr len : ℕ)
  /-- no access, but a sum that was small enough -/
  | passed (n : ℕ)
  deriving DecidableEq

structure Bus where
  mem : ℕ → UInt8
  log : List Access

def Bus.record (s : Bus) (a : Access) : Bus := { s with log := s.log ++ [a] }

variable {ε : Type}

/-- `if n > limit { return Err(e) }`, where `n` is a sum in `usize`. -/
def check (w n limit : ℕ) (e : ε) : Prog Bus ε Unit :=
  if n % 2 ^ w > limit then .throw e else Prog.modify (·.record (.passed n))

theorem check_ok {w n limit : ℕ} {e : ε} {s t : Bus} {u : Unit} :
    (check w n limit e).run s = (.ok u, t) ↔ n % 2 ^ w ≤ limit ∧ t = s.record (.passed n) := by
  unfold check
  by_cases h : n % 2 ^ w > limit
  · rw [if_pos h]
    exact iff_of_false Prog.run_throw_ok fun h' => by omega
  · rw [if_neg h, and_iff_right (by omega), Prog.run_modify, Prod.mk.injEq, eq_comm (a := t)]
    exact and_iff_right rfl

/-- Read a number from the file, without a check. -/
def readFile (w : ℕ) (image : Image) (off n : ℕ) : Prog Bus ε ℕ :=
  .act (·.record (.file off n)) fun _ => pure (loadNat w image.byte off n)

/-- `copy_nonoverlapping` from the file to memory. -/
def copyFile (w : ℕ) (image : Image) (off dst n : ℕ) : Prog Bus ε Unit :=
  Prog.modify fun s =>
    { mem := store w s.mem dst n fun k => image.byte ((off + k) % 2 ^ w)
      log := s.log ++ [.file off n, .write dst n] }

/-- `write_bytes(dst, 0, n)`. -/
def writeZeros (w : ℕ) (dst n : ℕ) : Prog Bus ε Unit :=
  Prog.modify fun s => { mem := store w s.mem dst n fun _ => 0, log := s.log ++ [.write dst n] }

/-- Read a number from memory. -/
def readMem (w : ℕ) (addr n : ℕ) : Prog Bus ε ℕ :=
  .act (·.record (.read addr n)) fun s => pure (loadNat w s.mem addr n)

theorem readMem_ok {w addr n v : ℕ} {s t : Bus} :
    (readMem w addr n : Prog Bus ε ℕ).run s = (.ok v, t) ↔
      v = loadNat w s.mem addr n ∧ t = s.record (.read addr n) :=
  Prog.run_pure_ok

@[simp] theorem record_mem (s : Bus) (a : Access) : (s.record a).mem = s.mem := rfl

/-- Write a number of `n` bytes to memory. -/
def writeMem (w : ℕ) (addr n value : ℕ) : Prog Bus ε Unit :=
  Prog.modify fun s =>
    { mem := store w s.mem addr n (leByte value), log := s.log ++ [.write addr n] }

/-- Write bytes to memory. -/
def writeBytes (w : ℕ) (addr : ℕ) (bytes : List UInt8) : Prog Bus ε Unit :=
  Prog.modify fun s =>
    { mem := store w s.mem addr bytes.length fun k => bytes.getD k 0
      log := s.log ++ [.write addr bytes.length] }

end Loader

end Tcmk
