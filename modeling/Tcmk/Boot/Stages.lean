import Tcmk.Lib.Loop
import Tcmk.Lib.Memory
import Tcmk.Boot.Image

/-!
# The boot loader (`boot/tcmkboot/src/bin/stage1.rs`, `stage2.rs`)

Stage 1 lies in the boot sector, which the firmware loads to 0x7C00, and has stage 2 loaded to
0x8000 by the firmware. Stage 2 reads the kernel's block from the drive in commands of at most 64
sectors, clears the memory behind it in units of four bytes and jumps to the entry point. Both
find their numbers in a parameter block at offset 3 of their own code.

The memory here is what the two stages load and clear. The screen mode, the stack and the
information for the kernel lie below 0x7C00 and are left out. A drive that does not deliver the
sectors of a command leaves stage 2 waiting for ever.
-/

namespace Tcmk.Boot

open Lib

abbrev Memory := ℕ → UInt8

/-- A drive as the boot loader sees it. -/
structure Drive where
  sectors : Sectors
  total : ℕ

/-- `count` sectors one after the other. -/
def Drive.bytes (drive : Drive) (lba k : ℕ) : UInt8 :=
  drive.sectors (lba + k / sectorSize) (k % sectorSize)

/-! ## Stage 1 -/

/-- Where the firmware loads the boot sector. -/
def stage1Base : ℕ := 0x7C00

/-- Where stage 1 has stage 2 loaded. -/
def stage2Base : ℕ := 0x8000

/-- The firmware's extended read (int 0x13, AH = 0x42): the bytes of so many sectors, or the carry
flag. -/
abbrev Firmware := ℕ → ℕ → Option (ℕ → UInt8)

/-- Stage 1, up to the jump to stage 2; `none` is `disk_error`. -/
def stage1Run (firmware : Firmware) (mem : Memory) : Option Memory :=
  let lba := loadNat 32 mem (stage1Base + 9) 4
  let count := loadNat 32 mem (stage1Base + 13) 2
  (firmware lba count).map fun bytes => store 32 mem stage2Base (count * sectorSize) bytes

/-! ## Stage 2 -/

/-- A number of stage 2's parameter block. -/
def param (mem : Memory) (off : ℕ) : UInt32 := UInt32.ofNat (loadNat 32 mem (stage2Base + off) 4)

/-- The registers of `read_loop`, and the memory. -/
structure Regs where
  ecx : UInt32
  esi : UInt32
  edi : UInt32
  mem : Memory

/-- `ata_read`: a command has 28 bits for the sector's number. -/
def ataRead (drive : Drive) (lba count : ℕ) (edi : UInt32) (mem : Memory) : Option Memory :=
  if lba % 2 ^ 28 + count ≤ drive.total then
    some (store 32 mem edi.toNat (count * sectorSize) (drive.bytes (lba % 2 ^ 28)))
  else none

/-- A round of `read_loop`. -/
def readRound (drive : Drive) (r : Regs) : Regs ⊕ Memory :=
  if r.ecx = 0 then .inr r.mem
  else
    let eax := if r.ecx ≤ 64 then r.ecx else 64
    match ataRead drive r.esi.toNat eax.toNat r.edi r.mem with
    | some mem => .inl ⟨r.ecx - eax, r.esi + eax, r.edi + eax * UInt32.ofNat sectorSize, mem⟩
    | none => .inl r

/-- The end of stage 2: `sub`, `jbe`, `shr ecx, 2`, `rep stosd`. -/
def clearBss (mem : Memory) (start stop : UInt32) : Memory :=
  if stop ≤ start then mem
  else store 32 mem start.toNat (4 * ((stop - start).toNat / 4)) fun _ => 0

/-- Stage 2, started with `mem`, jumps to `entry` with `mem'`. -/
def Stage2 (drive : Drive) (mem mem' : Memory) (entry : UInt32) : Prop :=
  ∃ loaded, Ends (readRound drive) ⟨param mem 13, param mem 9, param mem 17, mem⟩ loaded ∧
    mem' = clearBss loaded (param loaded 25) (param loaded 29) ∧ entry = param loaded 21

/-! ## What they do -/

variable {drive : Drive} {mem mem' : Memory} {r : Regs} {a k : ℕ}

/-- A command that fits one go of the loop loads that many sectors, and the rest is left. -/
theorem readRound_next (hecx : r.ecx ≠ 0) (hlba : r.esi.toNat + r.ecx.toNat ≤ drive.total)
    (hsmall : r.esi.toNat + r.ecx.toNat < 2 ^ 28)
    (hfits : r.edi.toNat + r.ecx.toNat * sectorSize < 2 ^ 32) :
    ∃ n r', 0 < n ∧ n ≤ r.ecx.toNat ∧ readRound drive r = .inl r' ∧
      r'.ecx.toNat = r.ecx.toNat - n ∧ r'.esi.toNat = r.esi.toNat + n ∧
      r'.edi.toNat = r.edi.toNat + n * sectorSize ∧
      r'.mem = store 32 r.mem r.edi.toNat (n * sectorSize) (drive.bytes r.esi.toNat) := by
  have hpos : 0 < r.ecx.toNat := Nat.pos_of_ne_zero fun h => hecx (UInt32.toNat_inj.1 h)
  obtain ⟨eax, heax, hle, heaxpos⟩ : ∃ eax, (if r.ecx ≤ 64 then r.ecx else 64) = eax ∧
      eax ≤ r.ecx ∧ 0 < eax.toNat := by
    split
    · exact ⟨_, rfl, UInt32.le_refl _, hpos⟩
    · rename_i h
      rw [UInt32.not_le] at h
      exact ⟨_, rfl, UInt32.le_of_lt h, by decide⟩
  have hle' := UInt32.le_iff_toNat_le.1 hle
  have hlow : r.esi.toNat % 2 ^ 28 = r.esi.toNat := Nat.mod_eq_of_lt (by omega)
  simp only [sectorSize] at hfits
  refine ⟨eax.toNat, ⟨r.ecx - eax, r.esi + eax, r.edi + eax * UInt32.ofNat sectorSize,
    store 32 r.mem r.edi.toNat (eax.toNat * sectorSize) (drive.bytes r.esi.toNat)⟩, heaxpos, hle',
    ?_, UInt32.toNat_sub_of_le _ _ hle, ?_, ?_, rfl⟩
  · rw [readRound, if_neg hecx]
    simp only [heax]
    rw [ataRead, hlow, if_pos (by omega)]
  · rw [UInt32.toNat_add]
    exact Nat.mod_eq_of_lt (by omega)
  · have hsum : r.edi.toNat + eax.toNat * 512 < 2 ^ 32 :=
      Nat.lt_of_le_of_lt (Nat.add_le_add_left (Nat.mul_le_mul_right 512 hle') _) hfits
    have hlt : eax.toNat * 512 < 2 ^ 32 := Nat.lt_of_le_of_lt (Nat.le_add_left ..) hsum
    have hsector : (UInt32.ofNat sectorSize).toNat = 512 := rfl
    have hbytes : (eax * UInt32.ofNat sectorSize).toNat = eax.toNat * 512 := by
      rw [UInt32.toNat_mul, hsector, Nat.mod_eq_of_lt hlt]
    rw [UInt32.toNat_add, hbytes, Nat.mod_eq_of_lt hsum]
    rfl

/-- The whole loop loads the sectors one after the other. -/
theorem readLoop_ends (n : ℕ) (hn : r.ecx.toNat = n) (hlba : r.esi.toNat + n ≤ drive.total)
    (hsmall : r.esi.toNat + n < 2 ^ 28) (hfits : r.edi.toNat + n * sectorSize < 2 ^ 32) :
    ∃ m, Ends (readRound drive) r m ∧
      (∀ k < n * sectorSize, m (r.edi.toNat + k) = drive.bytes r.esi.toNat k) ∧
      ∀ a, ¬ (r.edi.toNat ≤ a ∧ a < r.edi.toNat + n * sectorSize) → m a = r.mem a := by
  induction n using Nat.strong_induction_on generalizing r with
  | _ n ih =>
    by_cases hzero : r.ecx = 0
    · obtain rfl : n = 0 := by rw [← hn, hzero]; rfl
      exact ⟨r.mem, .stop (by rw [readRound, if_pos hzero]), fun k hk => by omega, fun _ _ => rfl⟩
    · obtain ⟨k, r', hk, hkn, hround, hecx, hesi, hedi, hmem⟩ :=
        @readRound_next drive r hzero (by omega) (by omega) (by rw [hn]; exact hfits)
      rw [hn] at hkn hecx
      have hfits' := hfits
      simp only [sectorSize] at hfits'
      obtain ⟨m, hends, hin, hout⟩ := ih (n - k) (by omega) hecx (by omega) (by omega)
        (by simp only [sectorSize] at *; omega)
      simp only [sectorSize] at hedi hmem hin hout ⊢
      rw [hedi] at hin hout
      rw [hesi] at hin
      have hrange : ∀ a, Touches 32 r.edi.toNat (k * 512) a ↔
          r.edi.toNat ≤ a ∧ a < r.edi.toNat + k * 512 := fun _ => touches_iff (by omega)
      refine ⟨m, .next hround hends, fun j hj => ?_, fun a ha => ?_⟩
      · by_cases hnow : j < k * 512
        · rw [hout _ (by omega), hmem, store_of_interval (by omega) hnow]
        · -- In a later command.
          have := hin (j - k * 512) (by omega)
          rw [show r.edi.toNat + k * 512 + (j - k * 512) = r.edi.toNat + j by omega] at this
          rw [this, Drive.bytes, Drive.bytes]
          simp only [sectorSize]
          rw [show r.esi.toNat + k + (j - k * 512) / 512 = r.esi.toNat + j / 512 by omega,
            show (j - k * 512) % 512 = j % 512 by omega]
      · rw [hout a (by omega), hmem, store_of_not fun h => by
          have := (hrange a).1 h
          omega]

/-- Stage 2 clears whole units of four bytes. -/
theorem clearBss_eq (start stop : UInt32) (a : ℕ) : clearBss mem start stop a =
    if start.toNat ≤ a ∧ a < start.toNat + 4 * ((stop.toNat - start.toNat) / 4) then 0
    else mem a := by
  rw [clearBss]
  have hstop := stop.toNat_lt
  split
  · rename_i hle
    rw [UInt32.le_iff_toNat_le] at hle
    rw [if_neg (by omega)]
  · rename_i hlt
    rw [UInt32.not_le] at hlt
    rw [UInt32.toNat_sub_of_le _ _ (UInt32.le_of_lt hlt)]
    rw [UInt32.lt_iff_toNat_lt] at hlt
    rw [store]
    exact if_congr (touches_iff (by omega)) rfl rfl

end Tcmk.Boot
