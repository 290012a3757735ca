import Tcmk.Boot.Image
import Tcmk.Fs.Command

/-!
# The partition table and the installer (`drivers/partition.rs`, `installer.rs`)

`scan` reads the partition table of sector 0, `install` puts stage 1 into the sector's first 446
bytes. A read that fails is no failure of `scan`, which then finds nothing, so both are functions
on the state rather than programs: nothing else runs while the kernel starts, and the shell waits
for the installer. `STAGE1`, a file that the build makes, is a parameter.

Installing never loses the table (`install_table`): whatever the device does, sector 0 is the old
one or the new one afterwards, and both have the same partitions.
-/

namespace Tcmk.Boot

open Lib

/-! ## The partition table -/

/-- `MAX_PARTITIONS`. -/
def maxPartitions : ℕ := 4

/-- `Partition`. -/
structure Partition where
  index : ℕ
  kind : UInt8
  bootable : Bool
  startLba : UInt32
  sectors : UInt32
  deriving DecidableEq

/-- The boot signature. -/
def Signed (mbr : ℕ → UInt8) : Prop := mbr 510 = 0x55 ∧ mbr 511 = 0xAA

instance (mbr : ℕ → UInt8) : Decidable (Signed mbr) := inferInstanceAs (Decidable (_ ∧ _))

/-- One round of the loop of `scan`. -/
def partitionAt (mbr : ℕ → UInt8) (i : ℕ) : Option Partition :=
  let base := 446 + i * 16
  if mbr (base + 4) = 0 then none
  else if u32At mbr (base + 12) = 0 then none
  else some ⟨i, mbr (base + 4), mbr base == 0x80, u32At mbr (base + 8), u32At mbr (base + 12)⟩

/-- `TABLE` after `scan`, for a sector 0 that has the signature. -/
def table (mbr : ℕ → UInt8) : List Partition :=
  if Signed mbr then (List.range maxPartitions).filterMap (partitionAt mbr) else []

/-- `TCMKFS_LBA` and `TCMKFS_SECTORS`, as `tcmkfs` reads them. -/
def noteTcmkfs (found : Option (UInt32 × UInt32)) (p : Partition) : Option (UInt32 × UInt32) :=
  if p.kind = UInt8.ofNat typeTcmkfs then
    if p.startLba = 0 then none else some (p.startLba, p.sectors)
  else found

/-- `scan`: `TABLE` and the state. -/
def scan (s : Fs) : List Partition × Fs :=
  if !s.disk.present then ([], s)
  else
    match (Block.read 0 1 sectorSize fun _ _ s => s).run s with
    | (.error _, t) => ([], t)
    | (.ok _, t) =>
      let found := table (t.disk.sectors 0)
      (found, { t with partition := found.foldl noteTcmkfs t.partition })

/-! ## The installer -/

/-- `InstallError`. -/
inductive InstallError
  | noDevice
  | noPartition
  | stage1TooLarge
  | stage2Missing
  | badMbr
  | io
  deriving DecidableEq, Repr

/-- `Report`. -/
structure Report where
  stage1Bytes : ℕ
  stage2Lba : UInt32
  stage2Sectors : ℕ
  blobLba : UInt32
  deriving DecidableEq

/-- `PARAM_MAGIC`: `"TCMKB1"`. -/
def stage1Magic : List UInt8 := [84, 67, 77, 75, 66, 49]

/-- `stage2_present`. -/
def stage2Present (s : Fs) : Bool × Fs :=
  match s.partition with
  | none => (false, s)
  | some (lba, _) =>
    match (Block.read (lba + UInt32.ofNat bootAreaSector) 1 sectorSize fun _ _ s => s).run s with
    | (.error _, t) => (false, t)
    | (.ok _, t) =>
      ((List.range 6).map (fun i =>
        t.disk.sectors (lba + UInt32.ofNat bootAreaSector).toNat (3 + i)) == stage2Magic, t)

/-- The boot sector with stage 1 in the code area, before the parameters are patched in. -/
def withStage1 (stage1 : List UInt8) (mbr : ℕ → UInt8) : ℕ → UInt8 := fun b =>
  if b < stage1.length then stage1.getD b 0 else if b < partitionTableOffset then 0 else mbr b

/-- The boot sector that `install` writes. -/
def installedMbr (stage1 : List UInt8) (stage2Lba : UInt32) (mbr : ℕ → UInt8) : ℕ → UInt8 :=
  fun b =>
    if 9 ≤ b ∧ b < 13 then u32Byte stage2Lba (b - 9)
    else if 13 ≤ b ∧ b < 15 then leByte stage2Sectors (b - 13)
    else withStage1 stage1 mbr b

/-- `install`. -/
def install (stage1 : List UInt8) (s : Fs) : Except InstallError Report × Fs :=
  if !s.disk.present then (.error .noDevice, s)
  else
    match s.partition with
    | none => (.error .noPartition, s)
    | some (lba, _) =>
      if stage1.length > partitionTableOffset then (.error .stage1TooLarge, s)
      else
        match stage2Present s with
        | (false, t) => (.error .stage2Missing, t)
        | (true, t) =>
          match (Block.read 0 1 sectorSize fun _ _ s => s).run t with
          | (.error _, u) => (.error .io, u)
          | (.ok _, u) =>
            let mbr := u.disk.sectors 0
            if ¬ Signed mbr then (.error .badMbr, u)
            else if (List.range 6).map (fun i => withStage1 stage1 mbr (3 + i)) ≠ stage1Magic then
              (.error .stage2Missing, u)
            else
              let stage2Lba := lba + UInt32.ofNat bootAreaSector
              match (Block.write 0 1 sectorSize fun _ =>
                  installedMbr stage1 stage2Lba mbr).run u with
              | (.error _, v) => (.error .io, v)
              | (.ok _, v) => (.ok ⟨stage1.length, stage2Lba, stage2Sectors,
                  lba + UInt32.ofNat kernelBlobSector⟩, v)

/-! ## What they do -/

variable {s t : Fs} {mbr mbr' : ℕ → UInt8} {stage1 : List UInt8}

theorem readSector_post (lba : UInt32) :
    Prog.Post (Block.read lba 1 sectorSize fun _ _ s => s) s
      (fun _ t => ∃ τ, t = s.withDisk (s.disk.atTime τ))
      fun _ t => ∃ τ, t = s.withDisk (s.disk.atTime τ) := by
  have hstore : ∀ n, Block.storeRange (fun _ _ s => s) lba.toNat s n = s := fun n => by
    induction n with
    | zero => rfl
    | succ n ih => exact ih
  refine (Block.read_post (by decide) (Nat.le_refl _) fun _ _ _ _ => rfl).mono
    (fun _ t ht => ?_) fun _ t ht => ?_
  · obtain ⟨⟨τ, rfl⟩, -⟩ := ht
    exact ⟨τ, by rw [hstore]⟩
  · obtain ⟨⟨k, -, τ, rfl⟩, -⟩ := ht
    exact ⟨τ, by rw [hstore]⟩

theorem scan_cases (s : Fs) : (scan s).1 = [] ∨ (∃ τ, scan s =
    (table (s.disk.sectors 0), { s.withDisk (s.disk.atTime τ) with
      partition := (table (s.disk.sectors 0)).foldl noteTcmkfs s.partition })) := by
  rw [scan]
  split
  · exact .inl rfl
  have hread := @readSector_post s 0
  cases hrun : (Block.read 0 1 sectorSize fun _ _ s => s).run s with
  | mk r t =>
    cases r with
    | error e => exact .inl rfl
    | ok _ =>
      obtain ⟨τ, rfl⟩ := hread.of_ok hrun
      exact .inr ⟨τ, rfl⟩

/-! ### Installing -/

/-- The table depends on the last 66 bytes of the sector. -/
theorem table_congr (h : ∀ b, partitionTableOffset ≤ b → b < sectorSize → mbr' b = mbr b) :
    table mbr' = table mbr := by
  simp only [partitionTableOffset, sectorSize] at h
  have hsigned : Signed mbr' ↔ Signed mbr := by
    rw [Signed, Signed, h 510 (by omega) (by omega), h 511 (by omega) (by omega)]
  simp only [table, hsigned]
  refine if_congr Iff.rfl (List.filterMap_congr fun i hi => ?_) rfl
  have hi := List.mem_range.1 hi
  simp only [maxPartitions] at hi
  have hnumber : ∀ k, k + 4 ≤ 16 → u32At mbr' (446 + i * 16 + k) = u32At mbr (446 + i * 16 + k) :=
    fun k hk => u32At_congr fun j hj => h _ (by omega) (by omega)
  simp only [partitionAt, h _ (show 446 ≤ 446 + i * 16 + 4 by omega) (by omega),
    h _ (show 446 ≤ 446 + i * 16 by omega) (by omega), hnumber 8 (by omega), hnumber 12 (by omega)]

theorem installedMbr_table (hlen : stage1.length ≤ partitionTableOffset) (lba : UInt32) {b : ℕ}
    (hb : partitionTableOffset ≤ b) : installedMbr stage1 lba mbr b = mbr b := by
  simp only [partitionTableOffset] at hlen hb
  rw [installedMbr, if_neg (by omega), if_neg (by omega), withStage1, if_neg (by omega),
    if_neg (by simp only [partitionTableOffset]; omega)]

/-- The installer has written its boot sector over the old one, having found stage 2 in its
place. -/
structure Installed (stage1 : List UInt8) (s t : Fs) (lba : UInt32) : Prop where
  short : stage1.length ≤ partitionTableOffset
  signed : Signed (s.disk.sectors 0)
  sectors : t.disk.sectors = Function.update s.disk.sectors 0
    (installedMbr stage1 (lba + UInt32.ofNat bootAreaSector) (s.disk.sectors 0))

/-- What the installer can come to: the disk is as it was or has the new boot sector, and has the
new one if the installer succeeds. -/
structure Outcome (stage1 : List UInt8) (s : Fs) (p : Except InstallError Report × Fs) : Prop where
  disk : p.2.disk.sectors = s.disk.sectors ∨
    ∃ lba sectors, s.partition = some (lba, sectors) ∧ Installed stage1 s p.2 lba
  ok : ∀ r, p.1 = .ok r → ∃ lba sectors, s.partition = some (lba, sectors) ∧
    Installed stage1 s p.2 lba

theorem Outcome.refused {e : InstallError} (h : t.disk.sectors = s.disk.sectors) :
    Outcome stage1 s (.error e, t) := ⟨.inl h, fun _ hr => by cases hr⟩

theorem Outcome.written {r : Except InstallError Report} {lba sectors : UInt32}
    (hpartition : s.partition = some (lba, sectors)) (h : Installed stage1 s t lba) :
    Outcome stage1 s (r, t) :=
  ⟨.inr ⟨lba, sectors, hpartition, h⟩, fun _ _ => ⟨lba, sectors, hpartition, h⟩⟩

theorem stage2Present_sectors (s : Fs) : (stage2Present s).2.disk.sectors = s.disk.sectors := by
  rw [stage2Present]
  split
  · rfl
  rename_i lba _ _
  have hread := @readSector_post s (lba + UInt32.ofNat bootAreaSector)
  split
  · rename_i t hrun
    obtain ⟨τ, rfl⟩ := hread.of_error hrun
    rfl
  · rename_i t hrun
    obtain ⟨τ, rfl⟩ := hread.of_ok hrun
    rfl

theorem install_outcome (stage1 : List UInt8) (s : Fs) : Outcome stage1 s (install stage1 s) := by
  rw [install]
  split
  · exact .refused rfl
  split
  · exact .refused rfl
  rename_i lba sectors hpartition
  split
  · exact .refused rfl
  rename_i hlen
  have hpresent := stage2Present_sectors s
  split
  · rename_i t ht
    rw [ht] at hpresent
    exact .refused hpresent
  rename_i t ht
  rw [ht] at hpresent
  have hread := @readSector_post t 0
  split
  · rename_i u hu
    obtain ⟨τ, rfl⟩ := hread.of_error hu
    exact .refused hpresent
  rename_i u hu
  obtain ⟨τ, rfl⟩ := hread.of_ok hu
  dsimp only
  split
  · exact .refused hpresent
  rename_i hsigned
  have hsigned : Signed (t.disk.sectors 0) := not_not.1 hsigned
  split
  · exact .refused hpresent
  -- One sector: it has been written, or the device failed before.
  have hwrite := @Block.write_post (t.withDisk (t.disk.atTime τ)) 0 1 sectorSize
    (fun _ => installedMbr stage1 (lba + UInt32.ofNat bootAreaSector) (t.disk.sectors 0))
    (by decide) (by decide) fun _ => rfl
  have hinstalled : ∀ τ', Installed stage1 s (t.withDisk ((t.disk.putRange (0 : UInt32).toNat
      (installedMbr stage1 (lba + UInt32.ofNat bootAreaSector) (t.disk.sectors 0)) 1).atTime τ'))
      lba := fun τ' => ⟨Nat.le_of_not_lt hlen, hpresent ▸ hsigned, by
    rw [← hpresent]
    simp only [Disk.putRange, Disk.put, Fs.withDisk_disk, Disk.atTime_sectors]
    congr 1
    funext b
    rw [Nat.zero_mul, Nat.zero_add]⟩
  split
  · rename_i v hv
    obtain ⟨k, hk, ⟨τ', rfl⟩, -⟩ := hwrite.of_error hv
    rcases Nat.le_one_iff_eq_zero_or_eq_one.1 hk with rfl | rfl
    · exact .refused hpresent
    · exact .written hpartition (hinstalled τ')
  · rename_i v hv
    obtain ⟨⟨τ', rfl⟩, -⟩ := hwrite.of_ok hv
    exact .written hpartition (hinstalled τ')

/-- **Installing keeps the partitions.** Whatever is on the disk, whatever the device does and
whatever the installer returns, the disk differs in the boot sector's first 446 bytes at most, so
the next scan finds the same partitions. -/
theorem install_table (stage1 : List UInt8) (s : Fs) :
    (∀ lba b, (lba ≠ 0 ∨ partitionTableOffset ≤ b) →
      (install stage1 s).2.disk.sectors lba b = s.disk.sectors lba b) ∧
    table ((install stage1 s).2.disk.sectors 0) = table (s.disk.sectors 0) := by
  have hkept : ∀ lba b, (lba ≠ 0 ∨ partitionTableOffset ≤ b) →
      (install stage1 s).2.disk.sectors lba b = s.disk.sectors lba b := by
    intro lba b hb
    rcases (install_outcome stage1 s).disk with hsame | ⟨_, _, _, h⟩
    · rw [hsame]
    · rw [h.sectors]
      by_cases hlba : lba = 0
      · subst hlba
        rw [Function.update_self, installedMbr_table h.short _ (hb.resolve_left fun h => h rfl)]
      · rw [Function.update_of_ne hlba]
  exact ⟨hkept, table_congr fun b hb _ => hkept 0 b (.inr hb)⟩

end Tcmk.Boot
