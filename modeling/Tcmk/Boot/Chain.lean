import Tcmk.Fs.Confinement
import Tcmk.Boot.Partition
import Tcmk.Boot.Stages

/-!
# From the kernel's ELF file to the running kernel

The script makes a disk, the kernel finds its partition there, formats it, uses it and installs
stage 1; after that the disk starts the kernel by itself. `boot_chain` says that the memory is then
what the ELF file describes, whatever calls of the file system came in between: they stay out of
the boot area (`Fs.volume_subset`), and the installer stays out of everything but the boot sector.

One thing is not as described. Stage 2 clears the memory behind the block in units of four bytes,
so up to three bytes at the end of `.bss` are what they were, unless the block's last sector
reaches over them (`Uncleared`).
-/

namespace Tcmk.Boot

open Lib

variable {iso stage1 stage2 kernel patched : List UInt8} {dataMib slot : ℕ} {f : DiskFile}
  {blob : Blob} {s t : Fs} {disk : Sectors} {mem : Memory}
  {a : ℕ}

/-! ## The partition is found -/

/-- The partition table of the ISO image has no entry of TCMKFS's type. -/
def Foreign (iso : List UInt8) : Prop :=
  ∀ i < maxPartitions, iso.getD (entryAt i + 4) 0 ≠ UInt8.ofNat typeTcmkfs

instance (iso : List UInt8) : Decidable (Foreign iso) :=
  inferInstanceAs (Decidable (∀ i < maxPartitions, _ ≠ _))

/-- Only one partition of a table is TCMKFS's. -/
theorem foldl_noteTcmkfs {ps : List Partition} {p : Partition} (hp : p ∈ ps)
    (hkind : p.kind = UInt8.ofNat typeTcmkfs) (hstart : p.startLba ≠ 0)
    (honly : ∀ q ∈ ps, q.kind = UInt8.ofNat typeTcmkfs → q = p)
    (found : Option (UInt32 × UInt32)) :
    ps.foldl noteTcmkfs found = some (p.startLba, p.sectors) := by
  have hnote : ∀ found, noteTcmkfs found p = some (p.startLba, p.sectors) := fun found => by
    rw [noteTcmkfs, if_pos hkind, if_neg hstart]
  -- Once the partition has been noted, the others leave it.
  have hkept : ∀ qs : List Partition, (∀ q ∈ qs, q.kind = UInt8.ofNat typeTcmkfs → q = p) →
      qs.foldl noteTcmkfs (some (p.startLba, p.sectors)) = some (p.startLba, p.sectors) := by
    intro qs hqs
    induction qs with
    | nil => rfl
    | cons q qs ih =>
      rw [List.forall_mem_cons] at hqs
      rw [List.foldl_cons]
      by_cases hq : q.kind = UInt8.ofNat typeTcmkfs
      · rw [hqs.1 hq, hnote]
        exact ih hqs.2
      · rw [noteTcmkfs, if_neg hq]
        exact ih hqs.2
  induction ps generalizing found with
  | nil => exact absurd hp List.not_mem_nil
  | cons q qs ih =>
    have honly' := List.forall_mem_cons.1 honly
    rw [List.foldl_cons]
    by_cases hq : q = p
    · rw [hq, hnote]
      exact hkept qs honly'.2
    · exact ih ((List.mem_cons.1 hp).resolve_left fun h => hq h.symm) honly'.2 _

/-- A number that has been written byte by byte. -/
theorem u32At_of_leByte {mem : ℕ → UInt8} {off x : ℕ} (hx : x < 2 ^ 32)
    (h : ∀ k < 4, mem (off + k) = leByte x k) : u32At mem off = UInt32.ofNat x := by
  rw [u32At, leNat_of_leByte x h]
  exact congrArg UInt32.ofNat (Nat.mod_eq_of_lt hx)

theorem entry_start {start sectors k : ℕ} (hk : k < 4) :
    (partitionEntry start sectors).getD (8 + k) 0 = leByte start k := by
  rcases k with _ | _ | _ | _ | k
  · rfl
  · rfl
  · rfl
  · rfl
  · omega

theorem entry_sectors {start sectors k : ℕ} (hk : k < 4) :
    (partitionEntry start sectors).getD (12 + k) 0 = leByte sectors k := by
  rcases k with _ | _ | _ | _ | k
  · rfl
  · rfl
  · rfl
  · rfl
  · omega

/-- The table of the script's image has the new partition, and no other of its type. -/
theorem Built.scanned (h : Built iso dataMib stage2 kernel f blob patched slot) (hiso : Foreign iso)
    (hmib : 0 < dataMib) (found : Option (UInt32 × UInt32)) :
    (table (f.sectors 0)).foldl noteTcmkfs found =
      some (UInt32.ofNat (partStart iso.length), UInt32.ofNat (partSectors dataMib)) := by
  have hsector : ∀ b, f.sectors 0 b = f.bytes b := fun b => by
    rw [DiskFile.sectors, Nat.zero_mul, Nat.zero_add]
  have hslot := h.slot_lt
  have hlong := h.long
  have hstart := le_partStart iso.length
  simp only [sectorSize] at hstart
  -- The entry's bytes, counted from its start.
  have hbyte : ∀ k < 16, f.sectors 0 (446 + slot * 16 + k) =
      (partitionEntry (partStart iso.length) (partSectors dataMib)).getD k 0 := fun k hk => by
    rw [hsector]
    exact h.entry k hk
  have hkind : f.sectors 0 (446 + slot * 16 + 4) = UInt8.ofNat typeTcmkfs := hbyte 4 (by decide)
  have hlba : u32At (f.sectors 0) (446 + slot * 16 + 8) = UInt32.ofNat (partStart iso.length) := by
    refine u32At_of_leByte h.small.1 fun k hk => ?_
    rw [Nat.add_assoc, hbyte _ (by omega)]
    exact entry_start hk
  have hcount : u32At (f.sectors 0) (446 + slot * 16 + 12) =
      UInt32.ofNat (partSectors dataMib) := by
    refine u32At_of_leByte h.small.2 fun k hk => ?_
    rw [Nat.add_assoc, hbyte _ (by omega)]
    exact entry_sectors hk
  have hnonzero : ∀ n, n < 2 ^ 32 → n ≠ 0 → UInt32.ofNat n ≠ 0 := fun n hn hne heq => by
    have := congrArg UInt32.toNat heq
    rw [UInt32.toNat_ofNat_of_lt' hn] at this
    exact hne this
  have hsectors : partSectors dataMib ≠ 0 := by
    simp only [partSectors, sectorSize]
    omega
  set p : Partition := ⟨slot, UInt8.ofNat typeTcmkfs, f.sectors 0 (446 + slot * 16) == 0x80,
    UInt32.ofNat (partStart iso.length), UInt32.ofNat (partSectors dataMib)⟩ with hp
  have hat : partitionAt (f.sectors 0) slot = some p := by
    simp only [partitionAt, hkind, hlba, hcount]
    rw [if_neg (by decide), if_neg (hnonzero _ h.small.2 hsectors)]
  have hsigned : Signed (f.sectors 0) := by
    rw [Signed, hsector, hsector]
    exact h.signature
  have honly : ∀ i < maxPartitions, ∀ q, partitionAt (f.sectors 0) i = some q →
      q.kind = UInt8.ofNat typeTcmkfs → q = p := fun i hi q hq hqkind => by
    by_cases hislot : i = slot
    · rw [hislot, hat] at hq
      exact (Option.some.inj hq).symm
    · -- The entries of the ISO image are as they were.
      have hold : f.sectors 0 (446 + i * 16 + 4) = iso.getD (entryAt i + 4) 0 := by
        simp only [maxPartitions] at hi
        rw [hsector]
        refine h.mbr _ (by omega) ?_
        simp only [entryAt, partitionTableOffset, entrySize]
        omega
      simp only [partitionAt] at hq
      split at hq
      · cases hq
      split at hq
      · cases hq
      cases hq
      exact absurd (hold ▸ hqkind) (hiso i hi)
  have hmem : p ∈ table (f.sectors 0) := by
    rw [table, if_pos hsigned, List.mem_filterMap]
    exact ⟨slot, List.mem_range.2 hslot, hat⟩
  rw [foldl_noteTcmkfs hmem rfl ?_ fun q hq hqkind => ?_]
  · exact hnonzero _ h.small.1 (by omega)
  · rw [table, if_pos hsigned, List.mem_filterMap] at hq
    obtain ⟨i, hi, hq⟩ := hq
    exact honly i (List.mem_range.1 hi) q hq hqkind

/-! ## The stages -/

/-- Bytes of `.bss` that stage 2 leaves as they were. -/
def Uncleared (blob : Blob) (a : ℕ) : Prop :=
  blob.bssStart + 4 * ((blob.bssEnd - blob.bssStart) / 4) ≤ a ∧
    kernelBase + sectorsOf blob.bytes.length * sectorSize ≤ a

instance (blob : Blob) (a : ℕ) : Decidable (Uncleared blob a) := inferInstanceAs (Decidable (_ ∧ _))

/-- Four bytes are the least that stage 2 clears. -/
theorem Uncleared.last (h : Uncleared blob a) : blob.bssEnd ≤ a + 3 := by
  have := h.1
  omega

/-- The disk has a partition that the driver can address, with the boot area that the script made
for it. -/
structure Ready (iso stage2 kernel patched : List UInt8) (dataMib slot : ℕ) (f : DiskFile)
    (blob : Blob) (disk : Sectors) : Prop where
  image : Built iso dataMib stage2 kernel f blob patched slot
  area : ∀ l, partStart iso.length + bootAreaSector ≤ l →
    l < partStart iso.length + dataStartSector →
    disk l = f.sectors l
  addressable : partStart iso.length + partSectors dataMib < 2 ^ 28
  full : dataStartSector ≤ partSectors dataMib

/-- The bytes of so many sectors of the boot area. -/
theorem Ready.bytes (h : Ready iso stage2 kernel patched dataMib slot f blob disk) {lba k : ℕ}
    (hlba : partStart iso.length + bootAreaSector ≤ lba)
    (hk : lba + k / sectorSize < partStart iso.length + dataStartSector) :
    disk (lba + k / sectorSize) (k % sectorSize) = f.bytes (lba * sectorSize + k) := by
  rw [h.area _ (hlba.trans (Nat.le_add_right ..)) hk, DiskFile.sectors, Nat.add_mul, Nat.add_assoc,
    Nat.div_add_mod']

/-- Stage 1 loads the patched stage 2. -/
theorem Ready.stage1_loads (h : Ready iso stage2 kernel patched dataMib slot f blob disk)
    {firmware : Firmware} {old : ℕ → UInt8}
    (hboot : ∀ b < sectorSize, mem (stage1Base + b) = installedMbr stage1
      (UInt32.ofNat (partStart iso.length) + UInt32.ofNat bootAreaSector) old b)
    (hfirmware : firmware (partStart iso.length + bootAreaSector) stage2Sectors =
      some fun k =>
        disk (partStart iso.length + bootAreaSector + k / sectorSize) (k % sectorSize)) :
    ∃ mem₁, stage1Run firmware mem = some mem₁ ∧
      (∀ i < patched.length, mem₁ (stage2Base + i) = patched.getD i 0) ∧
      ∀ a, kernelBase ≤ a → mem₁ a = mem a := by
  have haddr := h.addressable
  have hshort := h.image.short
  simp only [sectorSize, stage2Sectors] at hshort
  have hlba : (UInt32.ofNat (partStart iso.length) + UInt32.ofNat bootAreaSector).toNat =
      partStart iso.length + bootAreaSector := by
    have harea : (UInt32.ofNat bootAreaSector).toNat = 40 := rfl
    rw [UInt32.toNat_add, UInt32.toNat_ofNat_of_lt' h.image.small.1, harea,
      Nat.mod_eq_of_lt (by omega)]
    rfl
  have hparam : ∀ off n x, off + n ≤ 15 → (∀ k < n, installedMbr stage1
      (UInt32.ofNat (partStart iso.length) + UInt32.ofNat bootAreaSector) old (off + k) =
        leByte x k) → loadNat 32 mem (stage1Base + off) n = x % 256 ^ n := fun off n x hn hx => by
    refine leNat_of_leByte x fun k hk => ?_
    rw [← hx k hk, ← hboot _ (by simp only [sectorSize]; omega), Nat.zero_add, Nat.add_assoc]
    exact congrArg mem (Nat.mod_eq_of_lt (by simp only [stage1Base]; omega))
  have hstage2Lba : loadNat 32 mem (stage1Base + 9) 4 = partStart iso.length + bootAreaSector := by
    rw [hparam 9 4 _ (by decide) fun k hk => ?_, ← hlba]
    · exact Nat.mod_eq_of_lt (UInt32.toNat_lt _)
    · rw [installedMbr, if_pos (by omega), Nat.add_sub_cancel_left, u32Byte]
  have hcount : loadNat 32 mem (stage1Base + 13) 2 = stage2Sectors := by
    rw [hparam 13 2 stage2Sectors (by decide) fun k hk => ?_]
    · rfl
    · rw [installedMbr, if_neg (by omega), if_pos (by omega), Nat.add_sub_cancel_left]
  set bytes : ℕ → UInt8 := fun k =>
    disk (partStart iso.length + bootAreaSector + k / sectorSize) (k % sectorSize) with hbytes
  refine ⟨store 32 mem stage2Base (stage2Sectors * sectorSize) bytes, ?_, fun i hi => ?_,
    fun a ha => ?_⟩
  · rw [stage1Run, hstage2Lba, hcount, hfirmware]
    rfl
  · rw [store_of_interval (by decide) (by simp only [stage2Sectors, sectorSize]; omega), hbytes]
    simp only
    rw [h.bytes (Nat.le_refl _) (by simp only [bootAreaSector, sectorSize, dataStartSector]; omega)]
    exact h.image.stage2Byte i hi
  · refine store_of_not fun hin => ?_
    have := (touches_iff (by decide)).1 hin
    simp only [kernelBase, stage2Base, stage2Sectors, sectorSize] at ha this
    omega

/-- A parameter of stage 2 in memory. -/
theorem param_eq (hmem : ∀ i < patched.length, mem (stage2Base + i) = patched.getD i 0) {off : ℕ}
    (hoff : off + 4 ≤ patched.length) (hlong : patched.length ≤ stage2Sectors * sectorSize) :
    param mem off = UInt32.ofNat (field patched off) := by
  rw [param, loadNat, field]
  refine congrArg UInt32.ofNat (leNat_congr fun k hk => ?_)
  simp only [stage2Base, stage2Sectors, sectorSize] at hmem hlong ⊢
  rw [Nat.zero_add, Nat.mod_eq_of_lt (by omega), Nat.add_assoc]
  exact hmem _ (by omega)

theorem param_congr {mem' : Memory} {off : ℕ} (hoff : off ≤ 29)
    (hmem : ∀ a < kernelBase, mem' a = mem a) : param mem' off = param mem off := by
  rw [param, param, loadNat, loadNat]
  refine congrArg UInt32.ofNat (leNat_congr fun k hk => hmem _ ?_)
  refine Nat.lt_of_le_of_lt (Nat.mod_le _ _) ?_
  simp only [stage2Base, kernelBase]
  omega

/-- Stage 2 loads the kernel. -/
theorem Ready.stage2_loads (h : Ready iso stage2 kernel patched dataMib slot f blob disk)
    (hmem : ∀ i < patched.length, mem (stage2Base + i) = patched.getD i 0) {total : ℕ}
    (htotal : partStart iso.length + partSectors dataMib ≤ total) {segments : List Segment}
    (hlinked : Linked kernel segments)
    (hread : readElfSegments kernel = some (blob.entry, segments)) :
    ∃ mem₂, Stage2 ⟨disk, total⟩ mem mem₂ (UInt32.ofNat blob.entry) ∧
      ∀ a b, elfByte kernel segments a = some b →
        kernelBase ≤ a ∧ mem₂ a = if Uncleared blob a then mem a else b := by
  have himage := h.image
  have hroom := himage.room
  have haddr := h.addressable
  have hfull := h.full
  have hparams := himage.params
  have hlong := hparams.long
  have hvalue : ∀ off, off + 4 ≤ 33 → param mem off = UInt32.ofNat (field patched off) :=
    fun off hoff => param_eq hmem (hoff.trans hlong) himage.short
  obtain ⟨segments', hread', hblob⟩ := buildBlob_spec himage.built
  obtain rfl : segments' = segments := by
    rw [hread] at hread'
    exact (congrArg Prod.snd (Option.some.inj hread')).symm
  obtain ⟨hlength, hbase, helf⟩ := hblob hlinked
  have hrange := sectorsOf_le blob.bytes.length
  have hsmall : sectorsOf blob.bytes.length ≤ 4096 :=
    (Nat.le_add_left ..).trans hroom
  have htoNat : ∀ {off x}, off + 4 ≤ 33 → field patched off = x → x < 2 ^ 32 →
      (param mem off).toNat = x := fun hoff hx hlt => by
    rw [hvalue _ hoff, hx, UInt32.toNat_ofNat_of_lt' hlt]
  have hecx := htoNat (by decide) hparams.blobSectors hparams.fits.2.1
  have hesi := htoNat (by decide) hparams.blobLba hparams.fits.1
  have hedi := htoNat (by decide) hparams.loadAddr (by decide)
  have hend : partStart iso.length + kernelBlobSector + sectorsOf blob.bytes.length ≤
      partStart iso.length + partSectors dataMib := by
    rw [Nat.add_assoc]
    exact Nat.add_le_add_left (hroom.trans hfull) _
  obtain ⟨m, hends, hin, hout⟩ := @readLoop_ends ⟨disk, total⟩
    ⟨param mem 13, param mem 9, param mem 17, mem⟩ _ hecx (by rw [hesi]; exact hend.trans htotal)
    (by rw [hesi]; exact Nat.lt_of_le_of_lt hend haddr)
    (by rw [hedi]; simp only [kernelBase, sectorSize]; omega)
  simp only [hesi, hedi] at hin hout
  have hlow : ∀ a < kernelBase, m a = mem a := fun a ha =>
    hout a fun h => Nat.not_lt.2 h.1 ha
  have hafter : ∀ {off x}, off + 4 ≤ 33 → field patched off = x → param m off = UInt32.ofNat x :=
    fun hoff hx => by rw [param_congr (by omega) hlow, hvalue _ hoff, hx]
  refine ⟨clearBss m (param m 25) (param m 29), ⟨m, hends, rfl, ?_⟩, fun a b hab => ?_⟩
  · exact (hafter (by decide) hparams.kernelEntry).symm
  obtain ⟨ha, hlt, hbyte⟩ := helf a b hab
  refine ⟨ha, ?_⟩
  rw [hafter (by decide) hparams.clearFrom, hafter (by decide) hparams.clearTo, clearBss_eq,
    UInt32.toNat_ofNat_of_lt' hparams.fits.2.2.2.1, UInt32.toNat_ofNat_of_lt' hparams.fits.2.2.2.2]
  -- What the block's sectors hold at the address.
  have hloaded : a < kernelBase + sectorsOf blob.bytes.length * sectorSize → m a = b := by
    intro hmem
    have hk : a - kernelBase < sectorsOf blob.bytes.length * sectorSize := by omega
    have hread := hin (a - kernelBase) hk
    rw [Nat.add_sub_cancel' ha] at hread
    rw [hread, Drive.bytes]
    refine (h.bytes ?_ ?_).trans (by rw [himage.blobByte _ hk, hbyte])
    · exact Nat.add_le_add_left (Nat.le_add_right ..) _
    · have := Nat.div_lt_of_lt_mul (Nat.mul_comm _ sectorSize ▸ hk)
      rw [Nat.add_assoc]
      exact Nat.add_lt_add_left (Nat.lt_of_lt_of_le (Nat.add_lt_add_left this _) hroom) _
  by_cases hun : Uncleared blob a
  · rw [if_pos hun, if_neg fun h => Nat.not_lt.2 hun.1 h.2]
    exact hout a fun h => Nat.not_lt.2 hun.2 h.2
  · rw [if_neg hun]
    split
    · -- Behind the block the file says zero.
      rename_i hclear
      rw [← hbyte, List.getD_eq_default _ _ (by omega)]
    · rename_i hclear
      refine hloaded ?_
      by_contra hpast
      refine hun ⟨?_, not_lt.1 hpast⟩
      by_contra hlow
      refine hclear ⟨?_, not_le.1 hlow⟩
      omega

/-! ## The chain -/

/-- **The disk starts the kernel.** Let the script have made a disk of at least 2 MiB from an ISO
image without a TCMKFS partition and from a kernel whose segments do not overlap. The kernel scans
the disk, formats the partition it finds, makes any calls to the file system and installs stage 1.
Then the firmware, which loads the boot sector and serves stage 1's read, starts stage 1, stage 1
starts stage 2, and stage 2 jumps to the kernel's entry point with the memory that the ELF file
describes, but for at most three bytes at the end of `.bss` (`Uncleared.last`). -/
theorem boot_chain {arch : Arch} {total entry : ℕ} {segments : List Segment} {label : List UInt8}
    {s s₀ s₁ s₂ : Fs} {es : List FsEvent} {report : Report} {firmware : Firmware}
    (hbuild : build iso dataMib stage2 kernel = some f) (hiso : Foreign iso) (hmib : 2 ≤ dataMib)
    (haddressable : partStart iso.length + partSectors dataMib < 2 ^ 28)
    (hread : readElfSegments kernel = some (entry, segments)) (hlinked : Linked kernel segments)
    (hdisk : s.disk.sectors = f.sectors) (hscan : (scan s).1 ≠ [])
    (hsame : s₀.disk.sectors = (scan s).2.disk.sectors)
    (hpartition : s₀.partition = (scan s).2.partition)
    (hformat : (Fs.format label).run s₀ = (.ok (), s₁)) (hrun : Run (FsStep arch) s₁ es s₂)
    (hcalls : ∀ e ∈ es, e.call.WellTyped arch)
    (hinstall : (install stage1 s₂).1 = .ok report)
    (htotal : partStart iso.length + partSectors dataMib ≤ total)
    (hboot : ∀ b < sectorSize, mem (stage1Base + b) = (install stage1 s₂).2.disk.sectors 0 b)
    (hfirmware : ∀ lba count, lba + count ≤ total → firmware lba count = some fun k =>
      (install stage1 s₂).2.disk.sectors (lba + k / sectorSize) (k % sectorSize)) :
    ∃ blob mem₁ mem₂, buildBlob kernel = some blob ∧ stage1Run firmware mem = some mem₁ ∧
      Stage2 ⟨(install stage1 s₂).2.disk.sectors, total⟩ mem₁ mem₂ (UInt32.ofNat entry) ∧
      ∀ a b, elfByte kernel segments a = some b →
        mem₂ a = if Uncleared blob a then mem a else b := by
  obtain ⟨blob, patched, slot, himage⟩ := build_some hbuild
  have hsmall := himage.small
  -- What the scan finds.
  obtain ⟨τ, hfound⟩ := (scan_cases s).resolve_left hscan
  rw [hfound, hdisk, himage.scanned hiso (by omega)] at hpartition
  rw [hfound] at hsame
  have hsectors : s₀.disk.sectors = f.sectors := hsame.trans hdisk
  -- What the file system leaves.
  obtain ⟨lba, sectors, hpart, hkept, hlba, hblocks, hsettled, hwrites⟩ := Fs.format_settled hformat
  obtain ⟨rfl, rfl⟩ : lba = UInt32.ofNat (partStart iso.length) ∧
      sectors = UInt32.ofNat (partSectors dataMib) :=
    Prod.mk.inj (Option.some.inj (hpart.symm.trans hpartition))
  obtain ⟨-, hconfined⟩ := hsettled.run hcalls hrun
  have hfull : dataStartSector ≤ partSectors dataMib := by
    simp only [dataStartSector, partSectors, sectorSize]
    omega
  have hroom : bitmapSector + bitmapSectors ≤ (UInt32.ofNat (partSectors dataMib)).toNat := by
    rw [UInt32.toNat_ofNat_of_lt' hsmall.2]
    exact Nat.le_trans (by decide) hfull
  have harea : ∀ l, partStart iso.length + bootAreaSector ≤ l →
      l < partStart iso.length + dataStartSector → s₂.disk.sectors l = f.sectors l := by
    intro l hl hl'
    rw [(hwrites.trans hconfined.writes).sectors_of_notMem fun hmem => ?_, hsectors]
    refine (Fs.volume_subset hlba hblocks hroom hmem).2 ?_
    rw [UInt32.toNat_ofNat_of_lt' hsmall.1]
    simp only [bootAreaSector, bitmapSector, bitmapSectors, dataStartSector] at hl hl' ⊢
    omega
  -- What the installer leaves.
  obtain ⟨lba', sectors', hpart', hinstalled⟩ := (install_outcome stage1 s₂).ok report hinstall
  obtain ⟨rfl, rfl⟩ : lba' = UInt32.ofNat (partStart iso.length) ∧
      sectors' = UInt32.ofNat (partSectors dataMib) := by
    rw [hconfined.partition, hkept, hpartition] at hpart'
    obtain ⟨rfl, rfl⟩ := Prod.mk.inj (Option.some.inj hpart')
    exact ⟨rfl, rfl⟩
  have hready : Ready iso stage2 kernel patched dataMib slot f blob
      (install stage1 s₂).2.disk.sectors := by
    refine ⟨himage, fun l hl hl' => ?_, haddressable, hfull⟩
    have hpos : l ≠ 0 := by
      have := himage.long
      have := le_partStart iso.length
      simp only [sectorSize] at this
      omega
    rw [hinstalled.sectors, Function.update_of_ne hpos]
    exact harea l hl hl'
  have hsector : ∀ b < sectorSize, mem (stage1Base + b) = installedMbr stage1
      (UInt32.ofNat (partStart iso.length) + UInt32.ofNat bootAreaSector) (s₂.disk.sectors 0) b :=
    fun b hb => by rw [hboot b hb, hinstalled.sectors, Function.update_self]
  obtain ⟨mem₁, hstage1, hloaded, hhigh⟩ := hready.stage1_loads hsector
    (hfirmware _ _ (by simp only [bootAreaSector, stage2Sectors, dataStartSector] at *; omega))
  obtain ⟨segments', hread', -⟩ := buildBlob_spec himage.built
  obtain ⟨rfl, rfl⟩ : blob.entry = entry ∧ segments' = segments :=
    Prod.mk.inj (Option.some.inj (hread'.symm.trans hread))
  obtain ⟨mem₂, hstage2, hmem⟩ := hready.stage2_loads hloaded htotal hlinked hread
  refine ⟨blob, mem₁, mem₂, himage.built, hstage1, hstage2, fun a b hab => ?_⟩
  obtain ⟨hbase, hbyte⟩ := hmem a b hab
  rw [hbyte, hhigh a hbase]

/-! ### A small disk -/

/-- A boot sector without partitions. -/
def smallIso : List UInt8 := List.replicate 510 0 ++ [0x55, 0xAA]

def smallStage1 : List UInt8 := [0, 0, 0] ++ stage1Magic ++ List.replicate 6 0

def smallStage2 : List UInt8 := [0, 0, 0] ++ stage2Magic ++ List.replicate 24 0

/-- One segment at 1 MiB: four bytes of the file and two of `.bss`. -/
def smallKernel : List UInt8 :=
  [0x7F, 0x45, 0x4C, 0x46, 1] ++ List.replicate 19 0 ++ [4, 0, 0x10, 0, 52, 0, 0, 0] ++
    List.replicate 10 0 ++ [32, 0, 1, 0] ++ List.replicate 6 0 ++
    [1, 0, 0, 0, 84, 0, 0, 0, 0, 0, 0x10, 0, 0, 0, 0x10, 0, 4, 0, 0, 0, 6, 0, 0, 0] ++
    List.replicate 8 0 ++ [1, 2, 3, 4]

def smallDisk : DiskFile := (build smallIso 3 smallStage2 smallKernel).getD ⟨0, fun _ => 0⟩

theorem build_small : build smallIso 3 smallStage2 smallKernel = some smallDisk := by
  have hsome : (build smallIso 3 smallStage2 smallKernel).isSome = true := by decide +kernel
  obtain ⟨f, hf⟩ := Option.isSome_iff_exists.1 hsome
  rw [smallDisk, hf]
  rfl

/-- The kernel on this disk before the scan. -/
def smallFs : Fs :=
  { blankFs with
    disk := ⟨true, 8192, smallDisk.sectors, fun _ _ => none, 0, []⟩
    partition := none }

/-- The kernel after the scan and `format`. -/
def smallFormatted : Fs := ((Fs.format []).run (scan smallFs).2).2

def smallCalls : List FsCall := [.create [97], .write 3 0 [1, 2, 3]]

/-- The kernel after the calls. -/
def smallUsed : Fs := (execCalls .i386 smallCalls smallFormatted).2

def smallReport : Report := ⟨15, 2088, 32, 2120⟩

theorem small_scanned : (scan smallFs).1 ≠ [] := by decide +kernel

theorem small_formatted : (Fs.format []).run (scan smallFs).2 = (.ok (), smallFormatted) :=
  Prog.run_eq_of_fst (by decide +kernel)

theorem small_run : Run (FsStep .i386) smallFormatted
    (execCalls .i386 smallCalls smallFormatted).1 smallUsed :=
  run_execCalls (by decide +kernel)

theorem small_calls : ∀ e ∈ (execCalls .i386 smallCalls smallFormatted).1,
    e.call.WellTyped .i386 := by
  decide +kernel

theorem small_installed : (install smallStage1 smallUsed).1 = .ok smallReport := by decide +kernel

theorem small_segments : readElfSegments smallKernel =
    some (0x100004, [⟨84, 0x100000, 4, 6⟩]) := by
  decide +kernel

theorem small_linked : Linked smallKernel [⟨84, 0x100000, 4, 6⟩] := by
  refine ⟨fun s hs => ?_, fun s hs => ?_, List.pairwise_singleton _ _⟩
  · rw [List.mem_singleton.1 hs]
    decide
  · rw [List.mem_singleton.1 hs]
    decide

attribute [irreducible] smallDisk smallFormatted smallUsed

/-- The firmware that reads this disk. -/
def smallFirmware : Firmware := fun lba _ => some fun k =>
  (install smallStage1 smallUsed).2.disk.sectors (lba + k / sectorSize) (k % sectorSize)

/-- The memory with the boot sector in it. -/
def smallMemory : Memory := fun a =>
  (install smallStage1 smallUsed).2.disk.sectors 0 (a - stage1Base)

theorem smallMemory_boot (b : ℕ) : smallMemory (stage1Base + b) =
    (install smallStage1 smallUsed).2.disk.sectors 0 b := by
  rw [smallMemory, Nat.add_sub_cancel_left]

theorem boot_chain_small : ∃ blob mem₁ mem₂, buildBlob smallKernel = some blob ∧
    stage1Run smallFirmware smallMemory = some mem₁ ∧
    Stage2 ⟨(install smallStage1 smallUsed).2.disk.sectors, 8192⟩ mem₁ mem₂
      (UInt32.ofNat 0x100004) ∧
    ∀ a b, elfByte smallKernel [⟨84, 0x100000, 4, 6⟩] a = some b →
      mem₂ a = if Uncleared blob a then smallMemory a else b :=
  boot_chain build_small (by decide +kernel) (by decide) (by decide +kernel) small_segments
    small_linked (show smallFs.disk.sectors = smallDisk.sectors from rfl) small_scanned rfl rfl
    small_formatted small_run small_calls small_installed (by decide +kernel)
    (fun b _ => smallMemory_boot b) fun _ _ _ => rfl

end Tcmk.Boot
