import Tcmk.Fs.CrashWrite

/-!
# Mounting after a crash

`crash_consistent`: after any calls and any sector writes of one more call, unless the crash
point is `Exposed`, `mount` finds every block of a file marked and no block in two files.
-/

namespace Tcmk

open Lib

namespace Fs

variable {s t u : Fs} {D : Sectors} {G : ℕ → Sectors → Prop} {index : ℕ}

/-! ## All calls -/

/-- After `n` sector writes of a `write`, a block it has taken is in the inode on the disk and
not in the bitmap there: the data and the inode's sector are out, the block's bitmap sector is
not. -/
def ExposedWrite (s : Fs) (index offset length n : ℕ) : Prop :=
  ∃ b k, NewBlock s (blockCount (offset + length) - blockCount (s.inodes index).size.toNat) b ∧
    index / 2 < k ∧ k ≤ inodeTableSectors + b / (8 * sectorSize) ∧
    n = 8 * blocksTouched offset length + k

/-- The crash points at which the disk may have a file with an unmarked block. -/
def Exposed (s : Fs) : FsCall → ℕ → Prop
  | .write index offset data, n => ExposedWrite s index offset data.length n
  | .writeAll name data, n => ∃ index t m, (replaceFile name).run s = (.ok index, t) ∧
      ExposedWrite t index 0 data.length m ∧ n + s.disk.writes.length = t.disk.writes.length + m
  | _, _ => False

theorem replaceFile_crashes (hs : Synced s) (hG : Allows G s) (name : List UInt8) :
    Crashes G (replaceFile name) s := by
  unfold Crashes CrashesFrom
  rw [replaceFile]
  refine Prog.post_bind.2 (Prog.post_get.2 ?_)
  cases s.lookup name with
  | none => exact makeEntry_crashes hs hG _ _
  | some i =>
    exact (remove_crashes hs hG i).bind fun _ t hvol ht => makeEntry_crashes ht (hG.congr hvol) _ _

theorem Crashes.map {α β : Type} {x : FsProg α} {f : α → β} (h : Crashes G x s) :
    Crashes G (x >>= fun a => pure (f a)) s :=
  Prog.post_bind.2 (Prog.Post.mono h (fun _ _ ht => Prog.post_pure.2 ht) fun _ _ ht => ht)

/-- The property of the disk at the crash points of a call: it is good unless exposed. -/
def Guarded (s : Fs) (call : FsCall) (n : ℕ) (D : Sectors) : Prop :=
  ∀ m, n = s.disk.writes.length + m → ¬ Exposed s call m → Good s D

theorem allows_guarded (s : Fs) (call : FsCall) : Allows (Guarded s call) s :=
  fun _ _ hD _ _ _ => hD

theorem writeAll_crashes (arch : Arch) {name data : List UInt8} (hs : Synced s)
    (hlen : arch.IsSliceLen data.length) :
    Crashes (Guarded s (.writeAll name data)) (writeAll arch name data) s := by
  have hG := allows_guarded s (.writeAll name data)
  refine Prog.post_bind.2 (((replaceFile_crashes hs hG name).and Prog.post_run).mono
    (fun i t ⟨⟨hwent, ht⟩, hrun⟩ => ?_) fun _ _ h => h.1)
  refine Crashes.since (write_crashes arch ht (Nat.two_pow_pos _) hlen (hG.congr hwent.volume)
    fun k b D hb hlt hle => ?_) hwent
  intro m hm hnot
  refine absurd ⟨i, t, _, hrun, ⟨b, k, ?_, hlt, hle, rfl⟩, ?_⟩ hnot
  · exact hb
  · omega

/-- The crash points of a call. -/
theorem exec_crashes (arch : Arch) {call : FsCall} (hs : Synced s) (hw : call.WellTyped arch) :
    Crashes (Guarded s call) (call.exec arch) s := by
  have hG := allows_guarded s call
  cases call with
  | create path => exact (makeEntry_crashes hs hG _ _).map
  | mkdir path => exact (makeEntry_crashes hs hG _ _).map
  | rmdir path => exact (rmdir_crashes hs hG _).map
  | remove index => exact (remove_crashes hs hG _).map
  | read index offset room => exact (read_crashes hs hG _ _ _).map
  | write index offset data =>
    refine (write_crashes arch hs hw.1 hw.2 hG fun k b D hb hlt hle m hm hnot => ?_).map
    exact absurd ⟨b, k, hb, hlt, hle, by omega⟩ hnot
  | writeAll name data => exact (writeAll_crashes arch hs hw).map
  | sync => exact (sync_crashes hs hG).map

theorem Synced.withTime (hs : Synced s) (time : UInt32) : Synced { s with unixTime := time } :=
  ⟨⟨hs.attached.placed, hs.attached.partition, hs.attached.super, hs.attached.inodes,
    hs.attached.bitmap⟩, hs.books.congr rfl rfl rfl fun _ _ => rfl, hs.down, hs.up,
    hs.good.congr rfl rfl⟩

/-- A call that returns, no transfer of it having failed, leaves disk and memory in agreement. -/
theorem synced_step {arch : Arch} {e : FsEvent} (hs : Synced s) (hw : e.call.WellTyped arch)
    (hio : s.disk.Faulty → e.reply ≠ .error (.err .io)) (hstep : FsStep arch s e t) :
    Synced t ∧ SameVolume s t := by
  have h := exec_crashes arch (hs.withTime e.unixTime) hw
  obtain ⟨hpanic, hrun⟩ := hstep
  cases hr : e.reply with
  | ok r =>
    rw [hr] at hrun
    obtain ⟨hwent, ht⟩ := Prog.Post.of_ok h hrun
    exact ⟨ht, hwent.volume.partLba, hwent.volume.totalBlocks, hwent.volume.fault⟩
  | error stop =>
    rw [hr] at hrun hpanic hio
    obtain ⟨hwent, ht⟩ := Prog.Post.of_error h hrun
    refine ⟨ht ⟨fun heq => hpanic (heq ▸ rfl), fun heq hfault => hio hfault (heq ▸ rfl)⟩,
      hwent.volume.partLba, hwent.volume.totalBlocks, hwent.volume.fault⟩

theorem synced_run {arch : Arch} {es : List FsEvent} (hs : Synced s)
    (hrun : Run (FsStep arch) s es t) (hw : ∀ e ∈ es, e.call.WellTyped arch)
    (hio : s.disk.Faulty → ∀ e ∈ es, e.reply ≠ .error (.err .io)) : Synced t := by
  induction hrun with
  | nil s => exact hs
  | cons hstep _ ih =>
    obtain ⟨ht, hvol⟩ := synced_step hs (hw _ (List.mem_cons_self ..))
      (fun hf => hio hf _ (List.mem_cons_self ..)) hstep
    exact ih ht (fun e he => hw e (List.mem_cons_of_mem _ he))
      fun hf e he => hio (hvol.faulty.1 hf) e (List.mem_cons_of_mem _ he)

/-! ## Formatting -/

/-- With no file in memory or on the disk there is nothing to be wrong. -/
theorem Synced.of_empty (hattached : Attached s) (hbooks : Books s s.live False)
    (hlive : s.live = ∅) (hsuper : SuperOk s s.disk.sectors)
    (hdown : FilesSub s (s.onDisk s.disk.sectors)) : Synced s := by
  have hnone : ∀ a, a ∉ (s.onDisk s.disk.sectors).live := fun a ha => by
    have hmem := (hdown a ha).1
    rw [hlive] at hmem
    exact hmem
  refine ⟨hattached, hbooks, hdown, fun a ha => ?_, hsuper, fun a ha => absurd ha (hnone a),
    fun a ha => absurd ha (hnone a), fun a ha => absurd ha (hnone a), fun a ha =>
    absurd ha (hnone a)⟩
  rw [hlive] at ha
  exact absurd ha id

theorem live_cleared (lba total : UInt32) : (s.cleared lba total).live = ∅ :=
  Set.eq_empty_of_forall_notMem fun _ ⟨hi, hkind, _⟩ => cleared_kind hi hkind

/-- The superblock can be written only where the device can address the partition. -/
theorem flushes_placed (sb : SuperBlock) :
    Prog.Post (flushInodes >>= fun _ => flushBitmap >>= fun _ => writeSuper sb) s
      (fun _ _ => Placed s) fun _ _ => True := by
  refine Prog.post_bind.2 ((keepsTables_flushInodes (s := s)).mono (fun _ t ht => ?_)
    fun _ _ _ => trivial)
  refine Prog.post_bind.2 ((keepsTables_flushBitmap (s := t)).mono (fun _ u hu => ?_)
    fun _ _ _ => trivial)
  refine (writeSuper_post sb).mono (fun _ v ⟨hin, _⟩ => ?_) fun _ _ _ => trivial
  rw [hu.partLba, ht.partLba] at hin
  exact hin.2.2

/-- The three flushes of `format` bring its empty tables to the disk. -/
theorem format_flushes {s : Fs} {sectors : UInt32} {sb : SuperBlock} (hlive : s.live = ∅)
    (hbooks : Books s s.live False) (hpart : s.partition = some (s.partLba, sectors))
    (htotal : s.totalBlocks = capacityBlocks sectors) (hmagic : sb.magic = magic)
    (hversion : sb.version = version) (hsb : sb.totalBlocks = s.totalBlocks) :
    Prog.Post (flushInodes >>= fun _ => flushBitmap >>= fun _ => writeSuper sb) s
      (fun _ t => Synced t) fun _ _ => True := by
  by_cases hplaced : Placed s
  · refine Prog.post_bind.2 ((flushInodes_post hplaced).mono (fun _ t ⟨hin, τ, ht⟩ => ?_)
      fun _ _ _ => trivial)
    have hflushed := inodesFlushed (fun a ha => (hbooks.slot a ha).2) s.disk τ
    generalize Disk.atTime _ τ = d at ht hflushed
    subst ht
    refine Prog.post_bind.2 ((@flushBitmap_post (s.withDisk d) hplaced).mono
      (fun _ t ⟨hin', τ', ht⟩ => ?_) fun _ _ _ => trivial)
    have hflushed' := bitmapFlushed s d τ'
    rw [withDisk_disk, withDisk_bitmap, withDisk_partLba, withDisk_withDisk] at ht
    generalize Disk.atTime _ τ' = d' at ht hflushed'
    subst ht
    refine (writeSuper_post sb).mono (fun _ t ⟨hin'', τ'', ht⟩ => ?_) fun _ _ _ => trivial
    have hsuper := @super_writeSuper s d' sb hmagic hversion hsb
    have hsame := onDisk_writeSuper s d' sb 1 (Nat.le_refl _)
    have hdevice : Disk.SameDevice d' ((d'.putRange s.partLba.toNat sb.byte 1).atTime τ'') :=
      ⟨by simp, by simp, by simp⟩
    rw [← Disk.atTime_sectors _ τ''] at hsuper hsame
    rw [withDisk_disk, withDisk_partLba, withDisk_withDisk] at ht
    generalize Disk.atTime _ τ'' = d'' at ht hsuper hsame hdevice
    subst ht
    have hattached : Attached (s.withDisk d'') := ⟨hplaced, ⟨sectors, hpart, htotal⟩,
      hdevice.inRange hin'', (hflushed.device.trans (hflushed'.device.trans hdevice)).inRange hin,
      (hflushed'.device.trans hdevice).inRange hin'⟩
    refine .of_empty hattached (hbooks.congr rfl rfl rfl fun _ _ => rfl) hlive hsuper ?_
    have hdown : FilesSub s (s.onDisk d''.sectors) := by
      rw [hsame]
      exact hflushed.down.trans hflushed'.down
    exact hdown
  · exact (flushes_placed sb).mono (fun _ _ h => absurd h hplaced) fun _ _ _ => trivial

theorem format_synced {label : List UInt8} (h : (format label).run s = (.ok (), t)) :
    Synced t := by
  refine Prog.Post.of_ok (x := format label) (Q := fun _ t => Synced t)
    (E := fun _ _ => True) ?_ h
  rw [format]
  refine Prog.post_bind.2 (Prog.post_get.2 ?_)
  cases hpart : s.partition with
  | none => trivial
  | some p =>
    obtain ⟨lba, sectors⟩ := p
    simp only
    split
    · trivial
    refine Prog.post_bind.2 (Prog.post_modify.2 ?_)
    have hflushes := @format_flushes (s.cleared lba (capacityBlocks sectors)) sectors {
        magic := magic, version := version, totalBlocks := capacityBlocks sectors
        freeBlocks := capacityBlocks sectors, inodeCount := UInt32.ofNat maxInodes
        fileCount := 0, blockSize := UInt32.ofNat Tcmk.blockSize
        dataStart := UInt32.ofNat dataStartSector, label := fun j => (label.take 15).getD j 0 }
      (live_cleared _ _) ((books_cleared (capacityBlocks_le sectors)).weaken False.elim) hpart rfl
      rfl rfl rfl
    have hG : ∀ {u}, Allows (fun _ _ => True) u := fun _ _ _ => trivial
    simp only [Prog.post_bind, Prog.post_modify, Prog.post_pure] at hflushes ⊢
    refine hflushes.mono (fun _ u hu => hu.mono (fun _ v hv => hv.mono (fun _ w hw => ?_)
      fun _ _ h => h) fun _ _ h => h) fun _ _ h => h
    have hmounted : Synced { w with mounted := true } :=
      ⟨⟨hw.attached.placed, hw.attached.partition, hw.attached.super, hw.attached.inodes,
        hw.attached.bitmap⟩, hw.books.congr rfl rfl rfl fun _ _ => rfl, hw.down, hw.up,
        hw.good.congr rfl rfl⟩
    refine (makeEntry_crashes hmounted hG _ _).mono (fun _ x hx => ?_) fun _ _ _ => trivial
    exact (makeEntry_crashes hx.2 hG _ _).mono (fun _ _ hy => hy.2) fun _ _ _ => trivial

/-! ## Mounting -/

theorem storeRange_inodes (chunk lba n : ℕ) :
    Block.storeRange (fun sector bytes s =>
        { s with inodes := storeInodes s.inodes (chunk * 8 + sector) bytes }) lba s n =
      { s with inodes := fun i =>
        if chunk * 8 ≤ i / 2 ∧ i / 2 < chunk * 8 + n then
          Inode.ofBytes (s.disk.sectors (lba + (i / 2 - chunk * 8))) (i % 2 * inodeSize)
        else s.inodes i } := by
  induction n with
  | zero =>
    refine congrArg (fun inodes => ({ s with inodes := inodes } : Fs)) (funext fun i => ?_)
    rw [if_neg (by omega)]
  | succ n ih =>
    rw [Block.storeRange, ih]
    refine congrArg (fun inodes => ({ s with inodes := inodes } : Fs)) (funext fun i => ?_)
    simp only [storeInodes]
    by_cases hi : i / 2 = chunk * 8 + n
    · rw [if_pos hi, if_pos (by omega), hi, Nat.add_sub_cancel_left]
    · rw [if_neg hi]
      by_cases hlt : chunk * 8 ≤ i / 2 ∧ i / 2 < chunk * 8 + n
      · rw [if_pos hlt, if_pos (by omega)]
      · rw [if_neg hlt, if_neg (by omega)]

/-- The state after the first `n` sectors of the inode table have been loaded. -/
def loadedInodes (s : Fs) (n : ℕ) : Fs :=
  { s with inodes := fun i =>
      if i / 2 < n then (s.onDisk s.disk.sectors).inodes i else s.inodes i }

theorem loadInodes_post (h : Placed s) :
    Prog.Post loadInodes s
      (fun _ t => ∃ τ, t = (s.loadedInodes inodeTableSectors).withDisk (s.disk.atTime τ))
      fun stop _ => stop = .err .io ∧
        (s.disk.Faulty ∨ ¬ s.disk.InRange (s.partLba.toNat + 25) 8) := by
  have hzero : s = (s.loadedInodes (8 * 0)).withDisk (s.disk.atTime s.disk.time) := by
    simp only [loadedInodes, Nat.mul_zero, Nat.not_lt_zero, if_false]
    rfl
  refine (Prog.Post.forRange (I := fun n t => ∃ τ,
    t = (s.loadedInodes (8 * n)).withDisk (s.disk.atTime τ)) 4 ⟨s.disk.time, hzero⟩
    fun chunk t _ hi ht => ?_).mono (fun _ _ h => h) fun _ _ h => h
  obtain ⟨τ, rfl⟩ := ht
  simp only [Prog.post_bind, Prog.post_get]
  have hlba : (s.partLba + UInt32.ofNat inodeTableSector + UInt32.ofNat chunk * 8).toNat =
      s.partLba.toNat + inodeTableSector + 8 * chunk := by
    have := h
    simp only [Placed] at this
    rw [UInt32.toNat_add, h.toNat_add (by decide), UInt32.toNat_mul,
      UInt32.toNat_ofNat_of_lt' (by simp only [UInt32.size]; omega)]
    simp only [inodeTableSector, UInt32.reduceToNat]
    omega
  refine post_io.2 ((Block.read_post (by decide) (Nat.le_refl _) fun _ _ _ _ => rfl).mono
    (fun _ u hu => ?_) fun _ u hu => ⟨rfl, ?_⟩)
  · obtain ⟨⟨τ', rfl⟩, -⟩ := hu
    refine ⟨τ', ?_⟩
    rw [storeRange_inodes]
    have hinodes : (fun i => if chunk * 8 ≤ i / 2 ∧ i / 2 < chunk * 8 + 8 then
          Inode.ofBytes (s.disk.sectors ((s.partLba + UInt32.ofNat inodeTableSector +
            UInt32.ofNat chunk * 8).toNat + (i / 2 - chunk * 8))) (i % 2 * inodeSize)
        else (s.loadedInodes (8 * chunk)).inodes i) =
          (s.loadedInodes (8 * (chunk + 1))).inodes := by
      funext i
      rw [hlba]
      simp only [loadedInodes, onDisk]
      by_cases hin : chunk * 8 ≤ i / 2 ∧ i / 2 < chunk * 8 + 8
      · rw [if_pos hin, if_pos (by omega), show s.partLba.toNat + inodeTableSector + 8 * chunk +
          (i / 2 - chunk * 8) = s.partLba.toNat + inodeTableSector + i / 2 by omega]
      · rw [if_neg hin]
        by_cases hlt : i / 2 < 8 * chunk
        · rw [if_pos hlt, if_pos (by omega)]
        · rw [if_neg hlt, if_neg (by omega)]
    exact congrArg (fun inodes =>
      (({ s with inodes := inodes } : Fs).withDisk (s.disk.atTime τ'))) hinodes
  · rcases hu.2 with hfault | hout
    · exact .inl hfault
    · refine .inr ?_
      rintro ⟨hpresent, htotal, hlt⟩
      refine hout ⟨hpresent, ?_, ?_⟩
      · show (s.partLba + UInt32.ofNat inodeTableSector + UInt32.ofNat chunk * 8).toNat + 8 ≤
          s.disk.totalSectors.toNat
        rw [hlba]
        simp only [inodeTableSector]
        omega
      · show (s.partLba + UInt32.ofNat inodeTableSector + UInt32.ofNat chunk * 8).toNat < 2 ^ 28
        rw [hlba]
        simp only [inodeTableSector]
        omega

/-- The state after the first `n` sectors of the bitmap have been loaded. -/
def loadedBitmap (s : Fs) (n : ℕ) : Fs :=
  { s with bitmap := fun b =>
      if b / sectorSize < n then (s.onDisk s.disk.sectors).bitmap b else s.bitmap b }

theorem storeRange_bitmap (n : ℕ) :
    Block.storeRange (fun sector bytes s =>
        { s with bitmap := storeSector s.bitmap sector bytes })
      (s.partLba.toNat + bitmapSector) s n = s.loadedBitmap n := by
  induction n with
  | zero =>
    simp only [loadedBitmap, Nat.not_lt_zero, if_false]
    rfl
  | succ n ih =>
    rw [Block.storeRange, ih]
    refine congrArg (fun mem => ({ s with bitmap := mem } : Fs)) (funext fun b => ?_)
    simp only [storeSector, loadedBitmap, onDisk]
    by_cases hb : b / sectorSize = n
    · rw [if_pos hb, if_pos (by omega), hb]
    · rw [if_neg hb]
      by_cases hlt : b / sectorSize < n
      · rw [if_pos hlt, if_pos (by omega)]
      · rw [if_neg hlt, if_neg (by omega)]

theorem loadBitmap_post (h : Placed s) :
    Prog.Post loadBitmap s
      (fun _ t => ∃ τ, t = (s.loadedBitmap bitmapSectors).withDisk (s.disk.atTime τ))
      fun stop _ => stop = .err .io ∧ (s.disk.Faulty ∨
        ¬ s.disk.InRange (s.partLba.toNat + bitmapSector) bitmapSectors) := by
  unfold loadBitmap
  simp only [Prog.post_bind, Prog.post_get]
  have hlba := h.toNat_add (n := bitmapSector) (by decide)
  refine post_io.2 ((Block.read_post (by decide) (Nat.le_refl _) fun _ _ _ _ => rfl).mono
    (fun _ u hu => ?_) fun _ u hu => ⟨rfl, ?_⟩)
  · obtain ⟨⟨τ, rfl⟩, -⟩ := hu
    exact ⟨τ, by rw [hlba, storeRange_bitmap]⟩
  · rw [← hlba]
    exact hu.2

/-- The blocks of the files are marked, and no two slots name the same block. -/
def Intact (m : Fs) : Prop :=
  (∀ a ∈ m.live, a.2 < directBlocks ∧ m.pointer a < m.totalBlocks.toNat ∧
      bitGet m.bitmap (m.pointer a) = true) ∧
    (∀ a ∈ m.live, ∀ b ∈ m.live, m.pointer a = m.pointer b → a = b) ∧
    ∀ b, firstFree m.bitmap m.totalBlocks.toNat = some b → ∀ a ∈ m.live, m.pointer a ≠ b

theorem Good.intact (h : Good s D) {m : Fs} (htotal : m.totalBlocks = s.totalBlocks)
    (hinodes : ∀ i < maxInodes, m.inodes i = (s.onDisk D).inodes i)
    (hbits : ∀ b < maxBlocks, bitGet m.bitmap b = bitGet (s.onDisk D).bitmap b) : Intact m := by
  have hlive : ∀ a ∈ m.live, a ∈ (s.onDisk D).live ∧ m.pointer a = (s.onDisk D).pointer a :=
    fun a ha => by
      have heq := hinodes a.1 ha.1
      exact ⟨(mem_live_congr (by rw [heq]) (by rw [heq])).1 ha, by simp only [pointer, heq]⟩
  have hmarked : ∀ a ∈ m.live, bitGet m.bitmap (m.pointer a) = true := fun a ha => by
    obtain ⟨hmem, hptr⟩ := hlive a ha
    obtain ⟨hlt, hset⟩ := h.owns.used a hmem
    rw [hptr, hbits _ hlt]
    exact hset
  refine ⟨fun a ha => ⟨h.slot a (hlive a ha).1, ?_, hmarked a ha⟩, fun a ha b hb hab => ?_,
    fun b hb a ha heq => ?_⟩
  · rw [(hlive a ha).2, htotal]
    exact h.lt a (hlive a ha).1
  · rw [(hlive a ha).2, (hlive b hb).2] at hab
    exact h.owns.inj (hlive a ha).1 (hlive b hb).1 hab
  · have := hmarked a ha
    rw [heq, (firstFree_some hb).2] at this
    cases this

/-- The tables of `m` are those on the disk, which has the volume of `s`. -/
structure Loaded (s : Fs) (D : Sectors) (m : Fs) : Prop where
  inodes : ∀ i < maxInodes, m.inodes i = (s.onDisk D).inodes i
  bitmap : ∀ b < bitmapSectors * sectorSize, m.bitmap b = (s.onDisk D).bitmap b
  totalBlocks : m.totalBlocks = s.totalBlocks
  freeBlocks : m.freeBlocks = UInt32.ofNat (countFree m.bitmap m.totalBlocks.toNat)
  partLba : m.partLba = s.partLba
  sectors : m.disk.sectors = D
  mounted : m.mounted = true

theorem Loaded.bit {m : Fs} (h : Loaded s D m) {b : ℕ} (hb : b < maxBlocks) :
    bitGet m.bitmap b = bitGet (s.onDisk D).bitmap b := by
  simp only [bitGet]
  rw [h.bitmap (b / 8) (by
    simp only [maxBlocks, bitmapSectors, sectorSize] at hb ⊢
    omega)]

/-- The last part of `mount`. -/
theorem loadTables_post {total : UInt32} (hplaced : Placed s) (htotal : s.totalBlocks = total)
    (hinodes : s.disk.InRange (s.partLba.toNat + 25) 8)
    (hbitmap : s.disk.InRange (s.partLba.toNat + bitmapSector) bitmapSectors) :
    Prog.Post (loadInodes >>= fun _ => loadBitmap >>= fun _ => Prog.modify fun s => { s with
        freeBlocks := UInt32.ofNat (countFree s.bitmap total.toNat), mounted := true }) s
      (fun _ m => Loaded s s.disk.sectors m) fun stop _ => stop = .err .io ∧ s.disk.Faulty := by
  refine Prog.post_bind.2 ((loadInodes_post hplaced).mono (fun _ t ⟨τ, ht⟩ => ?_)
    fun _ _ ⟨he, hcause⟩ => ⟨he, hcause.resolve_right (not_not.2 hinodes)⟩)
  subst ht
  refine Prog.post_bind.2 ((@loadBitmap_post ((s.loadedInodes inodeTableSectors).withDisk
    (s.disk.atTime τ)) hplaced).mono (fun _ u ⟨τ', hu⟩ => ?_)
    fun _ _ ⟨he, hcause⟩ => ⟨he, hcause.resolve_right (not_not.2 hbitmap)⟩)
  subst hu
  refine Prog.post_modify.2 ⟨fun i hi => ?_, fun b hb => ?_, rfl, by rw [← htotal]; rfl, rfl, rfl,
    rfl⟩
  · show (if i / 2 < inodeTableSectors then _ else _) = _
    rw [if_pos (by
      simp only [maxInodes, inodeTableSectors] at hi ⊢
      omega)]
  · have hsector : b / sectorSize < bitmapSectors := Nat.div_lt_of_lt_mul (by
      rwa [Nat.mul_comm])
    show (if b / sectorSize < bitmapSectors then _ else _) = _
    rw [if_pos hsector]
    rfl

/-- Mounting a disk with a good superblock gives the tables on it, unless the device fails a
transfer. -/
theorem mount_loaded {b : Fs} (hs : Attached s) (hsb : SuperOk s b.disk.sectors)
    (hdevice : s.disk.present = b.disk.present ∧ s.disk.totalSectors = b.disk.totalSectors)
    (hpart : b.partition = s.partition) :
    Prog.Post mount b (fun _ m => Loaded s b.disk.sectors m)
      fun stop _ => stop = .err .io ∧ b.disk.Faulty := by
  obtain ⟨sectors, hpartition, htotal⟩ := hs.partition
  have hin : ∀ {lba count}, s.disk.InRange lba count → b.disk.InRange lba count :=
    fun hin => ⟨hdevice.1 ▸ hin.1, hdevice.2 ▸ hin.2.1, hin.2.2⟩
  have hsuper := hin hs.super
  have hinodes := hin hs.inodes
  have hbitmap := hin hs.bitmap
  rw [mount]
  refine Prog.post_bind.2 (Prog.post_get.2 ?_)
  rw [hpart, hpartition]
  simp only
  rw [if_neg (by rw [hsuper.1]; decide)]
  refine Prog.post_bind.2 (Prog.post_modify.2 ?_)
  refine Prog.post_bind.2 (readSuper_post.mono (fun sb t ⟨hread, τ, ht⟩ => ?_)
    fun _ _ ⟨he, _, hcause⟩ => ⟨he, hcause.resolve_right (not_not.2 hsuper)⟩)
  subst ht
  rw [hread, if_neg (not_not.2 hsb.1), if_neg (not_not.2 hsb.2.1)]
  have hmin : min (SuperBlock.ofBytes (b.disk.sectors s.partLba.toNat)).totalBlocks
      (capacityBlocks sectors) = s.totalBlocks := by
    rw [hsb.2.2, htotal]
    exact UInt32.toNat_inj.1 (by rw [UInt32.toNat_min, Nat.min_self])
  refine Prog.post_bind.2 (Prog.post_modify.2 ?_)
  refine Prog.Post.mono (loadTables_post ?_ rfl ?_ ?_) (fun _ m hm => ?_) fun _ _ h => h
  · exact hs.placed
  · exact hinodes
  · exact hbitmap
  · exact ⟨hm.inodes, hm.bitmap, hm.totalBlocks.trans hmin, hm.freeBlocks, hm.partLba, hm.sectors,
      hm.mounted⟩

/-- Mounting a good disk: the tables found are intact, unless the device fails a transfer. -/
theorem mount_post {b : Fs} (hs : Attached s) (hgood : Good s b.disk.sectors)
    (hdevice : s.disk.present = b.disk.present ∧ s.disk.totalSectors = b.disk.totalSectors)
    (hpart : b.partition = s.partition) :
    Prog.Post mount b (fun _ m => Intact m)
      fun stop _ => stop = .err .io ∧ b.disk.Faulty :=
  (mount_loaded hs hgood.super hdevice hpart).mono (fun _ _ hm =>
    hgood.intact hm.totalBlocks hm.inodes fun _ hb => hm.bit hb) fun _ _ h => h

/-! ## Crash consistency -/

/-- The disk after the first `n` sector writes of the call that leads from `s` to `t`. -/
def sectorsAfter (s t : Fs) (n : ℕ) : Sectors :=
  replay s.disk.sectors ((t.disk.writes.drop s.disk.writes.length).take n)

/-- This disk is good unless the crash point is exposed. -/
theorem good_sectorsAfter {arch : Arch} {call : FsCall} {reply : Except Stop FsReply} {n : ℕ}
    (hs : Synced s) (hw : call.WellTyped arch) (hcall : (call.exec arch).run s = (reply, t))
    (hn : s.disk.writes.length + n ≤ t.disk.writes.length) (hpoint : ¬ Exposed s call n) :
    Good s (sectorsAfter s t n) := by
  have hwent : Went (Guarded s call) s t := by
    have h := exec_crashes arch hs hw
    cases reply with
    | ok r => exact (Prog.Post.of_ok h hcall).1
    | error stop => exact (Prog.Post.of_error h hcall).1
  obtain ⟨ws, hwrites, -, hthrough⟩ := hwent.log
  rw [hwrites, List.length_append] at hn
  rw [sectorsAfter, hwrites, List.drop_left]
  exact hthrough n (by omega) n rfl hpoint

/-- **Crash consistency.** After a successful `format` and any calls, let the machine stop after
the first `n` sector writes of one more call, at a point that is not `Exposed`, and mount the
disk. Every block of a file is then marked in the bitmap, no block is in two files, and the next
block that would be allocated is in none. The mount succeeds unless the device fails one of its
transfers. A device that fails transfers may have done so only in the last call. -/
theorem crash_consistent {arch : Arch} {s₀ b : Fs} {label : List UInt8} {es : List FsEvent}
    {call : FsCall} {time : UInt32} {reply : Except Stop FsReply} {n : ℕ}
    (hformat : (format label).run s₀ = (.ok (), s)) (hrun : Run (FsStep arch) s es t)
    (htyped : ∀ e ∈ es, e.call.WellTyped arch)
    (hio : s.disk.Faulty → ∀ e ∈ es, e.reply ≠ .error (.err .io)) (hw : call.WellTyped arch)
    (hcall : (call.exec arch).run { t with unixTime := time } = (reply, u))
    (hn : t.disk.writes.length + n ≤ u.disk.writes.length)
    (hpoint : ¬ Exposed { t with unixTime := time } call n)
    (hdisk : b.disk.sectors = sectorsAfter t u n)
    (hdevice : t.disk.present = b.disk.present ∧ t.disk.totalSectors = b.disk.totalSectors)
    (hpart : b.partition = t.partition) :
    Prog.Post mount b (fun _ m => Intact m) fun stop _ => stop = .err .io ∧ b.disk.Faulty := by
  have ht := (synced_run (format_synced hformat) hrun htyped hio).withTime time
  have hgood := good_sectorsAfter ht hw hcall hn hpoint
  exact mount_post ht.attached (hdisk ▸ hgood) hdevice hpart

/-- A kernel with an empty file. -/
def emptyFileFs : Fs := (execCalls .i386 [.create [97]] formattedFs).2

theorem run_emptyFile : Run (FsStep .i386) formattedFs
    (execCalls .i386 [.create [97]] formattedFs).1 emptyFileFs :=
  run_execCalls (by decide +kernel)

-- Only the kernel evaluates the states of this example.
attribute [irreducible] emptyFileFs

theorem emptyFile_events : ∀ e ∈ (execCalls .i386 [.create [97]] formattedFs).1,
    e.call.WellTyped .i386 ∧ e.reply ≠ .error (.err .io) := by
  decide +kernel

theorem emptyFile_device : emptyFileFs.disk.present = blankFs.disk.present ∧
    emptyFileFs.disk.totalSectors = blankFs.disk.totalSectors ∧
      blankFs.partition = emptyFileFs.partition := by
  decide +kernel

/-- The first write to the file. -/
def firstWrite : FsCall := .write 3 0 [1, 2, 3]

def writtenFs : Fs := ((firstWrite.exec .i386).run { emptyFileFs with unixTime := 0 }).2

theorem run_firstWrite : (firstWrite.exec .i386).run { emptyFileFs with unixTime := 0 } =
    (.ok (.count 3), writtenFs) :=
  Prog.run_eq_of_fst (by decide +kernel)

attribute [irreducible] writtenFs

theorem writes_firstWrite : emptyFileFs.disk.writes.length + 10 ≤ writtenFs.disk.writes.length := by
  decide +kernel

example : writtenFs.resolve [97] = some 3 := by decide +kernel

/-- The machine after it has started again on what the first `n` sector writes left. -/
def restartedFs (n : ℕ) : Fs :=
  { blankFs with disk := { blankFs.disk with sectors := sectorsAfter emptyFileFs writtenFs n } }

theorem not_exposed_firstWrite (s : Fs) : ¬ Exposed s firstWrite 8 := by
  rintro ⟨b, k, -, hlt, -, hk⟩
  have hblocks : blocksTouched 0 [(1 : UInt8), 2, 3].length = 1 := by decide
  rw [hblocks] at hk
  omega

/-- The machine stops when the data is on the disk and the tables are not. -/
theorem crash_consistent_firstWrite :
    Prog.Post mount (restartedFs 8) (fun _ m => Intact m)
      fun stop _ => stop = .err .io ∧ (restartedFs 8).disk.Faulty :=
  crash_consistent format_blankFs run_emptyFile (fun e he => (emptyFile_events e he).1)
    (fun _ e he => (emptyFile_events e he).2) (by decide) run_firstWrite
    (Nat.le_trans (by omega) writes_firstWrite) (not_exposed_firstWrite _) rfl
    ⟨emptyFile_device.1, emptyFile_device.2.1⟩ emptyFile_device.2.2

/-- When the machine stops between the two flushes of the first write, the mounted file has a
block that the mounted bitmap does not mark. -/
theorem crash_consistent_fails :
    ¬ ∀ (arch : Arch) (s₀ s t u b : Fs) (label : List UInt8) (es : List FsEvent) (call : FsCall)
      (time : UInt32) (reply : Except Stop FsReply) (n : ℕ),
      (format label).run s₀ = (.ok (), s) → Run (FsStep arch) s es t →
      (∀ e ∈ es, e.call.WellTyped arch) → (∀ e ∈ es, e.reply ≠ .error (.err .io)) →
      call.WellTyped arch → (call.exec arch).run { t with unixTime := time } = (reply, u) →
      t.disk.writes.length + n ≤ u.disk.writes.length →
      b.disk.sectors = sectorsAfter t u n →
      t.disk.present = b.disk.present ∧ t.disk.totalSectors = b.disk.totalSectors →
      b.partition = t.partition →
      Prog.Post mount b (fun _ m => Intact m) fun stop _ => stop = .err .io ∧ b.disk.Faulty := by
  intro hall
  have hmount := hall .i386 blankFs formattedFs emptyFileFs writtenFs (restartedFs 10) [] _
    firstWrite 0 (.ok (.count 3)) 10 format_blankFs run_emptyFile
    (fun e he => (emptyFile_events e he).1) (fun e he => (emptyFile_events e he).2) (by decide)
    run_firstWrite writes_firstWrite rfl
    ⟨emptyFile_device.1, emptyFile_device.2.1⟩ emptyFile_device.2.2
  have hintact := hmount.of_ok (Prog.run_eq_of_fst (r := .ok ()) (by decide +kernel))
  have hmarked := (hintact.1 (3, 0) ⟨by decide, by decide +kernel, by decide +kernel⟩).2.2
  exact absurd hmarked (by decide +kernel)

end Fs

end Tcmk
