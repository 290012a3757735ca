import Tcmk.Lib.Rely
import Tcmk.Fs.Command

/-!
# Two kernels in step

Two kernels are `Alike` when they have the same tables and the same bytes on the disk; `SCRATCH`
and the device's clock may differ. A `read` that others may interrupt, as long as they leave the
kernel alike (`read_tracks`), and a `write` that nobody interrupts (`write_tracks`), do the same
in both.

The device has to be `Steady`: a sector that cannot be transferred never can.
-/

namespace Tcmk

open Lib

/-- The device's answers depend on the sector only. -/
def Disk.Steady (d : Disk) : Prop := ∀ τ υ lba, d.fault τ lba = d.fault υ lba

namespace Fs

/-- The same tables and bytes on the disk, and both clocks at `time`. -/
structure Alike (time : UInt32) (s t : Fs) : Prop where
  clock : s.unixTime = time
  tables : SameTables s t
  device : s.disk.SameDevice t.disk
  steady : s.disk.Steady
  sectors : ∀ l, ∀ b < sectorSize, t.disk.sectors l b = s.disk.sectors l b

variable {time : UInt32} {s t u : Fs} {G : Fs → Prop} {R : Fs → Fs → Prop} {J : Fs → Fs → Prop}

namespace Alike

theorem refl (hclock : s.unixTime = time) (h : s.disk.Steady) : Alike time s s :=
  ⟨hclock, .refl s, .refl _, h, fun _ _ _ => rfl⟩

theorem trans (h : Alike time s t) (h' : Alike time t u) : Alike time s u :=
  ⟨h.clock, h.tables.trans h'.tables, h.device.trans h'.device, h.steady,
    fun l b hb => (h'.sectors l b hb).trans (h.sectors l b hb)⟩

theorem symm (h : Alike time s t) : Alike time t s := by
  refine ⟨h.tables.unixTime.trans h.clock, h.tables.symm,
    ⟨h.device.present.symm, h.device.totalSectors.symm,
    h.device.fault.symm⟩, ?_, fun l b hb => (h.sectors l b hb).symm⟩
  rw [Disk.Steady, h.device.fault]
  exact h.steady

theorem tick (h : Alike time s t) (τ υ : ℕ) :
    Alike time (s.withDisk (s.disk.atTime τ)) (t.withDisk (t.disk.atTime υ)) :=
  ⟨h.clock, (SameTables.withDisk s _).symm.trans (h.tables.trans (.withDisk t _)),
    ⟨h.device.present, h.device.totalSectors, h.device.fault⟩, h.steady, h.sectors⟩

theorem scratch (h : Alike time s t) (mem mem' : ℕ → UInt8) :
    Alike time { s with scratch := mem } { t with scratch := mem' } :=
  ⟨h.clock, (SameTables.withScratch s _).symm.trans (h.tables.trans (.withScratch t _)),
    h.device, h.steady, h.sectors⟩

theorem put (h : Alike time s t) (lba : ℕ) {bytes bytes' : ℕ → UInt8}
    (hbytes : ∀ b < sectorSize, bytes' b = bytes b) :
    Alike time (s.withDisk (s.disk.put lba bytes)) (t.withDisk (t.disk.put lba bytes')) := by
  refine ⟨h.clock, (SameTables.withDisk s _).symm.trans (h.tables.trans (.withDisk t _)),
    ⟨h.device.present, h.device.totalSectors, h.device.fault⟩, h.steady, fun l b hb => ?_⟩
  simp only [withDisk_disk, Disk.put, Function.update_apply]
  split
  · exact hbytes b hb
  · exact h.sectors l b hb

theorem setBits (h : Alike time s t) (f : (ℕ → UInt8) → ℕ → UInt8) (g : UInt32 → UInt32) :
    Alike time { s with bitmap := f s.bitmap, freeBlocks := g s.freeBlocks }
      { t with bitmap := f t.bitmap, freeBlocks := g t.freeBlocks } := by
  obtain ⟨hinodes, hbitmap, hmounted, hlba, htotal, hfree, hpart, htime⟩ := h.tables
  exact ⟨h.clock, ⟨hinodes, congrArg f hbitmap, hmounted, hlba, htotal, congrArg g hfree,
    hpart, htime⟩, h.device, h.steady, h.sectors⟩

theorem setInode (h : Alike time s t) (index : ℕ) {inode inode' : Inode} (heq : inode' = inode) :
    Alike time (s.setInode index inode) (t.setInode index inode') := by
  obtain ⟨hinodes, hbitmap, hmounted, hlba, htotal, hfree, hpart, htime⟩ := h.tables
  refine ⟨h.clock, ⟨?_, hbitmap, hmounted, hlba, htotal, hfree, hpart, htime⟩, h.device, h.steady,
    h.sectors⟩
  simp only [Fs.setInode]
  rw [hinodes, heq]

theorem setBlock (h : Alike time s t) (index i : ℕ) (block : UInt32) :
    Alike time (s.setBlock index i block) (t.setBlock index i block) :=
  h.setInode index (by rw [h.tables.inodes])

end Alike

/-- Alike, and the first `n` sectors of `SCRATCH` are the same. -/
def AlikeUpTo (time : UInt32) (n : ℕ) (s t : Fs) : Prop :=
  Alike time s t ∧ ∀ b < n * sectorSize, t.scratch b = s.scratch b

/-- A relation that the device's clock does not matter for. -/
structure Clockless (time : UInt32) (J : Fs → Fs → Prop) : Prop where
  alike : ∀ {s t}, J s t → Alike time s t
  tick : ∀ {s t}, J s t → ∀ τ υ, J (s.withDisk (s.disk.atTime τ)) (t.withDisk (t.disk.atTime υ))

theorem clockless_alike : Clockless time (Alike time) := ⟨id, fun h τ υ => h.tick τ υ⟩

theorem clockless_alikeUpTo (n : ℕ) : Clockless time (AlikeUpTo time n) :=
  ⟨And.left, fun h τ υ => ⟨h.1.tick τ υ, h.2⟩⟩

/-! ## The driver -/

theorem await_tracks (hJ : Clockless time J) (h : J s t) (lba : ℕ) :
    Prog.Tracks G R (Block.await lba) s (Block.await lba) t (fun _ s' _ t' => J s' t') J := by
  rw [Block.await]
  refine .bind (.get (.bind (.modify ?_)))
  have hfault : t.disk.fault t.disk.time lba = s.disk.fault s.disk.time lba := by
    rw [(hJ.alike h).device.fault]
    exact (hJ.alike h).steady _ _ _
  rw [hfault]
  cases s.disk.fault s.disk.time lba with
  | some e => exact .throw (hJ.tick h _ _)
  | none => exact .pure (hJ.tick h _ _)

theorem setupLba_tracks (hJ : Clockless time J) (h : J s t) (lba : UInt32) (count : ℕ) :
    Prog.Tracks G R (Block.setupLba lba count) s (Block.setupLba lba count) t
      (fun _ s' _ t' => J s' t') J := by
  rw [Block.setupLba]
  refine .bind (.get ?_)
  rw [(hJ.alike h).device.present, (hJ.alike h).device.totalSectors]
  split
  · exact .throw h
  split
  · exact .throw h
  split
  · exact .throw h
  · exact await_tracks hJ h _

/-- A read command, interrupted before its transfer. -/
theorem blockRead_tracks {J : ℕ → Fs → Fs → Prop} {E : Fs → Fs → Prop} {lba : UInt32}
    {count length : ℕ} {store : ℕ → (ℕ → UInt8) → Fs → Fs} (hJ : ∀ k, Clockless time (J k))
    (hcount : 0 < count) (hlength : count * sectorSize ≤ length) (hG : G s)
    (hR : ∀ s', R s s' → J 0 s' t)
    (hstore : ∀ k s t, J k s t → J (k + 1) (store k (s.disk.sectors (lba.toNat + k)) s)
      (store k (t.disk.sectors (lba.toNat + k)) t))
    (hE : ∀ k s t, J k s t → E s t) :
    Prog.Tracks G R (Block.read lba count length store) s (Block.read lba count length store) t
      (fun _ s' _ t' => J count s' t') E := by
  rw [Block.read, if_neg (Nat.ne_of_gt hcount), if_neg (Nat.not_lt.2 hlength)]
  refine .bind (.yield hG fun s' hs' => ?_)
  refine .bind ((setupLba_tracks (hJ 0) (hR s' hs') lba count).mono (fun _ u _ v huv => ?_) (hE 0))
  have hzero : ∀ {s t}, J (0 + count) s t → J count s t := fun h => Nat.zero_add count ▸ h
  refine (Prog.Tracks.forRange (J := J) count huv fun k a b _ _ hab => ?_).mono
    (fun _ _ _ _ h => hzero h) fun _ _ h => h
  refine .bind ((await_tracks (hJ k) hab _).mono (fun _ a b _ hab => ?_) (hE k))
  exact .modify (hstore k _ _ hab)

/-- A write command. It may be interrupted before its transfer, when its bytes are still in
memory, and after it. -/
theorem blockWrite_tracks {lba : UInt32} {count length : ℕ} {source : Fs → ℕ → UInt8}
    (hJ : Clockless time J) (hcount : 0 < count) (hlength : count * sectorSize ≤ length)
    (h : J s t) (hG : ∀ s t, J s t → G s) (hR : ∀ s t s', J s t → R s s' → J s' t)
    (hput : ∀ k < count, ∀ s t, J s t →
      J (s.withDisk (s.disk.put (lba.toNat + k) fun b => source s (k * sectorSize + b)))
        (t.withDisk (t.disk.put (lba.toNat + k) fun b => source t (k * sectorSize + b)))) :
    Prog.Tracks G R (Block.write lba count length source) s
      (Block.write lba count length source) t (fun _ s' _ t' => J s' t') J := by
  rw [Block.write, if_neg (Nat.ne_of_gt hcount), if_neg (Nat.not_lt.2 hlength)]
  refine .bind (.yield (hG _ _ h) fun s' hs' => ?_)
  refine .bind ((setupLba_tracks hJ (hR _ _ _ h hs') lba count).mono (fun _ u _ v huv => ?_)
    fun _ _ h => h)
  refine .bind ((Prog.Tracks.forRange (J := fun _ => J) count huv fun k a b _ hk hab => ?_).mono
    (fun _ u _ v huv => ?_) fun _ _ h => h)
  · refine .bind ((await_tracks hJ hab _).mono (fun _ a b _ hab => ?_) fun _ _ h => h)
    exact .modify (hput k (by omega) _ _ hab)
  · refine .bind ((await_tracks hJ huv _).mono (fun _ u _ v huv => ?_) fun _ _ h => h)
    exact .bind (.yield (hG _ _ huv) fun u' hu' => await_tracks hJ (hR _ _ _ huv hu') _)

/-! ## Reading -/

theorem storeScratch_alike {k : ℕ} {bytes bytes' : ℕ → UInt8} (h : AlikeUpTo time k s t)
    (hbytes : ∀ b < sectorSize, bytes' b = bytes b) :
    AlikeUpTo time (k + 1) { s with scratch := storeSector s.scratch k bytes }
      { t with scratch := storeSector t.scratch k bytes' } := by
  refine ⟨h.1.scratch _ _, fun b hb => ?_⟩
  simp only [storeSector]
  split
  · exact hbytes _ (Nat.mod_lt _ (by decide))
  · rename_i hne
    have hlt : b / sectorSize < k + 1 := Nat.div_lt_of_lt_mul (Nat.mul_comm _ _ ▸ hb)
    exact h.2 b ((Nat.div_lt_iff_lt_mul (by decide)).1 (by omega))

/-- Reading a block, interrupted before the transfer. -/
theorem readBlock_tracks (block : UInt32) (hG : G s)
    (hR : ∀ s', R s s' → Alike time s' t) (h : Alike time s t) :
    Prog.Tracks G R (readBlock block) s (readBlock block) t
      (fun _ s' _ t' => AlikeUpTo time sectorsPerBlock s' t' ∧ Alike time t t')
      fun s' t' => Alike time s' t' ∧ Alike time t t' := by
  have hsteady := h.symm.steady
  rw [readBlock]
  refine .bind (.get ?_)
  rw [h.tables.partLba]
  refine .mapError (blockRead_tracks (J := fun k a b => AlikeUpTo time k a b ∧ Alike time t b)
    (fun k => ⟨fun h => h.1.1, fun h τ υ => ⟨(clockless_alikeUpTo k).tick h.1 τ υ,
      h.2.trans ((Alike.refl h.2.symm.clock h.2.symm.steady).tick _ υ)⟩⟩)
    (by decide) (by decide) hG (fun s' hs' =>
      ⟨⟨hR s' hs', fun b hb => ?_⟩, .refl h.symm.clock hsteady⟩)
    (fun k a b h => ⟨storeScratch_alike h.1 fun b hb => h.1.1.sectors _ b hb,
      h.2.trans ((Alike.refl h.2.symm.clock h.2.symm.steady).scratch _ _)⟩)
    fun k a b h => ⟨h.1.1, h.2⟩)
  rw [Nat.zero_mul] at hb
  exact absurd hb (Nat.not_lt_zero b)

section Read

/- The read that runs alone starts in `t₀`; the other one may find any kernel alike to it. -/
variable {t₀ : Fs}

/-- While a read runs, the kernel is alike to `t₀`. -/
def KeptAlike (time : UInt32) (t₀ s t : Fs) : Prop := Alike time s t ∧ Alike time t₀ t

theorem readLoop_tracks (index fuel position left : ℕ) (h : KeptAlike time t₀ s t) :
    Prog.Tracks (fun s => Alike time s t₀) (fun s s' => Alike time s t₀ → Alike time s' t₀)
      (readLoop index fuel position left) s (readLoop index fuel position left) t
      (fun a s' b t' => a = b ∧ KeptAlike time t₀ s' t') (KeptAlike time t₀) := by
  induction fuel generalizing position left s t with
  | zero => exact .pure ⟨rfl, h⟩
  | succ fuel ih =>
    rw [readLoop]
    split
    · exact .pure ⟨rfl, h⟩
    refine .bind (.get ?_)
    split
    · exact .throw h
    have hstart : Alike time s t₀ := h.1.trans h.2.symm
    rw [h.1.tables.inodes]
    refine .bind ((readBlock_tracks (G := fun s => Alike time s t₀)
      (R := fun s s' => Alike time s t₀ → Alike time s' t₀) _ hstart (fun s' hs' =>
        (hs' hstart).trans h.2)
      h.1).mono (fun _ u _ v huv => ?_) fun _ _ huv => ⟨huv.1, h.2.trans huv.2⟩)
    refine .bind (.get (.bind ((ih _ _ ⟨huv.1.1, h.2.trans huv.2⟩).mono (fun a u' b v' hab => ?_)
      fun _ _ h => h)))
    obtain ⟨rfl, hkept⟩ := hab
    refine .pure ⟨?_, hkept⟩
    refine congrArg (· ++ a) (List.map_congr_left fun k hk => (huv.1.2 _ ?_).symm)
    have hk := List.mem_range.1 hk
    simp only [sectorsPerBlock, sectorSize, blockSize] at hk ⊢
    omega

/-- A read among other programs that leave the kernel alike returns what it returns alone. -/
theorem read_tracks (index offset room : ℕ) (h : Alike time s t) :
    Prog.Tracks (fun s => Alike time s t) (fun s s' => Alike time s t → Alike time s' t)
      (read index offset room) s (read index offset room) t
      (fun a s' b t' => a = b ∧ KeptAlike time t s' t') (KeptAlike time t) := by
  have hkept : KeptAlike time t s t := ⟨h, .refl h.symm.clock h.symm.steady⟩
  rw [read]
  refine .bind (.get ?_)
  rw [h.tables.mounted, h.tables.inodes]
  split
  · exact .throw hkept
  split
  · exact .throw hkept
  simp only
  split
  · exact .pure ⟨rfl, hkept⟩
  · exact readLoop_tracks _ _ _ _ hkept

end Read

/-! ## Writing -/

section Write

/-- Executions that nobody disturbs. -/
def InStep {α : Type} (time : UInt32) (x : FsProg α) (s : Fs) (y : FsProg α) (t : Fs)
    (J : Fs → Fs → Prop) : Prop :=
  Prog.Tracks (fun s => s.unixTime = time) Eq x s y t (fun a s' b t' => a = b ∧ J s' t')
    (Alike time)

variable {α β : Type}

theorem InStep.bind {x y : FsProg α} {f g : α → FsProg β} {J' : Fs → Fs → Prop}
    (h : InStep time x s y t J)
    (hfg : ∀ a s' t', J s' t' → InStep time (f a) s' (g a) t' J') :
    InStep time (x >>= f) s (y >>= g) t J' := by
  refine Prog.Tracks.bind (Prog.Tracks.mono h (fun a s' b t' hab => ?_) fun _ _ h => h)
  obtain ⟨rfl, hJ⟩ := hab
  exact hfg a s' t' hJ

theorem inStep_pure {a : α} (h : J s t) : InStep time (pure a) s (pure a) t J := .pure ⟨rfl, h⟩

theorem inStep_throw {e : Stop} (h : Alike time s t) :
    InStep time (Prog.throw e : FsProg α) s (Prog.throw e) t J := .throw h

theorem inStep_modify {f g : Fs → Fs} (h : J (f s) (g t)) :
    InStep time (Prog.modify f) s (Prog.modify g) t J := .modify ⟨rfl, h⟩

theorem InStep.get {f g : Fs → FsProg β} (h : InStep time (f s) s (g t) t J) :
    InStep time (Prog.get >>= f) s (Prog.get >>= g) t J := Prog.Tracks.bind (.get h)

theorem InStep.forRange {body body' : ℕ → FsProg Unit} {count start : ℕ} (h : J s t)
    (hbody : ∀ i s t, J s t → InStep time (body i) s (body' i) t J) :
    InStep time (Prog.forRange count start body) s (Prog.forRange count start body') t J := by
  refine Prog.Tracks.mono (Prog.Tracks.forRange (J := fun _ => J) count h
    fun i s t _ _ hst => Prog.Tracks.mono (hbody i s t hst) (fun _ _ _ _ h => h.2) fun _ _ h => h)
    (fun _ _ _ _ h => ⟨rfl, h⟩) fun _ _ h => h

theorem flushInodes_inStep (h : Alike time s t) :
    InStep time flushInodes s flushInodes t (Alike time) := by
  rw [flushInodes]
  refine .forRange h fun chunk s t h => .get ?_
  rw [h.tables.partLba]
  refine Prog.Tracks.mono (Prog.Tracks.mapError (blockWrite_tracks clockless_alike (by decide)
    (Nat.le_refl _) h (fun _ _ h => h.clock) (fun _ _ _ h he => he ▸ h) fun k _ s t h =>
      h.put _ fun b _ => ?_)) (fun _ _ _ _ h => ⟨rfl, h⟩) fun _ _ h => h
  rw [h.tables.inodes]

theorem flushBitmap_inStep (h : Alike time s t) :
    InStep time flushBitmap s flushBitmap t (Alike time) := by
  rw [flushBitmap]
  refine .get ?_
  rw [h.tables.partLba]
  refine Prog.Tracks.mono (Prog.Tracks.mapError (blockWrite_tracks clockless_alike (by decide)
    (Nat.le_refl _) h (fun _ _ h => h.clock) (fun _ _ _ h he => he ▸ h) fun k _ s t h =>
      h.put _ fun b _ => ?_)) (fun _ _ _ _ h => ⟨rfl, h⟩) fun _ _ h => h
  rw [h.tables.bitmap]

theorem writeBlock_inStep (block : UInt32) (h : AlikeUpTo time sectorsPerBlock s t) :
    InStep time (writeBlock block) s (writeBlock block) t (Alike time) := by
  rw [writeBlock]
  refine .get ?_
  rw [h.1.tables.partLba]
  refine Prog.Tracks.mono (Prog.Tracks.mapError (blockWrite_tracks
    (clockless_alikeUpTo sectorsPerBlock) (by decide) (by decide) h (fun _ _ h => h.1.clock)
    (fun _ _ _ h he => he ▸ h) fun k hk s t h => ⟨h.1.put _ fun b hb => h.2 _ ?_, h.2⟩))
    (fun _ _ _ _ h => ⟨rfl, h.1⟩) fun _ _ h => h.1
  simp only [sectorsPerBlock, sectorSize] at hk hb ⊢
  omega

theorem readBlock_inStep (block : UInt32) (h : Alike time s t) :
    InStep time (readBlock block) s (readBlock block) t (AlikeUpTo time sectorsPerBlock) :=
  Prog.Tracks.mono (readBlock_tracks block h.clock (fun _ he => he ▸ h) h)
    (fun _ _ _ _ h => ⟨rfl, h.1⟩) fun _ _ h => h.1

theorem allocBlock_inStep (h : Alike time s t) :
    InStep time allocBlock s allocBlock t (Alike time) := by
  rw [allocBlock]
  refine .get ?_
  rw [h.tables.bitmap, h.tables.totalBlocks]
  cases firstFree s.bitmap s.totalBlocks.toNat with
  | some i =>
    exact (inStep_modify (h.setBits (fun bitmap => bitSet bitmap i true) (· - 1))).bind
      fun _ _ _ h => inStep_pure h
  | none => exact inStep_pure h

theorem freeBlock_inStep (block : UInt32) (h : Alike time s t) :
    InStep time (freeBlock block) s (freeBlock block) t (Alike time) := by
  rw [freeBlock]
  refine .get ?_
  rw [h.tables.bitmap]
  split
  · exact inStep_throw h
  split
  · exact inStep_modify (h.setBits (fun bitmap => bitSet bitmap block.toNat false) (· + 1))
  · exact inStep_pure h

theorem allocBlocks_inStep (index have_ count i : ℕ) (h : Alike time s t) :
    InStep time (allocBlocks index have_ count i) s (allocBlocks index have_ count i) t
      (Alike time) := by
  induction count generalizing i s t with
  | zero => exact inStep_pure h
  | succ count ih =>
    rw [allocBlocks]
    refine (allocBlock_inStep h).bind fun block s t h => ?_
    cases block with
    | some block =>
      simp only
      split
      · exact inStep_throw h
      · exact (inStep_modify (h.setBlock index i block)).bind fun _ _ _ h => ih (i + 1) h
    | none =>
      refine InStep.bind (.forRange h fun j s t h => .get ?_) fun _ _ _ h => inStep_throw h
      rw [h.tables.inodes]
      exact (freeBlock_inStep _ h).bind fun _ _ _ h => inStep_modify (h.setBlock index j 0)

/-- What the block will not get from the data is the same in both. -/
theorem prepareScratch_inStep (index have_ blockIndex chunk : ℕ) (h : Alike time s t) :
    InStep time (prepareScratch index have_ blockIndex chunk) s
      (prepareScratch index have_ blockIndex chunk) t
      fun s' t' => Alike time s' t' ∧
      (chunk < blockSize → AlikeUpTo time sectorsPerBlock s' t') := by
  rw [prepareScratch]
  split
  · split
    · refine .get ?_
      rw [h.tables.inodes]
      split
      · exact inStep_throw h
      · exact Prog.Tracks.mono (readBlock_inStep _ h)
          (fun _ _ _ _ h => ⟨h.1, h.2.1, fun _ => h.2⟩) fun _ _ h => h
    · exact inStep_modify ⟨h.scratch _ _, fun _ => ⟨h.scratch _ _, fun _ _ => rfl⟩⟩
  · rename_i hfull
    exact inStep_pure ⟨h, fun hlt => absurd hlt hfull⟩

theorem fillScratch_alike {inBlock chunk done : ℕ} {data : List UInt8} (h : Alike time s t)
    (hrest : chunk < blockSize → AlikeUpTo time sectorsPerBlock s t)
    (hfull : ¬ chunk < blockSize → inBlock = 0) :
    AlikeUpTo time sectorsPerBlock (s.fillScratch inBlock chunk data done)
      (t.fillScratch inBlock chunk data done) := by
  refine ⟨h.scratch _ _, fun b hb => ?_⟩
  simp only [fillScratch]
  split
  · rfl
  · rename_i hout
    by_cases hchunk : chunk < blockSize
    · exact (hrest hchunk).2 b hb
    · rw [hfull hchunk] at hout
      refine absurd ⟨Nat.zero_le b, ?_⟩ hout
      simp only [sectorsPerBlock, sectorSize, blockSize] at hb hchunk
      omega

theorem writeLoop_inStep (arch : Arch) (index offset have_ : ℕ) (data : List UInt8)
    (fuel done : ℕ) (h : Alike time s t) :
    InStep time (writeLoop arch index offset have_ data fuel done) s
      (writeLoop arch index offset have_ data fuel done) t (Alike time) := by
  induction fuel generalizing done s t with
  | zero => exact inStep_pure h
  | succ fuel ih =>
    rw [writeLoop]
    split
    · exact inStep_pure h
    refine (prepareScratch_inStep _ _ _ _ h).bind fun _ s t h => ?_
    refine (inStep_modify (fillScratch_alike h.1 h.2 fun hfull => ?_)).bind fun _ s t h => .get ?_
    · have := Nat.min_le_left (blockSize - (offset + done) % 2 ^ arch.wordBits % blockSize)
        (data.length - done)
      simp only [blockSize] at hfull this ⊢
      omega
    · rw [h.1.tables.inodes]
      split
      · exact inStep_throw h.1
      · exact (writeBlock_inStep _ h).bind fun _ _ _ h => ih _ h

/-- Two writes that nobody disturbs. -/
theorem write_inStep (arch : Arch) (index offset : ℕ) (data : List UInt8) (h : Alike time s t) :
    InStep time (write arch index offset data) s (write arch index offset data) t (Alike time) := by
  rw [write]
  refine .get ?_
  rw [h.tables.mounted, h.tables.inodes]
  split
  · exact inStep_throw h
  split
  · exact inStep_throw h
  simp only
  split
  · exact inStep_throw h
  refine (allocBlocks_inStep _ _ _ _ h).bind fun _ s t h => ?_
  refine (writeLoop_inStep _ _ _ _ _ _ _ h).bind fun _ s t h => ?_
  refine (inStep_modify (h.setInode index ?_)).bind fun _ s t h => ?_
  · rw [h.tables.inodes, h.tables.unixTime]
  exact (flushInodes_inStep h).bind fun _ _ _ h => (flushBitmap_inStep h).bind
    fun _ _ _ h => inStep_pure h

end Write

end Fs

end Tcmk
