import Tcmk.Fs.Tcmkfs

/-!
# What a disk command does

A successful command transfers all of its sectors, a failed one the sectors before the failure;
besides that only the device's time moves. `write_post` and `read_post` say so once for all
commands, and the rest of the module says it for the commands of TCMKFS. In particular no
command of a flush changes the tables in memory (`SameTables`).
-/

namespace Tcmk

open Lib

namespace Disk

/-- The device after the first sectors of a write. -/
def putRange (d : Disk) (lba : ℕ) (bytes : ℕ → UInt8) : ℕ → Disk
  | 0 => d
  | n + 1 => (d.putRange lba bytes n).put (lba + n) fun b => bytes (n * sectorSize + b)

/-- The same device at another time. -/
def atTime (d : Disk) (time : ℕ) : Disk := { d with time := time }

/-- The command passes the checks of `setup_lba`. -/
def InRange (d : Disk) (lba count : ℕ) : Prop :=
  d.present = true ∧ lba + count ≤ d.totalSectors.toNat ∧ lba < 2 ^ 28

/-- The device can fail a transfer. -/
def Faulty (d : Disk) : Prop := ∃ time lba, d.fault time lba ≠ none

@[simp] theorem atTime_sectors (d : Disk) (τ : ℕ) : (d.atTime τ).sectors = d.sectors := rfl
@[simp] theorem atTime_writes (d : Disk) (τ : ℕ) : (d.atTime τ).writes = d.writes := rfl
@[simp] theorem atTime_fault (d : Disk) (τ : ℕ) : (d.atTime τ).fault = d.fault := rfl
@[simp] theorem atTime_present (d : Disk) (τ : ℕ) : (d.atTime τ).present = d.present := rfl
@[simp] theorem atTime_totalSectors (d : Disk) (τ : ℕ) :
    (d.atTime τ).totalSectors = d.totalSectors := rfl
@[simp] theorem atTime_atTime (d : Disk) (τ υ : ℕ) : (d.atTime τ).atTime υ = d.atTime υ := rfl
theorem atTime_time (d : Disk) : d.atTime d.time = d := rfl

@[simp] theorem put_atTime (d : Disk) (τ lba : ℕ) (bytes : ℕ → UInt8) :
    (d.atTime τ).put lba bytes = (d.put lba bytes).atTime τ := rfl

variable (d : Disk) (lba : ℕ) (bytes : ℕ → UInt8) (n : ℕ)

@[simp] theorem putRange_fault : (d.putRange lba bytes n).fault = d.fault := by
  induction n with
  | zero => rfl
  | succ n ih => exact ih

@[simp] theorem putRange_present : (d.putRange lba bytes n).present = d.present := by
  induction n with
  | zero => rfl
  | succ n ih => exact ih

@[simp] theorem putRange_totalSectors :
    (d.putRange lba bytes n).totalSectors = d.totalSectors := by
  induction n with
  | zero => rfl
  | succ n ih => exact ih

theorem putRange_sectors (l : ℕ) : (d.putRange lba bytes n).sectors l =
    if lba ≤ l ∧ l < lba + n then fun b => bytes ((l - lba) * sectorSize + b)
    else d.sectors l := by
  induction n with
  | zero => rw [if_neg (by omega)]; rfl
  | succ n ih =>
    show Function.update (d.putRange lba bytes n).sectors (lba + n) _ l = _
    by_cases hl : l = lba + n
    · subst hl
      rw [Function.update_self, if_pos (by omega), Nat.add_sub_cancel_left]
    · rw [Function.update_of_ne hl, ih]
      by_cases h : lba ≤ l ∧ l < lba + n
      · rw [if_pos h, if_pos (by omega)]
      · rw [if_neg h, if_neg (by omega)]

@[simp] theorem putRange_atTime (τ : ℕ) :
    (d.atTime τ).putRange lba bytes n = (d.putRange lba bytes n).atTime τ := by
  induction n with
  | zero => rfl
  | succ n ih => rw [putRange, ih, put_atTime, putRange]

/-- Two ranges one after the other are one range. -/
theorem putRange_add (m : ℕ) :
    (d.putRange lba bytes m).putRange (lba + m) (fun b => bytes (m * sectorSize + b)) n =
      d.putRange lba bytes (m + n) := by
  induction n with
  | zero => rfl
  | succ n ih =>
    rw [putRange, ih, ← Nat.add_assoc, putRange, Nat.add_assoc]
    simp only [Nat.add_mul, Nat.add_assoc]

/-- A sector outside the range written. -/
theorem putRange_sectors_of_not {l : ℕ} (h : l < lba ∨ lba + n ≤ l) :
    (d.putRange lba bytes n).sectors l = d.sectors l := by
  rw [putRange_sectors, if_neg (by omega)]

/-- The same device, whatever is on it. -/
structure SameDevice (d d' : Disk) : Prop where
  present : d'.present = d.present
  totalSectors : d'.totalSectors = d.totalSectors
  fault : d'.fault = d.fault

theorem SameDevice.refl (d : Disk) : SameDevice d d := ⟨rfl, rfl, rfl⟩

theorem SameDevice.trans {d d' d'' : Disk} (h : SameDevice d d') (h' : SameDevice d' d'') :
    SameDevice d d'' :=
  ⟨h'.present.trans h.present, h'.totalSectors.trans h.totalSectors, h'.fault.trans h.fault⟩

theorem SameDevice.inRange {d d' : Disk} (h : SameDevice d d') {lba count : ℕ}
    (hin : d.InRange lba count) : d'.InRange lba count :=
  ⟨h.present.trans hin.1, by rw [h.totalSectors]; exact hin.2.1, hin.2.2⟩

end Disk

namespace Fs

/-- The state with another disk. -/
def withDisk (s : Fs) (d : Disk) : Fs := { s with disk := d }

@[simp] theorem withDisk_disk (s : Fs) (d : Disk) : (s.withDisk d).disk = d := rfl
@[simp] theorem withDisk_inodes (s : Fs) (d : Disk) : (s.withDisk d).inodes = s.inodes := rfl
@[simp] theorem withDisk_bitmap (s : Fs) (d : Disk) : (s.withDisk d).bitmap = s.bitmap := rfl
@[simp] theorem withDisk_scratch (s : Fs) (d : Disk) : (s.withDisk d).scratch = s.scratch := rfl
@[simp] theorem withDisk_partLba (s : Fs) (d : Disk) : (s.withDisk d).partLba = s.partLba := rfl

@[simp] theorem withDisk_withDisk (s : Fs) (d d' : Disk) :
    (s.withDisk d).withDisk d' = s.withDisk d' := rfl

end Fs

/-! ## The driver -/

namespace Block

variable {s : Fs}

theorem await_post (lba : ℕ) :
    Prog.Post (await lba) s (fun _ t => t = s.withDisk (s.disk.atTime (s.disk.time + 1)))
      (fun _ t => t = s.withDisk (s.disk.atTime (s.disk.time + 1)) ∧ s.disk.Faulty) := by
  rw [await]
  simp only [Prog.post_bind, Prog.post_get, Prog.post_modify]
  cases h : s.disk.fault s.disk.time lba with
  | none => exact Prog.post_pure.2 rfl
  | some e =>
    exact Prog.post_throw.2 ⟨rfl, s.disk.time, lba, by rw [h]; exact Option.some_ne_none e⟩

theorem setupLba_post (lba : UInt32) (count : ℕ) :
    Prog.Post (setupLba lba count) s
      (fun _ t => (∃ τ, t = s.withDisk (s.disk.atTime τ)) ∧ s.disk.InRange lba.toNat count)
      (fun _ t => (∃ τ, t = s.withDisk (s.disk.atTime τ)) ∧
        (s.disk.Faulty ∨ ¬ s.disk.InRange lba.toNat count)) := by
  rw [setupLba]
  simp only [Prog.post_bind, Prog.post_get]
  have hlt := s.disk.totalSectors.toNat_lt
  split
  · rename_i h
    exact Prog.post_throw.2 ⟨⟨s.disk.time, rfl⟩, .inr fun hin => by simp [hin.1] at h⟩
  rename_i hpresent
  split
  · exact Prog.post_throw.2 ⟨⟨s.disk.time, rfl⟩, .inr fun hin => by have := hin.2.1; omega⟩
  split
  · exact Prog.post_throw.2 ⟨⟨s.disk.time, rfl⟩, .inr fun hin => by have := hin.2.2; omega⟩
  · exact (await_post lba.toNat).mono
      (fun _ t ht => ⟨⟨_, ht⟩, by simpa using hpresent, by omega, by omega⟩)
      fun _ t ht => ⟨⟨_, ht.1⟩, .inl ht.2⟩

/-- A write command: all sectors, or those before the failure. -/
theorem write_post {lba : UInt32} {count length : ℕ} {source : Fs → ℕ → UInt8}
    (hcount : 0 < count) (hlength : count * sectorSize ≤ length)
    (hsource : ∀ d, source (s.withDisk d) = source s) :
    Prog.Post (write lba count length source) s
      (fun _ t => (∃ τ, t = s.withDisk ((s.disk.putRange lba.toNat (source s) count).atTime τ)) ∧
        s.disk.InRange lba.toNat count)
      (fun _ t => ∃ k ≤ count,
        (∃ τ, t = s.withDisk ((s.disk.putRange lba.toNat (source s) k).atTime τ)) ∧
        (s.disk.Faulty ∨ k = 0 ∧ ¬ s.disk.InRange lba.toNat count)) := by
  rw [write, if_neg (Nat.ne_of_gt hcount), if_neg (Nat.not_lt.2 hlength)]
  simp only [Prog.post_bind, Prog.post_yield]
  refine (setupLba_post lba count).mono (fun _ t ht => ?_) fun _ t ht =>
    ⟨0, Nat.zero_le _, ht.1, ht.2.imp_right fun h => ⟨rfl, h⟩⟩
  obtain ⟨⟨τ, rfl⟩, hin⟩ := ht
  -- The transfer loop: `i` sectors are on the disk.
  refine (Prog.Post.forRange (I := fun i t => ∃ τ,
    t = s.withDisk ((s.disk.putRange lba.toNat (source s) i).atTime τ)) count ⟨τ, rfl⟩
    fun i t _ hi ht => ?_).mono (fun _ t ht => ?_) fun _ _ h => h
  · obtain ⟨τ, rfl⟩ := ht
    refine Prog.post_bind.2 ((await_post _).mono (fun _ t ht => ?_) fun _ t ht => ?_)
    · subst ht
      refine Prog.post_modify.2 ⟨τ + 1, ?_⟩
      rw [Fs.withDisk_withDisk, hsource]
      rfl
    · obtain ⟨rfl, hfault⟩ := ht
      exact ⟨i, by omega, ⟨_, rfl⟩, .inl (by simpa [Disk.Faulty] using hfault)⟩
  · rw [Nat.zero_add] at ht
    obtain ⟨τ, rfl⟩ := ht
    refine (await_post _).mono (fun _ t ht => ?_) fun _ t ht => ?_
    · subst ht
      refine (await_post _).mono (fun _ t ht => ⟨⟨_, ht⟩, hin⟩) fun _ t ht => ?_
      exact ⟨count, Nat.le_refl _, ⟨_, ht.1⟩, .inl (by simpa [Disk.Faulty] using ht.2)⟩
    · exact ⟨count, Nat.le_refl _, ⟨_, ht.1⟩, .inl (by simpa [Disk.Faulty] using ht.2)⟩

/-- The state after the first `n` sectors of a read have been stored. -/
def storeRange (store : ℕ → (ℕ → UInt8) → Fs → Fs) (lba : ℕ) (s : Fs) : ℕ → Fs
  | 0 => s
  | n + 1 => store n (s.disk.sectors (lba + n)) (storeRange store lba s n)

/-- A read command stores all sectors, or those before the failure. -/
theorem read_post {lba : UInt32} {count length : ℕ} {store : ℕ → (ℕ → UInt8) → Fs → Fs}
    (hcount : 0 < count) (hlength : count * sectorSize ≤ length)
    (hstore : ∀ k bytes t d, store k bytes (t.withDisk d) = (store k bytes t).withDisk d) :
    Prog.Post (read lba count length store) s
      (fun _ t => (∃ τ, t = (storeRange store lba.toNat s count).withDisk (s.disk.atTime τ)) ∧
        s.disk.InRange lba.toNat count)
      (fun _ t => (∃ k ≤ count, ∃ τ,
          t = (storeRange store lba.toNat s k).withDisk (s.disk.atTime τ)) ∧
        (s.disk.Faulty ∨ ¬ s.disk.InRange lba.toNat count)) := by
  rw [read, if_neg (Nat.ne_of_gt hcount), if_neg (Nat.not_lt.2 hlength)]
  simp only [Prog.post_bind, Prog.post_yield]
  refine (setupLba_post lba count).mono (fun _ t ht => ?_) fun _ t ht =>
    ⟨⟨0, Nat.zero_le _, ht.1⟩, ht.2⟩
  obtain ⟨⟨τ, rfl⟩, hin⟩ := ht
  refine (Prog.Post.forRange (I := fun i t => ∃ τ,
    t = (storeRange store lba.toNat s i).withDisk (s.disk.atTime τ)) count ⟨τ, rfl⟩
    fun i t _ hi ht => ?_).mono (fun _ t ht => ?_) fun _ _ h => h
  · obtain ⟨τ, rfl⟩ := ht
    refine Prog.post_bind.2 ((await_post _).mono (fun _ t ht => ?_) fun _ t ht => ?_)
    · subst ht
      refine Prog.post_modify.2 ⟨τ + 1, ?_⟩
      rw [Fs.withDisk_withDisk, hstore]
      rfl
    · obtain ⟨rfl, hfault⟩ := ht
      exact ⟨⟨i, by omega, _, rfl⟩, .inl (by simpa [Disk.Faulty] using hfault)⟩
  · rw [Nat.zero_add] at ht
    exact ⟨ht, hin⟩

end Block

/-! ## The commands of the file system -/

@[simp] theorem post_io {α : Type} {x : BlockProg α} {s : Fs} {Q : α → Fs → Prop}
    {E : Stop → Fs → Prop} :
    Prog.Post (io x) s Q E ↔ Prog.Post x s Q fun _ => E (.err .io) := Prog.post_mapError

@[simp] theorem post_fail {α : Type} {e : FsError} {s : Fs} {Q : α → Fs → Prop}
    {E : Stop → Fs → Prop} : Prog.Post (fail e) s Q E ↔ E (.err e) s := Iff.rfl

namespace Fs

/-- The tables and parameters in memory are the same; the disk and `SCRATCH` may differ. -/
structure SameTables (s t : Fs) : Prop where
  inodes : t.inodes = s.inodes
  bitmap : t.bitmap = s.bitmap
  mounted : t.mounted = s.mounted
  partLba : t.partLba = s.partLba
  totalBlocks : t.totalBlocks = s.totalBlocks
  freeBlocks : t.freeBlocks = s.freeBlocks
  partition : t.partition = s.partition
  unixTime : t.unixTime = s.unixTime

namespace SameTables

variable {s t u : Fs}

theorem refl (s : Fs) : SameTables s s := ⟨rfl, rfl, rfl, rfl, rfl, rfl, rfl, rfl⟩

theorem trans (h : SameTables s t) (h' : SameTables t u) : SameTables s u :=
  ⟨h'.inodes.trans h.inodes, h'.bitmap.trans h.bitmap, h'.mounted.trans h.mounted,
    h'.partLba.trans h.partLba, h'.totalBlocks.trans h.totalBlocks,
    h'.freeBlocks.trans h.freeBlocks, h'.partition.trans h.partition,
    h'.unixTime.trans h.unixTime⟩

theorem symm (h : SameTables s t) : SameTables t s := by
  obtain ⟨h₁, h₂, h₃, h₄, h₅, h₆, h₇, h₈⟩ := h
  exact ⟨h₁.symm, h₂.symm, h₃.symm, h₄.symm, h₅.symm, h₆.symm, h₇.symm, h₈.symm⟩

theorem withDisk (s : Fs) (d : Disk) : SameTables s (s.withDisk d) :=
  ⟨rfl, rfl, rfl, rfl, rfl, rfl, rfl, rfl⟩

theorem withScratch (s : Fs) (mem : ℕ → UInt8) : SameTables s { s with scratch := mem } :=
  ⟨rfl, rfl, rfl, rfl, rfl, rfl, rfl, rfl⟩

end SameTables

variable {s : Fs}

/-- A program that keeps the tables, whether it ends well or with an I/O error. -/
def KeepsTables {α : Type} (x : FsProg α) (s : Fs) : Prop :=
  Prog.Post x s (fun _ t => SameTables s t) fun e t => e = .err .io ∧ SameTables s t

theorem KeepsTables.bind {α β : Type} {x : FsProg α} {f : α → FsProg β} (h : KeepsTables x s)
    (h' : ∀ a t, KeepsTables (f a) t) : KeepsTables (x >>= f) s :=
  Prog.post_bind.2 (Prog.Post.mono h (fun a t ht => (h' a t).mono (fun _ _ hu => ht.trans hu)
    fun _ _ hu => ⟨hu.1, ht.trans hu.2⟩) fun _ _ ht => ht)

theorem keepsTables_write {lba : UInt32} {count length : ℕ} {source : Fs → ℕ → UInt8}
    (hcount : 0 < count) (hlength : count * sectorSize ≤ length)
    (hsource : ∀ d, source (s.withDisk d) = source s) :
    KeepsTables (io (Block.write lba count length source)) s := by
  refine post_io.2 ((Block.write_post hcount hlength hsource).mono (fun _ t ht => ?_)
    fun _ t ht => ⟨rfl, ?_⟩)
  · obtain ⟨⟨τ, rfl⟩, -⟩ := ht
    exact .withDisk s _
  · obtain ⟨k, -, ⟨τ, rfl⟩, -⟩ := ht
    exact .withDisk s _

theorem keepsTables_flushInodes : KeepsTables flushInodes s := by
  refine Prog.Post.forRange (I := fun _ t => SameTables s t) 4 (.refl s) fun chunk t _ _ ht => ?_
  simp only [Prog.post_bind, Prog.post_get]
  exact (keepsTables_write (by decide) (Nat.le_refl _) fun _ => rfl).mono
    (fun _ _ h => ht.trans h) fun _ _ h => ⟨h.1, ht.trans h.2⟩

theorem keepsTables_flushBitmap : KeepsTables flushBitmap s := by
  unfold KeepsTables flushBitmap
  simp only [Prog.post_bind, Prog.post_get]
  exact keepsTables_write (by decide) (Nat.le_refl _) fun _ => rfl

theorem keepsTables_writeBlock (index : UInt32) : KeepsTables (writeBlock index) s := by
  unfold KeepsTables writeBlock
  simp only [Prog.post_bind, Prog.post_get]
  exact keepsTables_write (by decide) (by decide) fun _ => rfl

theorem keepsTables_writeSuper (sb : SuperBlock) : KeepsTables (writeSuper sb) s := by
  unfold KeepsTables writeSuper
  simp only [Prog.post_bind, Prog.post_get]
  exact keepsTables_write (by decide) (by decide) fun _ => rfl

/-- Reading the superblock gives the record at the partition's first sector. -/
theorem readSuper_post :
    Prog.Post readSuper s
      (fun sb t => sb = SuperBlock.ofBytes (s.disk.sectors s.partLba.toNat) ∧
        ∃ τ, t = s.withDisk (s.disk.atTime τ))
      fun e t => e = .err .io ∧ (∃ τ, t = s.withDisk (s.disk.atTime τ)) ∧
        (s.disk.Faulty ∨ ¬ s.disk.InRange s.partLba.toNat 1) := by
  have hstore : ∀ n, Block.storeRange (fun _ _ s => s) s.partLba.toNat s n = s := fun n => by
    induction n with
    | zero => rfl
    | succ n ih => exact ih
  unfold readSuper
  simp only [Prog.post_bind, Prog.post_get]
  refine post_io.2 ((Block.read_post (by decide) (by decide) fun _ _ _ _ => rfl).mono
    (fun _ t ht => ?_) fun _ t ht => ⟨rfl, ?_⟩)
  · obtain ⟨⟨τ, rfl⟩, -⟩ := ht
    rw [hstore]
    exact ⟨rfl, τ, rfl⟩
  · obtain ⟨⟨k, -, τ, rfl⟩, hcause⟩ := ht
    rw [hstore]
    exact ⟨⟨τ, rfl⟩, hcause⟩

theorem keepsTables_readSuper : KeepsTables readSuper s :=
  readSuper_post.mono (fun _ _ ⟨_, _, ht⟩ => ht ▸ .withDisk s _)
    fun _ _ ⟨he, ⟨_, ht⟩, _⟩ => ⟨he, ht ▸ .withDisk s _⟩

/-- `SCRATCH` after the first `n` sectors of a block have been read into it. -/
theorem storeRange_scratch (lba : ℕ) (n : ℕ) :
    Block.storeRange (fun sector bytes s =>
        { s with scratch := storeSector s.scratch sector bytes }) lba s n =
      { s with scratch := fun b =>
        if b / sectorSize < n then s.disk.sectors (lba + b / sectorSize) (b % sectorSize)
        else s.scratch b } := by
  induction n with
  | zero => rfl
  | succ n ih =>
    rw [Block.storeRange, ih]
    refine congrArg (fun mem => ({ s with scratch := mem } : Fs)) (funext fun b => ?_)
    simp only [storeSector]
    by_cases hb : b / sectorSize = n
    · rw [if_pos hb, if_pos (by omega), hb]
    · rw [if_neg hb]
      by_cases hlt : b / sectorSize < n
      · rw [if_pos hlt, if_pos (by omega)]
      · rw [if_neg hlt, if_neg (by omega)]

/-- The state with the data block at `lba` in `SCRATCH`. -/
def loadScratch (s : Fs) (lba n : ℕ) : Fs :=
  { s with scratch := fun b =>
      if b / sectorSize < n then s.disk.sectors (lba + b / sectorSize) (b % sectorSize)
      else s.scratch b }

theorem readBlock_post (index : UInt32) :
    Prog.Post (readBlock index) s
      (fun _ t => ∃ τ, t = (s.loadScratch (blockLba s.partLba index).toNat
        sectorsPerBlock).withDisk (s.disk.atTime τ))
      (fun e t => e = .err .io ∧ ∃ k τ, t = (s.loadScratch (blockLba s.partLba index).toNat
        k).withDisk (s.disk.atTime τ)) := by
  unfold readBlock
  simp only [Prog.post_bind, Prog.post_get]
  refine post_io.2 ((Block.read_post (by decide) (by decide) fun _ _ _ _ => rfl).mono
    (fun _ t ht => ?_) fun _ t ht => ⟨rfl, ?_⟩)
  · obtain ⟨⟨τ, rfl⟩, -⟩ := ht
    exact ⟨τ, by rw [storeRange_scratch]; rfl⟩
  · obtain ⟨⟨k, -, τ, rfl⟩, -⟩ := ht
    exact ⟨k, τ, by rw [storeRange_scratch]; rfl⟩

theorem keepsTables_readBlock (index : UInt32) : KeepsTables (readBlock index) s :=
  (readBlock_post index).mono (fun _ _ ⟨_, ht⟩ => ht ▸ ⟨rfl, rfl, rfl, rfl, rfl, rfl, rfl, rfl⟩)
    fun _ _ ⟨he, _, _, ht⟩ => ⟨he, ht ▸ ⟨rfl, rfl, rfl, rfl, rfl, rfl, rfl, rfl⟩⟩

/-! ### What the commands write -/

/-- A partition that starts where the driver can address it, so that no sector number wraps. -/
def Placed (s : Fs) : Prop := s.partLba.toNat < 2 ^ 28

theorem Placed.toNat_add (h : Placed s) {n : ℕ} (hn : n < 2 ^ 28) :
    (s.partLba + UInt32.ofNat n).toNat = s.partLba.toNat + n := by
  have := h
  simp only [Placed] at this
  rw [UInt32.toNat_add, UInt32.toNat_ofNat_of_lt' (by simp only [UInt32.size]; omega),
    Nat.mod_eq_of_lt (by omega)]

theorem Placed.blockLba (h : Placed s) {index : UInt32} (hindex : index.toNat < maxBlocks) :
    (blockLba s.partLba index).toNat =
      s.partLba.toNat + dataStartSector + index.toNat * sectorsPerBlock := by
  have hp := h
  simp only [Placed, maxBlocks] at hp hindex
  rw [Fs.blockLba, UInt32.toNat_add, h.toNat_add (by decide), UInt32.toNat_mul,
    UInt32.toNat_ofNat_of_lt' (by decide)]
  simp only [dataStartSector, sectorsPerBlock]
  omega

/-- A flush of the inode table writes its 32 sectors, or the first `k`. Its last chunk is the
one most likely to be out of range. -/
theorem flushInodes_post (h : Placed s) :
    Prog.Post flushInodes s
      (fun _ t => s.disk.InRange (s.partLba.toNat + 25) 8 ∧
        ∃ τ, t = s.withDisk ((s.disk.putRange (s.partLba.toNat + inodeTableSector)
          (inodeTableByte s.inodes) inodeTableSectors).atTime τ))
      (fun e t => e = .err .io ∧ (∃ k ≤ inodeTableSectors, ∃ τ,
        t = s.withDisk ((s.disk.putRange (s.partLba.toNat + inodeTableSector)
          (inodeTableByte s.inodes) k).atTime τ)) ∧
        (s.disk.Faulty ∨ ¬ s.disk.InRange (s.partLba.toNat + 25) 8)) := by
  refine (Prog.Post.forRange (I := fun i t => (i = 4 → s.disk.InRange (s.partLba.toNat + 25) 8) ∧
    ∃ τ, t = s.withDisk ((s.disk.putRange (s.partLba.toNat + inodeTableSector)
      (inodeTableByte s.inodes) (8 * i)).atTime τ)) 4 ⟨(fun h => by cases h), s.disk.time, rfl⟩
    fun chunk t _ hi ht => ?_).mono (fun _ _ h => ⟨h.1 rfl, h.2⟩) fun _ _ h => h
  obtain ⟨-, τ, rfl⟩ := ht
  have hlba : (s.partLba + UInt32.ofNat inodeTableSector + UInt32.ofNat chunk * 8).toNat =
      s.partLba.toNat + inodeTableSector + 8 * chunk := by
    have := h
    simp only [Placed] at this
    rw [UInt32.toNat_add, h.toNat_add (by decide), UInt32.toNat_mul,
      UInt32.toNat_ofNat_of_lt' (by simp only [UInt32.size]; omega)]
    simp only [inodeTableSector, UInt32.reduceToNat]
    omega
  -- The chunk goes on where the last one ended.
  have hrange : ∀ k τ' : ℕ, (((s.disk.putRange (s.partLba.toNat + inodeTableSector)
      (inodeTableByte s.inodes) (8 * chunk)).atTime τ).putRange
        (s.partLba + UInt32.ofNat inodeTableSector + UInt32.ofNat chunk * 8).toNat
        (fun b => inodeTableByte s.inodes (chunk * 8 * sectorSize + b)) k).atTime τ' =
      (s.disk.putRange (s.partLba.toNat + inodeTableSector) (inodeTableByte s.inodes)
        (8 * chunk + k)).atTime τ' := fun k τ' => by
    rw [hlba, Disk.putRange_atTime, Disk.atTime_atTime, ← Disk.putRange_add, Nat.mul_comm chunk 8]
  simp only [Prog.post_bind, Prog.post_get]
  refine post_io.2 ((Block.write_post (by decide) (Nat.le_refl _) fun _ => rfl).mono
    (fun _ u hu => ?_) fun _ u hu => ⟨rfl, ?_⟩)
  · obtain ⟨⟨τ', rfl⟩, hin⟩ := hu
    refine ⟨fun hlast => ?_, τ', congrArg s.withDisk (hrange 8 τ')⟩
    rw [withDisk_partLba, hlba, show s.partLba.toNat + inodeTableSector + 8 * chunk =
      s.partLba.toNat + 25 by simp only [inodeTableSector]; omega] at hin
    exact ⟨by simpa using hin.1, by simpa using hin.2.1, hin.2.2⟩
  · obtain ⟨k, hk, ⟨τ', rfl⟩, hcause⟩ := hu
    refine ⟨⟨8 * chunk + k, by simp only [inodeTableSectors]; omega, τ',
      congrArg s.withDisk (hrange k τ')⟩, ?_⟩
    rcases hcause with hfault | ⟨-, hout⟩
    · exact .inl (by simpa [Disk.Faulty] using hfault)
    · refine .inr fun hin => hout ?_
      obtain ⟨hpresent, htotal, hlt⟩ := hin
      refine ⟨by simpa using hpresent, ?_, ?_⟩
      · rw [withDisk_partLba, hlba]
        simp only [inodeTableSector, withDisk_disk, Disk.atTime_totalSectors,
          Disk.putRange_totalSectors]
        omega
      · rw [withDisk_partLba, hlba]
        simp only [inodeTableSector]
        omega

theorem flushBitmap_post (h : Placed s) :
    Prog.Post flushBitmap s
      (fun _ t => s.disk.InRange (s.partLba.toNat + bitmapSector) bitmapSectors ∧
        ∃ τ, t = s.withDisk ((s.disk.putRange (s.partLba.toNat + bitmapSector)
          s.bitmap bitmapSectors).atTime τ))
      (fun e t => e = .err .io ∧ (∃ k ≤ bitmapSectors, ∃ τ,
        t = s.withDisk ((s.disk.putRange (s.partLba.toNat + bitmapSector) s.bitmap k).atTime τ)) ∧
        (s.disk.Faulty ∨ ¬ s.disk.InRange (s.partLba.toNat + bitmapSector) bitmapSectors)) := by
  unfold flushBitmap
  simp only [Prog.post_bind, Prog.post_get]
  rw [← h.toNat_add (n := bitmapSector) (by decide)]
  refine post_io.2 ((Block.write_post (by decide) (Nat.le_refl _) fun _ => rfl).mono
    (fun _ u hu => hu.symm) fun _ u hu => ⟨rfl, ?_⟩)
  obtain ⟨k, hk, hu, hcause⟩ := hu
  exact ⟨⟨k, hk, hu⟩, hcause.imp_right And.right⟩

theorem writeSuper_post (sb : SuperBlock) :
    Prog.Post (writeSuper sb) s
      (fun _ t => s.disk.InRange s.partLba.toNat 1 ∧
        ∃ τ, t = s.withDisk ((s.disk.putRange s.partLba.toNat sb.byte 1).atTime τ))
      (fun e t => e = .err .io ∧ ∃ k ≤ 1, ∃ τ,
        t = s.withDisk ((s.disk.putRange s.partLba.toNat sb.byte k).atTime τ)) := by
  unfold writeSuper
  simp only [Prog.post_bind, Prog.post_get]
  refine post_io.2 ((Block.write_post (by decide) (by decide) fun _ => rfl).mono
    (fun _ u hu => hu.symm) fun _ u hu => ⟨rfl, ?_⟩)
  obtain ⟨k, hk, hu, -⟩ := hu
  exact ⟨k, hk, hu⟩

theorem writeBlock_post (index : UInt32) :
    Prog.Post (writeBlock index) s
      (fun _ t => ∃ τ, t = s.withDisk ((s.disk.putRange (blockLba s.partLba index).toNat
        s.scratch sectorsPerBlock).atTime τ))
      (fun e t => e = .err .io ∧ ∃ k ≤ sectorsPerBlock, ∃ τ,
        t = s.withDisk
          ((s.disk.putRange (blockLba s.partLba index).toNat s.scratch k).atTime τ)) := by
  unfold writeBlock
  simp only [Prog.post_bind, Prog.post_get]
  refine post_io.2 ((Block.write_post (by decide) (by decide) fun _ => rfl).mono
    (fun _ u hu => hu.1) fun _ u hu => ⟨rfl, ?_⟩)
  obtain ⟨k, hk, hu, -⟩ := hu
  exact ⟨k, hk, hu⟩

end Fs

end Tcmk
