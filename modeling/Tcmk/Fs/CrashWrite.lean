import Tcmk.Fs.Crash

/-!
# Crashes during a write

The blocks that a write takes (`NewBlock`) and the number of its sector writes before the tables
go to the disk (`8 * blocksTouched`) are known from its arguments and the tables.
`write_crashes` says at which of its sector writes the disk may not be good.
-/

namespace Tcmk

open Lib

namespace Fs

variable {s t u : Fs} {D D' : Sectors} {G : ℕ → Sectors → Prop} {index : ℕ}

/-! ## The blocks a write takes -/

/-- A write that allocates `count` blocks takes the block `b`: fewer than `count` clear bits come
before it. -/
def NewBlock (s : Fs) (count b : ℕ) : Prop :=
  b < s.totalBlocks.toNat ∧ bitGet s.bitmap b = false ∧ countFree s.bitmap b < count

/-- In `t`, `taken` of the blocks clear in `s` have been allocated. -/
structure Took (s : Fs) (taken : ℕ) (t : Fs) : Prop where
  total : t.totalBlocks = s.totalBlocks
  kept : ∀ b, bitGet s.bitmap b = true → bitGet t.bitmap b = true
  count : ∀ n, countFree s.bitmap n ≤ countFree t.bitmap n + taken

theorem Took.refl (s : Fs) : Took s 0 s := ⟨rfl, fun _ h => h, fun _ => Nat.le_refl _⟩

theorem countFree_firstFree {bitmap : ℕ → UInt8} {n b : ℕ} (h : firstFree bitmap n = some b) :
    countFree bitmap b = 0 := by
  rw [firstFree, List.find?_range_eq_some] at h
  rw [countFree_eq, List.countP_eq_zero]
  intro i hi
  have := h.2.2 i (List.mem_range.1 hi)
  simpa using this

/-- The next block that is allocated was among the first clear ones at the start. -/
theorem Took.newBlock {taken b : ℕ} (h : Took s taken t)
    (hb : firstFree t.bitmap t.totalBlocks.toNat = some b) : NewBlock s (taken + 1) b := by
  obtain ⟨hlt, hclear⟩ := firstFree_some hb
  refine ⟨h.total ▸ hlt, ?_, ?_⟩
  · cases hset : bitGet s.bitmap b with
    | false => rfl
    | true => exact (h.kept b hset).symm.trans hclear
  · have := h.count b
    rw [countFree_firstFree hb] at this
    omega

theorem Took.allocated {taken b : ℕ} (h : Took s taken t) (hclear : bitGet t.bitmap b = false) :
    Took s (taken + 1) (t.allocated b) := by
  refine ⟨h.total, fun b' hset => ?_, fun n => ?_⟩
  · show bitGet (bitSet t.bitmap b true) b' = true
    rw [bitGet_bitSet]
    split
    · rfl
    · exact h.kept b' hset
  · have hcount := h.count n
    show countFree s.bitmap n ≤ countFree (bitSet t.bitmap b true) n + (taken + 1)
    by_cases hb : b < n
    · have := countFree_bitSet hb hclear
      omega
    · have hsame : countFree (bitSet t.bitmap b true) n = countFree t.bitmap n := by
        rw [countFree_eq, countFree_eq]
        refine List.countP_congr fun i hi => ?_
        have hi := List.mem_range.1 hi
        rw [bitGet_bitSet_of_ne _ (by omega)]
      omega

theorem NewBlock.mono {count count' b : ℕ} (h : NewBlock s count b) (hle : count ≤ count') :
    NewBlock s count' b := ⟨h.1, h.2.1, Nat.lt_of_lt_of_le h.2.2 hle⟩

theorem allocBlocks_new {have_ : ℕ} (htotal : s.totalBlocks.toNat ≤ maxBlocks) (count : ℕ)
    {i : ℕ} {t : Fs} (hi : have_ ≤ i) (ht : Took s (i - have_) t)
    (hnew : ∀ a ∈ pending index have_ i, NewBlock s (i - have_) (t.pointer a)) :
    Prog.Post (allocBlocks index have_ count i) t
      (fun _ u => ∀ a ∈ pending index have_ (i + count),
        NewBlock s (i + count - have_) (u.pointer a)) fun _ _ => True := by
  induction count generalizing i t with
  | zero => exact hnew
  | succ count ih =>
    rw [allocBlocks]
    refine Prog.post_bind.2 ((allocBlock_post t).mono (fun r u hu => ?_) fun _ _ h => h.elim)
    cases hfree : firstFree t.bitmap t.totalBlocks.toNat with
    | some b =>
      rw [hfree] at hu
      obtain ⟨rfl, rfl⟩ := hu
      simp only
      split
      · trivial
      refine Prog.post_bind.2 (Prog.post_modify.2 ?_)
      have hb := ht.newBlock hfree
      rw [show i - have_ + 1 = i + 1 - have_ by omega] at hb
      have htook := ht.allocated (firstFree_some hfree).2
      rw [show i - have_ + 1 = i + 1 - have_ by omega] at htook
      rw [show i + (count + 1) = i + 1 + count by omega]
      refine ih (Nat.le_succ_of_le hi) ⟨htook.total, htook.kept, htook.count⟩ fun a ha => ?_
      rw [pointer_setBlock]
      split
      · rwa [UInt32.toNat_ofNat_of_lt' (by
          have := hb.1
          simp only [maxBlocks, UInt32.size] at htotal ⊢
          omega)]
      · rename_i hne
        refine (hnew a ⟨ha.1, ha.2.1, ?_⟩).mono (by omega)
        have hlt := ha.2.2
        have : a.2 ≠ i := fun heq => hne (Prod.ext ha.1 heq)
        omega
    | none =>
      rw [hfree] at hu
      obtain ⟨rfl, rfl⟩ := hu
      exact Prog.post_bind.2 (Prog.post_true.mono (fun _ _ _ => trivial) fun _ _ _ => trivial)

/-! ## The data loop -/

/-- The number of blocks that `length` bytes from `offset` on lie in. -/
def blocksTouched (offset length : ℕ) : ℕ :=
  if length = 0 then 0 else (offset + length - 1) / blockSize - offset / blockSize + 1

theorem blocksTouched_round (position : ℕ) {left : ℕ} (h : 0 < left) :
    let chunk := min (blockSize - position % blockSize) left
    blocksTouched position left = 1 + blocksTouched (position + chunk) (left - chunk) := by
  intro chunk
  have hchunk : chunk = min (blockSize - position % blockSize) left := rfl
  simp only [blocksTouched, blockSize] at hchunk ⊢
  rw [if_neg (Nat.ne_of_gt h)]
  rcases Nat.le_total left (4096 - position % 4096) with hle | hle
  · rw [Nat.min_eq_right hle] at hchunk
    rw [if_pos (by omega)]
    omega
  · rw [Nat.min_eq_left hle] at hchunk
    split
    · omega
    · omega

/-- On the way from `s` to `t`, `n` sectors outside the metadata have been written. -/
structure DataWent (s t : Fs) (n : ℕ) : Prop where
  log : s.disk.Logged (fun _ D => SameMeta s s.disk.sectors D) t.disk
  length : t.disk.writes.length = s.disk.writes.length + n
  tables : SameTables s t
  device : Disk.SameDevice s.disk t.disk

namespace DataWent

variable {m n : ℕ}

theorem refl (s : Fs) : DataWent s s 0 :=
  ⟨.refl (.refl s _), rfl, .refl s, .refl _⟩

theorem trans (h : DataWent s t m) (h' : DataWent t u n) : DataWent s u (m + n) := by
  refine ⟨h.log.trans (h'.log.mono fun _ D hD l hl hlt => ?_),
    by rw [h'.length, h.length, Nat.add_assoc], h.tables.trans h'.tables,
    h.device.trans h'.device⟩
  rw [← h.tables.partLba] at hl hlt
  rw [hD l hl hlt]
  rw [h.tables.partLba] at hl hlt
  exact h.log.last l hl hlt

theorem of_onlyRead (h : OnlyRead s t) : DataWent s t 0 := by
  obtain ⟨mem, τ, rfl⟩ := h
  exact ⟨(Disk.Logged.refl (SameMeta.refl s _)).atTime τ, rfl, ⟨rfl, rfl, rfl, rfl, rfl, rfl, rfl,
    rfl⟩, ⟨rfl, rfl, rfl⟩⟩

theorem putRange {lba k τ : ℕ} {bytes : ℕ → UInt8}
    (hlba : s.partLba.toNat + dataStartSector ≤ lba) :
    DataWent s (s.withDisk ((s.disk.putRange lba bytes k).atTime τ)) k := by
  refine ⟨(Disk.logged_putRange k fun j _ l _ hlt => ?_).atTime τ, by simp, .withDisk s _,
    ⟨by simp, by simp, by simp⟩⟩
  refine Disk.putRange_sectors_of_not _ _ _ _ (.inl ?_)
  simp only [bitmapSector, bitmapSectors, dataStartSector] at hlt hlba
  omega

theorem went (h : DataWent s t n) (hG : ∀ n D, SameMeta s s.disk.sectors D → G n D) :
    Went G s t :=
  ⟨h.log.mono hG, h.tables.partLba, h.tables.totalBlocks, h.device.fault⟩

/-- The metadata is where it was, in memory and on the disk. -/
theorem synced (h : DataWent s t n) (hs : Synced s) : Synced t := by
  have hmeta : SameMeta s s.disk.sectors t.disk.sectors := h.log.last
  have hlba := h.tables.partLba
  have honDisk : ∀ D, (t.onDisk D).live = (s.onDisk D).live ∧
      (t.onDisk D).pointer = (s.onDisk D).pointer := fun D => by
    have hinodes : (t.onDisk D).inodes = (s.onDisk D).inodes := by simp only [onDisk, hlba]
    exact ⟨by simp only [live, hinodes], by funext a; simp only [pointer, hinodes]⟩
  have hfiles := hmeta.files
  refine ⟨?_, h.tables.live ▸ hs.books.sameTables h.tables, ?_, ?_, (hs.good.sameMeta hmeta).congr
    hlba h.tables.totalBlocks⟩
  · obtain ⟨hplaced, ⟨sectors, hpart, htotal⟩, hsuper, hinodes, hbitmap⟩ := hs.attached
    exact ⟨h.tables.placed hplaced, ⟨sectors, by rw [h.tables.partition, hlba]; exact hpart,
      h.tables.totalBlocks.trans htotal⟩, by rw [hlba]; exact h.device.inRange hsuper,
      by rw [hlba]; exact h.device.inRange hinodes, by rw [hlba]; exact h.device.inRange hbitmap⟩
  · intro a ha
    rw [(honDisk _).1] at ha
    rw [(honDisk _).2, h.tables.live, h.tables.pointer]
    exact hs.down.trans hfiles.1 a ha
  · intro a ha
    rw [h.tables.live] at ha
    rw [(honDisk _).1, (honDisk _).2, h.tables.pointer]
    exact hfiles.2.trans hs.up a ha

end DataWent

theorem writeBlock_dataWent (hs : Placed s) {block : UInt32} (hblock : block.toNat < maxBlocks) :
    Prog.Post (writeBlock block) s (fun _ t => DataWent s t sectorsPerBlock)
      fun _ t => ∃ n, DataWent s t n := by
  have hlba : s.partLba.toNat + dataStartSector ≤ (blockLba s.partLba block).toNat := by
    rw [hs.blockLba hblock]
    exact Nat.le_add_right _ _
  exact (writeBlock_post block).mono (fun _ _ ⟨_, ht⟩ => ht ▸ .putRange hlba)
    fun _ _ ⟨_, k, _, _, ht⟩ => ⟨k, ht ▸ .putRange hlba⟩

theorem prepareScratch_onlyRead (index have_ blockIndex chunk : ℕ) (s : Fs) :
    Prog.Post (prepareScratch index have_ blockIndex chunk) s (fun _ t => OnlyRead s t)
      fun _ t => OnlyRead s t := by
  rw [prepareScratch]
  split
  · split
    · simp only [Prog.post_bind, Prog.post_get]
      split
      · exact .refl s
      · exact readBlock_onlyRead _
    · exact .scratch s _
  · exact .refl s

/-- The data loop writes its blocks, whose pointers are good, and nothing else. -/
theorem writeLoop_dataWent (arch : Arch) {offset have_ : ℕ} {data : List UInt8}
    (hwrap : offset + data.length < 2 ^ arch.wordBits)
    (fuel : ℕ) {done : ℕ} {s : Fs} (hs : Placed s)
    (hptr : ∀ k < blockCount (offset + data.length), offset / blockSize ≤ k →
      s.pointer (index, k) < maxBlocks)
    (hfuel : data.length - done ≤ fuel) :
    Prog.Post (writeLoop arch index offset have_ data fuel done) s
      (fun _ t => DataWent s t (8 * blocksTouched (offset + done) (data.length - done)))
      fun _ t => ∃ n, DataWent s t n := by
  induction fuel generalizing done s with
  | zero =>
    rw [show data.length - done = 0 by omega]
    exact .refl s
  | succ fuel ih =>
    rw [writeLoop]
    split
    · rw [show data.length - done = 0 by omega]
      exact .refl s
    rename_i hdone
    rw [Nat.mod_eq_of_lt (show offset + done < 2 ^ arch.wordBits by omega)]
    have hround := blocksTouched_round (offset + done)
      (show 0 < data.length - done by omega)
    simp only at hround ⊢
    have hchunk : 0 < min (blockSize - (offset + done) % blockSize) (data.length - done) := by
      simp only [blockSize]
      omega
    generalize min (blockSize - (offset + done) % blockSize) (data.length - done) = chunk
      at hround hchunk ⊢
    refine Prog.post_bind.2 ((prepareScratch_onlyRead _ _ _ _ s).mono (fun _ t ht => ?_)
      fun _ t ht => ⟨0, .of_onlyRead ht⟩)
    refine Prog.post_bind.2 (Prog.post_modify.2 ?_)
    have hfill : DataWent s (t.fillScratch ((offset + done) % blockSize) chunk data done) 0 :=
      .of_onlyRead (ht.trans (.scratch t _))
    generalize t.fillScratch ((offset + done) % blockSize) chunk data done = u at hfill ⊢
    simp only [Prog.post_bind, Prog.post_get]
    split
    · exact ⟨0, hfill⟩
    have hblock : u.pointer (index, (offset + done) / blockSize) < maxBlocks := by
      rw [hfill.tables.pointer]
      refine hptr _ ?_ (Nat.div_le_div_right (Nat.le_add_right _ _))
      simp only [blockCount, blockSize]
      omega
    refine Prog.post_bind.2 ((writeBlock_dataWent (hfill.tables.placed hs) hblock).mono
      (fun _ v hv => ?_) fun _ _ h => h.elim fun n hn => ⟨0 + n, hfill.trans hn⟩)
    have hsv := hfill.trans hv
    refine (ih (hsv.tables.placed hs) (fun k hk hle => ?_) (by omega)).mono (fun _ x hx => ?_)
      fun _ _ h => h.elim fun n hn => ⟨_, hsv.trans hn⟩
    · rw [hsv.tables.pointer]
      exact hptr k hk hle
    · rw [hround, Nat.mul_add, Nat.add_assoc offset, Nat.sub_sub]
      exact hsv.trans hx

/-! ## The tables of a write -/

/-- The two flushes at the end of a write: memory has the files of the disk and new blocks of one
file. Where `G` fails, some new block is on the disk in the inode but not in the bitmap. -/
theorem flushTables_crashes {New : ℕ → Prop} (hattached : Attached s)
    (hbooks : Books s s.live False) (hgood : Good s s.disk.sectors)
    (hold : ∀ a ∈ s.live, (a ∈ (s.onDisk s.disk.sectors).live ∧
      s.pointer a = (s.onDisk s.disk.sectors).pointer a) ∨ a.1 = index ∧ New (s.pointer a))
    (hindex : index < maxInodes) (hG : Allows G s)
    (hexposed : ∀ k b D, New b → index / 2 < k → k ≤ inodeTableSectors + b / (8 * sectorSize) →
      G (s.disk.writes.length + k) D) :
    Crashes G (flushInodes >>= fun _ => flushBitmap) s := by
  have hinodes : ∀ k ≤ inodeTableSectors, G (s.disk.writes.length + k) (s.disk.putRange
      (s.partLba.toNat + inodeTableSector) (inodeTableByte s.inodes) k).sectors := by
    intro k hk
    by_cases hnew : ∃ b, New b ∧ index / 2 < k
    · obtain ⟨b, hb, hlt⟩ := hnew
      exact hexposed k b _ hb hlt (hk.trans (Nat.le_add_right _ _))
    · refine hG _ _ (good_flushInodes hgood hk fun a ha hlt => ?_)
      rcases hold a ha with h | ⟨rfl, h⟩
      · exact h
      · exact absurd ⟨_, h, hlt⟩ hnew
  refine Prog.post_bind.2 ((flushInodes_post hattached.placed).mono (fun _ t ⟨_, τ, ht⟩ => ?_)
    fun stop t ⟨he, ⟨k, hk, τ, ht⟩, hcause⟩ => ?_)
  · have hflushed := inodesFlushed (fun a ha => (hbooks.slot a ha).2) s.disk τ
    have hwent : Went G s t := ht ▸ .putRange τ hinodes
    generalize Disk.atTime _ τ = d at ht hflushed
    subst ht
    refine Crashes.since (crashes_flushBitmap_new (hattached.withDisk hflushed.device)
      (hbooks.congr rfl rfl rfl fun _ _ => rfl) (hflushed.super.2 hgood.super) hflushed.down
      hflushed.up (hG.congr hwent.volume) fun k hk => ?_) hwent
    by_cases hnew : ∃ a ∈ s.live, New (s.pointer a) ∧ k ≤ s.pointer a / 8 / sectorSize
    · obtain ⟨a, _, hb, hle⟩ := hnew
      refine .inr fun D => ?_
      rw [withDisk_disk, hflushed.length, Nat.add_assoc]
      refine hexposed _ _ D hb ?_ ?_
      · simp only [maxInodes, inodeTableSectors] at hindex ⊢
        omega
      · rw [← Nat.div_div_eq_div_mul]
        exact Nat.add_le_add_left hle _
    · refine .inl fun a ha => ?_
      rcases hold a ha with ⟨hmem, hptr⟩ | ⟨_, hb⟩
      · obtain ⟨hlt, hset⟩ := hgood.owns.used a hmem
        rw [← hptr] at hlt hset
        exact .inl ⟨hlt, (hflushed.bit _).trans hset⟩
      · exact .inr (not_le.1 fun hle => hnew ⟨a, ha, hb, hle⟩)
  · subst ht
    exact ⟨.putRange τ fun j hj => hinodes j (hj.trans hk),
      fun h => (hcause.resolve_left (h.2 he) hattached.inodes).elim⟩

theorem Allocating.disk {have_ : ℕ} (h : Allocating s index have_ t) : t.disk = s.disk := by
  obtain ⟨blocks, bitmap, free, -, rfl⟩ := h
  rfl

/-- Allocating changes nothing that is on the disk. -/
theorem Allocating.synced (h : Allocating s index (blockCount (s.inodes index).size.toNat) t)
    (hs : Synced s) (hbooks : Books t s.live False) : Synced t := by
  have hlive := h.live
  have hptr : ∀ a ∈ s.live, t.pointer a = s.pointer a := fun a ha =>
    h.pointer fun heq => heq ▸ ha.2.2
  obtain ⟨blocks, bitmap, free, -, rfl⟩ := h
  obtain ⟨hplaced, hpartition, hsuper, hinodes, hbitmap⟩ := hs.attached
  refine ⟨⟨hplaced, hpartition, hsuper, hinodes, hbitmap⟩, hlive ▸ hbooks, fun a ha => ?_,
    fun a ha => ?_, hs.good.congr rfl rfl⟩
  · obtain ⟨hmem, heq⟩ := hs.down a ha
    exact ⟨hlive ▸ hmem, heq.trans (hptr a hmem).symm⟩
  · rw [hlive] at ha
    obtain ⟨hmem, heq⟩ := hs.up a ha
    exact ⟨hmem, (hptr a ha).trans heq⟩

/-- A write. Its crash points may lack the property when a new block is in the inode on the disk
and not yet in the bitmap there. -/
theorem write_crashes (arch : Arch) {offset : ℕ} {data : List UInt8} (hs : Synced s)
    (hoffset : arch.IsUsize offset) (hlen : arch.IsSliceLen data.length) (hG : Allows G s)
    (hexposed : ∀ k b D, NewBlock s (blockCount (offset + data.length) -
        blockCount (s.inodes index).size.toNat) b → index / 2 < k →
      k ≤ inodeTableSectors + b / (8 * sectorSize) →
      G (s.disk.writes.length + 8 * blocksTouched offset data.length + k) D) :
    Crashes G (write arch index offset data) s := by
  unfold Crashes CrashesFrom
  rw [write]
  simp only [Prog.post_bind, Prog.post_get]
  split
  · exact crashes_stop hs hG _
  split
  · exact crashes_stop hs hG _
  rename_i hfile
  rw [not_or, not_le, not_not] at hfile
  obtain ⟨hindex, hkind⟩ := hfile
  split
  · exact crashes_stop hs hG _
  rename_i hmax
  rw [not_lt] at hmax
  have hown : OwnPointers s index (blockCount (s.inodes index).size.toNat) := fun _ h => h.2.2
  have hhave := hs.books.blockCount_le hindex hkind
  have hneeded := blockCount_le hmax
  have hstay : ∀ {u}, Allocating s index (blockCount (s.inodes index).size.toNat) u →
      Went G s u := fun h => by
    obtain ⟨blocks, bitmap, free, -, rfl⟩ := h
    exact .of_disk (hG _ _ hs.good) (Disk.atTime_time _).symm rfl rfl
  refine Prog.post_bind.2 (((allocBlocks_post (c := False) hindex hown _ (Nat.le_refl _) (by omega)
    (.refl s index _) (by rw [pending_self, Set.union_empty]; exact hs.books)).and
    (allocBlocks_new hs.books.total_le _ (Nat.le_refl _) (by rw [Nat.sub_self]; exact .refl s)
      fun a ha => absurd ha (by rw [pending_self]; exact id))).mono
    (fun _ u halloced => ?_) fun _ u h =>
      ⟨hstay h.1.2.1, fun _ => h.1.2.1.synced hs h.1.2.2⟩)
  obtain ⟨⟨halloc, hbooks⟩, hnew⟩ := halloced
  rw [pending_add_sub] at hbooks hnew
  have hu := halloc.synced hs (hbooks.mono Set.subset_union_left)
  by_cases hwrap : offset + data.length < 2 ^ arch.wordBits
  · rw [Nat.mod_eq_of_lt hwrap] at hmax hneeded hbooks hnew ⊢
    have hGu := hG.congr (hstay halloc).volume
    have hlog : ∀ n D, SameMeta u u.disk.sectors D → G n D := fun n D hD =>
      hGu n D (hu.good.sameMeta hD)
    refine Prog.post_bind.2 ((@writeLoop_dataWent index arch offset _ data hwrap data.length 0 u
      hu.attached.placed (fun k hk _ => ?_) (Nat.sub_le _ _)).mono (fun _ v hv => ?_)
      fun _ v hstop => ?_)
    · have hmem : (index, k) ∈ s.live ∪ pending index (blockCount (s.inodes index).size.toNat)
          (blockCount (offset + data.length)) := by
        by_cases hold : k < blockCount (s.inodes index).size.toNat
        · exact .inl ⟨hindex, hkind, hold⟩
        · exact .inr ⟨rfl, not_lt.1 hold, hk⟩
      exact Nat.lt_of_lt_of_le (hbooks.lt _ hmem) hbooks.total_le
    · refine Prog.post_bind.2 (Prog.post_modify.2 ?_)
      have hsv := (hstay halloc).trans (hv.went hlog)
      have hsynced := hv.synced hu
      have hinode := halloc.inode
      rw [← hv.tables.inodes] at hinode
      have hlive := live_finishWrite (s := v) hmax hindex (hinode.1.trans hkind)
      rw [hinode.2] at hlive
      have hattached : Attached (v.finishWrite index (offset + data.length)) :=
        ⟨hsynced.attached.placed, hsynced.attached.partition, hsynced.attached.super,
          hsynced.attached.inodes, hsynced.attached.bitmap⟩
      have hbooks' : Books (v.finishWrite index (offset + data.length))
          (v.finishWrite index (offset + data.length)).live False := by
        rw [hlive, hv.tables.live, halloc.live]
        exact (hbooks.sameTables hv.tables).congr rfl rfl rfl fun a _ =>
          pointer_finishWrite v index _ a
      have hlength : v.disk.writes.length =
          s.disk.writes.length + 8 * blocksTouched offset data.length := by
        rw [hv.length, halloc.disk]
        rfl
      have htail := (flushTables_crashes hattached hbooks' (hsynced.good.congr rfl rfl)
        (fun a ha => ?_) hindex (hG.congr (hsv.volume.trans ⟨rfl, rfl, rfl⟩))
        (hlength ▸ hexposed)).since (hsv.trans
          (.of_disk (hG.congr hsv.volume _ _ hsynced.good) (Disk.atTime_time _).symm rfl rfl))
      · unfold CrashesFrom at htail
        simp only [Prog.post_bind, Prog.post_pure] at htail ⊢
        exact htail
      rw [pointer_finishWrite]
      rw [hlive] at ha
      rcases ha with ha | ha
      · exact .inl (hsynced.up a ha)
      · refine .inr ⟨ha.1, ?_⟩
        have hb := hnew a ha
        rwa [Nat.add_sub_cancel_left, ← hv.tables.pointer] at hb
    · obtain ⟨n, hv⟩ := hstop
      exact ⟨(hstay halloc).trans (hv.went hlog), fun _ => hv.synced hu⟩
  · exact Prog.post_bind.2 ((writeLoop_wrapped arch hoffset hlen hwrap).mono
      (fun _ _ h => h) fun _ _ hv => ⟨(hstay halloc).trans (.of_disk
        (hG.congr (hstay halloc).volume _ _ hu.good) hv.2.1 hv.2.2.partLba hv.2.2.totalBlocks),
        fun h => absurd hv.1 h.1⟩)

end Fs

end Tcmk
