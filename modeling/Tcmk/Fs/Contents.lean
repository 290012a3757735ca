import Tcmk.Fs.Ownership

/-!
# What a file contains

The contents of a file are a byte string; a write replaces bytes of it and extends it with zeros
where it has to (`splice`). `contents_of_zeroed`: if no write starts beyond the first block the
file does not have yet (`Zeroed`), every read returns the bytes of that string. The blocks that
a write skips are allocated but never written, so without the condition a read returns what a
removed file has left in them (`contents_fail`).

The bytes behind the end of a file matter as well, because a later write may make them part of
the file. They are zero up to the end of its last block (`Holds.bytes`).
-/

namespace Tcmk

open Lib

/-- Write `data` at `offset` into a byte string, with zeros between its old end and `offset`. -/
def splice (f : List UInt8) (offset : ℕ) (data : List UInt8) : List UInt8 :=
  (List.range (max f.length (offset + data.length))).map fun p =>
    if offset ≤ p ∧ p < offset + data.length then data.getD (p - offset) 0 else f.getD p 0

theorem length_splice (f : List UInt8) (offset : ℕ) (data : List UInt8) :
    (splice f offset data).length = max f.length (offset + data.length) := by
  rw [splice, List.length_map, List.length_range]

theorem getD_splice (f : List UInt8) (offset : ℕ) (data : List UInt8) (p : ℕ) :
    (splice f offset data).getD p 0 =
      if offset ≤ p ∧ p < offset + data.length then data.getD (p - offset) 0
      else f.getD p 0 := by
  by_cases hp : p < max f.length (offset + data.length)
  · rw [List.getD_eq_getElem _ _ (by rwa [length_splice])]
    simp only [splice, List.getElem_map, List.getElem_range]
  · rw [List.getD_eq_default _ _ (by rw [length_splice]; omega), if_neg (by omega),
      List.getD_eq_default _ _ (by omega)]

/-- The files by inode. -/
abbrev Files := ℕ → Option (List UInt8)

namespace Fs

variable {s t u : Fs} {m : Files} {L : Set (ℕ × ℕ)} {index : ℕ} {f : List UInt8}

/-- Byte `k` of a data block on the disk. -/
def blockByte (s : Fs) (block k : ℕ) : UInt8 :=
  s.disk.sectors (s.partLba.toNat + dataStartSector + block * sectorsPerBlock + k / sectorSize)
    (k % sectorSize)

/-- The byte at position `p` of a file. -/
def byteAt (s : Fs) (index p : ℕ) : UInt8 :=
  s.blockByte (s.pointer (index, p / blockSize)) (p % blockSize)

/-- The data blocks are the same. -/
def SameData (s t : Fs) : Prop := ∀ block k, t.blockByte block k = s.blockByte block k

theorem SameData.refl (s : Fs) : SameData s s := fun _ _ => rfl

theorem SameData.trans (h : SameData s t) (h' : SameData t u) : SameData s u :=
  fun block k => (h' block k).trans (h block k)

/-- A flush of metadata leaves the data blocks alone. -/
theorem sameData_putRange {lba n τ : ℕ} {bytes : ℕ → UInt8}
    (h : lba + n ≤ s.partLba.toNat + dataStartSector) :
    SameData s (s.withDisk ((s.disk.putRange lba bytes n).atTime τ)) := fun block k => by
  simp only [blockByte, withDisk_partLba, withDisk_disk, Disk.atTime_sectors]
  rw [Disk.putRange_sectors_of_not _ _ _ _ (.inr (by
    generalize k / sectorSize = q
    omega))]

/-- A block write sets the bytes of its block only. -/
theorem blockByte_writeBlock (hs : Placed s) {index : UInt32} (hindex : index.toNat < maxBlocks)
    {τ block k : ℕ} (hk : k < blockSize) :
    (s.withDisk ((s.disk.putRange (blockLba s.partLba index).toNat s.scratch
      sectorsPerBlock).atTime τ)).blockByte block k =
        if block = index.toNat then s.scratch k else s.blockByte block k := by
  simp only [blockByte, withDisk_partLba, withDisk_disk, Disk.atTime_sectors]
  rw [Disk.putRange_sectors, hs.blockLba hindex]
  have hq : k / sectorSize < sectorsPerBlock := Nat.div_lt_of_lt_mul hk
  by_cases hb : block = index.toNat
  · subst hb
    rw [if_pos ⟨Nat.le_add_right _ _, Nat.add_lt_add_left hq _⟩, if_pos rfl,
      Nat.add_sub_cancel_left, Nat.div_add_mod']
  · have hne : ¬ (s.partLba.toNat + dataStartSector + index.toNat * sectorsPerBlock ≤
        s.partLba.toNat + dataStartSector + block * sectorsPerBlock + k / sectorSize ∧
        s.partLba.toNat + dataStartSector + block * sectorsPerBlock + k / sectorSize <
          s.partLba.toNat + dataStartSector + index.toNat * sectorsPerBlock + sectorsPerBlock) := by
      generalize k / sectorSize = q at hq
      simp only [sectorsPerBlock] at hq ⊢
      omega
    rw [if_neg hne, if_neg hb]

/-! ## Commands and tables -/

theorem flushInodes_data (h : Placed s) :
    Prog.Post flushInodes s (fun _ t => SameTables s t ∧ SameData s t) fun _ _ => True :=
  (flushInodes_post h).mono (fun _ _ ⟨_, _, ht⟩ => ht ▸ ⟨.withDisk s _, sameData_putRange (by
    simp only [inodeTableSector, inodeTableSectors, dataStartSector]; omega)⟩) fun _ _ _ => trivial

theorem flushBitmap_data (h : Placed s) :
    Prog.Post flushBitmap s (fun _ t => SameTables s t ∧ SameData s t) fun _ _ => True :=
  (flushBitmap_post h).mono (fun _ _ ⟨_, _, ht⟩ => ht ▸ ⟨.withDisk s _, sameData_putRange (by
    simp only [bitmapSector, bitmapSectors, dataStartSector]; omega)⟩) fun _ _ _ => trivial

/-- The superblock can be written only where the driver can address it. -/
theorem writeSuper_data (sb : SuperBlock) :
    Prog.Post (writeSuper sb) s (fun _ t => SameTables s t ∧ SameData s t ∧ Placed s)
      fun _ _ => True :=
  (writeSuper_post sb).mono (fun _ _ ⟨hin, _, ht⟩ => ht ▸ ⟨.withDisk s _,
    sameData_putRange (by simp only [dataStartSector]; omega), hin.2.2⟩) fun _ _ _ => trivial

theorem SameTables.placed (h : SameTables s t) (hs : Placed s) : Placed t := by
  rwa [Placed, h.partLba]

theorem SameTables.pointer (h : SameTables s t) : t.pointer = s.pointer := by
  funext a
  simp only [Fs.pointer, h.inodes]

theorem SameData.byteAt (hdata : SameData s t) (htables : SameTables s t) (index p : ℕ) :
    t.byteAt index p = s.byteAt index p := by
  rw [Fs.byteAt, htables.pointer, hdata]
  rfl

/-! ## The relation -/

/-- The disk holds the files `m`: each byte of a file, and zeros up to the end of its last
block. -/
structure Holds (s : Fs) (m : Files) : Prop where
  placed : Placed s
  books : Books s s.live False
  kind : ∀ i < maxInodes, (m i).isSome ↔ (s.inodes i).kind = kindFile
  length : ∀ i < maxInodes, ∀ f, m i = some f → f.length = (s.inodes i).size.toNat
  bytes : ∀ i < maxInodes, ∀ f, m i = some f →
    ∀ p < blockCount f.length * blockSize, s.byteAt i p = f.getD p 0

/-- A call that changes one inode, and no byte of another file. -/
theorem Holds.update (hs : Holds s m) (hplaced : Placed t) (hbooks : Books t t.live False)
    (hinodes : ∀ i ≠ index, t.inodes i = s.inodes i)
    (hother : ∀ a ∈ s.live, a.1 ≠ index → ∀ k < blockSize,
      t.blockByte (s.pointer a) k = s.blockByte (s.pointer a) k) {v : Option (List UInt8)}
    (hkind : index < maxInodes → (v.isSome ↔ (t.inodes index).kind = kindFile))
    (hlength : index < maxInodes → ∀ f, v = some f → f.length = (t.inodes index).size.toNat)
    (hbytes : index < maxInodes → ∀ f, v = some f →
      ∀ p < blockCount f.length * blockSize, t.byteAt index p = f.getD p 0) :
    Holds t (Function.update m index v) := by
  refine ⟨hplaced, hbooks, fun i hi => ?_, fun i hi f hf => ?_, fun i hi f hf p hp => ?_⟩
  · by_cases h : i = index
    · subst h
      rw [Function.update_self]
      exact hkind hi
    · rw [Function.update_of_ne h, hinodes i h]
      exact hs.kind i hi
  · by_cases h : i = index
    · subst h
      rw [Function.update_self] at hf
      exact hlength hi f hf
    · rw [Function.update_of_ne h] at hf
      rw [hinodes i h]
      exact hs.length i hi f hf
  · by_cases h : i = index
    · subst h
      rw [Function.update_self] at hf
      exact hbytes hi f hf p hp
    · rw [Function.update_of_ne h] at hf
      have hptr : t.pointer (i, p / blockSize) = s.pointer (i, p / blockSize) := by
        simp only [pointer, hinodes i h]
      have hlive : (i, p / blockSize) ∈ s.live := by
        refine ⟨hi, (hs.kind i hi).1 (by rw [hf]; rfl), ?_⟩
        rw [← hs.length i hi f hf]
        exact Nat.div_lt_of_lt_mul (by rwa [Nat.mul_comm])
      rw [byteAt, hptr, hother _ hlive h _ (Nat.mod_lt _ (by decide))]
      exact hs.bytes i hi f hf p hp

/-- A call that changes no file. -/
theorem Holds.frame (hs : Holds s m) (htables : SameTables s t) (hdata : SameData s t) :
    Holds t m := by
  refine ⟨htables.placed hs.placed, ?_, fun i hi => ?_, fun i hi => ?_, fun i hi f hf p hp => ?_⟩
  · rw [htables.live]
    exact hs.books.sameTables htables
  · rw [htables.inodes]
    exact hs.kind i hi
  · rw [htables.inodes]
    exact hs.length i hi
  · rw [hdata.byteAt htables]
    exact hs.bytes i hi f hf p hp

/-! ## Reading -/

theorem loadScratch_scratch (hs : Placed s) {block : UInt32} (hblock : block.toNat < maxBlocks)
    {k : ℕ} (hk : k < blockSize) :
    (s.loadScratch (blockLba s.partLba block).toNat sectorsPerBlock).scratch k =
      s.blockByte block.toNat k := by
  have hq : k / sectorSize < sectorsPerBlock := Nat.div_lt_of_lt_mul hk
  simp only [loadScratch, blockByte]
  rw [if_pos hq, hs.blockLba hblock]

/-- `read_block` brings the block's bytes into `SCRATCH`. -/
theorem readBlock_bytes (hs : Placed s) {block : UInt32} (hblock : block.toNat < maxBlocks) :
    Prog.Post (readBlock block) s
      (fun _ t => SameTables s t ∧ SameData s t ∧
        ∀ k < blockSize, t.scratch k = s.blockByte block.toNat k) fun _ _ => True := by
  refine (readBlock_post block).mono (fun _ t hread => ?_) fun _ _ _ => trivial
  obtain ⟨τ, ht⟩ := hread
  subst ht
  exact ⟨⟨rfl, rfl, rfl, rfl, rfl, rfl, rfl, rfl⟩, fun _ _ => rfl,
    fun k hk => loadScratch_scratch hs hblock hk⟩

theorem readLoop_bytes (fuel : ℕ) {position left : ℕ} (hs : Placed s)
    (hslot : ∀ b, b * blockSize < position + left → position / blockSize ≤ b →
      s.pointer (index, b) < maxBlocks) (hfuel : left ≤ fuel) :
    Prog.Post (readLoop index fuel position left) s
      (fun l t => SameTables s t ∧ SameData s t ∧
        l = (List.range left).map fun k => s.byteAt index (position + k)) fun _ _ => True := by
  induction fuel generalizing position left s with
  | zero =>
    rw [Nat.le_zero.1 hfuel]
    exact ⟨.refl s, .refl s, rfl⟩
  | succ fuel ih =>
    rw [readLoop]
    split
    · rename_i hleft
      subst hleft
      exact ⟨.refl s, .refl s, rfl⟩
    rename_i hleft
    simp only [Prog.post_bind, Prog.post_get]
    split
    · trivial
    have hchunk : 0 < min (blockSize - position % blockSize) left := by
      simp only [blockSize]
      omega
    have hblock : ((s.inodes index).blocks (position / blockSize)).toNat < maxBlocks :=
      hslot _ (by simp only [blockSize]; omega) (Nat.le_refl _)
    simp only [Prog.post_bind, Prog.post_get]
    refine (readBlock_bytes hs hblock).mono (fun _ t hread => ?_)
      fun _ _ _ => trivial
    obtain ⟨htab, hdata, hscratch⟩ := hread
    refine (ih (htab.placed hs) (fun b hb hle => ?_) (by omega)).mono
      (fun l u hu => ?_) fun _ _ _ => trivial
    · rw [htab.pointer]
      refine hslot b (by omega) (Nat.le_trans (Nat.div_le_div_right (Nat.le_add_right _ _)) hle)
    · obtain ⟨htab', hdata', hl⟩ := hu
      refine ⟨htab.trans htab', hdata.trans hdata', ?_⟩
      generalize hc : min (blockSize - position % blockSize) left = chunk at hl hchunk ⊢
      have hsplit : left = chunk + (left - chunk) := by omega
      rw [hl, hsplit, List.range_add, List.map_append, List.map_map, ← hsplit]
      refine congrArg₂ (· ++ ·) (List.map_congr_left fun k hk => ?_)
        (List.map_congr_left fun k _ => ?_)
      · have hlt : position % blockSize + k < blockSize := by
          have := List.mem_range.1 hk
          omega
        have hdiv : (position + k) / blockSize = position / blockSize := by
          simp only [blockSize] at hlt ⊢
          omega
        have hmod : (position + k) % blockSize = position % blockSize + k := by
          simp only [blockSize] at hlt ⊢
          omega
        rw [hscratch _ hlt, byteAt, hdiv, hmod]
        rfl
      · rw [hdata.byteAt htab, Function.comp_apply, Nat.add_assoc]

/-- A successful read returns the bytes of the file. -/
theorem read_bytes {offset room : ℕ} (hs : Holds s m) :
    Prog.Post (read index offset room) s
      (fun l t => Holds t m ∧ ∃ f, m index = some f ∧ l = (f.drop offset).take room)
      fun _ _ => True := by
  rw [read]
  simp only [Prog.post_bind, Prog.post_get]
  split
  · trivial
  split
  · trivial
  rename_i hfile
  rw [not_or, not_le, not_not] at hfile
  obtain ⟨f, hf⟩ := Option.isSome_iff_exists.1 ((hs.kind index hfile.1).2 hfile.2)
  have hlen := hs.length index hfile.1 f hf
  split
  · rename_i hoff
    refine ⟨hs, f, hf, ?_⟩
    rw [List.drop_eq_nil_of_le (by omega), List.take_nil]
  rename_i hoff
  refine (readLoop_bytes _ hs.placed (fun b hb _ => ?_) (Nat.le_refl _)).mono
    (fun l t ht => ⟨hs.frame ht.1 ht.2.1, f, hf, ?_⟩) fun _ _ _ => trivial
  · have hlive : (index, b) ∈ s.live := by
      refine ⟨hfile.1, hfile.2, ?_⟩
      simp only [blockCount, blockSize] at hb ⊢
      omega
    exact Nat.lt_of_lt_of_le (hs.books.lt _ hlive) hs.books.total_le
  · rw [ht.2.2]
    refine List.ext_getElem (by simp; omega) fun k hk hk' => ?_
    have hlt : k < min ((s.inodes index).size.toNat - offset) room := by simpa using hk
    rw [List.getElem_map, List.getElem_range, List.getElem_take, List.getElem_drop,
      hs.bytes index hfile.1 f hf, List.getD_eq_getElem]
    simp only [blockCount, blockSize]
    omega

/-! ## Writing -/

/-- The block is part of the old file, or the loop has written it. -/
def Written (offset have_ done b : ℕ) : Prop :=
  b < have_ ∨ 0 < done ∧ offset / blockSize ≤ b ∧ b * blockSize < offset + done

/-- After `done` bytes: every old or written block has the bytes it should have. -/
def WrittenTo (s : Fs) (index offset have_ : ℕ) (f data : List UInt8) (done : ℕ) : Prop :=
  ∀ p, Written offset have_ done (p / blockSize) → s.byteAt index p =
    if offset ≤ p ∧ p < offset + done then data.getD (p - offset) 0 else f.getD p 0

theorem prepareScratch_bytes {have_ blockIndex chunk : ℕ} (hs : Placed s)
    (hslot : s.pointer (index, blockIndex) < maxBlocks) :
    Prog.Post (prepareScratch index have_ blockIndex chunk) s
      (fun _ t => SameTables s t ∧ SameData s t ∧ (chunk < blockSize → ∀ k < blockSize,
        t.scratch k = if blockIndex < have_ then s.byteAt index (blockIndex * blockSize + k)
          else 0)) fun _ _ => True := by
  rw [prepareScratch]
  split
  · split
    · simp only [Prog.post_bind, Prog.post_get]
      split
      · trivial
      · refine (readBlock_bytes hs hslot).mono (fun _ t ht => ?_) fun _ _ _ => trivial
        obtain ⟨htab, hdata, hscratch⟩ := ht
        refine ⟨htab, hdata, fun _ k hk => ?_⟩
        have hdiv : (blockIndex * blockSize + k) / blockSize = blockIndex := by
          simp only [blockSize] at hk ⊢
          omega
        have hmod : (blockIndex * blockSize + k) % blockSize = k := by
          simp only [blockSize] at hk ⊢
          omega
        rw [hscratch k hk, byteAt, hdiv, hmod]
        rfl
    · exact ⟨.withScratch s _, .refl s, fun _ _ _ => rfl⟩
  · rename_i hge
    exact ⟨.refl s, .refl s, fun h => absurd h hge⟩

/-- One round of the loop, seen from the file: the block at `offset + done` gets `chunk` bytes
of the data and keeps the rest of its bytes, or gets zeros there. -/
theorem WrittenTo.round {offset have_ done chunk : ℕ} {data : List UInt8}
    (hs : WrittenTo s index offset have_ f data done)
    (hf : f.length ≤ have_ * blockSize) (hlt : done < data.length)
    (halign : done = 0 ∨ (offset + done) % blockSize = 0)
    (hchunk : chunk = min (blockSize - (offset + done) % blockSize) (data.length - done))
    (hother : ∀ p, Written offset have_ (done + chunk) (p / blockSize) →
      p / blockSize ≠ (offset + done) / blockSize → t.byteAt index p = s.byteAt index p)
    (hblock : ∀ k < blockSize, t.byteAt index ((offset + done) / blockSize * blockSize + k) =
      if (offset + done) % blockSize ≤ k ∧ k < (offset + done) % blockSize + chunk then
        data.getD (done + (k - (offset + done) % blockSize)) 0
      else if (offset + done) / blockSize < have_ then
        s.byteAt index ((offset + done) / blockSize * blockSize + k)
      else 0) :
    WrittenTo t index offset have_ f data (done + chunk) := by
  intro p hp
  by_cases hb : p / blockSize = (offset + done) / blockSize
  · have hk : p % blockSize < blockSize := Nat.mod_lt _ (by decide)
    have hsplit : (offset + done) / blockSize * blockSize + p % blockSize = p := by
      rw [← hb]
      exact Nat.div_add_mod' p blockSize
    have hthis := hblock _ hk
    rw [hsplit] at hthis
    rw [hthis]
    split
    · rename_i hin
      rw [if_pos (by simp only [blockSize] at *; omega)]
      refine congrArg (data.getD · 0) ?_
      simp only [blockSize] at *
      omega
    · rename_i hout
      have hcond : (offset ≤ p ∧ p < offset + (done + chunk)) ↔
        (offset ≤ p ∧ p < offset + done) := by
        simp only [blockSize] at *
        omega
      split
      · rename_i hold
        rw [hs p (.inl (hb ▸ hold)), if_congr hcond rfl rfl]
      · rename_i hnew
        rw [if_neg (by simp only [blockSize] at *; omega), List.getD_eq_default]
        simp only [blockSize] at *
        omega
  · have hbefore : Written offset have_ done (p / blockSize) := by
      rcases hp with hp | ⟨-, hle, hp⟩
      · exact .inl hp
      · refine .inr ?_
        simp only [blockSize] at *
        omega
    have hcond : (offset ≤ p ∧ p < offset + (done + chunk)) ↔ (offset ≤ p ∧ p < offset + done) := by
      simp only [blockSize] at *
      omega
    rw [hother p hp hb, hs p hbefore, if_congr hcond rfl rfl]

/-- The data loop puts the data into the file and changes no block of another live slot. -/
theorem writeLoop_bytes (arch : Arch) {offset have_ needed : ℕ} {data : List UInt8} (fuel : ℕ)
    {done : ℕ} (hs : Placed s) (hbooks : Books s L False)
    (hslot : ∀ b < needed, (index, b) ∈ L) (hold : have_ ≤ needed)
    (hneeded : offset + data.length ≤ needed * blockSize)
    (hstop : offset + data.length ≤ maxFileSize) (hf : f.length ≤ have_ * blockSize)
    (hdone : done ≤ data.length) (hfuel : data.length - done ≤ fuel)
    (halign : done = 0 ∨ done = data.length ∨ (offset + done) % blockSize = 0)
    (hwritten : WrittenTo s index offset have_ f data done) :
    Prog.Post (writeLoop arch index offset have_ data fuel done) s
      (fun _ t => SameTables s t ∧ WrittenTo t index offset have_ f data data.length ∧
        ∀ a ∈ L, a.1 ≠ index → ∀ k < blockSize,
          t.blockByte (s.pointer a) k = s.blockByte (s.pointer a) k)
      fun _ _ => True := by
  induction fuel generalizing done s with
  | zero =>
    have : done = data.length := by omega
    exact ⟨.refl s, this ▸ hwritten, fun _ _ _ _ _ => rfl⟩
  | succ fuel ih =>
    rw [writeLoop]
    split
    · rename_i hge
      have : done = data.length := by omega
      exact ⟨.refl s, this ▸ hwritten, fun _ _ _ _ _ => rfl⟩
    rename_i hlt
    rw [not_le] at hlt
    have hposition : (offset + done) % 2 ^ arch.wordBits = offset + done := by
      refine Nat.mod_eq_of_lt (Nat.lt_of_lt_of_le (m := 2 ^ 32) ?_
        (Nat.pow_le_pow_right (by decide) arch.wordBits_ge))
      simp only [maxFileSize] at hstop
      omega
    simp only [hposition]
    generalize hc : min (blockSize - (offset + done) % blockSize) (data.length - done) = chunk
    have hpos : 0 < chunk := by
      simp only [blockSize] at hc
      omega
    have hB : (offset + done) / blockSize < needed := by
      simp only [blockSize] at *
      omega
    have hmem := hslot _ hB
    have hptr : s.pointer (index, (offset + done) / blockSize) < maxBlocks :=
      Nat.lt_of_lt_of_le (hbooks.lt _ hmem) hbooks.total_le
    refine Prog.post_bind.2 ((prepareScratch_bytes hs hptr).mono
      (fun _ t hprep => ?_) fun _ _ _ => trivial)
    obtain ⟨htab, hdata, hscratch⟩ := hprep
    refine Prog.post_bind.2 (Prog.post_modify.2 ?_)
    have htab' : SameTables s (t.fillScratch ((offset + done) % blockSize) chunk data done) :=
      htab.trans (.withScratch t _)
    simp only [Prog.post_bind, Prog.post_get]
    split
    · trivial
    have hblock : (((t.fillScratch ((offset + done) % blockSize) chunk data done).inodes
        index).blocks ((offset + done) / blockSize)).toNat =
          s.pointer (index, (offset + done) / blockSize) := by
      rw [htab'.inodes]
      rfl
    refine Prog.post_bind.2 ((writeBlock_post _).mono (fun _ u hwrite => ?_)
      fun _ _ _ => trivial)
    obtain ⟨τ, hu⟩ := hwrite
    have htab'' : SameTables s u := by
      rw [hu]
      exact htab'.trans (.withDisk _ _)
    -- What the block write did to every byte of a data block.
    have hbytes : ∀ block k, k < blockSize → u.blockByte block k =
        if block = s.pointer (index, (offset + done) / blockSize) then
          (t.fillScratch ((offset + done) % blockSize) chunk data done).scratch k
        else s.blockByte block k := fun block k hk => by
      rw [hu, blockByte_writeBlock (htab'.placed hs) (by rw [hblock]; exact hptr) hk, hblock]
      refine if_congr Iff.rfl rfl ?_
      exact hdata block k
    have hother : ∀ a ∈ L, a ≠ (index, (offset + done) / blockSize) → ∀ k < blockSize,
        u.blockByte (s.pointer a) k = s.blockByte (s.pointer a) k := fun a ha hne k hk => by
      rw [hbytes _ k hk, if_neg fun h => hne (hbooks.owns.inj ha hmem h)]
    have hround : WrittenTo u index offset have_ f data (done + chunk) := by
      refine hwritten.round hf hlt (by omega) hc.symm (fun p hp hne => ?_) fun k hk => ?_
      · have hmem' : (index, p / blockSize) ∈ L := by
          refine hslot _ ?_
          rcases hp with hp | ⟨-, -, hp⟩
          · omega
          · simp only [blockSize] at *
            omega
        rw [byteAt, htab''.pointer, hother _ hmem' (by simpa using hne) _
          (Nat.mod_lt _ (by decide))]
        rfl
      · have hdiv : ((offset + done) / blockSize * blockSize + k) / blockSize =
            (offset + done) / blockSize := by
          simp only [blockSize] at hk ⊢
          omega
        have hmod : ((offset + done) / blockSize * blockSize + k) % blockSize = k := by
          simp only [blockSize] at hk ⊢
          omega
        rw [byteAt, hdiv, hmod, htab''.pointer, hbytes _ k hk, if_pos rfl]
        simp only [fillScratch]
        split
        · rfl
        · exact hscratch (by simp only [blockSize] at *; omega) k hk
    refine (ih (htab''.placed hs) (hbooks.sameTables htab'') (by omega) (by omega) ?_ hround).mono
      (fun _ v hv => ⟨htab''.trans hv.1, hv.2.1, fun a ha hne k hk => ?_⟩)
      fun _ _ _ => trivial
    · simp only [blockSize] at *
      omega
    · rw [← htab''.pointer, hv.2.2 a ha hne k hk, htab''.pointer]
      exact hother a ha (fun h => hne (h ▸ rfl)) k hk

/-- No write starts beyond the first block that the file does not have yet, and an empty write
allocates nothing. -/
def Zeroed (s : Fs) : FsCall → Prop
  | .write index offset data =>
    if data = [] then blockCount offset ≤ blockCount (s.inodes index).size.toNat
    else offset / blockSize ≤ blockCount (s.inodes index).size.toNat
  | _ => True

theorem Holds.length_le (hs : Holds s m) (hindex : index < maxInodes) (hf : m index = some f) :
    f.length ≤ blockCount (s.inodes index).size.toNat * blockSize := by
  rw [← hs.length index hindex f hf]
  simp only [blockCount, blockSize]
  omega

/-- A write that starts past a file's pointers panics at its first block, before it touches the
disk. -/
theorem writeLoop_past (arch : Arch) {offset have_ fuel : ℕ} {data : List UInt8}
    {Q : Unit → Fs → Prop} (hdata : data ≠ []) (hfuel : 0 < fuel) (hoffset : arch.IsUsize offset)
    (hhigh : directBlocks ≤ offset / blockSize) :
    Prog.Post (writeLoop arch index offset have_ data fuel 0) s Q
      fun stop t => stop = .panic ∧ t.disk = s.disk ∧ SameTables s t := by
  obtain ⟨fuel, rfl⟩ := Nat.exists_eq_succ_of_ne_zero (Nat.ne_of_gt hfuel)
  rw [writeLoop, if_neg (by simpa using hdata)]
  have hposition : (offset + 0) % 2 ^ arch.wordBits = offset := Nat.mod_eq_of_lt hoffset
  simp only [hposition]
  generalize min (blockSize - offset % blockSize) (data.length - 0) = chunk
  have hprepare : Prog.Post (prepareScratch index have_ (offset / blockSize) chunk) s
      (fun _ t => t.disk = s.disk ∧ SameTables s t)
      fun stop t => stop = .panic ∧ t.disk = s.disk ∧ SameTables s t := by
    rw [prepareScratch]
    split
    · split
      · simp only [Prog.post_bind, Prog.post_get]
        exact ⟨rfl, rfl, .refl s⟩
      · exact ⟨rfl, .withScratch s _⟩
    · exact ⟨rfl, .refl s⟩
  refine Prog.post_bind.2 (hprepare.mono (fun _ t hprep => ?_) fun _ _ h => h)
  obtain ⟨hdisk, htab⟩ := hprep
  refine Prog.post_bind.2 (Prog.post_modify.2 ?_)
  simp only [Prog.post_bind, Prog.post_get]
  rw [if_pos hhigh]
  exact ⟨rfl, hdisk, htab.trans (.withScratch t _)⟩

/-- A write that would wrap around does so. -/
theorem writeLoop_wrapped (arch : Arch) {offset have_ : ℕ} {data : List UInt8}
    {Q : Unit → Fs → Prop} (hoffset : arch.IsUsize offset) (hlen : arch.IsSliceLen data.length)
    (hwrap : ¬ offset + data.length < 2 ^ arch.wordBits) :
    Prog.Post (writeLoop arch index offset have_ data data.length 0) s Q
      fun stop t => stop = .panic ∧ t.disk = s.disk ∧ SameTables s t := by
  have hhalf : 2 ^ arch.wordBits = 2 * 2 ^ (arch.wordBits - 1) := by
    rw [← Nat.pow_succ']
    exact congrArg _ (Nat.succ_pred (by have := arch.wordBits_ge; omega)).symm
  have hbig : 2 ^ 31 ≤ 2 ^ (arch.wordBits - 1) :=
    Nat.pow_le_pow_right (by decide) (by have := arch.wordBits_ge; omega)
  have hoffset' := hoffset
  simp only [Arch.IsUsize, Arch.IsSliceLen] at hoffset' hlen
  have hdata : data ≠ [] := by
    rintro rfl
    exact hwrap hoffset
  refine writeLoop_past arch hdata (by omega) hoffset ?_
  simp only [directBlocks, blockSize]
  omega

namespace Allocating

variable {have_ : ℕ}

theorem pointer (h : Allocating s index have_ t) {a : ℕ × ℕ} (ha : a.1 = index → a.2 < have_) :
    t.pointer a = s.pointer a := by
  obtain ⟨blocks, bitmap, free, hblocks, rfl⟩ := h
  by_cases hi : a.1 = index
  · simp only [Fs.pointer, hi, Function.update_self, hblocks _ (ha hi)]
  · simp only [Fs.pointer, Function.update_of_ne hi]

theorem inodes_of_ne (h : Allocating s index have_ t) {i : ℕ} (hi : i ≠ index) :
    t.inodes i = s.inodes i := by
  obtain ⟨blocks, bitmap, free, -, rfl⟩ := h
  exact Function.update_of_ne hi _ _

theorem blockByte (h : Allocating s index have_ t) (block k : ℕ) :
    t.blockByte block k = s.blockByte block k := by
  obtain ⟨blocks, bitmap, free, -, rfl⟩ := h
  rfl

theorem placed (h : Allocating s index have_ t) (hs : Placed s) : Placed t := by
  obtain ⟨blocks, bitmap, free, -, rfl⟩ := h
  exact hs

end Allocating

/-- What a write leaves behind, the books apart. -/
structure WroteFile (s : Fs) (index offset : ℕ) (f data : List UInt8) (t : Fs) : Prop where
  placed : Placed t
  inodes : ∀ i ≠ index, t.inodes i = s.inodes i
  other : ∀ a ∈ s.live, a.1 ≠ index → ∀ k < blockSize,
    t.blockByte (s.pointer a) k = s.blockByte (s.pointer a) k
  kind : (t.inodes index).kind = kindFile
  size : (t.inodes index).size.toNat = (splice f offset data).length
  bytes : ∀ p < blockCount (splice f offset data).length * blockSize,
    t.byteAt index p = (splice f offset data).getD p 0

/-- The last steps of a write: the size is set and the metadata flushed. -/
theorem finishWrite_bytes {offset : ℕ} {data : List UInt8} (hs : Holds s m)
    (hindex : index < maxInodes) (hkind : (s.inodes index).kind = kindFile)
    (hf : m index = some f) (hstop : offset + data.length ≤ maxFileSize)
    (hzeroed : Zeroed s (.write index offset data))
    (halloc : Allocating s index (blockCount (s.inodes index).size.toNat) u)
    (htab : SameTables u t)
    (hwritten : WrittenTo t index offset (blockCount (s.inodes index).size.toNat) f data
      data.length)
    (hother : ∀ a ∈ s.live, a.1 ≠ index → ∀ k < blockSize,
      t.blockByte (u.pointer a) k = u.blockByte (u.pointer a) k)
    {v : Fs} (htab' : SameTables (t.finishWrite index (offset + data.length)) v)
    (hdata : SameData (t.finishWrite index (offset + data.length)) v) :
    WroteFile s index offset f data v := by
  have hlen := hs.length index hindex f hf
  have hinode : (t.inodes index).kind = kindFile ∧
      (t.inodes index).size = (s.inodes index).size := by
    rw [htab.inodes]
    exact ⟨halloc.inode.1.trans hkind, halloc.inode.2⟩
  have hsize : (v.inodes index).size.toNat = (splice f offset data).length := by
    rw [htab'.inodes, finishWrite_size hstop, hinode.2, length_splice, hlen]
  refine ⟨htab'.placed (htab.placed (halloc.placed hs.placed)), fun i hi => ?_,
    fun a ha hne k hk => ?_, ?_, hsize, fun p hp => ?_⟩
  · rw [htab'.inodes, finishWrite_inodes_of_ne hi, htab.inodes, halloc.inodes_of_ne hi]
  · rw [hdata, ← halloc.pointer fun h => absurd h hne]
    exact (hother a ha hne k hk).trans (halloc.blockByte _ _)
  · rw [htab'.inodes, finishWrite_kind]
    exact hinode.1
  · rw [hdata.byteAt htab', byteAt, pointer_finishWrite, getD_splice]
    refine hwritten p ?_
    rw [length_splice] at hp
    simp only [Zeroed, hlen.symm] at hzeroed ⊢
    simp only [Written, blockCount, blockSize] at *
    split at hzeroed
    · rename_i hnil
      subst hnil
      simp only [List.length_nil] at *
      omega
    · rename_i hne
      have := List.length_pos_iff.2 hne
      omega

/-- A successful write under the condition writes the model's file. -/
theorem write_bytes (arch : Arch) {offset : ℕ} {data : List UInt8} (hs : Holds s m)
    (hoffset : arch.IsUsize offset) (hlen : arch.IsSliceLen data.length)
    (hzeroed : Zeroed s (.write index offset data)) :
    Prog.Post (write arch index offset data) s
      (fun n t => n = data.length ∧ index < maxInodes ∧
        ∃ f, m index = some f ∧ WroteFile s index offset f data t) fun _ _ => True := by
  rw [write]
  simp only [Prog.post_bind, Prog.post_get]
  split
  · trivial
  split
  · trivial
  rename_i hfile
  rw [not_or, not_le, not_not] at hfile
  obtain ⟨hindex, hkind⟩ := hfile
  obtain ⟨f, hf⟩ := Option.isSome_iff_exists.1 ((hs.kind index hindex).2 hkind)
  split
  · trivial
  rename_i hmax
  rw [not_lt] at hmax
  have hown : OwnPointers s index (blockCount (s.inodes index).size.toNat) := fun _ h => h.2.2
  have hhave := hs.books.blockCount_le hindex hkind
  have hneeded := blockCount_le hmax
  refine Prog.post_bind.2 ((allocBlocks_post (c := False) hindex hown _ (Nat.le_refl _) (by omega)
    (.refl s index _) (by rw [pending_self, Set.union_empty]; exact hs.books)).mono
    (fun _ u halloc => ?_) fun _ _ _ => trivial)
  obtain ⟨halloc, hbooks⟩ := halloc
  rw [pending_add_sub] at hbooks
  by_cases hwrap : offset + data.length < 2 ^ arch.wordBits
  · rw [Nat.mod_eq_of_lt hwrap] at hmax hneeded hbooks ⊢
    have hslot : ∀ b < max (blockCount (s.inodes index).size.toNat)
        (blockCount (offset + data.length)), (index, b) ∈ s.live ∪
          pending index (blockCount (s.inodes index).size.toNat)
            (blockCount (offset + data.length)) := fun b hb => by
      by_cases hold : b < blockCount (s.inodes index).size.toNat
      · exact .inl ⟨hindex, hkind, hold⟩
      · exact .inr ⟨rfl, not_lt.1 hold, by omega⟩
    have hstart : WrittenTo u index offset (blockCount (s.inodes index).size.toNat) f data 0 := by
      rintro p (hp | hp)
      · rw [byteAt, halloc.pointer fun _ => hp, halloc.blockByte, if_neg (by omega)]
        refine hs.bytes index hindex f hf p ?_
        rw [hs.length index hindex f hf]
        simp only [blockSize] at hp ⊢
        omega
      · exact absurd hp.1 (Nat.lt_irrefl _)
    refine Prog.post_bind.2 ((writeLoop_bytes arch _ (halloc.placed hs.placed) hbooks hslot
      (Nat.le_max_left _ _) (by simp only [blockCount, blockSize]; omega) hmax
      (hs.length_le hindex hf) (Nat.zero_le _) (Nat.le_refl _) (.inl rfl) hstart).mono
      (fun _ v hloop => ?_) fun _ _ _ => trivial)
    obtain ⟨htab, hwritten, hother⟩ := hloop
    refine Prog.post_bind.2 (Prog.post_modify.2 ?_)
    have hplaced : Placed (v.finishWrite index (offset + data.length)) :=
      htab.placed (halloc.placed hs.placed)
    refine Prog.post_bind.2 ((flushInodes_data hplaced).mono (fun _ x hx => ?_)
      fun _ _ _ => trivial)
    obtain ⟨htabx, hdatax⟩ := hx
    refine Prog.post_bind.2 ((flushBitmap_data (htabx.placed hplaced)).mono
      (fun _ y hy => ?_) fun _ _ _ => trivial)
    obtain ⟨htaby, hdatay⟩ := hy
    exact ⟨rfl, hindex, f, hf, finishWrite_bytes hs hindex hkind hf hmax hzeroed halloc htab
      hwritten (fun a ha => hother a (.inl ha)) (htabx.trans htaby) (hdatax.trans hdatay)⟩
  · exact Prog.post_bind.2 ((writeLoop_wrapped arch hoffset hlen hwrap).mono
      (fun _ _ h => h) fun _ _ _ => trivial)

theorem WroteFile.holds {offset : ℕ} {data : List UInt8} (h : WroteFile s index offset f data t)
    (hs : Holds s m) (hbooks : Books t t.live False) :
    Holds t (Function.update m index (some (splice f offset data))) :=
  hs.update h.placed hbooks h.inodes h.other (fun _ => by simp [h.kind])
    (fun _ _ hg => Option.some.inj hg ▸ h.size.symm) fun _ _ hg => Option.some.inj hg ▸ h.bytes

theorem write_holds (arch : Arch) {offset : ℕ} {data : List UInt8} (hs : Holds s m)
    (hoffset : arch.IsUsize offset) (hlen : arch.IsSliceLen data.length)
    (hzeroed : Zeroed s (.write index offset data)) :
    Prog.Post (write arch index offset data) s
      (fun n t => n = data.length ∧ index < maxInodes ∧ ∃ f, m index = some f ∧
        Holds t (Function.update m index (some (splice f offset data)))) fun _ _ => True :=
  ((keepsBooks_write arch index offset data False hs.books).and
    (write_bytes arch hs hoffset hlen hzeroed)).mono
    (fun _ _ ⟨hbooks, hn, hindex, f, hf, hwrote⟩ => ⟨hn, hindex, f, hf, hwrote.holds hs hbooks⟩)
    fun _ _ _ => trivial

/-! ## The other calls -/

/-- A new or removed inode without contents. -/
theorem Holds.setInode (hs : Holds s m) {inode : Inode} (hplaced : Placed t)
    (hinodes : t.inodes = Function.update s.inodes index inode) (hdata : SameData s t)
    (hbooks : Books t t.live False) {v : Option (List UInt8)}
    (hv : v = if inode.kind = kindFile then some [] else none)
    (hsize : inode.size = 0) : Holds t (Function.update m index v) := by
  have hself : t.inodes index = inode := by
    rw [hinodes]
    exact Function.update_self ..
  refine hs.update hplaced hbooks (fun i hi => ?_) (fun a _ _ k _ => hdata _ k)
    (fun _ => ?_) (fun _ g hg => ?_) fun _ g hg p hp => ?_
  · rw [hinodes]
    exact Function.update_of_ne hi _ _
  · rw [hself, hv]
    split <;> simp [*]
  · rw [hself, hsize]
    rw [hv] at hg
    split at hg
    · exact Option.some.inj hg ▸ rfl
    · cases hg
  · rw [hv] at hg
    split at hg
    · rw [← Option.some.inj hg] at hp
      exact absurd hp (Nat.not_lt_zero _)
    · cases hg

theorem makeEntry_holds {kind : UInt32} {path : List UInt8} (hs : Holds s m) :
    Prog.Post (makeEntry kind path) s
      (fun i t => i < maxInodes ∧ m i = none ∧
        Holds t (Function.update m i (if kind = kindFile then some [] else none)))
      fun _ _ => True := by
  refine ((keepsBooks_makeEntry kind path False hs.books).and (R := fun i t => i < maxInodes ∧
    m i = none ∧ (Books t t.live False → Holds t (Function.update m i
      (if kind = kindFile then some [] else none)))) (F := fun _ _ => True) ?_).mono
    (fun _ _ h => ⟨h.2.1, h.2.2.1, h.2.2.2 h.1⟩) fun _ _ _ => trivial
  rw [makeEntry]
  simp only [Prog.post_bind, Prog.post_get]
  split
  · trivial
  split
  · trivial
  split
  · trivial
  rw [allocateInode]
  simp only [Prog.post_bind, Prog.post_get]
  split
  · trivial
  rename_i i hi
  split
  · trivial
  simp only [Prog.post_bind, Prog.post_modify, Prog.post_pure]
  have hlt := List.mem_range.1 (List.mem_of_find?_eq_some hi)
  have hfree := List.find?_some hi
  simp only [Bool.and_eq_true, beq_iff_eq, bne_iff_ne] at hfree
  have hnone : m i = none := by
    rw [← Option.not_isSome_iff_eq_none, hs.kind i hlt, hfree.1]
    decide
  refine (flushInodes_data (show Placed (s.setInode i _) from hs.placed)).mono
    (fun _ t ht => ⟨hlt, hnone, fun hbooks => ?_⟩) fun _ _ _ => trivial
  obtain ⟨htab, hdata⟩ := ht
  exact hs.setInode (htab.placed hs.placed) htab.inodes hdata hbooks rfl rfl

theorem rmdir_holds {path : List UInt8} (hs : Holds s m) :
    Prog.Post (rmdir path) s (fun _ t => Holds t m) fun _ _ => True := by
  refine ((keepsBooks_rmdir path False hs.books).and
    (R := fun _ t => Books t t.live False → Holds t m) (F := fun _ _ => True) ?_).mono
    (fun _ _ h => h.2 h.1) fun _ _ _ => trivial
  rw [rmdir]
  simp only [Prog.post_bind, Prog.post_get]
  split
  · trivial
  split
  · trivial
  rename_i i _
  split
  · trivial
  split
  · trivial
  rename_i hdir
  rw [not_or, not_le, not_not] at hdir
  split
  · trivial
  simp only [Prog.post_bind, Prog.post_modify]
  have hnone : m i = none := by
    rw [← Option.not_isSome_iff_eq_none, hs.kind i hdir.1, hdir.2]
    decide
  refine (flushInodes_data (show Placed (s.setInode i _) from hs.placed)).mono
    (fun _ t ht hbooks => ?_) fun _ _ _ => trivial
  obtain ⟨htab, hdata⟩ := ht
  rw [← Function.update_eq_self i m, hnone]
  exact hs.setInode (htab.placed hs.placed) htab.inodes hdata hbooks rfl rfl

theorem remove_holds (hs : Holds s m) :
    Prog.Post (remove index) s
      (fun _ t => index < maxInodes ∧ m index ≠ none ∧ Holds t (Function.update m index none))
      fun _ _ => True := by
  refine ((keepsBooks_remove index False hs.books).and (R := fun _ t => index < maxInodes ∧
    m index ≠ none ∧ (Books t t.live False → Holds t (Function.update m index none)))
    (F := fun _ _ => True) ?_).mono
    (fun _ _ h => ⟨h.2.1, h.2.2.1, h.2.2.2 h.1⟩) fun _ _ _ => trivial
  rw [remove]
  simp only [Prog.post_bind, Prog.post_get]
  split
  · trivial
  split
  · trivial
  rename_i hfile
  rw [not_or, not_le, not_not] at hfile
  have hsome : m index ≠ none :=
    Option.isSome_iff_ne_none.1 ((hs.kind index hfile.1).2 hfile.2)
  refine Prog.post_bind.2 ((freeBlocks_post hs.books hfile.1 hfile.2).mono
    (fun _ t hfreed => ?_) fun _ _ h => h.elim)
  obtain ⟨⟨bitmap, free, ht⟩, -⟩ := hfreed
  have hplaced : Placed (t.setInode index Inode.empty) := by
    rw [ht]
    exact hs.placed
  refine Prog.post_bind.2 (Prog.post_modify.2 ?_)
  refine Prog.post_bind.2 ((flushInodes_data hplaced).mono (fun _ x hx => ?_)
    fun _ _ _ => trivial)
  obtain ⟨htabx, hdatax⟩ := hx
  refine (flushBitmap_data (htabx.placed hplaced)).mono (fun _ y hy =>
    ⟨hfile.1, hsome, fun hbooks => ?_⟩) fun _ _ _ => trivial
  obtain ⟨htaby, hdatay⟩ := hy
  refine hs.setInode ((htabx.trans htaby).placed hplaced) ?_ (fun block k => ?_) hbooks rfl
    (show Inode.empty.size = 0 from rfl)
  · rw [(htabx.trans htaby).inodes, ht, setInode]
  · rw [hdatax.trans hdatay, ht]
    rfl

theorem sync_holds (hs : Holds s m) :
    Prog.Post sync s (fun _ t => Holds t m) fun _ _ => True := by
  rw [sync]
  simp only [Prog.post_bind, Prog.post_get]
  split
  · trivial
  refine Prog.post_bind.2 ((flushInodes_data hs.placed).mono (fun _ t hflush => ?_)
    fun _ _ _ => trivial)
  obtain ⟨ht, hd⟩ := hflush
  have hst := hs.frame ht hd
  refine Prog.post_bind.2 ((flushBitmap_data hst.placed).mono (fun _ u hflush => ?_)
    fun _ _ _ => trivial)
  obtain ⟨hu, hd⟩ := hflush
  have hsu := hst.frame hu hd
  refine Prog.post_bind.2 (readSuper_post.mono (fun sb v hread => ?_) fun _ _ _ => trivial)
  obtain ⟨_, τ, hv⟩ := hread
  subst hv
  have hsv := hsu.frame (.withDisk u (u.disk.atTime τ)) fun _ _ => rfl
  simp only [Prog.post_bind, Prog.post_get]
  exact (writeSuper_data _).mono (fun _ w hw => hsv.frame hw.1 hw.2.1) fun _ _ _ => trivial

/-- The files when `write_all` has made room for a new one. -/
def replacedFiles (s : Fs) (m : Files) (name : List UInt8) : Files :=
  match s.lookup name with
  | some i => Function.update m i none
  | none => m

theorem replaceFile_holds {name : List UInt8} (hs : Holds s m) :
    Prog.Post (replaceFile name) s
      (fun j t => Holds t (Function.update (replacedFiles s m name) j (some [])))
      fun _ _ => True := by
  rw [replaceFile]
  simp only [Prog.post_bind, Prog.post_get, replacedFiles]
  cases s.lookup name with
  | some i =>
    refine Prog.post_bind.2 ((remove_holds hs).mono (fun _ t ht => ?_) fun _ _ _ => trivial)
    exact (makeEntry_holds ht.2.2).mono (fun _ _ h => h.2.2) fun _ _ _ => trivial
  | none => exact (makeEntry_holds hs).mono (fun _ _ h => h.2.2) fun _ _ _ => trivial

theorem splice_nil (data : List UInt8) : splice [] 0 data = data := by
  refine List.ext_getElem (by simp [length_splice]) fun p hp hp' => ?_
  have := getD_splice [] 0 data p
  rw [List.getD_eq_getElem _ _ hp, if_pos ⟨Nat.zero_le _, by omega⟩, Nat.sub_zero,
    List.getD_eq_getElem _ _ hp'] at this
  exact this

/-! ## Histories -/

/-- The files after a call on the state `s` that replied `r`. The file that `write_all` fills is
the one its `create` made. -/
def filesAfter (s : Fs) (m : Files) : FsCall → FsReply → Files
  | .create _, .index i => Function.update m i (some [])
  | .remove index, _ => Function.update m index none
  | .write index offset data, _ =>
    Function.update m index (some (splice ((m index).getD []) offset data))
  | .writeAll name data, _ =>
    match (replaceFile name).run s with
    | (.ok j, _) => Function.update (replacedFiles s m name) j (some data)
    | (.error _, _) => m
  | _, _ => m

end Fs

/-- The file system, and what its files should contain. -/
structure FileHistory where
  fs : Fs
  files : Files

/-- A successful call under a condition on the state before it. -/
structure FileStep (arch : Arch) (cond : Fs → FsCall → Prop) (h : FileHistory) (e : FsEvent)
    (h' : FileHistory) : Prop where
  step : FsStep arch h.fs e h'.fs
  wellTyped : e.call.WellTyped arch
  cond : cond h.fs e.call
  files : ∃ r, e.reply = .ok r ∧
    h'.files = Fs.filesAfter { h.fs with unixTime := e.unixTime } h.files e.call r

namespace Fs

variable {s t : Fs} {m : Files}

theorem exec_holds {arch : Arch} {call : FsCall} (hs : Holds s m) (hw : call.WellTyped arch)
    (hz : Zeroed s call) :
    Prog.Post (call.exec arch) s (fun r t => Holds t (filesAfter s m call r))
      fun _ _ => True := by
  cases call with
  | create path =>
    exact Prog.post_bind.2 ((makeEntry_holds hs).mono (fun _ _ ⟨_, _, h⟩ => h) fun _ _ _ => trivial)
  | mkdir path =>
    refine Prog.post_bind.2 ((makeEntry_holds hs).mono (fun i t hmade => ?_)
      fun _ _ _ => trivial)
    obtain ⟨_, hm, h⟩ := hmade
    rw [if_neg (show kindDir ≠ kindFile by decide), ← hm, Function.update_eq_self] at h
    exact h
  | rmdir path =>
    exact Prog.post_bind.2 ((rmdir_holds hs).mono (fun _ _ h => h) fun _ _ _ => trivial)
  | remove index =>
    exact Prog.post_bind.2 ((remove_holds hs).mono (fun _ _ h => h.2.2) fun _ _ _ => trivial)
  | read index offset room =>
    exact Prog.post_bind.2 ((read_bytes hs).mono (fun _ _ h => h.1) fun _ _ _ => trivial)
  | write index offset data =>
    refine Prog.post_bind.2 ((write_holds arch hs hw.1 hw.2 hz).mono
      (fun _ t hwrite => ?_) fun _ _ _ => trivial)
    obtain ⟨_, _, f, hf, h⟩ := hwrite
    show Holds t (Function.update m index (some (splice ((m index).getD []) offset data)))
    rwa [hf]
  | writeAll name data =>
    refine Prog.post_bind.2 (Prog.post_bind.2 ?_)
    cases hrun : (replaceFile name).run s with
    | mk r u =>
      refine Prog.post_of_run_eq hrun (fun j hr => ?_) fun _ _ => trivial
      subst hr
      have hu := (replaceFile_holds hs).of_ok hrun
      have hzero : Zeroed u (.write j 0 data) := by
        simp [Zeroed, blockCount, blockSize]
      refine (write_holds arch hu (Nat.two_pow_pos _) hw hzero).mono
        (fun _ t hwrite => ?_) fun _ _ _ => trivial
      obtain ⟨_, _, f, hf, h⟩ := hwrite
      rw [Function.update_self] at hf
      rw [← Option.some.inj hf, splice_nil, Function.update_idem] at h
      simpa only [Prog.post_pure, filesAfter, hrun] using h
  | sync =>
    exact Prog.post_bind.2 ((sync_holds hs).mono (fun _ _ h => h) fun _ _ _ => trivial)

/-- A new file system holds no file. -/
theorem format_holds {label : List UInt8} (h : (format label).run s = (.ok (), t)) :
    Holds t fun _ => none := by
  refine Prog.Post.of_ok (x := format label) (Q := fun _ t => Holds t fun _ => none)
    (E := fun _ _ => True) ?_ h
  rw [format]
  simp only [Prog.post_bind, Prog.post_get]
  split
  · trivial
  split
  · trivial
  simp only [Prog.post_bind, Prog.post_modify]
  rename_i lba sectors _ _
  have hstart := (@books_cleared s _ lba (capacityBlocks_le sectors)).weaken False.elim
  refine ((keepsTables_flushInodes.keepsBooks False hstart).and keepsTables_flushInodes).mono
    (fun _ u hu => ?_) fun _ _ _ => trivial
  obtain ⟨hbu, hu⟩ := hu
  refine ((keepsTables_flushBitmap.keepsBooks False hbu).and keepsTables_flushBitmap).mono
    (fun _ v hv => ?_) fun _ _ _ => trivial
  obtain ⟨hbv, hv⟩ := hv
  refine (((keepsTables_writeSuper _).keepsBooks False hbv).and (writeSuper_data _)).mono
    (fun _ w hw => ?_) fun _ _ _ => trivial
  obtain ⟨hbw, hw, _, hplaced⟩ := hw
  have htab := (hu.trans hv).trans hw
  have hmounted : Holds { w with mounted := true } fun _ => none := by
    refine ⟨hw.placed hplaced, hbw.congr rfl rfl rfl fun _ _ => rfl, fun i hi => ?_,
      (fun _ _ _ h => by cases h), (fun _ _ _ h => by cases h)⟩
    show false = true ↔ (w.inodes i).kind = kindFile
    rw [htab.inodes]
    exact ⟨fun h => (Bool.false_ne_true h).elim, fun h => absurd h (cleared_kind hi)⟩
  have hdir : ∀ {x : Fs} {i : ℕ}, Holds x (Function.update (fun _ => none) i
      (if kindDir = kindFile then some [] else none)) → Holds x fun _ => none := fun {x i} hx => by
    rwa [if_neg (show kindDir ≠ kindFile by decide),
      show Function.update (fun _ => none) i none = (fun _ => none : Files) from
        Function.update_eq_self i _] at hx
  refine (makeEntry_holds hmounted).mono (fun _ x hx => ?_) fun _ _ _ => trivial
  obtain ⟨_, _, hx⟩ := hx
  exact (makeEntry_holds (hdir hx)).mono (fun _ _ hy => hdir hy.2.2) fun _ _ _ => trivial

theorem zeroed_time {call : FsCall} (h : Zeroed s call) (time : UInt32) :
    Zeroed { s with unixTime := time } call := by
  cases call <;> exact h

/-- One successful call under the condition. -/
theorem holds_step {arch : Arch} {h h' : FileHistory} {e : FsEvent} (hs : Holds h.fs h.files)
    (hstep : FileStep arch Zeroed h e h') : Holds h'.fs h'.files := by
  obtain ⟨r, hr, hfiles⟩ := hstep.files
  have htime : Holds { h.fs with unixTime := e.unixTime } h.files :=
    ⟨hs.placed, hs.books.congr rfl rfl rfl fun _ _ => rfl, hs.kind, hs.length, hs.bytes⟩
  rw [hfiles]
  exact (exec_holds htime hstep.wellTyped (zeroed_time hstep.cond _)).of_ok (hr ▸ hstep.step.2)

/-- **File contents.** From a successful `format` on, after any successful calls of which no
write starts beyond the first block its file does not have yet, a successful read returns the
bytes of the model's file. -/
theorem contents_of_zeroed {arch : Arch} {s₀ : Fs} {label : List UInt8} {es : List FsEvent}
    {h : FileHistory} {index offset room : ℕ} {l : List UInt8}
    (hformat : (format label).run s₀ = (.ok (), s))
    (hrun : Run (FileStep arch Zeroed) ⟨s, fun _ => none⟩ es h)
    (hread : (read index offset room).run h.fs = (.ok l, t)) :
    ∃ f, h.files index = some f ∧ l = (f.drop offset).take room :=
  have hs := hrun.invariant (I := fun h => Holds h.fs h.files) (fun _ _ _ => holds_step)
    (format_holds hformat)
  ((read_bytes hs).of_ok hread).2

end Fs

/-! ## Examples of histories -/

instance (s : Fs) (call : FsCall) : Decidable (Fs.Zeroed s call) :=
  match call with
  | .write _ _ data => inferInstanceAs (Decidable (if data = [] then _ else _))
  | .create _ | .mkdir _ | .rmdir _ | .remove _ | .read .. | .writeAll .. | .sync =>
    instDecidableTrue

/-- The history of a list of calls, all at the clock's present time. -/
def execHistory (arch : Arch) : List FsCall → FileHistory → List FsEvent × FileHistory
  | [], h => ([], h)
  | call :: calls, h =>
    let result := (call.exec arch).run h.fs
    let files := match result.1 with
      | .ok r => Fs.filesAfter h.fs h.files call r
      | .error _ => h.files
    let rest := execHistory arch calls ⟨result.2, files⟩
    (⟨call, h.fs.unixTime, result.1⟩ :: rest.1, rest.2)

/-- Every call succeeds, is well typed and meets the condition. -/
def Allowed (arch : Arch) (cond : Fs → FsCall → Prop) : List FsCall → FileHistory → Prop
  | [], _ => True
  | call :: calls, h =>
    call.WellTyped arch ∧ cond h.fs call ∧ ((call.exec arch).run h.fs).1.isOk = true ∧
      Allowed arch cond calls (execHistory arch [call] h).2

instance decidableAllowed (arch : Arch) (cond : Fs → FsCall → Prop)
    [∀ s c, Decidable (cond s c)] : ∀ calls h, Decidable (Allowed arch cond calls h)
  | [], _ => isTrue trivial
  | call :: calls, h =>
    have := decidableAllowed arch cond calls (execHistory arch [call] h).2
    inferInstanceAs (Decidable (_ ∧ _ ∧ _ ∧ _))

theorem run_execHistory {arch : Arch} {cond : Fs → FsCall → Prop} {calls : List FsCall}
    {h : FileHistory} (hall : Allowed arch cond calls h) :
    Run (FileStep arch cond) h (execHistory arch calls h).1 (execHistory arch calls h).2 := by
  induction calls generalizing h with
  | nil => exact .nil h
  | cons call calls ih =>
    obtain ⟨hw, hcond, hok, hrest⟩ := hall
    cases hr : ((call.exec arch).run h.fs).1 with
    | error stop =>
      rw [hr] at hok
      cases hok
    | ok r =>
      refine .cons ⟨⟨?_, rfl⟩, hw, hcond, r, hr, ?_⟩ (ih hrest)
      · show ((call.exec arch).run h.fs).1 ≠ _
        rw [hr]
        exact fun h => by cases h
      · simp only [hr]

namespace Fs

/-- A file of two blocks, the second one begun in its middle. -/
theorem contents_of_zeroed_twoBlocks :
    ∃ f, (execHistory .i386 [.create [97], .write 3 0 [1, 2, 3], .write 3 4097 [4]]
        ⟨formattedFs, fun _ => none⟩).2.files 3 = some f ∧ [2, 3, 0] = (f.drop 1).take 3 :=
  contents_of_zeroed format_blankFs (run_execHistory (by decide +kernel))
    (Prog.run_eq_of_fst (by decide +kernel))

/-- The blocks that a write skips keep what a removed file had in them: the byte 85 of the file
`a` is read back from the file `b`, whose first block was never written. -/
theorem contents_fail :
    ¬ ∀ (arch : Arch) (s₀ s t : Fs) (label : List UInt8) (es : List FsEvent) (h : FileHistory)
      (index offset room : ℕ) (l : List UInt8), (format label).run s₀ = (.ok (), s) →
      Run (FileStep arch fun _ _ => True) ⟨s, fun _ => none⟩ es h →
      (read index offset room).run h.fs = (.ok l, t) →
      ∃ f, h.files index = some f ∧ l = (f.drop offset).take room := by
  intro hall
  obtain ⟨f, hf, hl⟩ := hall .i386 blankFs formattedFs _ [] _
    (execHistory .i386 [.create [97], .write 3 0 [85], .remove 3, .create [98],
      .write 3 4096 [1]] ⟨formattedFs, fun _ => none⟩).2 3 0 1 [85] format_blankFs
    (run_execHistory (by decide +kernel)) (Prog.run_eq_of_fst (by decide +kernel))
  have hmodel : Option.map (List.take 1) ((execHistory .i386 [.create [97], .write 3 0 [85],
      .remove 3, .create [98], .write 3 4096 [1]] ⟨formattedFs, fun _ => none⟩).2.files 3) =
        some [0] := by
    decide +kernel
  rw [hf, Option.map_some, Option.some.injEq] at hmodel
  rw [List.drop_zero, hmodel] at hl
  exact absurd hl (by decide)

end Fs

end Tcmk
