import Tcmk.Lib.Ownership
import Tcmk.Fs.Calls
import Tcmk.Fs.Command

/-!
# Who owns a block

Each of the first `block_count(size)` pointers of a file owns a block: the block is marked in
the bitmap, and no other such pointer names it. `FREE_BLOCKS` counts the clear bits. As long as
every transfer succeeds the bitmap marks no other block. `block_ownership` says this of every
state that any sequence of calls leads to.

The books (`Books s L c`) are kept for a set `L` of slots; between calls `L` is `s.live`. While a
write allocates, `L` has the new pointers as well, and while a file is removed it loses one
pointer after the other. The condition `c` is that no block has been lost.
-/

namespace Tcmk

open Lib

namespace Fs

variable {s t : Fs} {L L' : Set (ℕ × ℕ)} {c c' : Prop} {index : ℕ}

/-- The slots `(inode, pointer)` that a file's size makes valid. -/
def live (s : Fs) : Set (ℕ × ℕ) :=
  {a | a.1 < maxInodes ∧ (s.inodes a.1).kind = kindFile ∧
    a.2 < blockCount (s.inodes a.1).size.toNat}

/-- The block a slot names. -/
def pointer (s : Fs) (a : ℕ × ℕ) : ℕ := ((s.inodes a.1).blocks a.2).toNat

/-- The block is marked in the bitmap. -/
def used (s : Fs) (b : ℕ) : Prop := b < maxBlocks ∧ bitGet s.bitmap b = true

/-- The slots of `L` own their blocks, and `FREE_BLOCKS` is right; under `c` no other block is
marked. -/
structure Books (s : Fs) (L : Set (ℕ × ℕ)) (c : Prop) : Prop where
  total_le : s.totalBlocks.toNat ≤ maxBlocks
  slot : ∀ a ∈ L, a.1 < maxInodes ∧ a.2 < directBlocks
  lt : ∀ a ∈ L, s.pointer a < s.totalBlocks.toNat
  owns : Owns L s.pointer s.used
  free : s.freeBlocks.toNat = countFree s.bitmap s.totalBlocks.toNat
  covers : c → Covers L s.pointer s.used

/-! ## One block -/

theorem pointer_setBlock (s : Fs) (index i : ℕ) (block : UInt32) (a : ℕ × ℕ) :
    (s.setBlock index i block).pointer a =
      if a = (index, i) then block.toNat else s.pointer a := by
  obtain ⟨j, k⟩ := a
  simp only [pointer, setBlock, setInode, Prod.mk.injEq]
  by_cases hj : j = index
  · subst hj
    by_cases hk : k = i
    · subst hk
      simp
    · simp [hk]
  · simp [hj]

theorem countFree_eq (bitmap : ℕ → UInt8) (n : ℕ) :
    countFree bitmap n = (List.range n).countP fun i => !bitGet bitmap i :=
  List.countP_eq_length_filter.symm

theorem countFree_le (bitmap : ℕ → UInt8) (n : ℕ) : countFree bitmap n ≤ n := by
  rw [countFree_eq]
  exact List.countP_le_length.trans (by rw [List.length_range])

/-- Setting a clear bit takes one block from the free ones. -/
theorem countFree_bitSet {bitmap : ℕ → UInt8} {b n : ℕ} (hb : b < n)
    (hclear : bitGet bitmap b = false) :
    countFree bitmap n = countFree (bitSet bitmap b true) n + 1 := by
  rw [countFree_eq, countFree_eq]
  refine countP_range_succ_of hb (by simp) (by simp [hclear]) fun i hi => ?_
  rw [bitGet_bitSet_of_ne _ hi]

theorem countFree_bitSet_false {bitmap : ℕ → UInt8} {b n : ℕ} (hb : b < n)
    (hset : bitGet bitmap b = true) :
    countFree (bitSet bitmap b false) n = countFree bitmap n + 1 := by
  rw [countFree_eq, countFree_eq]
  refine countP_range_succ_of hb (by simp [hset]) (by simp) fun i hi => ?_
  rw [bitGet_bitSet_of_ne _ hi]

theorem firstFree_some {bitmap : ℕ → UInt8} {n b : ℕ} (h : firstFree bitmap n = some b) :
    b < n ∧ bitGet bitmap b = false :=
  ⟨List.mem_range.1 (List.mem_of_find?_eq_some h), by simpa using List.find?_some h⟩

/-- The state after `alloc_block` found `b`. -/
def allocated (s : Fs) (b : ℕ) : Fs :=
  { s with bitmap := bitSet s.bitmap b true, freeBlocks := s.freeBlocks - 1 }

/-- The state after `free_block` cleared `b`. -/
def freed (s : Fs) (b : ℕ) : Fs :=
  { s with bitmap := bitSet s.bitmap b false, freeBlocks := s.freeBlocks + 1 }

theorem used_allocated {b : ℕ} (hb : b < maxBlocks) (x : ℕ) :
    (s.allocated b).used x ↔ x = b ∨ s.used x := by
  simp only [used, allocated, bitGet_bitSet]
  by_cases hx : x = b
  · simp [hx, hb]
  · simp [hx]

theorem used_freed (b x : ℕ) : (s.freed b).used x ↔ s.used x ∧ x ≠ b := by
  simp only [used, freed, bitGet_bitSet]
  by_cases hx : x = b <;> simp [hx]

namespace Books

theorem mono (h : Books s L c) (hL : L' ⊆ L) : Books s L' False :=
  ⟨h.total_le, fun a ha => h.slot a (hL ha), fun a ha => h.lt a (hL ha), h.owns.mono hL, h.free,
    False.elim⟩

theorem weaken (h : Books s L c) (hc : c' → c) : Books s L c' :=
  { h with covers := fun h' => h.covers (hc h') }

/-- The books do not depend on anything but the bitmap, the counters and the live pointers. -/
theorem congr (h : Books s L c) (hbitmap : t.bitmap = s.bitmap)
    (htotal : t.totalBlocks = s.totalBlocks) (hfree : t.freeBlocks = s.freeBlocks)
    (hptr : Set.EqOn t.pointer s.pointer L) : Books t L c := by
  have hused : t.used = s.used := by
    funext b
    simp only [used, hbitmap]
  refine ⟨by rw [htotal]; exact h.total_le, h.slot, fun a ha => ?_, ?_, ?_, fun hc => ?_⟩
  · rw [hptr ha, htotal]
    exact h.lt a ha
  · rw [hused]
    exact h.owns.congr hptr
  · rw [hfree, hbitmap, htotal]
    exact h.free
  · rw [hused]
    exact (h.covers hc).congr hptr

theorem sameTables (h : Books s L c) (hst : SameTables s t) : Books t L c :=
  h.congr hst.bitmap hst.totalBlocks hst.freeBlocks fun a _ => by
    simp only [pointer, hst.inodes]

/-- A free block goes into a new slot. -/
theorem acquire (h : Books s L c) {b : ℕ} (hb : firstFree s.bitmap s.totalBlocks.toNat = some b)
    {a : ℕ × ℕ} (hslot : a.1 < maxInodes ∧ a.2 < directBlocks) (ha : a ∉ L) :
    Books ((s.allocated b).setBlock a.1 a.2 (UInt32.ofNat b)) (insert a L) c := by
  obtain ⟨hlt, hclear⟩ := firstFree_some hb
  have hmax : b < maxBlocks := Nat.lt_of_lt_of_le hlt h.total_le
  have hself : ((s.allocated b).setBlock a.1 a.2 (UInt32.ofNat b)).pointer a = b := by
    rw [pointer_setBlock, if_pos rfl]
    exact UInt32.toNat_ofNat_of_lt' (Nat.lt_trans hmax (by decide))
  have hptr : Set.EqOn ((s.allocated b).setBlock a.1 a.2 (UInt32.ofNat b)).pointer s.pointer L := by
    intro x hx
    have hne : x ≠ a := fun h => ha (h ▸ hx)
    rw [pointer_setBlock, if_neg hne]
    rfl
  have hcount := countFree_bitSet hlt hclear
  have hfree := h.free
  refine ⟨h.total_le, fun x hx => ?_, fun x hx => ?_,
    h.owns.acquire (fun hu => by simp [used, hclear] at hu) hself hptr (used_allocated hmax), ?_,
    fun hc => (h.covers hc).acquire hself hptr (used_allocated hmax)⟩
  · rcases hx with rfl | hx
    · exact hslot
    · exact h.slot x hx
  · rcases hx with rfl | hx
    · rw [hself]
      exact hlt
    · rw [hptr hx]
      exact h.lt x hx
  · show (s.freeBlocks - 1).toNat = countFree (bitSet s.bitmap b true) s.totalBlocks.toNat
    rw [UInt32.toNat_sub_of_le _ _ (UInt32.le_iff_toNat_le.2 (by
      rw [hfree, hcount]
      exact Nat.le_add_left _ _)), hfree, hcount]
    rfl

/-- The block of a live slot is given back. -/
theorem release (h : Books s L c) {a : ℕ × ℕ} (ha : a ∈ L) :
    Books (s.freed (s.pointer a)) (L \ {a}) c := by
  have hset : bitGet s.bitmap (s.pointer a) = true := (h.owns.used a ha).2
  have hcount := countFree_bitSet_false (h.lt a ha) hset
  have hle := countFree_le (bitSet s.bitmap (s.pointer a) false) s.totalBlocks.toNat
  have htotal := h.total_le
  refine ⟨h.total_le, fun x hx => h.slot x hx.1, fun x hx => h.lt x hx.1,
    h.owns.release ha (used_freed _), ?_, fun hc => (h.covers hc).release (used_freed _)⟩
  show (s.freeBlocks + 1).toNat =
    countFree (bitSet s.bitmap (s.pointer a) false) s.totalBlocks.toNat
  rw [UInt32.toNat_add, h.free, hcount, show (1 : UInt32).toNat = 1 from rfl, Nat.mod_eq_of_lt]
  exact Nat.lt_of_le_of_lt (hcount ▸ hle.trans htotal) (by decide)

end Books

theorem allocBlock_post (s : Fs) :
    Prog.Post allocBlock s
      (fun r t => match firstFree s.bitmap s.totalBlocks.toNat with
        | some b => r = some (UInt32.ofNat b) ∧ t = s.allocated b
        | none => r = none ∧ t = s) fun _ _ => False := by
  rw [allocBlock]
  simp only [Prog.post_bind, Prog.post_get]
  cases firstFree s.bitmap s.totalBlocks.toNat with
  | some b => exact ⟨rfl, rfl⟩
  | none => exact ⟨rfl, rfl⟩

/-- Freeing the block of a live slot never goes wrong. -/
theorem freeBlock_post (h : Books s L c) {a : ℕ × ℕ} (ha : a ∈ L) :
    Prog.Post (freeBlock ((s.inodes a.1).blocks a.2)) s (fun _ t => t = s.freed (s.pointer a))
      fun _ _ => False := by
  obtain ⟨hlt, hset⟩ := h.owns.used a ha
  rw [freeBlock]
  simp only [Prog.post_bind, Prog.post_get]
  split
  · rename_i hge
    exact absurd hlt (Nat.not_lt.2 hge)
  · split
    · exact Prog.post_modify.2 rfl
    · rename_i hclear
      exact absurd hset hclear

/-! ## Calls -/

theorem SameTables.live (h : SameTables s t) : t.live = s.live := by
  simp only [Fs.live, h.inodes]

/-- Between calls the books are right; an I/O error may lose blocks. -/
def KeepsBooks {α : Type} (x : FsProg α) (s : Fs) : Prop :=
  ∀ c, Books s s.live c → Prog.Post x s (fun _ t => Books t t.live c)
    fun stop t => ∀ e, stop = .err e → Books t t.live (c ∧ e ≠ .io)

theorem KeepsBooks.bind {α β : Type} {x : FsProg α} {f : α → FsProg β} (h : KeepsBooks x s)
    (h' : ∀ a t, KeepsBooks (f a) t) : KeepsBooks (x >>= f) s := fun c hs =>
  Prog.post_bind.2 ((h c hs).mono (fun a t ht => h' a t c ht) fun _ _ he => he)

theorem keepsBooks_pure {α : Type} (a : α) : KeepsBooks (pure a) s := fun _ hs => hs

theorem keepsBooks_fail {α : Type} (e : FsError) : KeepsBooks (fail e : FsProg α) s :=
  fun _ hs _ _ => hs.weaken And.left

theorem KeepsTables.keepsBooks {α : Type} {x : FsProg α} (h : KeepsTables x s) :
    KeepsBooks x s := fun c hs => by
  refine Prog.Post.mono h (fun _ t ht => ?_) fun stop t ⟨he, ht⟩ e _ => ?_
  · rw [ht.live]
    exact hs.sameTables ht
  · rw [ht.live]
    exact (hs.sameTables ht).weaken And.left

theorem setInode_inodes_self (s : Fs) (index : ℕ) (inode : Inode) :
    (s.setInode index inode).inodes index = inode := Function.update_self ..

theorem setInode_inodes_of_ne (s : Fs) (inode : Inode) {i : ℕ} (h : i ≠ index) :
    (s.setInode index inode).inodes i = s.inodes i := Function.update_of_ne h ..

theorem pointer_setInode {inode : Inode} {a : ℕ × ℕ} (ha : a.1 ≠ index) :
    (s.setInode index inode).pointer a = s.pointer a := by
  simp only [pointer, Fs.setInode, Function.update_of_ne ha]

/-- Replacing an inode that is no file by one without blocks makes no slot live. -/
theorem live_setInode {inode : Inode} (hold : (s.inodes index).kind ≠ kindFile)
    (hnew : inode.size = 0) : (s.setInode index inode).live = s.live := by
  ext ⟨j, k⟩
  simp only [live, Fs.setInode, Set.mem_ofPred_eq]
  by_cases hj : j = index
  · subst hj
    rw [Function.update_self]
    refine ⟨fun ⟨_, _, hk⟩ => ?_, fun ⟨_, hkind, _⟩ => absurd hkind hold⟩
    rw [hnew] at hk
    exact absurd hk (Nat.not_lt_zero _)
  · rw [Function.update_of_ne hj]

theorem Books.setInode (h : Books s s.live c) {inode : Inode}
    (hold : (s.inodes index).kind ≠ kindFile) (hnew : inode.size = 0) :
    Books (s.setInode index inode) (s.setInode index inode).live c := by
  rw [live_setInode hold hnew]
  refine h.congr rfl rfl rfl fun a ha => pointer_setInode fun heq => hold ?_
  rw [← heq]
  exact ha.2.1

theorem keepsBooks_makeEntry (kind : UInt32) (path : List UInt8) :
    KeepsBooks (makeEntry kind path) s := by
  intro c hs
  rw [makeEntry]
  simp only [Prog.post_bind, Prog.post_get]
  split
  · exact keepsBooks_fail _ c hs
  split
  · exact keepsBooks_fail _ c hs
  split
  · exact keepsBooks_fail _ c hs
  rw [allocateInode]
  simp only [Prog.post_bind, Prog.post_get]
  split
  · exact @keepsBooks_fail s ℕ _ c hs
  rename_i i hi
  split
  · intro _ h
    cases h
  simp only [Prog.post_bind, Prog.post_modify, Prog.post_pure]
  have hkind := List.find?_some hi
  simp only [Bool.and_eq_true, beq_iff_eq, bne_iff_ne] at hkind
  refine keepsTables_flushInodes.keepsBooks c (hs.setInode ?_ rfl)
  rw [hkind.1]
  decide

theorem keepsBooks_rmdir (path : List UInt8) : KeepsBooks (rmdir path) s := by
  intro c hs
  rw [rmdir]
  simp only [Prog.post_bind, Prog.post_get]
  split
  · exact keepsBooks_fail _ c hs
  split
  · exact keepsBooks_fail _ c hs
  split
  · exact keepsBooks_fail _ c hs
  split
  · exact keepsBooks_fail _ c hs
  rename_i hdir
  split
  · exact keepsBooks_fail _ c hs
  · simp only [Prog.post_bind, Prog.post_modify]
    refine keepsTables_flushInodes.keepsBooks c (hs.setInode ?_ rfl)
    rw [not_not.1 (not_or.1 hdir).2]
    decide

/-! ### Removing a file -/

/-- Without the first `j` pointers of an inode. -/
def dropped (L : Set (ℕ × ℕ)) (index j : ℕ) : Set (ℕ × ℕ) := L \ {a | a.1 = index ∧ a.2 < j}

theorem dropped_succ (L : Set (ℕ × ℕ)) (index j : ℕ) :
    dropped L index j \ {(index, j)} = dropped L index (j + 1) := by
  ext ⟨i, k⟩
  simp only [dropped, Set.mem_sdiff, Set.mem_ofPred_eq, Set.mem_singleton_iff, Prod.mk.injEq]
  constructor
  · rintro ⟨⟨hL, hj⟩, hne⟩
    exact ⟨hL, fun ⟨hi, hk⟩ => hj ⟨hi, by omega⟩⟩
  · rintro ⟨hL, hj⟩
    exact ⟨⟨hL, fun ⟨hi, hk⟩ => hj ⟨hi, by omega⟩⟩, fun ⟨hi, hk⟩ => hj ⟨hi, by omega⟩⟩

/-- The inode that goes takes exactly its own slots along. -/
theorem live_setInode_empty (hindex : (s.inodes index).kind = kindFile) :
    (s.setInode index Inode.empty).live =
      dropped s.live index (blockCount (s.inodes index).size.toNat) := by
  ext ⟨j, k⟩
  simp only [live, dropped, Fs.setInode, Set.mem_ofPred_eq, Set.mem_sdiff]
  by_cases hj : j = index
  · subst hj
    simp only [Function.update_self, true_and]
    exact ⟨fun h => absurd h.2.1 (by decide), fun h => absurd h.1.2.2 h.2⟩
  · simp [hj]

/-- The loop of `remove` gives back the blocks of the file. -/
theorem freeBlocks_post (hs : Books s s.live c) (hindex : index < maxInodes)
    (hkind : (s.inodes index).kind = kindFile) :
    Prog.Post (Prog.forRange (blockCount (s.inodes index).size.toNat) 0 fun i => do
        let s ← Prog.get
        if i ≥ directBlocks then Prog.throw .panic else freeBlock ((s.inodes index).blocks i)) s
      (fun _ t => (∃ bitmap free, t = { s with bitmap := bitmap, freeBlocks := free }) ∧
        Books (t.setInode index Inode.empty) (t.setInode index Inode.empty).live c)
      fun _ _ => False := by
  have hslot : ∀ k < blockCount (s.inodes index).size.toNat, (index, k) ∈ s.live :=
    fun k hk => ⟨hindex, hkind, hk⟩
  refine (Prog.Post.forRange (E := fun _ _ => False)
    (I := fun j t => (∃ bitmap free, t = { s with bitmap := bitmap, freeBlocks := free }) ∧
      Books t (dropped s.live index j) c) _
    ⟨⟨_, _, rfl⟩, ?_⟩ fun j t _ hj ht => ?_).mono (fun _ t ht => ⟨ht.1, ?_⟩) fun _ _ h => h
  · rwa [dropped, show {a : ℕ × ℕ | a.1 = index ∧ a.2 < 0} = ∅ by simp, Set.sdiff_empty]
  · obtain ⟨⟨bitmap, free, rfl⟩, hbooks⟩ := ht
    rw [Nat.zero_add] at hj
    have hmem : (index, j) ∈ dropped s.live index j := ⟨hslot j hj, fun h => Nat.lt_irrefl _ h.2⟩
    simp only [Prog.post_bind, Prog.post_get]
    rw [if_neg (Nat.not_le.2 (hbooks.slot _ hmem).2)]
    refine (freeBlock_post hbooks hmem).mono (fun _ u hu => ?_) fun _ _ h => h
    subst hu
    exact ⟨⟨_, _, rfl⟩, dropped_succ s.live index j ▸ hbooks.release hmem⟩
  · obtain ⟨⟨bitmap, free, rfl⟩, hbooks⟩ := ht
    rw [Nat.zero_add] at hbooks
    rw [@live_setInode_empty { s with bitmap := bitmap, freeBlocks := free } index hkind]
    refine hbooks.congr rfl rfl rfl fun a ha => pointer_setInode fun heq => ?_
    obtain ⟨⟨_, _, hlt⟩, hnot⟩ := ha
    exact hnot ⟨heq, heq ▸ hlt⟩

theorem keepsBooks_remove (index : ℕ) : KeepsBooks (remove index) s := by
  intro c hs
  rw [remove]
  simp only [Prog.post_bind, Prog.post_get]
  split
  · exact keepsBooks_fail _ c hs
  split
  · exact keepsBooks_fail _ c hs
  rename_i hfile
  rw [not_or, not_le, not_not] at hfile
  refine Prog.post_bind.2 ((freeBlocks_post hs hfile.1 hfile.2).mono (fun _ t ht => ?_)
    fun _ _ h => h.elim)
  exact Prog.post_bind.2 (Prog.post_modify.2 ((keepsTables_flushInodes.keepsBooks.bind fun _ _ =>
    keepsTables_flushBitmap.keepsBooks) c ht.2))

/-! ### Writing a file -/

/-- While a write to `index` allocates, it changes this inode's pointers from `have_` on, the
bitmap and the counter, and nothing else. -/
def Allocating (s : Fs) (index have_ : ℕ) (t : Fs) : Prop :=
  ∃ blocks bitmap free, (∀ k < have_, blocks k = (s.inodes index).blocks k) ∧
    t = { s with
      inodes := Function.update s.inodes index { s.inodes index with blocks := blocks }
      bitmap := bitmap
      freeBlocks := free }

/-- The pointers `have_, …, stop - 1` of an inode. -/
def pending (index have_ stop : ℕ) : Set (ℕ × ℕ) :=
  {a | a.1 = index ∧ have_ ≤ a.2 ∧ a.2 < stop}

theorem pending_self (index have_ : ℕ) : pending index have_ have_ = ∅ :=
  Set.eq_empty_of_forall_notMem fun _ ha => Nat.not_lt.2 ha.2.1 ha.2.2

theorem pending_add_sub (index have_ needed : ℕ) :
    pending index have_ (have_ + (needed - have_)) = pending index have_ needed := by
  ext a
  simp only [pending, Set.mem_ofPred_eq]
  omega

theorem insert_pending {index have_ i : ℕ} (hi : have_ ≤ i) :
    insert (index, i) (L ∪ pending index have_ i) = L ∪ pending index have_ (i + 1) := by
  ext ⟨j, k⟩
  simp only [pending, Set.mem_insert_iff, Set.mem_union, Set.mem_ofPred_eq, Prod.mk.injEq]
  constructor
  · rintro (⟨rfl, rfl⟩ | h | ⟨hj, hk, hlt⟩)
    · exact .inr ⟨rfl, hi, Nat.lt_succ_self _⟩
    · exact .inl h
    · exact .inr ⟨hj, hk, Nat.lt_succ_of_lt hlt⟩
  · rintro (h | ⟨hj, hk, hlt⟩)
    · exact .inr (.inl h)
    · rcases Nat.lt_succ_iff_lt_or_eq.1 hlt with hlt | heq
      · exact .inr (.inr ⟨hj, hk, hlt⟩)
      · exact .inl ⟨hj, heq⟩

namespace Allocating

variable {have_ : ℕ}

theorem refl (s : Fs) (index have_ : ℕ) : Allocating s index have_ s :=
  ⟨(s.inodes index).blocks, s.bitmap, s.freeBlocks, fun _ _ => rfl, by
    rw [Function.update_eq_self]⟩

theorem live (h : Allocating s index have_ t) : t.live = s.live := by
  obtain ⟨blocks, bitmap, free, -, rfl⟩ := h
  ext ⟨j, k⟩
  simp only [Fs.live, Set.mem_ofPred_eq]
  by_cases hj : j = index
  · subst hj
    rw [Function.update_self]
  · rw [Function.update_of_ne hj]

theorem inode (h : Allocating s index have_ t) :
    (t.inodes index).kind = (s.inodes index).kind ∧
      (t.inodes index).size = (s.inodes index).size := by
  obtain ⟨blocks, bitmap, free, -, rfl⟩ := h
  simp only [Function.update_self, and_self]

theorem allocated (h : Allocating s index have_ t) (b : ℕ) :
    Allocating s index have_ (t.allocated b) := by
  obtain ⟨blocks, bitmap, free, hblocks, rfl⟩ := h
  exact ⟨blocks, _, _, hblocks, rfl⟩

theorem freed (h : Allocating s index have_ t) (b : ℕ) :
    Allocating s index have_ (t.freed b) := by
  obtain ⟨blocks, bitmap, free, hblocks, rfl⟩ := h
  exact ⟨blocks, _, _, hblocks, rfl⟩

theorem setBlock (h : Allocating s index have_ t) {i : ℕ} (hi : have_ ≤ i) (block : UInt32) :
    Allocating s index have_ (t.setBlock index i block) := by
  obtain ⟨blocks, bitmap, free, hblocks, rfl⟩ := h
  refine ⟨Function.update blocks i block, bitmap, free, fun k hk => ?_, ?_⟩
  · rw [Function.update_of_ne (Nat.ne_of_lt (Nat.lt_of_lt_of_le hk hi))]
    exact hblocks k hk
  · simp only [Fs.setBlock, setInode, Function.update_self, Function.update_idem]

end Allocating

/-- The file's own pointers are the first `have_`. -/
def OwnPointers (s : Fs) (index have_ : ℕ) : Prop := ∀ k, (index, k) ∈ s.live → k < have_

/-- When the disk is full, the blocks allocated so far are given back. -/
theorem rollback_post {have_ i : ℕ} (hi : have_ ≤ i) (hown : OwnPointers s index have_)
    (ht : Allocating s index have_ t) (hbooks : Books t (s.live ∪ pending index have_ i) c) :
    Prog.Post (Prog.forRange (i - have_) have_ fun j => do
        let s ← Prog.get
        freeBlock ((s.inodes index).blocks j)
        Prog.modify fun s => s.setBlock index j 0) t
      (fun _ u => Allocating s index have_ u ∧ Books u s.live c)
      fun _ _ => False := by
  -- Round `j` has given back the pointers below `j`.
  refine (Prog.Post.forRange (I := fun j u => Allocating s index have_ u ∧
    Books u (s.live ∪ pending index have_ i \ {a | a.1 = index ∧ a.2 < j}) c) _
    ⟨ht, ?_⟩ fun j u hj hlt hu => ?_).mono (fun _ u hu => ⟨hu.1, ?_⟩) fun _ _ h => h
  · rw [show pending index have_ i \ {a | a.1 = index ∧ a.2 < have_} = pending index have_ i from
      sdiff_eq_left.2 (Set.disjoint_left.2 fun a ha h => by
        have := ha.2.1
        have := h.2
        omega)]
    exact hbooks
  · obtain ⟨halloc, hbooks⟩ := hu
    have hmem : (index, j) ∈ s.live ∪ pending index have_ i \ {a | a.1 = index ∧ a.2 < j} :=
      .inr ⟨⟨rfl, hj, by omega⟩, fun h => Nat.lt_irrefl _ h.2⟩
    simp only [Prog.post_bind, Prog.post_get]
    refine (freeBlock_post hbooks hmem).mono (fun _ v hv => ?_) fun _ _ h => h
    subst hv
    refine ⟨(halloc.freed _).setBlock hj 0, ?_⟩
    have hset : s.live ∪ pending index have_ i \ {a | a.1 = index ∧ a.2 < j + 1} =
        (s.live ∪ pending index have_ i \ {a | a.1 = index ∧ a.2 < j}) \ {(index, j)} := by
      ext ⟨x, k⟩
      simp only [pending, Set.mem_union, Set.mem_sdiff, Set.mem_ofPred_eq, Set.mem_singleton_iff,
        Prod.mk.injEq]
      constructor
      · rintro (h | ⟨h, hnot⟩)
        · refine ⟨.inl h, ?_⟩
          rintro ⟨hx, hk⟩
          subst hx hk
          have := hown k h
          omega
        · exact ⟨.inr ⟨h, fun h' => hnot ⟨h'.1, by omega⟩⟩, fun h' => hnot ⟨h'.1, by omega⟩⟩
      · rintro ⟨h | ⟨h, hnot⟩, hne⟩
        · exact .inl h
        · exact .inr ⟨h, fun h' => hnot ⟨h'.1, by
            have : k ≠ j := fun hk => hne ⟨h'.1, hk⟩
            omega⟩⟩
    rw [hset]
    refine (hbooks.release hmem).congr rfl rfl rfl fun a ha => ?_
    rw [pointer_setBlock, if_neg (show a ≠ (index, j) from ha.2)]
  · refine cast ?_ hu.2
    have hgone : pending index have_ i \ {a | a.1 = index ∧ a.2 < have_ + (i - have_)} = ∅ :=
      Set.sdiff_eq_empty.2 fun a ha => ⟨ha.1, by
        have := ha.2.2
        omega⟩
    rw [hgone, Set.union_empty]

theorem allocBlocks_post {have_ : ℕ} (hindex : index < maxInodes)
    (hown : OwnPointers s index have_) (count : ℕ) {i : ℕ} {t : Fs} (hi : have_ ≤ i)
    (hcount : i + count ≤ directBlocks) (ht : Allocating s index have_ t)
    (hbooks : Books t (s.live ∪ pending index have_ i) c) :
    Prog.Post (allocBlocks index have_ count i) t
      (fun _ u => Allocating s index have_ u ∧
        Books u (s.live ∪ pending index have_ (i + count)) c)
      (fun stop u => stop = .err .full ∧ Allocating s index have_ u ∧ Books u s.live c) := by
  induction count generalizing i t with
  | zero => exact ⟨ht, hbooks⟩
  | succ count ih =>
    rw [allocBlocks]
    refine Prog.post_bind.2 ((allocBlock_post t).mono (fun r u hu => ?_) fun _ _ h => h.elim)
    cases hfree : firstFree t.bitmap t.totalBlocks.toNat with
    | some b =>
      rw [hfree] at hu
      obtain ⟨rfl, rfl⟩ := hu
      have hnot : (index, i) ∉ s.live ∪ pending index have_ i := by
        rintro (h | h)
        · exact Nat.not_lt.2 hi (hown i h)
        · exact Nat.lt_irrefl _ h.2.2
      simp only
      rw [if_neg (by omega)]
      refine Prog.post_bind.2 (Prog.post_modify.2 ?_)
      rw [show i + (count + 1) = i + 1 + count by omega]
      refine ih (Nat.le_succ_of_le hi) (by omega) ((ht.allocated b).setBlock hi _) ?_
      rw [← insert_pending hi]
      exact hbooks.acquire hfree ⟨hindex, by omega⟩ hnot
    | none =>
      rw [hfree] at hu
      obtain ⟨rfl, rfl⟩ := hu
      refine Prog.post_bind.2 ((rollback_post hi hown ht hbooks).mono (fun _ v hv => ?_)
        fun _ _ h => h.elim)
      exact ⟨rfl, hv⟩

theorem keepsTables_prepareScratch (index have_ blockIndex chunk : ℕ) (s : Fs) :
    Prog.Post (prepareScratch index have_ blockIndex chunk) s (fun _ t => SameTables s t)
      fun stop t => (stop = .err .io ∨ stop = .panic) ∧ SameTables s t := by
  rw [prepareScratch]
  split
  · split
    · simp only [Prog.post_bind, Prog.post_get]
      split
      · exact ⟨.inr rfl, .refl s⟩
      · exact (keepsTables_readBlock _).mono (fun _ _ h => h) fun _ _ h => ⟨.inl h.1, h.2⟩
    · exact .withScratch s _
  · exact .refl s

/-- The data loop changes the disk and `SCRATCH` only. -/
theorem keepsTables_writeLoop (arch : Arch) (index offset have_ : ℕ) (data : List UInt8)
    (fuel done : ℕ) (s : Fs) :
    Prog.Post (writeLoop arch index offset have_ data fuel done) s (fun _ t => SameTables s t)
      fun stop t => (stop = .err .io ∨ stop = .panic) ∧ SameTables s t := by
  induction fuel generalizing done s with
  | zero => exact .refl s
  | succ fuel ih =>
    rw [writeLoop]
    split
    · exact .refl s
    refine Prog.post_bind.2 ((keepsTables_prepareScratch _ _ _ _ s).mono (fun _ t ht => ?_)
      fun _ _ h => h)
    refine Prog.post_bind.2 (Prog.post_modify.2 ?_)
    have hfill : ∀ inBlock chunk, SameTables s (t.fillScratch inBlock chunk data done) :=
      fun _ _ => ht.trans (.withScratch t _)
    simp only [Prog.post_bind, Prog.post_get]
    split
    · exact ⟨.inr rfl, hfill _ _⟩
    · refine Prog.post_bind.2 ((keepsTables_writeBlock _).mono (fun _ u hu => ?_)
        fun _ _ h => ⟨.inl h.1, (hfill _ _).trans h.2⟩)
      exact (ih _ u).mono (fun _ _ h => (hfill _ _).trans (hu.trans h))
        fun _ _ h => ⟨h.1, (hfill _ _).trans (hu.trans h.2)⟩

theorem blockCount_mono {m n : ℕ} (h : m ≤ n) : blockCount m ≤ blockCount n :=
  Nat.div_le_div_right (Nat.add_le_add_right h _)

theorem blockCount_le {n : ℕ} (h : n ≤ maxFileSize) : blockCount n ≤ directBlocks :=
  (blockCount_mono h).trans (by decide)

/-- A file in the books has at most `DIRECT_BLOCKS` blocks. -/
theorem Books.blockCount_le (h : Books s s.live c) (hindex : index < maxInodes)
    (hkind : (s.inodes index).kind = kindFile) :
    blockCount (s.inodes index).size.toNat ≤ directBlocks := by
  by_contra hlt
  have hmem : (index, directBlocks) ∈ s.live := ⟨hindex, hkind, not_le.1 hlt⟩
  exact Nat.lt_irrefl _ (h.slot _ hmem).2

/-- The last step of a successful `write` in memory. -/
def finishWrite (s : Fs) (index stop : ℕ) : Fs :=
  s.setInode index { s.inodes index with
    size := if stop > (s.inodes index).size.toNat then UInt32.ofNat stop
      else (s.inodes index).size
    mtime := s.unixTime }

theorem finishWrite_inodes_of_ne {i : ℕ} (hi : i ≠ index) (stop : ℕ) :
    (s.finishWrite index stop).inodes i = s.inodes i := by
  simp only [finishWrite, setInode, Function.update_of_ne hi]

theorem finishWrite_kind (stop : ℕ) :
    ((s.finishWrite index stop).inodes index).kind = (s.inodes index).kind := by
  simp only [finishWrite, setInode, Function.update_self]

theorem finishWrite_size {stop : ℕ} (hstop : stop ≤ maxFileSize) :
    ((s.finishWrite index stop).inodes index).size.toNat =
      max (s.inodes index).size.toNat stop := by
  simp only [finishWrite, setInode, Function.update_self]
  split
  · rename_i h
    rw [UInt32.toNat_ofNat_of_lt' (Nat.lt_of_le_of_lt hstop (by decide)),
      Nat.max_eq_right (Nat.le_of_lt h)]
  · rename_i h
    rw [Nat.max_eq_left (not_lt.1 h)]

theorem pointer_finishWrite (s : Fs) (index stop : ℕ) (a : ℕ × ℕ) :
    (s.finishWrite index stop).pointer a = s.pointer a := by
  simp only [pointer, finishWrite, setInode]
  by_cases ha : a.1 = index
  · rw [ha, Function.update_self]
  · rw [Function.update_of_ne ha]

/-- The new size makes the pending pointers live. -/
theorem live_finishWrite {stop : ℕ} (hstop : stop ≤ maxFileSize) (hindex : index < maxInodes)
    (hkind : (s.inodes index).kind = kindFile) :
    (s.finishWrite index stop).live = s.live ∪
      pending index (blockCount (s.inodes index).size.toNat) (blockCount stop) := by
  ext ⟨j, k⟩
  by_cases hj : j = index
  · subst hj
    have hk : ((s.finishWrite j stop).inodes j).kind = kindFile := by
      simpa only [finishWrite, setInode, Function.update_self] using hkind
    simp only [live, pending, Set.mem_ofPred_eq, Set.mem_union, hk, hkind,
      finishWrite_size hstop, hindex, true_and]
    rcases le_total (s.inodes j).size.toNat stop with h | h
    · have := blockCount_mono h
      rw [Nat.max_eq_right h]
      omega
    · have := blockCount_mono h
      rw [Nat.max_eq_left h]
      omega
  · simp only [live, pending, finishWrite, setInode, Set.mem_ofPred_eq, Set.mem_union,
      Function.update_of_ne hj, hj, false_and, or_false]

theorem keepsBooks_write (arch : Arch) (index offset : ℕ) (data : List UInt8) :
    KeepsBooks (write arch index offset data) s := by
  intro c hs
  rw [write]
  simp only [Prog.post_bind, Prog.post_get]
  split
  · exact keepsBooks_fail _ c hs
  split
  · exact keepsBooks_fail _ c hs
  rename_i hfile
  rw [not_or, not_le, not_not] at hfile
  obtain ⟨hindex, hkind⟩ := hfile
  split
  · exact keepsBooks_fail _ c hs
  rename_i hstop
  rw [not_lt] at hstop
  generalize (offset + data.length) % 2 ^ arch.wordBits = stop at hstop ⊢
  have hhave := hs.blockCount_le hindex hkind
  have hneeded := blockCount_le hstop
  have hown : OwnPointers s index (blockCount (s.inodes index).size.toNat) := fun _ h => h.2.2
  refine Prog.post_bind.2 ((allocBlocks_post (c := c) hindex hown _ (Nat.le_refl _) (by omega)
    (.refl s index _) (by rwa [pending_self, Set.union_empty])).mono
    (fun _ u hu => ?_) fun stop u hu e he => ?_)
  · obtain ⟨halloc, hbooks⟩ := hu
    rw [pending_add_sub] at hbooks
    refine Prog.post_bind.2 ((keepsTables_writeLoop _ _ _ _ _ _ _ u).mono (fun _ v hv => ?_)
      fun err v hv e he => ?_)
    · refine Prog.post_bind.2 (Prog.post_modify.2 ?_)
      have hbooks' : Books (v.finishWrite index stop) (v.finishWrite index stop).live c := by
        have hinode := halloc.inode
        rw [← hv.inodes] at hinode
        rw [live_finishWrite hstop hindex (hinode.1.trans hkind), hv.live, halloc.live, hinode.2]
        refine (hbooks.sameTables hv).congr rfl rfl rfl fun a _ => ?_
        exact pointer_finishWrite v index stop a
      exact (keepsTables_flushInodes.keepsBooks.bind fun _ _ =>
        keepsTables_flushBitmap.keepsBooks.bind fun _ _ => keepsBooks_pure _) c hbooks'
    · rw [hv.2.live, halloc.live]
      exact (((hbooks.sameTables hv.2).mono Set.subset_union_left).weaken fun h => by
        rcases hv.1 with rfl | rfl
        · exact h.2 (Stop.err.inj he).symm
        · cases he)
  · obtain ⟨rfl, halloc, hbooks⟩ := hu
    rw [halloc.live]
    exact hbooks.weaken And.left

/-! ### All calls -/

theorem keepsBooks_replaceFile (name : List UInt8) : KeepsBooks (replaceFile name) s := by
  intro c hs
  rw [replaceFile]
  simp only [Prog.post_bind, Prog.post_get]
  split
  · exact ((keepsBooks_remove _).bind fun _ _ => keepsBooks_makeEntry _ _) c hs
  · exact keepsBooks_makeEntry _ _ c hs

theorem keepsTables_readLoop (index fuel position left : ℕ) (s : Fs) :
    Prog.Post (readLoop index fuel position left) s (fun _ t => SameTables s t)
      fun stop t => (stop = .err .io ∨ stop = .panic) ∧ SameTables s t := by
  induction fuel generalizing position left s with
  | zero => exact .refl s
  | succ fuel ih =>
    rw [readLoop]
    split
    · exact .refl s
    simp only [Prog.post_bind, Prog.post_get]
    split
    · exact ⟨.inr rfl, .refl s⟩
    · simp only [Prog.post_bind, Prog.post_get]
      refine (keepsTables_readBlock _).mono (fun _ t ht => ?_) fun _ _ h => ⟨.inl h.1, h.2⟩
      exact (ih _ _ t).mono (fun _ _ h => ht.trans h) fun _ _ h => ⟨h.1, ht.trans h.2⟩

theorem keepsBooks_read (index offset room : ℕ) : KeepsBooks (read index offset room) s := by
  intro c hs
  rw [read]
  simp only [Prog.post_bind, Prog.post_get]
  split
  · exact keepsBooks_fail _ c hs
  split
  · exact keepsBooks_fail _ c hs
  split
  · exact keepsBooks_pure _ c hs
  · refine (keepsTables_readLoop _ _ _ _ s).mono (fun _ t ht => ?_) fun _ t ht e _ => ?_
    · rw [ht.live]
      exact hs.sameTables ht
    · rw [ht.2.live]
      exact (hs.sameTables ht.2).weaken And.left

theorem keepsBooks_sync : KeepsBooks sync s := by
  intro c hs
  rw [sync]
  simp only [Prog.post_bind, Prog.post_get]
  split
  · exact keepsBooks_fail _ c hs
  · refine (keepsTables_flushInodes.keepsBooks.bind fun _ _ =>
      keepsTables_flushBitmap.keepsBooks.bind fun _ _ =>
        keepsTables_readSuper.keepsBooks.bind fun sb t => ?_) c hs
    exact fun c ht => (keepsTables_writeSuper (s := t) _).keepsBooks c ht

theorem keepsBooks_exec (arch : Arch) (call : FsCall) : KeepsBooks (call.exec arch) s := by
  cases call with
  | create path => exact (keepsBooks_makeEntry _ _).bind fun _ _ => keepsBooks_pure _
  | mkdir path => exact (keepsBooks_makeEntry _ _).bind fun _ _ => keepsBooks_pure _
  | rmdir path => exact (keepsBooks_rmdir _).bind fun _ _ => keepsBooks_pure _
  | remove index => exact (keepsBooks_remove _).bind fun _ _ => keepsBooks_pure _
  | read index offset room => exact (keepsBooks_read _ _ _).bind fun _ _ => keepsBooks_pure _
  | write index offset data => exact (keepsBooks_write _ _ _ _).bind fun _ _ => keepsBooks_pure _
  | writeAll name data =>
    exact ((keepsBooks_replaceFile _).bind fun _ _ => keepsBooks_write _ _ _ _).bind
      fun _ _ => keepsBooks_pure _
  | sync => exact keepsBooks_sync.bind fun _ _ => keepsBooks_pure _

/-- One call keeps the books. -/
theorem books_step {arch : Arch} {e : FsEvent} (hs : Books s s.live c)
    (hstep : FsStep arch s e t) :
    Books t t.live (c ∧ e.reply ≠ .error (.err .io)) := by
  rcases hstep.of_post (keepsBooks_exec arch e.call c
    (hs.congr (t := { s with unixTime := e.unixTime }) rfl rfl rfl fun _ _ => rfl)) with
    ⟨r, hr, h⟩ | ⟨err, hr, h⟩
  · exact h.weaken And.left
  · refine h.weaken fun ⟨hc, hio⟩ => ⟨hc, fun he => hio ?_⟩
    rw [hr, he]

theorem books_run {arch : Arch} {es : List FsEvent} (hs : Books s s.live c)
    (hrun : Run (FsStep arch) s es t) :
    Books t t.live (c ∧ ∀ e ∈ es, e.reply ≠ .error (.err .io)) := by
  induction hrun generalizing c with
  | nil s => exact hs.weaken And.left
  | cons hstep _ ih =>
    refine (ih (books_step hs hstep)).weaken fun ⟨hc, hes⟩ => ⟨⟨hc, ?_⟩, ?_⟩
    · exact hes _ (List.mem_cons_self ..)
    · exact fun e he => hes e (List.mem_cons_of_mem _ he)

/-! ## Formatting -/

theorem capacityBlocks_le (sectors : UInt32) : (capacityBlocks sectors).toNat ≤ maxBlocks := by
  rw [capacityBlocks]
  split
  · exact Nat.zero_le _
  · simp only [UInt32.toNat_min]
    exact Nat.min_le_right _ _

theorem countFree_zero (n : ℕ) {bitmap : ℕ → UInt8} (h : ∀ i < n, bitGet bitmap i = false) :
    countFree bitmap n = n := by
  rw [countFree_eq, List.countP_eq_length.2, List.length_range]
  intro i hi
  rw [h i (List.mem_range.1 hi)]
  rfl

/-- The tables as `format` sets them up before it writes them. -/
def cleared (s : Fs) (lba total : UInt32) : Fs :=
  { s with
    partLba := lba
    totalBlocks := total
    freeBlocks := total
    inodes := Function.update (fun i => if i < maxInodes then Inode.empty else s.inodes i)
      rootInode (rootDir s.unixTime)
    bitmap := fun b => if b < bitmapSectors * sectorSize then 0 else s.bitmap b }

theorem cleared_kind {lba total : UInt32} {i : ℕ} (hi : i < maxInodes) :
    ((s.cleared lba total).inodes i).kind ≠ kindFile := by
  simp only [cleared]
  by_cases hroot : i = rootInode
  · rw [hroot, Function.update_self]
    show kindDir ≠ kindFile
    decide
  · rw [Function.update_of_ne hroot, if_pos hi]
    decide

theorem cleared_bit {lba total : UInt32} {i : ℕ} (hi : i < maxBlocks) :
    bitGet (s.cleared lba total).bitmap i = false := by
  have hbyte : i / 8 < bitmapSectors * sectorSize := by
    simp only [maxBlocks, bitmapSectors, sectorSize] at hi ⊢
    omega
  simp [bitGet, cleared, hbyte]

/-- The tables that `format` starts from own nothing. -/
theorem books_cleared {total lba : UInt32} (htotal : total.toNat ≤ maxBlocks) :
    Books (s.cleared lba total) (s.cleared lba total).live True := by
  have hlive : (s.cleared lba total).live = ∅ :=
    Set.eq_empty_of_forall_notMem fun _ ⟨hi, hkind, _⟩ => cleared_kind hi hkind
  rw [hlive]
  refine ⟨htotal, fun _ h => h.elim, fun _ h => h.elim, .empty, ?_, fun _ b hb => ?_⟩
  · exact (countFree_zero _ fun i hi => cleared_bit (Nat.lt_of_lt_of_le hi htotal)).symm
  · exact absurd hb.2 (by simp [cleared_bit hb.1])

theorem format_books {label : List UInt8} (h : (format label).run s = (.ok (), t)) :
    Books t t.live True := by
  refine Prog.Post.of_ok (x := format label) (Q := fun _ t => Books t t.live True)
    (E := fun _ _ => True) ?_ h
  rw [format]
  simp only [Prog.post_bind, Prog.post_get]
  split
  · trivial
  split
  · trivial
  simp only [Prog.post_bind, Prog.post_modify]
  rename_i lba sectors _ _
  have hstart := @books_cleared s _ lba (capacityBlocks_le sectors)
  refine (keepsTables_flushInodes.keepsBooks True hstart).mono (fun _ u hu => ?_)
    fun _ _ _ => trivial
  refine (keepsTables_flushBitmap.keepsBooks True hu).mono (fun _ v hv => ?_) fun _ _ _ => trivial
  refine ((keepsTables_writeSuper _).keepsBooks True hv).mono (fun _ w hw => ?_)
    fun _ _ _ => trivial
  have hmounted : Books { w with mounted := true } w.live True :=
    hw.congr rfl rfl rfl fun _ _ => rfl
  refine (keepsBooks_makeEntry _ _ True hmounted).mono (fun _ x hx => ?_) fun _ _ _ => trivial
  exact (keepsBooks_makeEntry _ _ True hx).mono (fun _ _ hy => hy) fun _ _ _ => trivial

/-- **Block ownership.** After a successful `format` and any calls, whatever they returned: the
first `block_count(size)` pointers of every file exist, are below `TOTAL_BLOCKS`, are marked in
the bitmap, and are pairwise distinct over all files; `FREE_BLOCKS` is the number of clear bits
below `TOTAL_BLOCKS`. As long as no call has failed with an I/O error, which is how a call
reports a failed transfer, every marked block belongs to exactly one such pointer. -/
theorem block_ownership {arch : Arch} {s₀ : Fs} {label : List UInt8} {es : List FsEvent}
    (hformat : (format label).run s₀ = (.ok (), s)) (hrun : Run (FsStep arch) s es t) :
    (∀ a ∈ t.live, a.2 < directBlocks ∧ t.pointer a < t.totalBlocks.toNat ∧
        bitGet t.bitmap (t.pointer a) = true) ∧
      (∀ a ∈ t.live, ∀ b ∈ t.live, t.pointer a = t.pointer b → a = b) ∧
      t.freeBlocks.toNat = countFree t.bitmap t.totalBlocks.toNat ∧
      ((∀ e ∈ es, e.reply ≠ .error (.err .io)) →
        ∀ b < maxBlocks, bitGet t.bitmap b = true → ∃! a, a ∈ t.live ∧ t.pointer a = b) := by
  have hbooks := books_run (format_books hformat) hrun
  refine ⟨fun a ha => ⟨(hbooks.slot a ha).2, hbooks.lt a ha, (hbooks.owns.used a ha).2⟩,
    fun a ha b hb h => hbooks.owns.inj ha hb h, hbooks.free, fun hes b hb hset => ?_⟩
  obtain ⟨a, ha, rfl⟩ := hbooks.covers ⟨trivial, hes⟩ b ⟨hb, hset⟩
  exact ⟨a, ⟨ha, rfl⟩, fun a' ha' => hbooks.owns.inj ha'.1 ha ha'.2⟩

/-- Two files, one of them rewritten: block 1 has exactly one owner. -/
def ownershipCalls : List FsCall :=
  [.create [97], .create [98], .write 3 0 [1, 2, 3], .write 4 5000 [4], .writeAll [97] [5]]

theorem block_ownership_twoFiles :
    ∃! a, a ∈ (execCalls .i386 ownershipCalls formattedFs).2.live ∧
      (execCalls .i386 ownershipCalls formattedFs).2.pointer a = 1 :=
  (block_ownership format_blankFs (run_execCalls
    (by decide +kernel))).2.2.2 (by decide +kernel) 1 (by decide) (by decide +kernel)

end Fs

end Tcmk
