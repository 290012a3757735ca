import Tcmk.Arch
import Tcmk.Wm.Isolation

/-!
# The size of a window's buffer

`create` computes `width * height * 4` in a machine word and asks the heap for so many bytes. The
loop that clears the buffer goes over `width * height` pixels, again in a machine word. When the
product does not fit the word, the block is smaller than the window. After the allocation `create`
may still fail, and the heap has then moved.

Main results: `buffer_allocated_iff`, which says when `create` does neither, and
`buffer_not_allocated`.
-/

namespace Tcmk

namespace Desktop

variable {s : Desktop} {wordBits owner space width height : ℕ}

/-- The four bytes of pixel `i` of a buffer that starts with `b` lie in `b`. -/
def PixelIn (b : Block) (i : ℕ) : Prop := b.start ≤ b.start + 4 * i ∧ b.start + 4 * i + 4 ≤ b.limit

/-- The window `w` of the given size has the buffer `b`: it has four bytes for every pixel, and the
loop that clears it and all accesses to its pixels stay inside. -/
structure HasBuffer (wordBits width height : ℕ) (w : Window) (b : Block) : Prop where
  used : w.used = true
  width_eq : w.width = width
  height_eq : w.height = height
  buffer : w.buffer = b.start
  len : width * height * 4 ≤ b.len
  clear : ∀ i < width * height % 2 ^ wordBits, PixelIn b i
  pixels : ∀ x < width, ∀ y < height, PixelIn b (y * width + x)

/-- `create` fails and leaves the heap and the windows alone, or it makes a window that has a new
block of the heap for its buffer. -/
def BufferAllocated (wordBits : ℕ) (s : Desktop) (owner space width height : ℕ) : Prop :=
  match s.create wordBits owner space width height false with
  | (none, s') => s'.heap = s.heap ∧ s'.windows = s.windows
  | (some index, s') => ∃ w b, s'.windows[index]? = some w ∧ s'.blocks = b :: s.blocks ∧
      HasBuffer wordBits width height w b

/-- `create` gets as far as the allocation, and the heap has room. -/
def Allocates (wordBits : ℕ) (s : Desktop) (width height : ℕ) : Prop :=
  ¬ (width = 0 ∨ height = 0) ∧ ¬ (s.freeSlot = none ∧ s.windows.length ≥ maxWindows) ∧
    0 < width * height * 4 % 2 ^ wordBits ∧
    alignUp s.heap.nextFree pageSize + width * height * 4 % 2 ^ wordBits ≤ heapEnd

instance : Decidable (Allocates wordBits s width height) := inferInstanceAs (Decidable (_ ∧ _))

/-- The size fits a word, and a process has room for the window in its address space. -/
def Suits (wordBits : ℕ) (s : Desktop) (owner space width height : ℕ) : Prop :=
  width * height * 4 < 2 ^ wordBits ∧
    (space ≠ 0 → s.ownedWindowCount owner < windowMapSlots ∧ width * height * 4 ≤ windowMapSlot)

instance : Decidable (Suits wordBits s owner space width height) :=
  inferInstanceAs (Decidable (_ ∧ _))

theorem kmalloc_page (s : Desktop) (size : ℕ) : s.kmalloc size pageSize =
    if 0 < size ∧ alignUp s.heap.nextFree pageSize + size ≤ heapEnd then
      (some ⟨alignUp s.heap.nextFree pageSize, size, pageSize⟩,
        { s with
          heap := ⟨alignUp s.heap.nextFree pageSize + size⟩
          blocks := ⟨alignUp s.heap.nextFree pageSize, size, pageSize⟩ :: s.blocks })
    else (none, s) := by
  have hpower : pageSize.isPowerOfTwo := ⟨12, rfl⟩
  have hbad : (size = 0 ∨ ¬ pageSize.isPowerOfTwo) ↔ ¬ 0 < size := by
    rw [Nat.pos_iff_ne_zero, not_not]
    exact or_iff_left (not_not.2 hpower)
  unfold kmalloc Heap.kmallocAligned
  simp only [hbad]
  by_cases hsize : 0 < size
  · by_cases hroom : alignUp s.heap.nextFree pageSize + size ≤ heapEnd
    · simp [hsize, hroom, Nat.not_lt.2 hroom]
    · simp [hsize, hroom, Nat.not_le.1 hroom]
  · simp [hsize]

/-- `map_user_frames` maps every block that fits a slot of the process. -/
theorem mapUserFrames_slot (s : Desktop) {n : ℕ} {b : Block} (hstart : pageSize ∣ b.start)
    (hlen : 0 < b.len) (hn : n < windowMapSlots) (hsize : b.len ≤ windowMapSlot) :
    ∃ opened, s.mapUserFrames space (windowMapBase + n * windowMapSlot) b =
      (true, { s with opened := opened }) := by
  obtain ⟨new, heq, -, -⟩ := mapPages_spec space b ((b.len + pageSize - 1) / pageSize)
    (windowMapBase + n * windowMapSlot) (b.start / pageSize) s.opened
    (by unfold userPde windowMapBase windowMapSlot; omega)
    (by unfold userPde windowMapBase windowMapSlot windowMapSlots pageSize at *; omega)
  refine ⟨new ++ s.opened, ?_⟩
  unfold mapUserFrames
  rw [if_neg (Nat.ne_of_gt hlen), if_neg]
  · simp only [heq]
  · have hdvd := Nat.mod_eq_zero_of_dvd hstart
    unfold windowMapBase windowMapSlot pageSize at *
    omega

/-- The new window is where `place` says. -/
theorem place_get {t : Desktop} {w : Window} (hslot : t.freeSlot = slot) :
    ∃ index, (t.place slot w).1 = some index ∧ (t.place slot w).2.windows[index]? = some w ∧
      (t.place slot w).2.blocks = t.blocks := by
  cases slot with
  | none => exact ⟨t.windows.length, rfl, List.getElem?_concat_length, rfl⟩
  | some index =>
    obtain ⟨hlt, -⟩ := List.findIdx?_eq_some_iff_getElem.1 hslot
    exact ⟨index, rfl, List.getElem?_set_self hlt, rfl⟩

/-- A block of the exact size has room for all the pixels. -/
theorem hasBuffer_of_len {w : Window} {b : Block} (hused : w.used = true) (hwidth : w.width = width)
    (hheight : w.height = height) (hbuffer : w.buffer = b.start)
    (hlen : width * height * 4 ≤ b.len) : HasBuffer wordBits width height w b := by
  have hpixel : ∀ i < width * height, PixelIn b i := fun i hi => by
    unfold PixelIn Block.limit
    omega
  refine ⟨hused, hwidth, hheight, hbuffer, hlen, fun i hi => hpixel i ?_, fun x hx y hy =>
    hpixel _ ?_⟩
  · exact Nat.lt_of_lt_of_le hi (Nat.mod_le ..)
  · have hrow : (y + 1) * width ≤ height * width := Nat.mul_le_mul_right _ hy
    rw [Nat.mul_comm width height]
    rw [Nat.add_mul, Nat.one_mul] at hrow
    omega

/-- The heap after the block has been allocated. -/
def allocated (s : Desktop) (size : ℕ) : Desktop :=
  { s with
    heap := ⟨alignUp s.heap.nextFree pageSize + size⟩
    blocks := ⟨alignUp s.heap.nextFree pageSize, size, pageSize⟩ :: s.blocks }

theorem create_not_allocates (h : ¬ Allocates wordBits s width height) :
    s.create wordBits owner space width height false = (none, s) := by
  unfold create
  by_cases hzero : width = 0 ∨ height = 0
  · rw [if_pos hzero]
  rw [if_neg hzero]
  dsimp only
  by_cases hslot : s.freeSlot = none ∧ s.windows.length ≥ maxWindows
  · rw [if_pos hslot]
  rw [if_neg hslot, kmalloc_page, if_neg fun hroom => h ⟨hzero, hslot, hroom⟩]

/-- What `create` does once it has the block: it gives up, or it puts the window in its place. -/
theorem create_allocates (h : Allocates wordBits s width height) :
    let b : Block := ⟨alignUp s.heap.nextFree pageSize, width * height * 4 % 2 ^ wordBits, pageSize⟩
    let t := s.allocated b.len
    if space ≠ 0 ∧ (s.ownedWindowCount owner ≥ windowMapSlots ∨ b.len > windowMapSlot) then
      s.create wordBits owner space width height false = (none, t)
    else ∃ opened userAddr, s.create wordBits owner space width height false =
      ({ t with opened := opened } : Desktop).place s.freeSlot
        ⟨true, width, height, b.start, false, owner, userAddr⟩ := by
  intro b t
  obtain ⟨hzero, hslot, hroom⟩ := h
  unfold create
  rw [if_neg hzero]
  dsimp only
  rw [if_neg hslot, kmalloc_page, if_pos hroom]
  simp only [and_true, if_true]
  by_cases hspace : space ≠ 0
  · by_cases hfull : s.ownedWindowCount owner ≥ windowMapSlots ∨ b.len > windowMapSlot
    · rw [if_pos ⟨hspace, hfull⟩]
      exact (if_pos hspace).trans (if_pos hfull)
    · obtain ⟨hn, hsize⟩ := not_or.1 hfull
      obtain ⟨opened, hmap⟩ := @mapUserFrames_slot space t _ b (dvd_alignUp ..) hroom.1
        (Nat.lt_of_not_le hn) (Nat.le_of_not_lt hsize)
      rw [if_neg fun h => hfull h.2]
      refine ⟨opened, windowMapBase + s.ownedWindowCount owner * windowMapSlot,
        (if_pos hspace).trans ((if_neg hfull).trans ?_)⟩
      have hcount : t.ownedWindowCount owner = s.ownedWindowCount owner := rfl
      dsimp only [t, b, allocated] at hmap hcount ⊢
      simp only [hcount, hmap]
  · rw [if_neg fun h => hspace h.1]
    unfold protectUserRange
    split_ifs
    · exact ⟨t.opened, b.start, rfl⟩
    · exact ⟨_, b.start, rfl⟩

/-- **When a window gets its buffer.** In any state and for all widths and heights, `create` fails
without a trace or makes a window whose buffer is a heap block of at least its exact size, if and
only if a call that allocates has a size that fits a machine word and, where the window belongs in
an address space, a free slot there that it fits. -/
theorem buffer_allocated_iff (wordBits : ℕ) (s : Desktop) (owner space width height : ℕ) :
    BufferAllocated wordBits s owner space width height ↔
      (Allocates wordBits s width height → Suits wordBits s owner space width height) := by
  by_cases h : Allocates wordBits s width height
  · have hroom := h.2.2.1
    have hcreate := @create_allocates s wordBits owner space width height h
    have hword : width * height * 4 < 2 ^ wordBits →
        width * height * 4 % 2 ^ wordBits = width * height * 4 := Nat.mod_eq_of_lt
    rw [forall_prop_of_true h]
    unfold BufferAllocated
    dsimp only at hcreate
    split_ifs at hcreate with hfull
    · -- The heap has moved although there is no window.
      rw [hcreate]
      have hmoved : (s.allocated (width * height * 4 % 2 ^ wordBits)).heap ≠ s.heap := fun heq => by
        have hnext := congrArg Heap.nextFree heq
        have hle : s.heap.nextFree ≤ alignUp s.heap.nextFree pageSize := le_alignUp (by decide) _
        simp only [allocated] at hnext
        omega
      refine iff_of_false (fun hsame => hmoved hsame.1) fun hsuits => ?_
      have hslots := hsuits.2 hfull.1
      rw [hword hsuits.1] at hfull
      omega
    · obtain ⟨opened, userAddr, hplace⟩ := hcreate
      obtain ⟨index, hindex, hget, hblocks⟩ := @place_get s.freeSlot
        { s.allocated (width * height * 4 % 2 ^ wordBits) with opened := opened }
        ⟨true, width, height, alignUp s.heap.nextFree pageSize, false, owner, userAddr⟩ rfl
      rw [← hplace] at hindex hget hblocks
      generalize s.create wordBits owner space width height false = r at hindex hget hblocks ⊢
      obtain ⟨result, t⟩ := r
      dsimp only at hindex hget hblocks
      subst hindex
      constructor
      · rintro ⟨w, b, -, hb, hbuffer⟩
        rw [hb] at hblocks
        have hlen := congrArg Block.len (List.cons.inj hblocks).1
        have hexact := hbuffer.len
        rw [hlen] at hexact
        have hlt : width * height * 4 < 2 ^ wordBits :=
          Nat.lt_of_le_of_lt hexact (Nat.mod_lt _ (Nat.two_pow_pos _))
        rw [hword hlt] at hfull
        exact ⟨hlt, fun hspace => by
          have := not_or.1 (not_and.1 hfull hspace)
          omega⟩
      · exact fun hsuits => ⟨_, _, hget, hblocks,
          hasBuffer_of_len rfl rfl rfl rfl (Nat.le_of_eq (hword hsuits.1).symm)⟩
  · unfold BufferAllocated
    rw [create_not_allocates h]
    exact iff_of_true ⟨rfl, rfl⟩ fun hallocates => absurd hallocates h

/-- On i386 a window of 0x8001 by 0x8000 pixels gets a block of 128 KiB. -/
theorem buffer_not_allocated : ¬ ∀ (arch : Arch) (s : Desktop) (owner space width height : ℕ),
    width < 2 ^ 16 → height < 2 ^ 16 →
      BufferAllocated arch.wordBits s owner space width height := by
  intro h
  have hsuits := (buffer_allocated_iff 32 boot 1 1 0x8001 0x8000).1
    (h .i386 boot 1 1 0x8001 0x8000 (by decide) (by decide)) (by decide +kernel)
  exact absurd hsuits (by decide)

end Desktop

end Tcmk
