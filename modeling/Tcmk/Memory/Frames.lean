import Tcmk.Lib.RefCount

/-!
# Page frames (`core/frames.rs`)

A pool of `poolFrames` page frames above the kernel. A frame has a bit, which says that it is taken,
and a count of the references to it: `alloc` starts the count at one, `share` adds a reference, and
`free` drops one and gives the frame back with the last. A frame is named by its physical address.

The counters for the shell's reports (`PEAK`, `COW_COPIES` and so on) are left out.
-/

namespace Tcmk

open Lib

/-- `FRAME_SIZE`, which is also the size of a page. -/
def frameSize : ℕ := 4096

/-- `POOL_START`. -/
def poolStart : ℕ := 0x01000000

/-- `POOL_FRAMES`. -/
def poolFrames : ℕ := 4096

/-- `index_of`. -/
def indexOf (phys : ℕ) : Option ℕ :=
  if phys < poolStart then none
  else if (phys - poolStart) / frameSize ≥ poolFrames then none
  else some ((phys - poolStart) / frameSize)

/-- The physical address of a frame of the pool. -/
def frameAddr (i : ℕ) : ℕ := poolStart + i * frameSize

theorem indexOf_frameAddr {i : ℕ} (h : i < poolFrames) : indexOf (frameAddr i) = some i := by
  have hsub : (frameAddr i - poolStart) / frameSize = i := by
    unfold frameAddr frameSize
    omega
  have hle : poolStart ≤ frameAddr i := Nat.le_add_right _ _
  unfold indexOf
  rw [if_neg (Nat.not_lt.2 hle), hsub, if_neg (Nat.not_le.2 h)]

theorem indexOf_lt {phys i : ℕ} (h : indexOf phys = some i) : i < poolFrames := by
  unfold indexOf at h
  split_ifs at h with _ hlt
  cases h
  exact Nat.not_le.1 hlt

theorem frameAddr_inj {i j : ℕ} (h : frameAddr i = frameAddr j) : i = j := by
  unfold frameAddr frameSize at h
  omega

theorem frameAddr_ne_zero (i : ℕ) : frameAddr i ≠ 0 := by
  unfold frameAddr poolStart
  omega

/-- The statics `BITMAP`, `REFCOUNT` and `USED`. -/
@[ext] structure FramePool where
  bit : ℕ → Bool
  refs : ℕ → ℕ
  used : ℕ

namespace FramePool

def initial : FramePool := ⟨fun _ => false, fun _ => 0, 0⟩

/-- `alloc`, without the clearing of the frame. -/
def alloc (p : FramePool) : Option (ℕ × FramePool) :=
  ((List.range poolFrames).find? fun i => !p.bit i).map fun i =>
    (frameAddr i, ⟨Function.update p.bit i true, Function.update p.refs i 1, p.used + 1⟩)

/-- `share`. -/
def share (p : FramePool) (phys : ℕ) : Option FramePool :=
  match indexOf phys with
  | none => none
  | some i =>
    if p.bit i = false ∨ p.refs i = 0 ∨ p.refs i = 255 then none
    else some { p with refs := Function.update p.refs i (p.refs i + 1) }

/-- `refcount`. -/
def refcount (p : FramePool) (phys : ℕ) : ℕ :=
  match indexOf phys with
  | some i => p.refs i
  | none => 0

/-- `free`. -/
def free (p : FramePool) (phys : ℕ) : FramePool :=
  match indexOf phys with
  | none => p
  | some i =>
    if p.bit i = false then p
    else if p.refs i > 1 then { p with refs := Function.update p.refs i (p.refs i - 1) }
    else ⟨Function.update p.bit i false, Function.update p.refs i 0, p.used - 1⟩

/-- The frames that are taken. -/
def taken (p : FramePool) : Finset ℕ := (Finset.range poolFrames).filter fun i => p.bit i

/-- The bits, the counts and `USED` agree. -/
structure Sound (p : FramePool) : Prop where
  bit_iff : ∀ i, p.bit i = true ↔ 0 < p.refs i
  bound : ∀ i, p.refs i ≤ 255
  beyond : ∀ i, poolFrames ≤ i → p.refs i = 0
  used : p.used = p.taken.card

variable {p p' : FramePool} {phys i : ℕ}

theorem sound_initial : initial.Sound where
  bit_iff := fun i => by simp [initial]
  bound := fun i => Nat.zero_le _
  beyond := fun i _ => rfl
  used := by simp [initial, taken]

/-- The counts of a sound pool say all about it. -/
theorem Sound.eq (h : p.Sound) (h' : p'.Sound) (hrefs : ∀ i, p'.refs i = p.refs i) : p' = p := by
  have hbit : p'.bit = p.bit := funext fun i => by
    have hiff := (h'.bit_iff i).trans ((by rw [hrefs i] : 0 < p'.refs i ↔ 0 < p.refs i).trans
      (h.bit_iff i).symm)
    exact Bool.eq_iff_iff.2 hiff
  refine FramePool.ext hbit (funext hrefs) ?_
  rw [h.used, h'.used]
  unfold taken
  rw [hbit]

theorem taken_update (b : Bool) (refs : ℕ → ℕ) (used : ℕ) (hi : i < poolFrames) :
    (⟨Function.update p.bit i b, refs, used⟩ : FramePool).taken =
      if b then insert i p.taken else p.taken.erase i := by
  ext j
  by_cases hj : j = i
  · subst hj
    cases b <;> simp [taken, hi]
  · cases b <;> simp [taken, hj]

theorem Sound.refs_of_clear (h : p.Sound) (hbit : p.bit i = false) : p.refs i = 0 :=
  Nat.eq_zero_of_not_pos fun hpos => by
    rw [(h.bit_iff i).2 hpos] at hbit
    cases hbit

/-- A new count of one frame, and its bit with it. -/
theorem Sound.set (h : p.Sound) (hi : i < poolFrames) {n used : ℕ} (hn : n ≤ 255)
    (hused : used = (if 0 < n then insert i p.taken else p.taken.erase i).card) :
    (⟨Function.update p.bit i (0 < n), Function.update p.refs i n, used⟩ : FramePool).Sound where
  bit_iff := fun j => by
    by_cases hj : j = i
    · subst hj
      simp
    · simpa [hj] using h.bit_iff j
  bound := fun j => by
    by_cases hj : j = i
    · subst hj
      simpa using hn
    · simpa [hj] using h.bound j
  beyond := fun j hj => by
    have hne : j ≠ i := fun heq => absurd hi (Nat.not_lt.2 (heq ▸ hj))
    simpa [hne] using h.beyond j hj
  used := by
    rw [hused, taken_update _ _ _ hi]
    simp

theorem update_bit (b : Bool) (h : p.bit i = b) : Function.update p.bit i b = p.bit := by
  rw [← h, Function.update_eq_self]

theorem mem_taken : i ∈ p.taken ↔ i < poolFrames ∧ p.bit i = true := by
  simp [taken]

/-! ## The operations -/

/-- `alloc` takes the first frame that is free. -/
theorem alloc_eq_some (h : p.alloc = some (phys, p')) :
    ∃ i < poolFrames, phys = frameAddr i ∧ p.bit i = false ∧
      p' = ⟨Function.update p.bit i true, Function.update p.refs i 1, p.used + 1⟩ := by
  obtain ⟨i, hfind, heq⟩ := Option.map_eq_some_iff.1 h
  cases heq
  exact ⟨i, List.mem_range.1 (List.mem_of_find?_eq_some hfind), rfl,
    by simpa using List.find?_some hfind, rfl⟩

theorem Sound.alloc (h : p.Sound) (halloc : p.alloc = some (phys, p')) : p'.Sound := by
  obtain ⟨i, hi, -, hbit, rfl⟩ := alloc_eq_some halloc
  have hnot : i ∉ p.taken := fun hmem => by
    rw [(mem_taken.1 hmem).2] at hbit
    cases hbit
  have hused : p.used + 1 = (if 0 < 1 then insert i p.taken else p.taken.erase i).card := by
    rw [if_pos Nat.one_pos, Finset.card_insert_of_notMem hnot, h.used]
  simpa using h.set hi (by decide : 1 ≤ 255) hused

/-- `share` adds a reference to a frame that has one already. -/
theorem share_eq_some (h : p.share phys = some p') :
    ∃ i, indexOf phys = some i ∧ 0 < p.refs i ∧ p.refs i ≠ 255 ∧
      p' = { p with refs := Function.update p.refs i (p.refs i + 1) } := by
  unfold share at h
  split at h
  · cases h
  · next i hi =>
    split_ifs at h with hno
    cases h
    obtain ⟨-, hno⟩ := not_or.1 hno
    obtain ⟨hzero, hmax⟩ := not_or.1 hno
    exact ⟨i, hi, Nat.pos_of_ne_zero hzero, hmax, rfl⟩

/-- A count that stays positive changes nothing else. -/
theorem Sound.recount (h : p.Sound) (hi : i < poolFrames) (hpos : 0 < p.refs i) {n : ℕ}
    (hn : n ≤ 255) (hn' : 0 < n) :
    ({ p with refs := Function.update p.refs i n } : FramePool).Sound := by
  have hbit : p.bit i = true := (h.bit_iff i).2 hpos
  have hused : p.used = (if 0 < n then insert i p.taken else p.taken.erase i).card := by
    rw [if_pos hn', Finset.insert_eq_of_mem (mem_taken.2 ⟨hi, hbit⟩), h.used]
  have hset := h.set hi hn hused
  rwa [decide_eq_true hn', update_bit true hbit] at hset

theorem Sound.share (h : p.Sound) (hshare : p.share phys = some p') : p'.Sound := by
  obtain ⟨i, hi, hpos, hmax, rfl⟩ := share_eq_some hshare
  have hle := h.bound i
  exact h.recount (indexOf_lt hi) hpos (by omega) (Nat.succ_pos _)

theorem Sound.free (h : p.Sound) (phys : ℕ) : (p.free phys).Sound := by
  unfold FramePool.free
  split
  · exact h
  · next i hi =>
    have hlt := indexOf_lt hi
    have hle := h.bound i
    split_ifs with hbit hmany
    · exact h
    · exact h.recount hlt (by omega) (by omega) (by omega)
    · have hmem : i ∈ p.taken := mem_taken.2 ⟨hlt, by simpa using hbit⟩
      have hused : p.used - 1 = (if 0 < 0 then insert i p.taken else p.taken.erase i).card := by
        rw [if_neg (Nat.lt_irrefl 0), Finset.card_erase_of_mem hmem, h.used]
      simpa using h.set hlt (Nat.zero_le 255) hused

theorem alloc_refs (h : p.Sound) (halloc : p.alloc = some (phys, p')) :
    indexOf phys ≠ none ∧ phys ≠ 0 ∧ (∀ i, indexOf phys = some i → p.refs i = 0) ∧
      ∀ i, p'.refs i = p.refs i + one (indexOf phys) i := by
  obtain ⟨k, hk, rfl, hbit, rfl⟩ := alloc_eq_some halloc
  have hzero := h.refs_of_clear hbit
  rw [indexOf_frameAddr hk]
  refine ⟨Option.some_ne_none k, frameAddr_ne_zero k, fun i hi => Option.some.inj hi ▸ hzero,
    fun i => ?_⟩
  by_cases hi : i = k
  · subst hi
    simp [one_self, hzero]
  · simp [hi, one_of_ne (Ne.symm hi)]

theorem share_refs (hshare : p.share phys = some p') :
    (∃ i, indexOf phys = some i ∧ 0 < p.refs i) ∧
      ∀ i, p'.refs i = p.refs i + one (indexOf phys) i := by
  obtain ⟨k, hk, hpos, -, rfl⟩ := share_eq_some hshare
  refine ⟨⟨k, hk, hpos⟩, fun i => ?_⟩
  rw [hk]
  by_cases hi : i = k
  · subst hi
    simp [one_self]
  · simp [hi, one_of_ne (Ne.symm hi)]

/-- `free` drops a reference to a frame that has one. -/
theorem Sound.free_refs (h : p.Sound) (hpos : ∀ i, indexOf phys = some i → 0 < p.refs i) (i : ℕ) :
    (p.free phys).refs i + one (indexOf phys) i = p.refs i := by
  unfold FramePool.free
  split
  · next hnone => rw [hnone, one_none, Nat.add_zero]
  · next k hk =>
    have hk0 := hpos k hk
    rw [hk, if_neg (by simpa using (h.bit_iff k).2 hk0)]
    by_cases hi : i = k
    · subst hi
      rw [one_self]
      split_ifs with hmany
      · simp only [Function.update_self]
        omega
      · simp only [Function.update_self]
        omega
    · rw [one_of_ne (Ne.symm hi)]
      split_ifs <;> simp [hi]

end FramePool

/-- How often a frame of the pool is in a list of addresses. -/
def tally (frames : List ℕ) (i : ℕ) : ℕ := (frames.filterMap indexOf).count i

@[simp] theorem tally_nil (i : ℕ) : tally [] i = 0 := rfl

theorem tally_cons (phys : ℕ) (frames : List ℕ) (i : ℕ) :
    tally (phys :: frames) i = tally frames i + one (indexOf phys) i := by
  unfold tally
  rw [List.filterMap_cons]
  cases h : indexOf phys with
  | none => rw [one_none, Nat.add_zero]
  | some k =>
    rw [List.count_cons]
    simp [one]

theorem tally_append (xs ys : List ℕ) (i : ℕ) : tally (xs ++ ys) i = tally xs i + tally ys i := by
  unfold tally
  rw [List.filterMap_append, List.count_append]

theorem tally_perm {xs ys : List ℕ} (h : xs.Perm ys) (i : ℕ) : tally xs i = tally ys i :=
  (h.filterMap indexOf).count_eq i

namespace FramePool

variable {p : FramePool}

/-- `free`, for one frame after the other. -/
def freeAll (p : FramePool) (frames : List ℕ) : FramePool := frames.foldl free p

/-- Each frame loses as many references as it is freed, if it has so many. -/
theorem Sound.freeAll (h : p.Sound) {frames : List ℕ} (hle : ∀ i, tally frames i ≤ p.refs i) :
    (p.freeAll frames).Sound ∧ ∀ i, (p.freeAll frames).refs i + tally frames i = p.refs i := by
  induction frames generalizing p with
  | nil => exact ⟨h, fun i => rfl⟩
  | cons phys frames ih =>
    have hstep := @Sound.free_refs p phys h fun i hi => by
      have hi' := hle i
      rw [tally_cons, hi, one_self] at hi'
      omega
    obtain ⟨hsound, hrefs⟩ := ih (h.free phys) fun i => by
      have hi := hle i
      have hi' := hstep i
      rw [tally_cons] at hi
      omega
    refine ⟨hsound, fun i => ?_⟩
    have hi := hrefs i
    have hi' := hstep i
    rw [tally_cons]
    unfold FramePool.freeAll at hi ⊢
    rw [List.foldl_cons]
    omega

end FramePool

end Tcmk
