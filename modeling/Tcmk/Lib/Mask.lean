import Mathlib

/-!
# Words as sets of small numbers

A mask keeps the numbers below 32: `i` is in it if bit `i` is set. Setting and clearing a bit are
`insert` and the removal of an element (`maskBits_or`, `maskBits_and_not`), and the number of
trailing zeros of a mask is its least element (`isLeast_trailingZeros`).
-/

namespace Lib

variable {w : UInt32} {i j : ℕ}

/-- The bits that are set. -/
def maskBits (w : UInt32) : Finset ℕ := (Finset.range 32).filter
    fun i => w.toBitVec.getLsbD i = true

/-- `trailing_zeros`. -/
def trailingZeros (w : UInt32) : ℕ := ((List.range 32).find? fun i => w.toBitVec.getLsbD i).getD 32

/-- `1 << i`. -/
def maskOf (i : ℕ) : UInt32 := 1 <<< UInt32.ofNat i

theorem mem_maskBits : i ∈ maskBits w ↔ i < 32 ∧ w.toBitVec.getLsbD i = true := by
  simp only [maskBits, Finset.mem_filter, Finset.mem_range]

theorem lt_of_mem_maskBits (h : i ∈ maskBits w) : i < 32 := (mem_maskBits.1 h).1

@[simp] theorem maskBits_zero : maskBits 0 = ∅ := by
  ext i
  simp [mem_maskBits]

theorem maskOf_getLsbD (hi : i < 32) :
    (maskOf i).toBitVec.getLsbD j = decide (j = i) := by
  have htoBitVec : (maskOf i).toBitVec = BitVec.twoPow 32 i := by
    rw [maskOf, UInt32.toBitVec_shiftLeft, BitVec.twoPow]
    have hmod : (UInt32.ofNat i).toBitVec % 32 = BitVec.ofNat 32 i := by
      apply BitVec.eq_of_toNat_eq
      simp
      omega
    rw [hmod, BitVec.shiftLeft_eq', BitVec.toNat_ofNat, Nat.mod_eq_of_lt (by omega)]
    rfl
  rw [htoBitVec, BitVec.getLsbD_twoPow, decide_eq_true hi, Bool.true_and]
  exact decide_eq_decide.2 eq_comm


/-- Setting a bit. -/
theorem maskBits_or (hi : i < 32) : maskBits (w ||| maskOf i) = insert i (maskBits w) := by
  ext j
  rw [Finset.mem_insert, mem_maskBits, mem_maskBits, UInt32.toBitVec_or, BitVec.getLsbD_or,
    Bool.or_eq_true]
  constructor
  · intro h
    obtain ⟨hj, hset | hset⟩ := h
    · exact .inr ⟨hj, hset⟩
    · rw [maskOf_getLsbD hi] at hset
      exact .inl (of_decide_eq_true hset)
  · intro h
    obtain rfl | ⟨hj, hset⟩ := h
    · exact ⟨hi, .inr (by rw [maskOf_getLsbD hi, decide_eq_true rfl])⟩
    · exact ⟨hj, .inl hset⟩

/-- Clearing a bit. -/
theorem maskBits_and_not (hi : i < 32) : maskBits (w &&& ~~~maskOf i) = (maskBits w).erase i := by
  ext j
  rw [Finset.mem_erase, mem_maskBits, mem_maskBits, UInt32.toBitVec_and, UInt32.toBitVec_not,
    BitVec.getLsbD_and, BitVec.getLsbD_not, Bool.and_eq_true, Bool.and_eq_true]
  constructor
  · intro h
    obtain ⟨hj, hset, -, hne⟩ := h
    rw [maskOf_getLsbD hi] at hne
    refine ⟨fun heq => ?_, hj, hset⟩
    simp [heq] at hne
  · intro h
    obtain ⟨hne, hj, hset⟩ := h
    refine ⟨hj, hset, decide_eq_true hj, ?_⟩
    rw [maskOf_getLsbD hi, decide_eq_false hne]
    rfl

theorem maskBits_nonempty (h : w ≠ 0) : (maskBits w).Nonempty := by
  by_contra hempty
  apply h
  apply UInt32.toBitVec_inj.1
  apply BitVec.eq_of_getLsbD_eq
  intro i hi
  have hnot : i ∉ maskBits w := fun hmem => hempty ⟨i, hmem⟩
  rw [mem_maskBits, not_and] at hnot
  simpa using hnot hi

/-- The lowest bit that is set. -/
theorem isLeast_trailingZeros (h : w ≠ 0) : IsLeast (maskBits w : Set ℕ) (trailingZeros w) := by
  obtain ⟨i, hi⟩ := maskBits_nonempty h
  obtain ⟨hlt, hset⟩ := mem_maskBits.1 hi
  cases hfind : (List.range 32).find? fun i => w.toBitVec.getLsbD i with
  | none => exact absurd hset (List.find?_eq_none.1 hfind i (List.mem_range.2 hlt))
  | some k =>
    have hk : trailingZeros w = k := by rw [trailingZeros, hfind, Option.getD_some]
    rw [hk]
    refine ⟨Finset.mem_coe.2 (mem_maskBits.2 ⟨List.mem_range.1 (List.mem_of_find?_eq_some hfind),
      List.find?_some hfind⟩), ?_⟩
    intro j hj
    by_contra hjk
    rw [not_le] at hjk
    obtain ⟨-, hjset⟩ := mem_maskBits.1 (Finset.mem_coe.1 hj)
    obtain ⟨-, m, hm, rfl, hbefore⟩ := List.find?_eq_some_iff_getElem.1 hfind
    rw [List.getElem_range] at hjk
    have := hbefore j hjk
    rw [List.getElem_range, hjset] at this
    exact absurd this (by decide)

/-- The lowest bit is cleared. -/
theorem maskBits_clear_lowest (h : w ≠ 0) :
    maskBits (w &&& ~~~maskOf (trailingZeros w)) = (maskBits w).erase (trailingZeros w) :=
  maskBits_and_not (lt_of_mem_maskBits (Finset.mem_coe.1 (isLeast_trailingZeros h).1))

end Lib
