import Mathlib

/-!
# Little-endian numbers and bit arrays in byte memories

A byte memory is a function from addresses. `leNat` reads a number of `n` bytes at an address,
`leByte` is one byte of a number, and reading back the bytes of `x` gives `x` modulo `256 ^ n`.
A bit array keeps bit `i` in byte `i / 8`, lowest bit first.
-/

namespace Lib

/-! ## Numbers -/

/-- The number whose `n` bytes, lowest first, lie at `off`. -/
def leNat (mem : ℕ → UInt8) : ℕ → ℕ → ℕ
  | _, 0 => 0
  | off, n + 1 => (mem off).toNat + 256 * leNat mem (off + 1) n

/-- Byte `k` of a number. -/
def leByte (x k : ℕ) : UInt8 := UInt8.ofNat (x / 256 ^ k)

theorem leNat_lt (mem : ℕ → UInt8) (off n : ℕ) : leNat mem off n < 256 ^ n := by
  induction n generalizing off with
  | zero => exact Nat.one_pos
  | succ n ih =>
    have hb := (mem off).toNat_lt
    have := ih (off + 1)
    rw [leNat, Nat.pow_succ]
    omega

theorem leNat_congr {mem mem' : ℕ → UInt8} {off off' n : ℕ}
    (h : ∀ k < n, mem (off + k) = mem' (off' + k)) : leNat mem off n = leNat mem' off' n := by
  induction n generalizing off off' with
  | zero => rfl
  | succ n ih =>
    have h0 : mem off = mem' off' := h 0 n.succ_pos
    rw [leNat, leNat, h0, ih fun k hk => ?_]
    have := h (k + 1) (Nat.succ_lt_succ hk)
    rwa [show off + 1 + k = off + (k + 1) by omega, show off' + 1 + k = off' + (k + 1) by omega]

/-- Reading back the bytes of a number. -/
theorem leNat_of_leByte {mem : ℕ → UInt8} {off n : ℕ} (x : ℕ)
    (h : ∀ k < n, mem (off + k) = leByte x k) : leNat mem off n = x % 256 ^ n := by
  induction n generalizing off x with
  | zero => simp [leNat, Nat.mod_one]
  | succ n ih =>
    have h0 : mem off = leByte x 0 := h 0 n.succ_pos
    have hrest : leNat mem (off + 1) n = x / 256 % 256 ^ n := ih (x / 256) fun k hk => by
      rw [show off + 1 + k = off + (k + 1) by omega, h (k + 1) (Nat.succ_lt_succ hk)]
      simp only [leByte, Nat.pow_succ', Nat.div_div_eq_div_mul]
    have hfirst : (leByte x 0).toNat = x % 256 := by simp [leByte]
    rw [leNat, h0, hrest, hfirst, Nat.pow_succ' (m := 256), Nat.mod_mul]

/-! ## Bits -/

/-- The mask `1 << (i % 8)`. -/
def bitMask (i : ℕ) : UInt8 := 1 <<< UInt8.ofNat (i % 8)

/-- Is bit `i` set? -/
def bitGet (mem : ℕ → UInt8) (i : ℕ) : Bool := mem (i / 8) &&& bitMask i != 0

/-- Set or clear bit `i`. -/
def bitSet (mem : ℕ → UInt8) (i : ℕ) (value : Bool) : ℕ → UInt8 :=
  Function.update mem (i / 8)
    (if value then mem (i / 8) ||| bitMask i else mem (i / 8) &&& ~~~bitMask i)

theorem bitMask_toBitVec (i : ℕ) : (bitMask i).toBitVec = BitVec.twoPow 8 (i % 8) := by
  have hi : i % 8 < 8 := Nat.mod_lt _ (by decide)
  have hmod : (UInt8.ofNat (i % 8)).toBitVec % 8 = BitVec.ofNat 8 (i % 8) := by
    apply BitVec.eq_of_toNat_eq
    simp
    omega
  rw [bitMask, UInt8.toBitVec_shiftLeft, hmod, BitVec.shiftLeft_eq', BitVec.toNat_ofNat,
    Nat.mod_eq_of_lt (show i % 8 < 2 ^ 8 by omega)]
  rfl

theorem and_bitMask_ne_zero (x : UInt8) (i : ℕ) :
    (x &&& bitMask i != 0) = x.toBitVec.getLsbD (i % 8) := by
  have hi : i % 8 < 8 := Nat.mod_lt _ (by decide)
  have hone : BitVec.twoPow 8 (i % 8) ≠ 0#8 := fun h => by
    have := congrArg (fun v => v.getLsbD (i % 8)) h
    simp [hi] at this
  rw [Bool.eq_iff_iff, bne_iff_ne, Ne, ← UInt8.toBitVec_inj, UInt8.toBitVec_and, bitMask_toBitVec,
    BitVec.and_twoPow]
  cases x.toBitVec.getLsbD (i % 8) <;> simp [hone]

theorem bitGet_bitSet (mem : ℕ → UInt8) (i j : ℕ) (value : Bool) :
    bitGet (bitSet mem i value) j = if j = i then value else bitGet mem j := by
  have hj : j % 8 < 8 := Nat.mod_lt _ (by decide)
  simp only [bitGet, bitSet, and_bitMask_ne_zero]
  by_cases hbyte : j / 8 = i / 8
  · have hbit : i % 8 = j % 8 ↔ j = i := by omega
    rw [hbyte, Function.update_self]
    cases value <;>
      simp only [Bool.false_eq_true, if_false, if_true, UInt8.toBitVec_and, UInt8.toBitVec_or,
        UInt8.toBitVec_not, bitMask_toBitVec, BitVec.getLsbD_and, BitVec.getLsbD_or,
        BitVec.getLsbD_not, BitVec.getLsbD_twoPow, hj] <;>
      by_cases h : j = i <;> simp [h, hbit, Nat.mod_lt]
  · rw [Function.update_of_ne hbyte, if_neg (mt (congrArg (· / 8)) hbyte)]

@[simp] theorem bitGet_bitSet_self (mem : ℕ → UInt8) (i : ℕ) (value : Bool) :
    bitGet (bitSet mem i value) i = value := by
  rw [bitGet_bitSet, if_pos rfl]

theorem bitGet_bitSet_of_ne (mem : ℕ → UInt8) {i j : ℕ} (h : j ≠ i) (value : Bool) :
    bitGet (bitSet mem i value) j = bitGet mem j := by
  rw [bitGet_bitSet, if_neg h]

/-- Set the bits of a list. -/
def bitsSet (mem : ℕ → UInt8) (is : List ℕ) : ℕ → UInt8 :=
  is.foldl (fun mem i => bitSet mem i true) mem

end Lib
