import Mathlib

/-!
# The two architectures

The kernel is built for i386 and for x86_64. What the sources share is modelled once, with the
architecture as a parameter; `usize` arithmetic is done modulo `2 ^ wordBits`.
-/

namespace Tcmk

inductive Arch
  | i386
  | x86_64
  deriving DecidableEq, Repr

/-- The width of `usize`. -/
def Arch.wordBits : Arch → ℕ
  | .i386 => 32
  | .x86_64 => 64

theorem Arch.wordBits_ge (a : Arch) : 32 ≤ a.wordBits := by
  cases a <;> decide

/-- A value of type `usize`. -/
def Arch.IsUsize (a : Arch) (n : ℕ) : Prop := n < 2 ^ a.wordBits

/-- The length of a slice of bytes: at most `isize::MAX`. -/
def Arch.IsSliceLen (a : Arch) (n : ℕ) : Prop := n < 2 ^ (a.wordBits - 1)

/-- `PAGE_SIZE`. -/
def pageSize : ℕ := 4096

/-- `USER_PDE`: the entry of the page directory for the user's 4 MiB. -/
def userPde : ℕ := 0x00C00000 / 2 ^ 22

end Tcmk
