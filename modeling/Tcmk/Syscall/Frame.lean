import Tcmk.Arch

/-!
# System calls (`regs.rs` and the tables of `posix_syscalls.rs`)

A program puts a number and its arguments in registers. The numbers of Linux differ between the two
architectures, and those from `0x500` on, for the windows, do not. An error is returned as a
negative number.
-/

namespace Tcmk

/-- What the calls read of a `SyscallFrame`: `EAX` and the registers of the first three
arguments. -/
structure SyscallFrame where
  eax : ℕ
  arg1 : ℕ
  arg2 : ℕ
  arg3 : ℕ
  deriving DecidableEq

/-- `number`: the register is cut to 32 bits. -/
def SyscallFrame.number (f : SyscallFrame) : ℕ := f.eax % 2 ^ 32

/-- The registers are of the architecture's size. -/
def SyscallFrame.Fits (arch : Arch) (f : SyscallFrame) : Prop :=
  arch.IsUsize f.eax ∧ arch.IsUsize f.arg1 ∧ arch.IsUsize f.arg2 ∧ arch.IsUsize f.arg3

instance (arch : Arch) (n : ℕ) : Decidable (arch.IsUsize n) := inferInstanceAs (Decidable (_ < _))

instance (arch : Arch) (f : SyscallFrame) : Decidable (f.Fits arch) :=
  inferInstanceAs (Decidable (_ ∧ _ ∧ _ ∧ _))

/-- A signed value of the size of a register. -/
def Arch.IsSigned (arch : Arch) (v : ℤ) : Prop :=
  -2 ^ (arch.wordBits - 1) ≤ v ∧ v < 2 ^ (arch.wordBits - 1)

instance (arch : Arch) (v : ℤ) : Decidable (arch.IsSigned v) := inferInstanceAs (Decidable (_ ∧ _))

/-- The register that holds a signed value. -/
def Arch.register (arch : Arch) (v : ℤ) : ℕ := (v % 2 ^ arch.wordBits).toNat

/-- Cutting a register to 8 bits cuts the value. -/
theorem register_bmod (arch : Arch) (v : ℤ) : (arch.register v : ℤ).bmod 256 = v.bmod 256 := by
  unfold Arch.register
  cases arch with
  | i386 =>
    simp only [Arch.wordBits]
    rw [Int.toNat_of_nonneg (Int.emod_nonneg v (by norm_num))]
    simp only [Int.bmod_def]
    omega
  | x86_64 =>
    simp only [Arch.wordBits]
    rw [Int.toNat_of_nonneg (Int.emod_nonneg v (by norm_num))]
    simp only [Int.bmod_def]
    omega

/-! ## Errors -/

namespace Errno

def enoent : ℤ := 2

def esrch : ℤ := 3

def ebadf : ℤ := 9

def echild : ℤ := 10

def efault : ℤ := 14

def einval : ℤ := 22

def emfile : ℤ := 24

def enosys : ℤ := 38

end Errno

/-! ## Numbers -/

/-- A call of `dispatch`. -/
inductive PosixCall
  | exit | fork | waitpid | pipe | read | write | open | close | dup | dup2 | poll | brk |
    getpid | kill
  | signal | sigreturn | getpriority | setpriority
  | winCreate | winBuffer | winSize | winFlush | winPollKey | mouseState | yield | winPos |
    sleep | execve
  deriving DecidableEq

namespace PosixCall

/-- `i386_numbers` and `x86_64_numbers`, and the numbers of the windows. -/
def number (arch : Arch) : PosixCall → ℕ
  | .exit => match arch with | .i386 => 1 | .x86_64 => 60
  | .fork => match arch with | .i386 => 2 | .x86_64 => 57
  | .waitpid => match arch with | .i386 => 7 | .x86_64 => 61
  | .pipe => match arch with | .i386 => 42 | .x86_64 => 22
  | .read => match arch with | .i386 => 3 | .x86_64 => 0
  | .write => match arch with | .i386 => 4 | .x86_64 => 1
  | .open => match arch with | .i386 => 5 | .x86_64 => 2
  | .close => match arch with | .i386 => 6 | .x86_64 => 3
  | .dup => match arch with | .i386 => 41 | .x86_64 => 32
  | .dup2 => match arch with | .i386 => 63 | .x86_64 => 33
  | .poll => match arch with | .i386 => 168 | .x86_64 => 7
  | .brk => match arch with | .i386 => 45 | .x86_64 => 12
  | .getpid => match arch with | .i386 => 20 | .x86_64 => 39
  | .kill => match arch with | .i386 => 37 | .x86_64 => 62
  | .signal => match arch with | .i386 => 48 | .x86_64 => 13
  | .sigreturn => match arch with | .i386 => 119 | .x86_64 => 15
  | .getpriority => match arch with | .i386 => 96 | .x86_64 => 140
  | .setpriority => match arch with | .i386 => 97 | .x86_64 => 141
  | .winCreate => 0x500
  | .winBuffer => 0x501
  | .winSize => 0x502
  | .winFlush => 0x503
  | .winPollKey => 0x504
  | .mouseState => 0x505
  | .yield => 0x506
  | .winPos => 0x507
  | .sleep => 0x508
  | .execve => 0x509

/-- The calls that `dispatch` knows, in its order. -/
def all : List PosixCall :=
  [.exit, .write, .read, .open, .close, .dup, .dup2, .brk, .fork, .waitpid, .pipe,
    .winCreate, .winBuffer,
    .winSize, .winPos, .winFlush, .winPollKey, .mouseState, .yield, .execve, .poll, .sleep, .getpid,
    .setpriority, .getpriority, .kill, .signal, .sigreturn]

theorem mem_all (c : PosixCall) : c ∈ all := by
  cases c <;> decide

/-- What `dispatch` takes a number for. -/
def ofNumber (arch : Arch) (n : ℕ) : Option PosixCall := all.find? fun c => c.number arch == n

theorem number_inj (arch : Arch) : ∀ c ∈ all, ∀ d ∈ all, c.number arch = d.number arch → c = d := by
  cases arch <;> decide

/-- No two calls have one number. -/
theorem ofNumber_eq_some {arch : Arch} {n : ℕ} {c : PosixCall} :
    ofNumber arch n = some c ↔ c.number arch = n := by
  refine ⟨fun h => by simpa using List.find?_some h, fun h => ?_⟩
  cases hfind : ofNumber arch n with
  | none =>
    have hnot := List.find?_eq_none.1 hfind c (mem_all c)
    simp [h] at hnot
  | some d =>
    have hd : d.number arch = n := by simpa using List.find?_some hfind
    rw [number_inj arch d (mem_all d) c (mem_all c) (hd.trans h.symm)]

end PosixCall

end Tcmk
