import Tcmk.Arch
import Tcmk.Lib.Memory

/-!
# Register contexts and signal frames (`regs.rs` and `usermode.rs`)

A system call enters with the registers of the program in a `SyscallFrame` on the kernel stack, and
the program goes on with what the frame holds when the call returns. `user_context` copies a frame
and `set_user_context` writes it back. What can be written back are the contexts that have been
copied (`Registers.userContext_set`): on x86_64 RIP and RFLAGS travel in RCX and R11, where the
`syscall` instruction puts them and `sysretq` takes them from.

`build_signal_frame` turns a context to the handler of a signal, with the return address, and on
i386 the number of the signal, on the program's own stack.
-/

namespace Tcmk

open Lib

/-! ## i386 -/

namespace I386

/-- `UserContext`. -/
structure UserContext where
  edi : UInt32
  esi : UInt32
  ebp : UInt32
  ebx : UInt32
  edx : UInt32
  ecx : UInt32
  eax : UInt32
  eip : UInt32
  esp : UInt32
  eflags : UInt32
  deriving DecidableEq

/-- `SyscallFrame`, and above it what the processor pushes when it leaves Ring 3. -/
structure SyscallFrame where
  edi : UInt32
  esi : UInt32
  ebp : UInt32
  espDummy : UInt32
  ebx : UInt32
  edx : UInt32
  ecx : UInt32
  eax : UInt32
  eip : UInt32
  cs : UInt32
  eflags : UInt32
  esp : UInt32
  ss : UInt32
  deriving DecidableEq

/-- `user_context`. It is also what `popa` and `iret` load. -/
def SyscallFrame.userContext (f : SyscallFrame) : UserContext :=
  ⟨f.edi, f.esi, f.ebp, f.ebx, f.edx, f.ecx, f.eax, f.eip, f.esp, f.eflags⟩

/-- `set_user_context`. -/
def SyscallFrame.setUserContext (f : SyscallFrame) (c : UserContext) : SyscallFrame :=
  { f with
    edi := c.edi, esi := c.esi, ebp := c.ebp, ebx := c.ebx, edx := c.edx, ecx :=
      c.ecx, eax := c.eax,
    eip := c.eip, eflags := c.eflags, esp := c.esp }

/-- `set_return`. -/
def SyscallFrame.setReturn (f : SyscallFrame) (value : ℕ) : SyscallFrame :=
  { f with eax := UInt32.ofNat value }

/-- `redirect`. -/
def UserContext.redirect (c : UserContext) (ip sp : ℕ) : UserContext :=
  { c with eip := UInt32.ofNat ip, esp := UInt32.ofNat sp }

end I386

/-! ## x86_64 -/

namespace X86_64

/-- `UserContext`. -/
structure UserContext where
  rax : UInt64
  rbx : UInt64
  rcx : UInt64
  rdx : UInt64
  rsi : UInt64
  rdi : UInt64
  rbp : UInt64
  r8 : UInt64
  r9 : UInt64
  r10 : UInt64
  r11 : UInt64
  r12 : UInt64
  r13 : UInt64
  r14 : UInt64
  r15 : UInt64
  rip : UInt64
  rsp : UInt64
  rflags : UInt64
  deriving DecidableEq

/-- `SyscallFrame`, and above it the stack pointer that `syscall_instruction_entry` pushes. -/
structure SyscallFrame where
  r15 : UInt64
  r14 : UInt64
  r13 : UInt64
  r12 : UInt64
  r11 : UInt64
  r10 : UInt64
  r9 : UInt64
  r8 : UInt64
  rbp : UInt64
  rdi : UInt64
  rsi : UInt64
  rdx : UInt64
  rcx : UInt64
  rbx : UInt64
  rax : UInt64
  userRsp : UInt64
  deriving DecidableEq

/-- `user_context`. It is also what the program finds after `sysretq`, which takes RIP from RCX and
RFLAGS from R11. -/
def SyscallFrame.userContext (f : SyscallFrame) : UserContext where
  rax := f.rax
  rbx := f.rbx
  rcx := f.rcx
  rdx := f.rdx
  rsi := f.rsi
  rdi := f.rdi
  rbp := f.rbp
  r8 := f.r8
  r9 := f.r9
  r10 := f.r10
  r11 := f.r11
  r12 := f.r12
  r13 := f.r13
  r14 := f.r14
  r15 := f.r15
  rip := f.rcx
  rsp := f.userRsp
  rflags := f.r11

/-- `set_user_context`. -/
def SyscallFrame.setUserContext (_ : SyscallFrame) (c : UserContext) : SyscallFrame where
  rax := c.rax
  rbx := c.rbx
  rdx := c.rdx
  rsi := c.rsi
  rdi := c.rdi
  rbp := c.rbp
  r8 := c.r8
  r9 := c.r9
  r10 := c.r10
  r12 := c.r12
  r13 := c.r13
  r14 := c.r14
  r15 := c.r15
  rcx := c.rip
  r11 := c.rflags
  userRsp := c.rsp

/-- `set_return`. -/
def SyscallFrame.setReturn (f : SyscallFrame) (value : ℕ) : SyscallFrame :=
  { f with rax := UInt64.ofNat value }

/-- `redirect`. -/
def UserContext.redirect (c : UserContext) (ip sp : ℕ) : UserContext :=
  { c with rip := UInt64.ofNat ip, rsp := UInt64.ofNat sp }

end X86_64

/-! ## Signal frames -/

section Frames

variable (accessible : ℕ → Bool) (mem : ℕ → UInt8)

/-- `((stack_pointer - below) & !0xF) - word`. -/
def signalStack (arch : Arch) (stackPointer below word : ℕ) : ℕ :=
  let lowered := (stackPointer + (2 ^ arch.wordBits - below)) % 2 ^ arch.wordBits
  (lowered / 16 * 16 + (2 ^ arch.wordBits - word)) % 2 ^ arch.wordBits

/-- `build_signal_frame` of i386: the stack of the program after it, and the context to go on
with. -/
def I386.buildSignalFrame (c : I386.UserContext) (signo handler restorer : ℕ) :
    Option ((ℕ → UInt8) × I386.UserContext) :=
  let sp := signalStack .i386 c.esp.toNat 8 4
  if accessible sp && accessible ((sp + 7) % 2 ^ 32) then
    let mem := store 32 mem sp 4 (leByte restorer)
    let mem := store 32 mem ((sp + 4) % 2 ^ 32) 4 (leByte signo)
    some (mem, c.redirect handler sp)
  else none

/-- `build_signal_frame` of x86_64. -/
def X86_64.buildSignalFrame (c : X86_64.UserContext) (signo handler restorer : ℕ) :
    Option ((ℕ → UInt8) × X86_64.UserContext) :=
  let sp := signalStack .x86_64 c.rsp.toNat 128 8
  if accessible sp && accessible ((sp + 7) % 2 ^ 64) then
    let mem := store 64 mem sp 8 (leByte restorer)
    some (mem, { c with rdi := UInt64.ofNat signo }.redirect handler sp)
  else none

end Frames

/-- What the signals need of an architecture. -/
structure Registers (Frame Context : Type) where
  userContext : Frame → Context
  setUserContext : Frame → Context → Frame
  buildSignalFrame (accessible : ℕ → Bool) (mem : ℕ → UInt8) (c : Context)
    (signo handler restorer : ℕ) : Option ((ℕ → UInt8) × Context)
  /-- The context of one frame, written to another. -/
  userContext_set (f g : Frame) : userContext (setUserContext f (userContext g)) = userContext g

/-- The frames of an architecture. -/
def Arch.Frame : Arch → Type
  | .i386 => I386.SyscallFrame
  | .x86_64 => X86_64.SyscallFrame

/-- The contexts of an architecture. -/
def Arch.Context : Arch → Type
  | .i386 => I386.UserContext
  | .x86_64 => X86_64.UserContext

instance : (arch : Arch) → DecidableEq arch.Frame
  | .i386 => inferInstanceAs (DecidableEq I386.SyscallFrame)
  | .x86_64 => inferInstanceAs (DecidableEq X86_64.SyscallFrame)

def Arch.registers : (arch : Arch) → Registers arch.Frame arch.Context
  | .i386 =>
    { userContext := I386.SyscallFrame.userContext
      setUserContext := I386.SyscallFrame.setUserContext
      buildSignalFrame := I386.buildSignalFrame
      userContext_set := fun _ _ => rfl }
  | .x86_64 =>
    { userContext := X86_64.SyscallFrame.userContext
      setUserContext := X86_64.SyscallFrame.setUserContext
      buildSignalFrame := X86_64.buildSignalFrame
      userContext_set := fun _ _ => rfl }

/-! ## What is on the program's stack -/

namespace Arch

/-- The instruction pointer. -/
def ip : (arch : Arch) → arch.Context → ℕ
  | .i386, c => I386.UserContext.eip c |>.toNat
  | .x86_64, c => X86_64.UserContext.rip c |>.toNat

/-- The stack pointer. -/
def sp : (arch : Arch) → arch.Context → ℕ
  | .i386, c => I386.UserContext.esp c |>.toNat
  | .x86_64, c => X86_64.UserContext.rsp c |>.toNat

end Arch

section Build

variable {accessible : ℕ → Bool} {mem mem' : ℕ → UInt8} {signo handler restorer : ℕ}

end Build

end Tcmk
