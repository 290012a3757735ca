import Tcmk.Arch
import Tcmk.Process.Lifetime

/-!
# Programs in Ring 3 (`enter_ring3`, `usermode.rs`, `gdt` and `syscall_msr.rs`)

A program enters the kernel on a stack that has been chosen beforehand: `int` and the interrupts
take the one in the TSS, and the `syscall` instruction of x86_64 takes `SYSCALL_KERNEL_RSP`. Both
are set by `enter_ring3`, to a stack that it allocates, and by `yield_now`, to the second stack of
the task that it switches to. The first stack of a task holds the frames of the code that runs the
program.

A stack is named by its top. `Mode` says how far a task has come on its way to Ring 3 and back; the
timer may come between any two steps.
-/

namespace Tcmk

open Lib

/-- `KERNEL_STACK_SIZE`. -/
def kernelStackSize : ℕ := 16 * 1024

/-- Where a task is on its way to Ring 3 and back. -/
inductive Mode
  /-- in the kernel, on its first stack -/
  | kernel
  /-- `enter_ring3`: after `signal::reset`, after `kmalloc_aligned`, after `gdt::set_kernel_stack`,
  and before `run_user_program` -/
  | entering
  | allocated
  | tssSet
  | ready
  | user
  /-- in a system call -/
  | call
  deriving DecidableEq

inductive RingEvent
  | process (e : ProcessEvent)
  /-- an allocation of some other kernel code -/
  | kmalloc (size align : ℕ)
  /-- `enter_ring3`, statement by statement -/
  | reset
  | allocate
  | setTss
  | setSyscallStack
  | enter
  /-- `resume_user_context` of `child_task` -/
  | resume
  /-- A system call begins, by `int` or by the `syscall` instruction, and ends. -/
  | trap (instruction : Bool)
  | iret

/-- The tasks, and the stacks on which they enter the kernel. -/
structure Ring3 where
  process : Process
  mode : ℕ → Mode
  /-- the stack that `enter_ring3` has allocated -/
  kstack : ℕ → ℕ
  /-- the stack on which the task has entered the kernel last -/
  entry : ℕ → ℕ
  /-- `esp0` or `rsp0` -/
  tss : ℕ
  /-- `SYSCALL_KERNEL_RSP` -/
  syscallRsp : ℕ

/-- Interrupts and faults come in every mode. -/
def ProcessEvent.Outer : ProcessEvent → Bool
  | .kernel .tick | .kernel .preempt | .kernel .diskIrq | .stop => true
  | _ => false

/-- `fork` is a system call. The other calls are made in one or by kernel tasks. -/
def Mode.Allows (mode : Mode) (e : ProcessEvent) : Prop :=
  e.Outer = true ∨ mode = .call ∨ mode = .kernel ∧ ∀ space, e ≠ .fork space

instance (mode : Mode) (e : ProcessEvent) : Decidable (mode.Allows e) :=
  have : Decidable (∀ space, e ≠ .fork space) :=
    match e with
    | .fork space => isFalse fun h => h space rfl
    | .kernel _ | .create _ | .go | .stop | .kill _ | .leave => isTrue fun _ => by rintro ⟨⟩
  inferInstanceAs (Decidable (_ ∨ _ ∨ _ ∧ _))

namespace Ring3

def boot : Ring3 := ⟨Process.boot, fun _ => .kernel, fun _ => 0, fun _ => 0, 0, 0⟩

def current (s : Ring3) : ℕ := s.process.current

def withProcess (s : Ring3) (p : Process) : Ring3 := { s with process := p }

def setMode (s : Ring3) (i : ℕ) (mode : Mode) : Ring3 :=
  { s with mode := Function.update s.mode i mode }

def setKstack (s : Ring3) (i top : ℕ) : Ring3 := { s with kstack := Function.update s.kstack i top }

/-- The current task enters the kernel on a stack. -/
def enterOn (s : Ring3) (top : ℕ) : Ring3 :=
  { s with entry := Function.update s.entry s.current top }

/-- `gdt::set_kernel_stack`. -/
def withTss (s : Ring3) (top : ℕ) : Ring3 := { s with tss := top }

/-- `syscall_msr::set_kernel_stack`, which i386 does not have. -/
def withSyscallRsp (arch : Arch) (s : Ring3) (top : ℕ) : Ring3 :=
  match arch with
  | .i386 => s
  | .x86_64 => { s with syscallRsp := top }

/-- The second stack of a task. -/
def kernelStackTop (p : Process) (i : ℕ) : ℕ := (p.kernel.sched.tasks i).kernelStackTop

/-- `yield_now` tells the processor about the stack of the task that it switches to. -/
def loadStack (arch : Arch) (s : Ring3) (p : Process) : Ring3 :=
  if p.current = s.current ∨ kernelStackTop p p.current = 0 then s
  else (s.withTss (kernelStackTop p p.current)).withSyscallRsp arch (kernelStackTop p p.current)

/-- What a step of the tasks does to the modes. -/
def turn (s : Ring3) : ProcessEvent → Ring3
  | .stop => s.setMode s.current .kernel
  | .kernel .preempt => if s.mode s.current = .user then s.enterOn s.tss else s
  | e =>
    match s.process.spawned e with
    | none => s
    | some child => (s.setMode child .kernel).setKstack child 0

def withHeap (s : Ring3) (heap : Heap) : Ring3 :=
  s.withProcess (s.process.withKernel (s.process.kernel.withSched
    { s.process.kernel.sched with heap := heap }))

/-- `kmalloc_aligned`. -/
def kmallocAligned (s : Ring3) (size align : ℕ) : Option (ℕ × Ring3) :=
  (s.process.kernel.sched.heap.kmallocAligned size align).map fun (start, heap) =>
    (start, s.withHeap heap)

def after (arch : Arch) (s : Ring3) : RingEvent → Ring3
  | .process e => ((s.turn e).loadStack arch (s.process.after e)).withProcess (s.process.after e)
  | .kmalloc size align => ((s.kmallocAligned size align).map (·.2)).getD s
  | .reset => s.setMode s.current .entering
  | .allocate =>
    match s.kmallocAligned kernelStackSize 16 with
    | none => s
    | some (start, s) =>
      (s.setKstack s.current (start + kernelStackSize)).setMode s.current .allocated
  | .setTss =>
    (s.withTss (s.kstack s.current)).setMode s.current
      (match arch with | .i386 => .ready | .x86_64 => .tssSet)
  | .setSyscallStack =>
    (s.withSyscallRsp arch (s.kstack s.current)).setMode s.current .ready
  | .enter => s.setMode s.current .user
  | .resume => s.setMode s.current .user
  | .trap instruction =>
    (s.enterOn (if instruction then s.syscallRsp else s.tss)).setMode s.current .call
  | .iret => s.setMode s.current .user

def Enabled (arch : Arch) (s : Ring3) : RingEvent → Prop
  | .process e => s.process.Enabled e ∧ (s.mode s.current).Allows e
  | .kmalloc _ _ => s.mode s.current = .kernel ∨ s.mode s.current = .call
  | .reset =>
    s.process.Idle ∧ s.mode s.current = .kernel ∧ s.current ≠ idleTask ∧
      (s.process.stage s.current).InProgram ∧ s.process.stage s.current ≠ .forked
  | .allocate => s.mode s.current = .entering
  | .setTss => s.mode s.current = .allocated
  | .setSyscallStack => s.mode s.current = .tssSet
  | .enter => s.mode s.current = .ready
  | .resume => s.process.Idle ∧ s.mode s.current = .kernel ∧ s.process.stage s.current = .forked
  | .trap instruction => s.mode s.current = .user ∧ (instruction = true → arch = .x86_64)
  | .iret => s.process.Idle ∧ s.mode s.current = .call

instance (arch : Arch) (s : Ring3) (e : RingEvent) : Decidable (s.Enabled arch e) :=
  match e with
  | .process _ | .reset | .resume | .trap _ | .iret => inferInstanceAs (Decidable (_ ∧ _))
  | .kmalloc _ _ => inferInstanceAs (Decidable (_ ∨ _))
  | .allocate | .setTss | .setSyscallStack | .enter => inferInstanceAs (Decidable (_ = _))

end Ring3

/-- One step. -/
def RingStep (arch : Arch) (s : Ring3) (e : RingEvent) (s' : Ring3) : Prop :=
  s.Enabled arch e ∧ s' = s.after arch e

end Tcmk
