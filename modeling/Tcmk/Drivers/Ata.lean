import Tcmk.Lib.Lock
import Tcmk.Sched.Tasks

/-!
# The disk driver (`drivers/ata.rs`)

`read` and `write` run on the tasks of `Sched/Machine.lean`: `Stage` says where in a command a task
is, and a step of the machine is an interrupt, a step of the scheduler, or the next step of the
current task's command. The interrupts may come between any two steps. What the device answers is
part of the step; the data is not modelled.

The driver waits for the device in `wait_for_io` (`await_irq`), which nothing else calls.
-/

namespace Tcmk

open Lib

/-- `SECTOR_SIZE`. -/
def ataSectorSize : ℕ := 512

/-- `IO_TIMEOUT_TICKS`. -/
def ioTimeoutTicks : UInt32 := 200

/-- A call of `read` or `write`. -/
structure AtaCommand where
  write : Bool
  count : UInt8
  bufLen : ℕ
  deriving DecidableEq

/-- What a command waits for in `await_irq`. -/
inductive Awaited
  /-- the next sector; then there are `left` more -/
  | sector (c : AtaCommand) (left : ℕ)
  | flush
  deriving DecidableEq

/-- Where a task is in a command. -/
inductive Stage
  | out
  /-- `DeviceLock::acquire`: at the top of the loop -/
  | acquire (c : AtaCommand)
  /-- `setup_lba` -/
  | setup (c : AtaCommand)
  /-- `arm_irq` and the command -/
  | arm (a : Awaited)
  /-- at the top of the loop over the sectors -/
  | sectors (c : AtaCommand) (left : ℕ)
  /-- `await_irq`: before `wait_for_io`, and in or after it -/
  | await (a : Awaited)
  | clear (a : Awaited)
  /-- the test of the status, and the transfer -/
  | poll (a : Awaited)
  /-- `wait_while_busy` before the flush -/
  | flush
  /-- the end of the command: `_guard` is dropped -/
  | release
  deriving DecidableEq

/-- Between taking and giving back the lock. -/
def Stage.Holding : Stage → Prop
  | .out | .acquire _ => False
  | _ => True

instance (x : Stage) : Decidable x.Holding :=
  match x with
  | .out | .acquire _ => instDecidableFalse
  | .setup _ | .arm _ | .sectors _ _ | .await _ | .clear _ | .poll _ | .flush | .release =>
    instDecidableTrue

inductive AtaEvent
  | tick
  | preempt
  /-- IRQ14 -/
  | irq
  /-- a call of the current task, which is in no command -/
  | call (c : TaskCall)
  /-- the current task calls `read` or `write` -/
  | begin (c : AtaCommand)
  /-- the current task goes on in the scheduler -/
  | proceed
  /-- the current task goes on in its command. `ok` is what the device answers. -/
  | go (ok : Bool)
  deriving DecidableEq

/-- The kernel, the statics of `ata.rs` and where each task is in the driver. -/
structure Ata where
  kernel : Kernel
  /-- `LOCKED` -/
  locked : Bool
  /-- `IRQ_SEEN` -/
  seen : Bool
  stage : ℕ → Stage

namespace Ata

def boot : Ata := ⟨Kernel.boot, false, false, fun _ => .out⟩

def current (w : Ata) : ℕ := w.kernel.sched.current

/-- The current task gets to stage `x`. -/
def enter (w : Ata) (x : Stage) : Ata :=
  { w with stage := Function.update w.stage w.current x }

/-- A step of the scheduler. -/
def withKernel (w : Ata) (e : KernelEvent) : Ata := { w with kernel := w.kernel.after e }

/-- The next step of the command that the current task is in. -/
def advance (w : Ata) (ok : Bool) : Ata :=
  match w.stage w.current with
  | .out => w
  | .acquire c =>
    if w.locked then w.withKernel (.call .yield)
    else { w.enter (.setup c) with locked := true }
  | .setup c => w.enter (if ok then .arm (.sector c c.count.toNat) else .release)
  | .arm (.sector c left) => { w.enter (.sectors c left) with seen := false }
  | .arm .flush => { w.enter (.await .flush) with seen := false }
  | .sectors c 0 => w.enter (if c.write then .flush else .release)
  | .sectors c (left + 1) => w.enter (.await (.sector c left))
  | .await a =>
    if w.current = idleTask then w.enter (.poll a)
    else (w.enter (.clear a)).withKernel (.call (.waitForIo ioTimeoutTicks))
  | .clear a => { w.enter (.poll a) with seen := false }
  | .poll (.sector c left) => w.enter (if ok then .sectors c left else .release)
  | .poll .flush => w.enter .release
  | .flush => w.enter (if ok then .arm .flush else .release)
  | .release => { w.enter .out with locked := false }

/-- `read` and `write`, up to the call of `acquire`. -/
def command (w : Ata) (c : AtaCommand) : Ata :=
  if c.count = 0 then w
  else if c.bufLen < c.count.toNat * ataSectorSize then w
  else w.enter (.acquire c)

/-- A new task starts outside of the driver. -/
def startOut (stage : ℕ → Stage) : Option ℕ → ℕ → Stage
  | some index => Function.update stage index .out
  | none => stage

def after (w : Ata) : AtaEvent → Ata
  | .tick => w.withKernel .tick
  | .preempt => w.withKernel .preempt
  | .irq => { w.withKernel .diskIrq with seen := true }
  | .call (.spawn waitable) =>
    { w.withKernel (.call (.spawn waitable)) with
      stage := startOut w.stage (w.kernel.sched.spawnInner waitable).1 }
  | .call c => w.withKernel (.call c)
  | .begin c => w.command c
  | .proceed => w.withKernel (.proceed w.seen)
  | .go ok => w.advance ok

/-- A call that the tasks make outside the driver. -/
def Plain : TaskCall → Prop
  | .waitForIo _ => False
  | _ => True

instance (c : TaskCall) : Decidable (Plain c) :=
  match c with
  | .waitForIo _ => instDecidableFalse
  | .spawn _ | .yield | .sleep _ | .waitpid _ _ | .setNice _ _ | .setExitCode _ | .terminate _
  | .exit => instDecidableTrue

def Enabled (w : Ata) : AtaEvent → Prop
  | .call c => w.kernel.Enabled (.call c) ∧ w.stage w.current = .out ∧ Plain c
  | .begin _ => w.kernel.point w.current = .free ∧ w.stage w.current = .out
  | .proceed => w.kernel.point w.current ≠ .free
  | .go _ => w.kernel.point w.current = .free ∧ w.stage w.current ≠ .out
  | _ => True

instance (w : Ata) (e : AtaEvent) : Decidable (w.Enabled e) :=
  match e with
  | .call _ => inferInstanceAs (Decidable (_ ∧ _ ∧ _))
  | .begin _ => inferInstanceAs (Decidable (_ ∧ _))
  | .proceed => inferInstanceAs (Decidable (_ ≠ _))
  | .go _ => inferInstanceAs (Decidable (_ ∧ _))
  | .tick | .preempt | .irq => instDecidableTrue

end Ata

/-- One step of the machine. -/
def AtaStep (w : Ata) (e : AtaEvent) (w' : Ata) : Prop := w.Enabled e ∧ w' = w.after e

namespace Ata

/-- The live tasks between taking and giving back the lock. -/
def holders (w : Ata) : Set ℕ :=
  {i | (w.kernel.sched.tasks i).Alive ∧ (w.stage i).Holding}

end Ata

end Tcmk
