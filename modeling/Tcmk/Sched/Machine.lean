import Tcmk.Lib.Run
import Tcmk.Sched.Scheduler

/-!
# Runs of the scheduler

The tasks share one processor: only the current task executes, and it may lose the processor to
another task at a `yield_now` or in the timer interrupt. A waiting function is cut at these
places, and `Point` says where in it a task is. One step of the machine is an interrupt, a call
of the current task up to its first `yield_now`, or the next part of the call that it is in.

The interrupts may come between any two steps. Where a call is made with interrupts disabled,
fewer of these runs exist.
-/

namespace Tcmk

open Lib

/-- Where a task is in a call of the scheduler. -/
inductive Point
  /-- in none -/
  | free
  /-- `sleep_ticks`: before and after `yield_now` -/
  | sleepYield (wake : UInt32)
  | sleepCheck (wake : UInt32)
  /-- `wait_for_io`: at the top of the loop, and before and after `yield_now` -/
  | ioArm (deadline : UInt32)
  | ioYield (deadline : UInt32)
  | ioCheck (deadline : UInt32)
  /-- the end of both: the task is about to mark itself `Running` -/
  | awake
  /-- `wait_for_task`: before and after `yield_now` -/
  | childYield (child : ℕ)
  | childCheck (child : ℕ)
  /-- the endless loop of `terminate_current` -/
  | halted
  deriving DecidableEq

/-- A call of a task. -/
inductive TaskCall
  | spawn (waitable : Bool)
  | yield
  | sleep (ticks : UInt32)
  | waitForIo (timeout : UInt32)
  | waitpid (pid : Option ℕ) (nohang : Bool)
  | setNice (index : ℕ) (value : Int8)
  | setExitCode (code : UInt32)
  | terminate (index : ℕ)
  | exit
  deriving DecidableEq

inductive KernelEvent
  /-- the two halves of the timer interrupt -/
  | tick
  | preempt
  /-- the disk's interrupt -/
  | diskIrq
  | call (c : TaskCall)
  /-- The current task goes on in the call it is in. `ready` is what the test of `wait_for_io`
  finds. -/
  | proceed (ready : Bool)
  deriving DecidableEq

/-- The scheduler, and where each task is in it. -/
structure Kernel where
  sched : Sched
  point : ℕ → Point

namespace Kernel

/-- The kernel after `init`. -/
def boot : Kernel := ⟨Sched.initial, fun _ => .free⟩

/-- The scheduler changes and nothing else does. -/
def withSched (k : Kernel) (s : Sched) : Kernel := { k with sched := s }

/-- The current task gets to `point`, with the scheduler now in `s`. -/
def enter (k : Kernel) (point : Point) (s : Sched) : Kernel :=
  ⟨s, Function.update k.point k.sched.current point⟩

/-- The kernel after a call, or after its first part. -/
def afterCall (k : Kernel) : TaskCall → Kernel
  | .spawn waitable =>
    match k.sched.spawnInner waitable with
    | (some index, s) => ⟨s, Function.update k.point index .free⟩
    | (none, s) => k.withSched s
  | .yield => k.withSched k.sched.yieldNow
  | .sleep ticks =>
    if k.sched.current = idleTask ∨ ticks = 0 then k.withSched k.sched.yieldNow
    else k.enter (.sleepYield (k.sched.ticks + ticks)) (k.sched.fallAsleep (k.sched.ticks + ticks))
  | .waitForIo timeout =>
    if k.sched.current = idleTask then k
    else k.enter (.ioArm (k.sched.ticks + timeout)) k.sched
  | .waitpid pid nohang =>
    match k.sched.waitpid pid nohang with
    | (.blocked child, s) => k.enter (.childYield child) s
    | (_, s) => k.withSched s
  | .setNice index value => k.withSched ((k.sched.setNice index value).getD k.sched)
  | .setExitCode code =>
    k.withSched (k.sched.modifyTask k.sched.current fun t => { t with exitCode := code })
  | .terminate index =>
    match k.sched.terminate index with
    | some (_, s) => k.withSched s
    | none => k
  | .exit => k.enter .halted k.sched.terminateCurrent

/-- The kernel after the next part of the call that the current task is in. -/
def afterProceed (k : Kernel) (ready : Bool) : Kernel :=
  let current := k.sched.current
  match k.point current with
  | .free => k
  | .sleepYield wake => k.enter (.sleepCheck wake) k.sched.yieldNow
  | .sleepCheck wake =>
    if reached k.sched.ticks wake then k.enter .awake k.sched
    else k.enter (.sleepYield wake) k.sched
  | .ioArm deadline =>
    if ready then k.enter .free k.sched
    else k.enter (.ioYield deadline) k.sched.awaitDevice
  | .ioYield deadline => k.enter (.ioCheck deadline) k.sched.yieldNow
  | .ioCheck deadline =>
    if ready then k.enter .awake k.sched
    else if reached k.sched.ticks deadline then k.enter .awake k.sched
    else k.enter (.ioArm deadline) k.sched
  | .awake => k.enter .free (k.sched.setState current .running)
  | .childYield child => k.enter (.childCheck child) k.sched.yieldNow
  | .childCheck child =>
    if (k.sched.tasks child).state = .terminated then k.enter .free (k.sched.collect child).2
    else k.enter (.childYield child) k.sched
  | .halted => k.enter .halted k.sched.yieldNow

def after (k : Kernel) : KernelEvent → Kernel
  | .tick => k.withSched k.sched.onTimerTick
  | .preempt => k.withSched k.sched.preemptFromTimer
  | .diskIrq => k.withSched k.sched.wakeIoWaiters
  | .call c => k.afterCall c
  | .proceed ready => k.afterProceed ready

/-- The event can happen. The idle task never ends. -/
def Enabled (k : Kernel) : KernelEvent → Prop
  | .call c => k.point k.sched.current = .free ∧ (c = .exit → k.sched.current ≠ idleTask)
  | .proceed _ => k.point k.sched.current ≠ .free
  | _ => True

instance (k : Kernel) (e : KernelEvent) : Decidable (k.Enabled e) := by
  cases e <;> unfold Enabled <;> infer_instance

/-- What a `waitpid` that ends in this step returns. -/
def collected (k : Kernel) : KernelEvent → Option (ℕ × UInt32)
  | .call (.waitpid pid nohang) =>
    match (k.sched.waitpid pid nohang).1 with
    | .collected child code => some (child, code)
    | _ => none
  | .proceed _ =>
    match k.point k.sched.current with
    | .childCheck child =>
      if (k.sched.tasks child).state = .terminated then some (child, (k.sched.tasks child).exitCode)
      else none
    | _ => none
  | _ => none

end Kernel

/-- One step of the machine. -/
def KernelStep (k : Kernel) (e : KernelEvent) (k' : Kernel) : Prop := k.Enabled e ∧ k' = k.after e

end Tcmk
