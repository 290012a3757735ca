import Tcmk.Lib.Table
import Tcmk.Memory.Heap

/-!
# The scheduler (`core/scheduler.rs`)

The task table and the functions that select, block, wake and end tasks. A function that waits
is split at its calls of `yield_now`; the parts are put together in `Sched/Machine.lean`. The
tick counter is `pit::ticks()`; `cr3` is the page directory in use, `0` for the kernel's own.
-/

namespace Tcmk

open Lib

/-- `MAX_TASKS`. -/
def maxTasks : ℕ := 8

/-- `IDLE_TASK`. -/
def idleTask : ℕ := 0

/-- `TASK_STACK_SIZE`. -/
def taskStackSize : ℕ := 16 * 1024

inductive TaskState
  | unused
  | ready
  | running
  | blocked
  | waiting
  | ioWait
  | terminated
  deriving DecidableEq, Repr

/-- `Task`. A `waitFor` of `n + 1` means that task `n` is waited for. -/
structure Task where
  state : TaskState
  kernelStackTop : ℕ
  addressSpace : ℕ
  wakeTick : UInt32
  waitFor : ℕ
  exitCode : UInt32
  nice : Int8
  credits : ℕ
  parent : ℕ
  waitable : Bool
  stackTop : ℕ
  cpuTicks : UInt32

/-- `Task::empty`. -/
def Task.empty : Task where
  state := .unused
  kernelStackTop := 0
  addressSpace := 0
  wakeTick := 0
  waitFor := 0
  exitCode := 0
  nice := 0
  credits := 0
  parent := 0
  waitable := false
  stackTop := 0
  cpuTicks := 0

/-- The statics of `scheduler.rs` and what they work on. -/
structure Sched where
  tasks : ℕ → Task
  current : ℕ
  taskCount : ℕ
  needResched : Bool
  switches : ℕ
  ioWaits : ℕ
  preemptions : ℕ
  preemptLock : ℕ
  ticks : UInt32
  cr3 : ℕ
  heap : Heap

/-- `now.wrapping_sub(tick) < 0x8000_0000`. -/
def reached (now tick : UInt32) : Prop := now - tick < 0x80000000

instance (now tick : UInt32) : Decidable (reached now tick) :=
  inferInstanceAs (Decidable (_ < _))

/-- `slice_ticks`. -/
def sliceTicks (nice : Int8) : ℕ :=
  if nice ≤ -10 then 8
  else if nice ≤ -1 then 4
  else if nice ≤ 4 then 2
  else 1

theorem sliceTicks_pos (nice : Int8) : 0 < sliceTicks nice := by
  unfold sliceTicks
  split_ifs <;> decide

namespace Sched

/-- After `init`: the running kernel is the idle task. -/
def initial : Sched where
  tasks := Function.update (fun _ => Task.empty) 0 { Task.empty with state := .running }
  current := 0
  taskCount := 1
  needResched := false
  switches := 0
  ioWaits := 0
  preemptions := 0
  preemptLock := 0
  ticks := 0
  cr3 := 0
  heap := Heap.initial

/-- Change one entry of the task table. -/
def modifyTask (s : Sched) (i : ℕ) (f : Task → Task) : Sched :=
  { s with tasks := Function.update s.tasks i (f (s.tasks i)) }

def setState (s : Sched) (i : ℕ) (state : TaskState) : Sched :=
  s.modifyTask i fun t => { t with state := state }

section Fields

variable (s : Sched) (i j : ℕ) (f : Task → Task)

theorem modifyTask_tasks :
    (s.modifyTask i f).tasks j = if j = i then f (s.tasks i) else s.tasks j :=
  Function.update_apply ..

@[simp] theorem modifyTask_self : (s.modifyTask i f).tasks i = f (s.tasks i) :=
  Function.update_self ..

/-- A field that the change leaves alone. -/
theorem modifyTask_field {α : Sort*} (g : Task → α) (hg : ∀ t, g (f t) = g t) :
    g ((s.modifyTask i f).tasks j) = g (s.tasks j) := by
  rw [modifyTask_tasks]
  split_ifs with h
  · rw [hg, h]
  · rfl

@[simp] theorem modifyTask_current : (s.modifyTask i f).current = s.current := rfl

@[simp] theorem modifyTask_taskCount : (s.modifyTask i f).taskCount = s.taskCount := rfl

@[simp] theorem modifyTask_ticks : (s.modifyTask i f).ticks = s.ticks := rfl

@[simp] theorem modifyTask_switches : (s.modifyTask i f).switches = s.switches := rfl

end Fields

/-! ## Slots -/

/-- The stacks of a slot: those it has, or new ones. -/
def slotStacks (s : Sched) (index : ℕ) : Option (ℕ × ℕ) × Heap :=
  if (s.tasks index).stackTop ≠ 0 then
    (some ((s.tasks index).stackTop, (s.tasks index).kernelStackTop), s.heap)
  else
    match s.heap.kmallocAligned taskStackSize 16 with
    | none => (none, s.heap)
    | some (stack, heap) =>
      match heap.kmallocAligned taskStackSize 16 with
      | none => (none, heap)
      | some (kstack, heap) => (some (stack + taskStackSize, kstack + taskStackSize), heap)

/-- The second half of `spawn_inner`: the task in its slot. -/
def fillSlot (s : Sched) (index : ℕ) (waitable : Bool) : Option ℕ × Sched :=
  match s.slotStacks index with
  | (none, heap) => (none, { s with heap := heap })
  | (some (stackTop, kstackTop), heap) =>
    (some index, { s with
      heap := heap
      tasks := Function.update s.tasks index {
        state := .ready
        kernelStackTop := kstackTop
        addressSpace := 0
        wakeTick := 0
        waitFor := 0
        exitCode := 0
        nice := 0
        credits := sliceTicks 0
        parent := s.current
        waitable := waitable
        stackTop := stackTop
        cpuTicks := 0 } })

/-- `spawn_inner`: the new task's number. -/
def spawnInner (s : Sched) (waitable : Bool) : Option ℕ × Sched :=
  match (List.range s.taskCount).find? fun i => (s.tasks i).state = .unused with
  | some index => s.fillSlot index waitable
  | none =>
    if s.taskCount ≥ maxTasks then (none, s)
    else { s with taskCount := s.taskCount + 1 }.fillSlot s.taskCount waitable

/-- `release_slot`. -/
def releaseSlot (s : Sched) (index : ℕ) : Sched :=
  s.modifyTask index fun t => { t with
    state := .unused, waitable := false, waitFor := 0, credits := 0 }

/-- `parent_alive` of `reap_orphans`. -/
def parentAlive (s : Sched) (i : ℕ) : Prop :=
  (s.tasks i).parent < s.taskCount ∧ (s.tasks (s.tasks i).parent).state ≠ .unused ∧
    (s.tasks (s.tasks i).parent).state ≠ .terminated

instance (s : Sched) (i : ℕ) : Decidable (s.parentAlive i) := inferInstanceAs (Decidable (_ ∧ _))

/-- `reap_orphans`. -/
def reapOrphans (s : Sched) : Sched :=
  (List.range s.taskCount).foldl (fun s i =>
    if (s.tasks i).state ≠ .terminated ∨ (s.tasks i).waitable = false then s
    else if s.parentAlive i then s
    else s.releaseSlot i) s

/-! ## The timer -/

/-- `pit::on_tick` with `on_timer_tick`. -/
def onTimerTick (s : Sched) : Sched :=
  let s := { s with ticks := s.ticks + 1 }
  let s := s.modifyTask s.current fun t => { t with cpuTicks := t.cpuTicks + 1 }
  if (s.tasks s.current).credits > 1 then
    s.modifyTask s.current fun t => { t with credits := t.credits - 1 }
  else
    { s.modifyTask s.current fun t => { t with credits := 0 } with needResched := true }

/-- `refill_credits`. -/
def refillCredits (s : Sched) : Sched :=
  { s with
    tasks := each s.taskCount
      (fun tasks i => { tasks i with credits := sliceTicks (tasks i).nice }) s.tasks }

/-- `value.clamp(-20, 19)`. -/
def clampNice (value : Int8) : Int8 :=
  if value < -20 then -20 else if value > 19 then 19 else value

/-- `set_nice`. -/
def setNice (s : Sched) (index : ℕ) (value : Int8) : Option Sched :=
  if index ≥ maxTasks then none
  else if (s.tasks index).state = .unused then none
  else some (s.modifyTask index fun t => { t with nice := clampNice value })

/-! ## Selection -/

/-- One round of `wake_expired`. -/
def wake (now : UInt32) (tasks : ℕ → Task) (t : Task) : Task :=
  match t.state with
  | .blocked => if reached now t.wakeTick then { t with state := .ready } else t
  | .waiting =>
    if (tasks (t.waitFor - 1)).state = .terminated then { t with state := .ready, waitFor := 0 }
    else t
  | _ => t

/-- `wake_expired`. -/
def wakeExpired (s : Sched) : Sched :=
  { s with tasks := each s.taskCount (fun tasks i => wake s.ticks tasks (tasks i)) s.tasks }

/-- A candidate that a pass of `pick_next` takes. -/
def Eligible (s : Sched) (candidate : ℕ) : Prop :=
  (s.tasks candidate).state = .ready ∧ candidate ≠ idleTask ∧ (s.tasks candidate).credits ≠ 0

instance (s : Sched) (candidate : ℕ) : Decidable (s.Eligible candidate) :=
  inferInstanceAs (Decidable (_ ∧ _ ∧ _))

/-- The candidates of a pass, in order. -/
def candidates (s : Sched) (current : ℕ) : List ℕ :=
  (List.range s.taskCount).map fun i => (current + (i + 1)) % s.taskCount

/-- One pass of `pick_next`. -/
def pass (s : Sched) (current : ℕ) : Option ℕ :=
  (s.candidates current).find? fun c => s.Eligible c

/-- The end of `pick_next`: no other task is ready. -/
def lastResort (s : Sched) (current : ℕ) : ℕ :=
  if current ≠ idleTask ∧ (s.tasks current).state = .running ∧ (s.tasks current).credits > 0 then
    current
  else if (s.tasks idleTask).state = .ready ∨ (s.tasks idleTask).state = .running then idleTask
  else current

/-- `pick_next`. -/
def pickNext (s : Sched) (current : ℕ) : ℕ × Sched :=
  let s := s.wakeExpired
  match s.pass current with
  | some candidate => (candidate, s)
  | none =>
    let s := s.refillCredits
    match s.pass current with
    | some candidate => (candidate, s)
    | none => (s.lastResort current, s)

/-- The switch of `yield_now` to another task. -/
def switchTo (s : Sched) (next : ℕ) : Sched :=
  let current := s.current
  let s := if (s.tasks current).state = .running then s.setState current .ready else s
  let s := if current ≠ idleTask then
    s.modifyTask current fun t => { t with credits := t.credits - 1 } else s
  let s := if next = idleTask then s.refillCredits else s
  let s := s.setState next .running
  { s with current := next, switches := s.switches + 1, cr3 := (s.tasks next).addressSpace }

/-- `yield_now`. -/
def yieldNow (s : Sched) : Sched :=
  let (next, s) := { s with needResched := false }.pickNext s.current
  if next = s.current then s else s.switchTo next

/-- `preempt_from_timer`. -/
def preemptFromTimer (s : Sched) : Sched :=
  if s.taskCount < 2 then s
  else if s.preemptLock ≠ 0 then s
  else if !s.needResched then s
  else { s with preemptions := s.preemptions + 1 }.yieldNow

/-! ## Blocking and ending -/

/-- `sleep_ticks`, before its first `yield_now`. -/
def fallAsleep (s : Sched) (wakeTick : UInt32) : Sched :=
  s.modifyTask s.current fun t => { t with wakeTick := wakeTick, state := .blocked }

/-- `wait_for_io`, when the device is not ready. -/
def awaitDevice (s : Sched) : Sched :=
  { s.setState s.current .ioWait with ioWaits := s.ioWaits + 1 }

/-- `wake_io_waiters`. -/
def wakeIoWaiters (s : Sched) : Sched :=
  { s with
    tasks := each s.taskCount
      (fun tasks i => if (tasks i).state = .ioWait then { tasks i with state := .ready }
        else tasks i) s.tasks }

/-- `terminate_current`, before its first `yield_now`. -/
def terminateCurrent (s : Sched) : Sched :=
  let s := s.setState s.current .terminated
  let s := if (s.tasks s.current).waitable = false then s.releaseSlot s.current else s
  s.reapOrphans

/-- `terminate`: the address space that the task had. -/
def terminate (s : Sched) (index : ℕ) : Option (ℕ × Sched) :=
  if index = idleTask ∨ index ≥ maxTasks ∨ index = s.current then none
  else if (s.tasks index).state = .unused ∨ (s.tasks index).state = .terminated then none
  else
    let space := (s.tasks index).addressSpace
    let s := s.modifyTask index fun t => { t with state := .terminated, addressSpace := 0 }
    some (space, if (s.tasks index).waitable = false then s.releaseSlot index else s)

/-- What a waiting call comes to before its first `yield_now`. -/
inductive Wait
  /-- `ECHILD` -/
  | noChild
  /-- `0`: no child has finished -/
  | notYet
  | collected (child : ℕ) (code : UInt32)
  | blocked (child : ℕ)

/-- Take a child's exit code and release its slot. -/
def collect (s : Sched) (child : ℕ) : Wait × Sched :=
  (.collected child (s.tasks child).exitCode, s.releaseSlot child)

/-- Where `wait_for_task` marks the current task as waiting. -/
def startWaiting (s : Sched) (child : ℕ) : Sched :=
  s.modifyTask s.current fun t => { t with waitFor := child + 1, state := .waiting }

/-- `wait_for_task`, before its first `yield_now`. -/
def waitForTask (s : Sched) (child : ℕ) : Wait × Sched :=
  if child ≥ s.taskCount ∨ child = s.current ∨ s.current = idleTask then (.noChild, s)
  else if (s.tasks child).state = .unused then (.noChild, s)
  else if (s.tasks child).state = .terminated then s.collect child
  else (.blocked child, s.startWaiting child)

/-- The first child of `parent` in the table whose state has a property. -/
def findChild (s : Sched) (parent : ℕ) (p : TaskState → Bool) : Option ℕ :=
  (List.range s.taskCount).find? fun i =>
    decide (i ≠ parent ∧ (s.tasks i).parent = parent) && p (s.tasks i).state

/-- `wait_for_any`, before its first `yield_now`. -/
def waitForAny (s : Sched) : Wait × Sched :=
  match s.findChild s.current (· == .terminated) with
  | some i => s.collect i
  | none =>
    match s.findChild s.current (· != .unused) with
    | some i => s.waitForTask i
    | none => (.noChild, s)

/-- `reap_finished_child`. -/
def reapFinishedChild (s : Sched) (parent : ℕ) : Wait × Sched :=
  match s.findChild parent (· == .terminated) with
  | some i => s.collect i
  | none => (.notYet, s)

/-- `has_children`. -/
def hasChildren (s : Sched) (index : ℕ) : Bool := (s.findChild index (· != .unused)).isSome

/-- `SYS_WAITPID`, before its first `yield_now`. The pid `-1` is `none`. -/
def waitpid (s : Sched) (pid : Option ℕ) (nohang : Bool) : Wait × Sched :=
  match pid with
  | none =>
    if !s.hasChildren s.current then (.noChild, s)
    else if nohang then s.reapFinishedChild s.current
    else s.waitForAny
  | some child =>
    if child ≥ s.taskCount then (.noChild, s)
    else if nohang then
      if (s.tasks child).state ≠ .terminated then (.notYet, s)
      else (.collected child (s.tasks child).exitCode, s)
    else s.waitForTask child

end Sched

end Tcmk
