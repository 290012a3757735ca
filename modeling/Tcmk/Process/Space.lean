import Tcmk.Sched.Machine

/-!
# Address spaces (`process.rs`, `fork.rs`, `launcher.rs` and the ends of tasks)

A program gets an address space of its own: `run_image` creates and records it, and destroys it
when the program has ended. A fork gives the child a copy, which `child_task` destroys, and a kill
destroys the space of its victim. All this is kernel code that the timer may interrupt between any
two statements, apart from `fork`, which is a system call. `ImageStage` and `Duty` say where a task
is in it.

A space is named by the address of its page directory, and the addresses are used again. `created`
and `destroyed` count the calls of `create_user_space` and `destroy_user_space` for each.
-/

namespace Tcmk

open Lib

/-- Where a task is in the code that runs a program. -/
inductive ImageStage
  /-- in none: a kernel task, or `app_task` before it runs a program -/
  | outside
  /-- `run_image`, after `create_user_space` and after `switch_to` -/
  | created (space : ℕ)
  | loaded (space : ℕ)
  /-- The image is loaded, or it runs in Ring 3. Without a space it shares the kernel's. -/
  | running (space : Option ℕ)
  /-- the same in `child_task` -/
  | forked
  /-- The program has ended: before `set_current_address_space(0)`, before `switch_to`, and before
  `destroy_user_space`. `child` tells `child_task` from `release_space`. -/
  | ended (space : ℕ) (child : Bool)
  | cleared (space : ℕ) (child : Bool)
  | unloaded (space : ℕ) (child : Bool)
  /-- `app_task` after `run_image`, before `wm::close_owned_by` -/
  | returned
  deriving DecidableEq

/-- The task runs a program. -/
def ImageStage.InProgram : ImageStage → Prop
  | .running _ | .forked => True
  | _ => False

instance (stage : ImageStage) : Decidable stage.InProgram :=
  match stage with
  | .running _ | .forked => instDecidableTrue
  | .outside | .created _ | .loaded _ | .ended _ _ | .cleared _ _ | .unloaded _ _ | .returned =>
    instDecidableFalse

/-- What a task has left to do of a call that ends a task. -/
inductive Duty
  | none
  /-- `terminate`: before `wm::close_owned_by`, `fd::close_all` and `destroy_user_space` -/
  | windows (victim space : ℕ)
  | files (victim space : ℕ)
  | memory (victim space : ℕ)
  /-- `terminate_current`, after `fd::close_all` -/
  | leaving
  deriving DecidableEq

inductive ProcessEvent
  | kernel (e : KernelEvent)
  /-- `run_image` begins with what `create_user_space` returns. -/
  | create (space : Option ℕ)
  /-- the next statement of the current task -/
  | go
  /-- The program ends: it exits, asks for another one, is killed by a fault or a signal, or cannot
  be loaded. -/
  | stop
  /-- `space` is what `clone_user_space` returns. -/
  | fork (space : Option ℕ)
  | kill (victim : ℕ)
  /-- `terminate_current` -/
  | leave

/-- The tasks, and the programs that they run. -/
structure Process where
  kernel : Kernel
  stage : ℕ → ImageStage
  duty : ℕ → Duty
  created : ℕ → ℕ
  destroyed : ℕ → ℕ

namespace Process

def boot : Process := ⟨Kernel.boot, fun _ => .outside, fun _ => .none, fun _ => 0, fun _ => 0⟩

/-- The current task. -/
def current (p : Process) : ℕ := p.kernel.sched.current

/-- The address space that the scheduler has for a task. -/
def space (p : Process) (i : ℕ) : ℕ := (p.kernel.sched.tasks i).addressSpace

/-- The space has been created and not destroyed. -/
def Live (p : Process) (space : ℕ) : Prop := p.destroyed space < p.created space

instance (p : Process) (space : ℕ) : Decidable (p.Live space) := inferInstanceAs (Decidable (_ < _))

def withKernel (p : Process) (k : Kernel) : Process := { p with kernel := k }

/-- The current task gets to another stage. -/
def setStage (p : Process) (stage : ImageStage) : Process :=
  { p with stage := Function.update p.stage p.current stage }

def setDuty (p : Process) (duty : Duty) : Process :=
  { p with duty := Function.update p.duty p.current duty }

/-- `create_user_space` returns `space`. -/
def create (p : Process) (space : ℕ) : Process :=
  { p with created := Function.update p.created space (p.created space + 1) }

/-- `destroy_user_space`. -/
def destroy (p : Process) (space : ℕ) : Process :=
  if space = 0 then p
  else { p with destroyed := Function.update p.destroyed space (p.destroyed space + 1) }

/-- `switch_to`. -/
def switchTo (p : Process) (space : ℕ) : Process :=
  p.withKernel (p.kernel.withSched { p.kernel.sched with cr3 := space })

/-- `set_address_space`. -/
def setSpace (p : Process) (i space : ℕ) : Process :=
  p.withKernel (p.kernel.withSched
    (p.kernel.sched.modifyTask i fun t => { t with addressSpace := space }))

/-- A new task begins. -/
def arrive (p : Process) (i : ℕ) (stage : ImageStage) : Process :=
  { p with stage := Function.update p.stage i stage, duty := Function.update p.duty i .none }

/-- The slot of a task that the event creates. -/
def spawned (p : Process) : ProcessEvent → Option ℕ
  | .kernel (.call (.spawn waitable)) => (p.kernel.sched.spawnInner waitable).1
  | .fork (some _) => if p.space p.current = 0 then none else (p.kernel.sched.spawnInner true).1
  | _ => none

/-- `fork`. -/
def fork (p : Process) (space : Option ℕ) : Process :=
  if p.space p.current = 0 then p
  else
    match space with
    | none => p
    | some space =>
      let p' := (p.create space).withKernel (p.kernel.after (.call (.spawn true)))
      match (p.kernel.sched.spawnInner true).1 with
      | none => p'.destroy space
      | some child => (p'.arrive child .forked).setSpace child space

/-- The first part of `terminate`. -/
def kill (p : Process) (victim : ℕ) : Process :=
  match p.kernel.sched.terminate victim with
  | none => p
  | some (space, _) =>
    (p.withKernel (p.kernel.after (.call (.terminate victim)))).setDuty (.windows victim space)

/-- The next statement of `run_image`, `child_task` and `app_task`. -/
def goOn (p : Process) : Process :=
  match p.stage p.current with
  | .created space => (p.setStage (.loaded space)).switchTo space
  | .loaded space => (p.setStage (.running (some space))).setSpace p.current space
  | .ended space child => (p.setStage (.cleared space child)).setSpace p.current 0
  | .cleared space child => (p.setStage (.unloaded space child)).switchTo 0
  | .unloaded space child => (p.setStage (if child then .outside else .returned)).destroy space
  | .returned => p.setStage .outside
  | _ => p

/-- The next statement of the current task. -/
def go (p : Process) : Process :=
  match p.duty p.current with
  | .none => p.goOn
  | .windows victim space => p.setDuty (.files victim space)
  | .files victim space => p.setDuty (.memory victim space)
  | .memory _ space => if space = 0 then p.setDuty .none else (p.setDuty .none).destroy space
  | .leaving => p.withKernel (p.kernel.after (.call .exit))

/-- The end of the program. -/
def stop (p : Process) : Process :=
  match p.stage p.current with
  | .running (some space) => p.setStage (.ended space false)
  | .running none => p.setStage .returned
  | .forked =>
    if p.space p.current = 0 then p.setStage .outside
    else p.setStage (.ended (p.space p.current) true)
  | _ => p

def after (p : Process) : ProcessEvent → Process
  | .kernel e =>
    match p.spawned (.kernel e) with
    | none => p.withKernel (p.kernel.after e)
    | some child => (p.withKernel (p.kernel.after e)).arrive child .outside
  | .create none => p.setStage (.running none)
  | .create (some space) => (p.setStage (.created space)).create space
  | .go => p.go
  | .stop => p.stop
  | .fork space => p.fork space
  | .kill victim => p.kill victim
  | .leave => p.setDuty .leaving

/-- The call is one part of its own here. Forks, kills and exits are not. -/
def Plain : TaskCall → Prop
  | .spawn true | .terminate _ | .exit => False
  | _ => True

instance (c : TaskCall) : Decidable (Plain c) :=
  match c with
  | .spawn true | .terminate _ | .exit => instDecidableFalse
  | .spawn false | .yield | .sleep _ | .waitForIo _ | .waitpid _ _ | .setNice _ _
  | .setExitCode _ => instDecidableTrue

/-- The current task is in no call of the scheduler, and in none that ends a task. -/
def Idle (p : Process) : Prop :=
  p.kernel.point p.current = .free ∧ p.duty p.current = .none

instance (p : Process) : Decidable p.Idle := inferInstanceAs (Decidable (_ ∧ _))

/-- `create_user_space` may return this: the frame is not in use. -/
def Fresh (p : Process) : Option ℕ → Prop
  | none => True
  | some space => space ≠ 0 ∧ p.created space = p.destroyed space

instance (p : Process) (space : Option ℕ) : Decidable (p.Fresh space) :=
  match space with
  | none => instDecidableTrue
  | some _ => inferInstanceAs (Decidable (_ ∧ _))

def Enabled (p : Process) : ProcessEvent → Prop
  | .kernel (.call c) => p.Idle ∧ Plain c
  | .kernel e => p.kernel.Enabled e
  | .create space => p.Idle ∧ p.stage p.current = .outside ∧ p.Fresh space
  | .go => p.kernel.point p.current = .free ∧ (p.duty p.current = .leaving → p.current ≠ idleTask)
  | .stop => p.Idle
  | .fork space => p.Idle ∧ (p.stage p.current).InProgram ∧ p.Fresh space
  | .kill _ => p.Idle
  | .leave => p.Idle ∧ p.stage p.current = .outside ∧ p.current ≠ idleTask

instance (p : Process) (e : ProcessEvent) : Decidable (p.Enabled e) :=
  match e with
  | .kernel (.call _) | .create _ | .go | .fork _ | .leave => inferInstanceAs (Decidable (_ ∧ _))
  | .kernel .tick | .kernel .preempt | .kernel .diskIrq => instDecidableTrue
  | .kernel (.proceed _) => inferInstanceAs (Decidable (_ ≠ _))
  | .stop | .kill _ => inferInstanceAs (Decidable (Idle _))

end Process

/-- One step. -/
def ProcessStep (p : Process) (e : ProcessEvent) (p' : Process) : Prop :=
  p.Enabled e ∧ p' = p.after e

end Tcmk
