import Tcmk.Process.Lifetime
import Tcmk.Sched.Waiting

/-!
# Exit codes (`exit_current_task`, `raise`, `exceptions::handle` and `child_task`)

A forked child ends by an exit or a signal that it takes itself, which go through
`exit_current_task` and leave an exit code, or by a fault or a SIGKILL of another task, which leave
the code that the task was created with. `Endings` records which of these came first
(`exit_status_iff`).
-/

namespace Tcmk

open Lib

/-- `SIGKILL`. -/
def sigkill : UInt32 := 9

/-- `MAX_SIGNAL`. -/
def maxSignal : UInt32 := 31

/-- What `store_status` writes for an exit code. -/
def storeStatus (code : UInt32) : UInt32 := (code &&& 0xFF) <<< 8

/-- What ends the program of a task. -/
inductive Ending
  | exit (code : UInt32)
  /-- the default action of a signal, or SIGKILL sent by the task itself -/
  | signal (signo : UInt32)
  /-- SIGKILL sent by another task -/
  | sigkill
  /-- a CPU exception in Ring 3 -/
  | exception
  /-- The child asks for another program, which `child_task` does not run. -/
  | exec
  deriving DecidableEq

inductive EndingEvent
  /-- a step that does not end a program of a child -/
  | process (e : ProcessEvent)
  /-- `exit_current_task(code)` for an exit -/
  | exit (code : UInt32)
  /-- `exit_current_task(128 + signo)` -/
  | signal (signo : UInt32)
  | fault
  | exec
  /-- `raise(victim, SIGKILL)` -/
  | sigkill (victim : ℕ)

/-- The tasks, and what has ended the last program in each slot. -/
structure Endings where
  process : Process
  ending : ℕ → Option Ending

namespace Endings

def boot : Endings := ⟨Process.boot, fun _ => none⟩

def current (s : Endings) : ℕ := s.process.current

def tasks (s : Endings) : ℕ → Task := s.process.kernel.sched.tasks

/-- Record what ends a program, if nothing has done so before. -/
def mark (s : Endings) (i : ℕ) (ending : Ending) : ℕ → Option Ending :=
  if s.ending i = none then Function.update s.ending i (some ending) else s.ending

/-- `leave_user_mode` of a program with this exit code. -/
def exitWith (s : Endings) (code : UInt32) : Process :=
  (s.process.after (.kernel (.call (.setExitCode code)))).after .stop

def after (s : Endings) : EndingEvent → Endings
  | .process e =>
    ⟨s.process.after e,
      match s.process.spawned e with
      | none => s.ending
      | some child => Function.update s.ending child none⟩
  | .exit code => ⟨s.exitWith code, s.mark s.current (.exit code)⟩
  | .signal signo => ⟨s.exitWith (128 + signo), s.mark s.current (.signal signo)⟩
  | .fault => ⟨s.process.after .stop, s.mark s.current .exception⟩
  | .exec =>
    ⟨s.process.after .stop,
      if s.process.stage s.current = .forked then s.mark s.current .exec else s.ending⟩
  | .sigkill victim =>
    ⟨s.process.after (.kill victim),
      if (s.process.kernel.sched.terminate victim).isSome then s.mark victim .sigkill
      else s.ending⟩

/-- The event is none of those that end a program. A child loads no image. -/
def Plain (s : Endings) : ProcessEvent → Prop
  | .create _ => (s.tasks s.current).waitable = false
  | .stop => s.process.stage s.current ≠ .forked
  | .kill _ => False
  | .kernel (.call (.setExitCode _)) => False
  | _ => True

instance (s : Endings) (e : ProcessEvent) : Decidable (s.Plain e) := by
  unfold Plain
  split <;> infer_instance

/-- The current task is in its program, or in a system call of it. -/
def InProgram (s : Endings) : Prop := s.process.Idle ∧ (s.process.stage s.current).InProgram

instance (s : Endings) : Decidable s.InProgram := inferInstanceAs (Decidable (_ ∧ _))

def Enabled (s : Endings) : EndingEvent → Prop
  | .process e => s.process.Enabled e ∧ s.Plain e
  | .exit _ | .fault | .exec => s.InProgram
  | .signal signo => s.InProgram ∧ 1 ≤ signo ∧ signo ≤ maxSignal
  | .sigkill victim => s.process.Idle ∧ victim ≠ s.current

instance (s : Endings) (e : EndingEvent) : Decidable (s.Enabled e) :=
  match e with
  | .process _ | .signal _ | .sigkill _ => inferInstanceAs (Decidable (_ ∧ _))
  | .exit _ | .fault | .exec => inferInstanceAs (Decidable (InProgram _))

/-- The child and the exit code that a `waitpid` returns in this step. -/
def collected (s : Endings) : EndingEvent → Option (ℕ × UInt32)
  | .process (.kernel e) => s.process.kernel.collected e
  | _ => none

end Endings

/-- One step. -/
def EndingStep (s : Endings) (e : EndingEvent) (s' : Endings) : Prop :=
  s.Enabled e ∧ s' = s.after e

/-- The program has ended. -/
def ImageStage.Over : ImageStage → Prop
  | .outside | .ended _ _ | .cleared _ _ | .unloaded _ _ | .returned => True
  | _ => False

namespace Ending

/-- The status tells how the program has ended. -/
def Shown : Ending → UInt32 → Prop
  | .exit code, status => status = (code % 256) <<< 8
  | .signal signo, status => status = (128 + signo) <<< 8
  | .sigkill, status => status = (128 + Tcmk.sigkill) <<< 8
  | .exception, status => status ≠ storeStatus 0
  | .exec, _ => True

/-- The program has been ended by another task, or by the processor. -/
def Forced : Ending → Prop
  | .sigkill | .exception => True
  | _ => False

/-- The exit code of a task that has ended so. -/
def Leaves : Ending → UInt32 → Prop
  | .exit code, left => left = code
  | .signal signo, left => signo ≤ maxSignal ∧ left = 128 + signo
  | _, left => left = 0

variable {ending : Ending} {code : UInt32}

theorem storeStatus_exit (code : UInt32) : storeStatus code = (code % 256) <<< 8 := by
  have hmod : code &&& 0xFF = code % 256 := by
    apply UInt32.toNat_inj.1
    rw [UInt32.toNat_and, UInt32.toNat_mod]
    exact Nat.and_two_pow_sub_one_eq_mod _ 8
  rw [storeStatus, hmod]

theorem storeStatus_signal {signo : UInt32} (hle : signo ≤ maxSignal) :
    storeStatus (128 + signo) = (128 + signo) <<< 8 := by
  have hmod : (128 + signo) % 256 = 128 + signo := by
    have hle' : signo.toNat ≤ 31 := UInt32.le_iff_toNat_le.1 hle
    apply UInt32.toNat_inj.1
    rw [UInt32.toNat_mod, UInt32.toNat_add]
    simp only [UInt32.reduceToNat]
    omega
  rw [storeStatus_exit, hmod]

/-- The status is right unless the program was forced to end. -/
theorem Leaves.shown_iff (h : ending.Leaves code) :
    ending.Shown (storeStatus code) ↔ ¬ ending.Forced := by
  cases ending with
  | exit n =>
    obtain rfl : code = n := h
    exact iff_of_true (storeStatus_exit code) id
  | signal signo =>
    obtain ⟨hle, rfl⟩ := h
    exact iff_of_true (storeStatus_signal hle) id
  | sigkill =>
    obtain rfl : code = 0 := h
    have hne : storeStatus 0 ≠ (128 + Tcmk.sigkill) <<< 8 := by decide
    exact iff_of_false hne (not_not.2 trivial)
  | exception =>
    obtain rfl : code = 0 := h
    exact iff_of_false (not_not.2 rfl) (not_not.2 trivial)
  | exec => exact iff_of_true trivial id

end Ending

/-! ## What a step does to a task -/

namespace Sched

variable {s : Sched} {i : ℕ} {waitable : Bool}

theorem spawnInner_exitCode (hindex : (s.spawnInner waitable).1 = some i) :
    ((s.spawnInner waitable).2.tasks i).exitCode = 0 := by
  have hfill : ∀ (t : Sched) (j : ℕ), (t.fillSlot j waitable).1 = some i →
      ((t.fillSlot j waitable).2.tasks i).exitCode = 0 := fun t j hj => by
    unfold fillSlot at hj ⊢
    split at hj
    · cases hj
    · obtain rfl := Option.some.inj hj
      simp only [Function.update_self]
  unfold spawnInner at hindex ⊢
  split at hindex
  · exact hfill _ _ hindex
  · split_ifs at hindex ⊢
    exact hfill _ _ hindex

end Sched

namespace Kernel

variable {k k' : Kernel} {e : KernelEvent} {i : ℕ}

/-- The exit code of a task in use is changed by `set_current_exit_code` only. -/
theorem exitCode_kept (hk : k.Sound) (hstep : KernelStep k e k')
    (hcode : ∀ code, e ≠ .call (.setExitCode code)) (hused : (k.sched.tasks i).state ≠ .unused) :
    (k'.sched.tasks i).exitCode = (k.sched.tasks i).exitCode := by
  have hmodify : ∀ (j : ℕ) (f : Task → Task), (∀ t, (f t).exitCode = t.exitCode) →
      ((k.sched.modifyTask j f).tasks i).exitCode = (k.sched.tasks i).exitCode :=
    fun j f hf => Sched.modifyTask_field k.sched j i f Task.exitCode hf
  obtain ⟨henabled, rfl⟩ := hstep
  cases e with
  | tick => exact (Sched.still_onTimerTick k.sched i).exitCode
  | preempt => exact (Sched.still_preemptFromTimer k.sched i).exitCode
  | diskIrq => exact (Sched.still_wakeIoWaiters k.sched i).exitCode
  | call c =>
    cases c with
    | spawn waitable =>
      have hkept : ((k.sched.spawnInner waitable).2.tasks i).exitCode =
          (k.sched.tasks i).exitCode := by
        rcases Sched.spawnInner_tasks hk.sched.beyond waitable i with ⟨heq, -⟩ | ⟨hold, -⟩
        · rw [heq]
        · exact absurd hold hused
      simp only [after, afterCall]
      split <;> rename_i heq <;> rw [heq] at hkept <;> exact hkept
    | yield => exact (Sched.still_yieldNow k.sched i).exitCode
    | sleep ticks =>
      simp only [after, afterCall]
      split_ifs
      · exact (Sched.still_yieldNow k.sched i).exitCode
      · exact (Sched.still_fallAsleep k.sched _ i).exitCode
    | waitForIo timeout =>
      simp only [after, afterCall]
      split_ifs <;> rfl
    | waitpid pid nohang =>
      have hwaits := k.sched.waits_waitpid pid nohang
      generalize hr : k.sched.waitpid pid nohang = r at hwaits
      obtain ⟨w, s⟩ := r
      simp only [after, afterCall, hr]
      cases hwaits with
      | @collect child _ => exact (Sched.still_releaseSlot k.sched child i).exitCode
      | @block child _ =>
        exact hmodify _ (fun t => { t with waitFor := child + 1, state := .waiting }) fun _ => rfl
      | _ => rfl
    | setNice index value =>
      simp only [after, afterCall, withSched]
      rcases k.sched.setNice_getD index value with heq | heq <;> rw [heq]
      exact hmodify _ _ fun _ => rfl
    | setExitCode code => exact absurd rfl (hcode code)
    | terminate index =>
      simp only [after, afterCall]
      split
      · rename_i heq
        exact (Sched.still_terminate heq i).exitCode
      · rfl
    | exit => exact (Sched.still_terminateCurrent k.sched i).exitCode
  | proceed ready =>
    simp only [after, afterProceed]
    cases k.point k.sched.current with
    | free => rfl
    | awake => exact hmodify _ (fun t => { t with state := .running }) fun _ => rfl
    | ioArm deadline =>
      simp only
      split_ifs
      · rfl
      · exact hmodify _ (fun t => { t with state := .ioWait }) fun _ => rfl
    | childCheck child =>
      simp only
      split_ifs
      · exact (Sched.still_releaseSlot k.sched child i).exitCode
      · rfl
    | _ =>
      simp only
      first
        | exact (Sched.still_yieldNow k.sched i).exitCode
        | split_ifs <;> rfl

end Kernel

namespace Process

variable {p p' : Process} {e : ProcessEvent} {i : ℕ}

/-- What a step that changes no exit code does to the task in slot `i`. -/
inductive Fate (p : Process) (e : ProcessEvent) (p' : Process) (i : ℕ) : Prop
  | born (hspawned : p.spawned e = some i) (hnew : (p'.kernel.sched.tasks i).state ≠ .terminated)
      (hcode : (p'.kernel.sched.tasks i).exitCode = 0)
      (hstage : (p'.kernel.sched.tasks i).waitable = true → p'.stage i = .forked)
  | stays (hspawned : p.spawned e ≠ some i)
      (hused : (p'.kernel.sched.tasks i).state ≠ .unused →
        (p.kernel.sched.tasks i).state ≠ .unused ∧
          (p'.kernel.sched.tasks i).waitable = (p.kernel.sched.tasks i).waitable ∧
          (p'.kernel.sched.tasks i).exitCode = (p.kernel.sched.tasks i).exitCode)
      (hended : (p'.kernel.sched.tasks i).state = .terminated →
        (p.kernel.sched.tasks i).state = .terminated ∨
          e = .kill i ∧ (p.kernel.sched.terminate i).isSome = true ∨ p.stage i = .outside)
      (halive : (p'.kernel.sched.tasks i).Alive → (p.kernel.sched.tasks i).Alive)
      (hstage : p.stage i = .forked → p'.stage i = .forked ∨ i = p.current ∧ e = .stop)
      (hover : (p.stage i).Over →
        (p'.stage i).Over ∨ i = p.current ∧ ∃ space, e = .create space)

/-- The step changes no more of the task than where it lives. -/
theorem Fate.same (space : ℕ) (hspawned : p.spawned e ≠ some i)
    (htask : p'.kernel.sched.tasks i = { p.kernel.sched.tasks i with addressSpace := space })
    (hstage : p.stage i = .forked → p'.stage i = .forked ∨ i = p.current ∧ e = .stop)
    (hover : (p.stage i).Over → (p'.stage i).Over ∨ i = p.current ∧ ∃ space, e = .create space) :
    p.Fate e p' i := by
  refine .stays hspawned (fun hused => ?_) (fun hended => .inl ?_) (fun halive => ?_) hstage hover
  · rw [htask] at hused ⊢
    exact ⟨hused, rfl, rfl⟩
  · rw [htask] at hended
    exact hended
  · rw [htask] at halive
    exact halive

/-- The task stays at its stage. -/
theorem Fate.still (space : ℕ) (hspawned : p.spawned e ≠ some i)
    (htask : p'.kernel.sched.tasks i = { p.kernel.sched.tasks i with addressSpace := space })
    (hstage : p'.stage i = p.stage i) : p.Fate e p' i :=
  .same space hspawned htask (fun h => .inl (hstage.trans h)) fun h => .inl (hstage ▸ h)

/-- A step of the scheduler. -/
theorem Fate.kernel (e' : KernelEvent) (hk : p.kernel.Sound)
    (hstep : KernelStep p.kernel e' p'.kernel) (hcode : ∀ code, e' ≠ .call (.setExitCode code))
    (hspawned : p.spawned e ≠ some i)
    (hnew : ∀ waitable, e' = .call (.spawn waitable) →
      (p.kernel.sched.spawnInner waitable).1 ≠ some i)
    (hends : p.kernel.Ends e' i → e = .kill i ∧ (p.kernel.sched.terminate i).isSome = true ∨
      p.stage i = .outside) (hstage : p'.stage = p.stage) : p.Fate e p' i := by
  have hchange := Kernel.change hk hstep i
  refine .stays hspawned (fun hused => ?_) (fun hended => ?_) (fun halive => ?_)
    (fun h => .inl (hstage ▸ h)) fun h => .inl (hstage ▸ h)
  · rcases hchange.used hused with ⟨hold, -, hwaitable⟩ | ⟨waitable, he, hindex, -⟩
    · exact ⟨hold, hwaitable, Kernel.exitCode_kept hk hstep hcode hold⟩
    · exact absurd hindex (hnew waitable he)
  · obtain ⟨-, -, hwhy⟩ := hchange.terminated hended
    exact hwhy.imp id fun h => hends h.1
  · refine (hchange.alive halive).resolve_right fun h => ?_
    obtain ⟨waitable, he, hindex⟩ := h
    exact hnew waitable he hindex

/-- A new task. -/
theorem Fate.spawn (waitable : Bool) (hk : p.kernel.Sound)
    (hindex : (p.kernel.sched.spawnInner waitable).1 = some i) (hspawned : p.spawned e = some i)
    {space : ℕ} (htask : p'.kernel.sched.tasks i =
      { (p.kernel.sched.spawnInner waitable).2.tasks i with addressSpace := space })
    (hstage : waitable = true → p'.stage i = .forked) : p.Fate e p' i := by
  obtain ⟨-, -, hready, -, hwaitable⟩ :=
    (Sched.spawnInner_tasks hk.sched.beyond waitable i).resolve_left fun h => h.2 hindex
  refine .born hspawned ?_ ?_ fun h => hstage ?_
  · rw [htask, show (_ : TaskState) = TaskState.ready from hready]
    nofun
  · rw [htask]
    exact Sched.spawnInner_exitCode hindex
  · rw [htask] at h
    exact hwaitable.symm.trans h

/-- A new task leaves the others alone. -/
theorem Fate.beside (waitable : Bool) (hk : p.kernel.Sound)
    (hindex : (p.kernel.sched.spawnInner waitable).1 ≠ some i) (hspawned : p.spawned e ≠ some i)
    {t : Task} (ht : (p.kernel.sched.spawnInner waitable).2.tasks i = t)
    (htask : p'.kernel.sched.tasks i = t) (hstage : p'.stage i = p.stage i) : p.Fate e p' i := by
  obtain ⟨heq, -⟩ := (Sched.spawnInner_tasks hk.sched.beyond waitable i).resolve_right fun h =>
    hindex h.2.1
  exact .still (p.space i) hspawned (htask.trans (ht.symm.trans heq)) hstage

theorem fate_kernel (h : p.Accounted) {e : KernelEvent} (henabled : p.Enabled (.kernel e))
    (hcode : ∀ code, e ≠ .call (.setExitCode code)) (i : ℕ) :
    p.Fate (.kernel e) (p.after (.kernel e)) i := by
  have hplain : ∀ c, e = .call c → Plain c := by
    rintro c rfl
    exact henabled.2
  have hkernel : p.kernel.Enabled e := by
    cases e with
    | call c => exact ⟨henabled.1.1, by rintro rfl; exact absurd (hplain _ rfl) id⟩
    | _ => exact henabled
  cases hspawned : p.spawned (.kernel e) with
  | none =>
    have hafter : p.after (.kernel e) = p.withKernel (p.kernel.after e) := by
      simp only [Process.after, hspawned]
    rw [hafter]
    refine .kernel e h.sound ⟨hkernel, rfl⟩ hcode (by rw [hspawned]; rintro ⟨⟩) ?_ ?_ rfl
    · rintro waitable rfl hindex
      cases hspawned.symm.trans hindex
    · rintro (rfl | ⟨rfl, -⟩)
      · exact absurd (hplain _ rfl) id
      · exact absurd (hplain _ rfl) id
  | some child =>
    obtain ⟨waitable, rfl⟩ : ∃ waitable, e = .call (.spawn waitable) := by
      cases e with
      | call c =>
        cases c with
        | spawn waitable => exact ⟨waitable, rfl⟩
        | _ => cases hspawned
      | _ => cases hspawned
    have hindex : (p.kernel.sched.spawnInner waitable).1 = some child := hspawned
    have hwaitable : waitable = false := by
      cases waitable with
      | false => rfl
      | true => exact absurd (hplain _ rfl) id
    have hafter : p.after (.kernel (.call (.spawn waitable))) =
        (p.withKernel (p.kernel.after (.call (.spawn waitable)))).arrive child .outside := by
      simp only [Process.after, hspawned]
    have htasks : ∀ j, (p.after (.kernel (.call (.spawn waitable)))).kernel.sched.tasks j =
        (p.kernel.sched.spawnInner waitable).2.tasks j := fun j => by
      rw [hafter, ← Accounted.after_spawn_sched]
      rfl
    by_cases hi : i = child
    · subst hi
      exact .spawn waitable h.sound hindex hspawned (htasks i)
        fun htrue => Bool.noConfusion (hwaitable.symm.trans htrue)
    · have hne : some child ≠ some i := fun heq => hi (Option.some.inj heq).symm
      refine .beside waitable h.sound (by rwa [hindex]) (by rwa [hspawned]) rfl
        (htasks i) ?_
      rw [hafter]
      exact Function.update_of_ne hi _ _

theorem fate_fork (h : p.Accounted) (space : Option ℕ) (i : ℕ) :
    p.Fate (.fork space) (p.after (.fork space)) i := by
  have hsame : p.spawned (.fork space) ≠ some i →
      p.after (.fork space) = p → p.Fate (.fork space) (p.after (.fork space)) i :=
      fun hnone heq => by
    rw [heq]
    exact .still (p.space i) hnone rfl rfl
  by_cases hzero : p.space p.current = 0
  · refine hsame ?_ (by simp only [Process.after, Process.fork, if_pos hzero])
    cases space <;> simp only [spawned, if_pos hzero] <;> rintro ⟨⟩
  · cases space with
    | none => exact hsame (by rintro ⟨⟩) (by simp only [Process.after, Process.fork, if_neg hzero])
    | some space =>
      have hspawned : p.spawned (.fork (some space)) = (p.kernel.sched.spawnInner true).1 :=
        if_neg hzero
      cases hindex : (p.kernel.sched.spawnInner true).1 with
      | none =>
        have hafter : p.after (.fork (some space)) = ((p.create space).withKernel
            (p.kernel.after (.call (.spawn true)))).destroy space := by
          simp only [Process.after, Process.fork, if_neg hzero, hindex]
        have htasks : (p.after (.fork (some space))).kernel.sched.tasks i =
            (p.kernel.sched.spawnInner true).2.tasks i := by
          rw [hafter, ← Accounted.after_spawn_sched]
          unfold destroy
          split_ifs <;> rfl
        refine .beside true h.sound (by rw [hindex]; rintro ⟨⟩)
          (by rw [hspawned, hindex]; rintro ⟨⟩) rfl htasks ?_
        rw [hafter]
        unfold destroy
        split_ifs <;> rfl
      | some child =>
        have hafter : p.after (.fork (some space)) = (((p.create space).withKernel
            (p.kernel.after (.call (.spawn true)))).arrive child .forked).setSpace child space := by
          simp only [Process.after, Process.fork, if_neg hzero, hindex]
        have htasks : (p.after (.fork (some space))).kernel.sched.tasks i =
            if i = child then
              { (p.kernel.sched.spawnInner true).2.tasks i with addressSpace := space }
            else (p.kernel.sched.spawnInner true).2.tasks i := by
          rw [hafter, ← Accounted.after_spawn_sched, setSpace_tasks]
          split_ifs with hi
          · rw [hi]
            rfl
          · rfl
        by_cases hi : i = child
        · subst hi
          rw [if_pos rfl] at htasks
          refine .spawn true h.sound hindex (hspawned.trans hindex) htasks fun _ => ?_
          rw [hafter]
          exact Function.update_self ..
        · rw [if_neg hi] at htasks
          have hne : some child ≠ some i := fun heq => hi (Option.some.inj heq).symm
          refine .beside true h.sound (by rwa [hindex])
            (by rwa [hspawned, hindex]) rfl htasks ?_
          rw [hafter]
          exact Function.update_of_ne hi _ _

theorem fate_go (h : p.Accounted) (henabled : p.Enabled .go) (i : ℕ) :
    p.Fate .go (p.after .go) i := by
  have hspawned : p.spawned .go ≠ some i := by rintro ⟨⟩
  obtain ⟨hfree, hidle⟩ := henabled
  have hsame : ∀ {q : Process} (space : ℕ), (q.kernel.sched.tasks i =
      { p.kernel.sched.tasks i with addressSpace := space }) → q.stage = p.stage →
      p.Fate .go q i := fun space htask hstage =>
    .still space hspawned htask (congrFun hstage i)
  simp only [Process.after, Process.go]
  cases hduty : p.duty p.current with
  | leaving =>
    have houtside := h.leaving _ hduty
    refine .kernel (.call .exit) h.sound ⟨⟨hfree, fun _ => hidle hduty⟩, rfl⟩
      (by rintro _ ⟨⟩) hspawned (by rintro _ ⟨⟩) ?_ rfl
    intro hends
    have hi : i = p.current := (hends.resolve_left (by rintro ⟨⟩)).2
    exact .inr (hi ▸ houtside)
  | windows victim space => exact hsame (p.space i) rfl rfl
  | files victim space => exact hsame (p.space i) rfl rfl
  | memory victim space =>
    simp only
    unfold destroy
    split_ifs <;> exact hsame (p.space i) rfl rfl
  | none =>
    -- The current task is at a stage of its own, and no child is there.
    have hmoved : ∀ (q : Process) (space : ℕ) (stage : ImageStage),
        (q.kernel.sched.tasks i = { p.kernel.sched.tasks i with addressSpace := space }) →
        q.stage = Function.update p.stage p.current stage → p.stage p.current ≠ .forked →
        ((p.stage p.current).Over → stage.Over) → p.Fate .go q i :=
      fun q space stage htask hstage hne hover => by
        by_cases hi : i = p.current
        · subst hi
          refine .same space hspawned htask (fun h => absurd h hne) fun h => .inl ?_
          rw [hstage, Function.update_self]
          exact hover h
        · exact .still space hspawned htask (by rw [hstage, Function.update_of_ne hi])
    have hspaces : ∀ {q : Process} {space : ℕ}, q.kernel = p.kernel →
        (q.setSpace p.current space).kernel.sched.tasks i = { p.kernel.sched.tasks i with
          addressSpace := if i = p.current then space else p.space i } := fun {q space} hq => by
      rw [setSpace_tasks, hq]
      split_ifs with hi
      · rw [hi]
      · rfl
    simp only [Process.goOn]
    cases hstage : p.stage p.current with
    | created space =>
      exact hmoved _ (p.space i) _ rfl rfl (by rw [hstage]; rintro ⟨⟩) (by rw [hstage]; exact id)
    | loaded space =>
      exact hmoved _ _ _ (hspaces rfl) rfl (by rw [hstage]; rintro ⟨⟩) (by rw [hstage]; exact id)
    | ended space child =>
      exact hmoved _ _ _ (hspaces rfl) rfl (by rw [hstage]; rintro ⟨⟩) (by rw [hstage]; exact id)
    | cleared space child =>
      exact hmoved _ (p.space i) _ rfl rfl (by rw [hstage]; rintro ⟨⟩) (by rw [hstage]; exact id)
    | unloaded space child =>
      simp only
      unfold destroy
      split_ifs <;> exact hmoved _ (p.space i) _ rfl rfl (by rw [hstage]; rintro ⟨⟩)
        (by rw [hstage]; exact id)
    | returned =>
      exact hmoved _ (p.space i) _ rfl rfl (by rw [hstage]; rintro ⟨⟩) (by rw [hstage]; exact id)
    | _ => exact hsame (p.space i) rfl rfl

theorem fate_kill (h : p.Accounted) (hidle : p.Idle) (victim i : ℕ) :
    p.Fate (.kill victim) (p.after (.kill victim)) i := by
  simp only [Process.after, Process.kill]
  cases hkill : p.kernel.sched.terminate victim with
  | none => exact .still (p.space i) (by rintro ⟨⟩) rfl rfl
  | some r =>
    refine .kernel (.call (.terminate victim)) h.sound ⟨⟨hidle.1, by rintro ⟨⟩⟩, rfl⟩
      (by rintro _ ⟨⟩) (by rintro ⟨⟩) (by rintro _ ⟨⟩) ?_ rfl
    rintro (heq | ⟨⟨⟩, -⟩)
    obtain rfl : victim = i := by simpa using heq
    exact .inl ⟨rfl, by rw [hkill]; rfl⟩

theorem stop_kernel (p : Process) : p.stop.kernel = p.kernel := by
  unfold Process.stop
  split <;> (try split_ifs) <;> rfl

theorem stop_stage (p : Process) (hne : i ≠ p.current) : p.stop.stage i = p.stage i := by
  unfold Process.stop
  split <;> (try split_ifs) <;> first
    | rfl
    | exact Function.update_of_ne hne _ _

/-- A program that has been stopped is over, and stays so. -/
theorem stop_over (h : (p.stage p.current).Over ∨ (p.stage p.current).InProgram) :
    (p.stop.stage p.current).Over := by
  unfold Process.stop
  cases hstage : p.stage p.current with
  | running space =>
    cases space <;> simp only [setStage_stage, if_true] <;> trivial
  | forked =>
    simp only
    split_ifs <;> simp only [setStage_stage, if_true] <;> trivial
  | created space =>
    rw [hstage] at h
    exact (h.elim id id).elim
  | loaded space =>
    rw [hstage] at h
    exact (h.elim id id).elim
  | _ =>
    simp only [hstage]
    trivial

/-- Every step. -/
theorem fate (h : p.Accounted) (hstep : ProcessStep p e p')
    (hcode : ∀ code, e ≠ .kernel (.call (.setExitCode code))) (i : ℕ) : p.Fate e p' i := by
  obtain ⟨henabled, rfl⟩ := hstep
  cases e with
  | kernel e => exact fate_kernel h henabled (fun code heq => hcode code (congrArg _ heq)) i
  | create space =>
    have hstage : p.stage p.current = .outside := henabled.2.1
    have hother : ∀ stage, p.stage i = .forked →
        Function.update p.stage p.current stage i = .forked := fun stage hi => by
      rw [Function.update_of_ne, hi]
      rintro rfl
      exact absurd (hi.symm.trans hstage) nofun
    have hover : ∀ stage, (p.stage i).Over →
        (Function.update p.stage p.current stage i).Over ∨
          i = p.current ∧ ∃ s, ProcessEvent.create space = .create s := fun stage hi => by
      by_cases hcurrent : i = p.current
      · exact .inr ⟨hcurrent, space, rfl⟩
      · rw [Function.update_of_ne hcurrent]
        exact .inl hi
    cases space with
    | none => exact .same (p.space i) nofun rfl (fun hi => .inl (hother _ hi)) (hover _)
    | some space => exact .same (p.space i) nofun rfl (fun hi => .inl (hother _ hi)) (hover _)
  | go => exact fate_go h henabled i
  | stop =>
    have htask : p.stop.kernel.sched.tasks i =
        { p.kernel.sched.tasks i with addressSpace := p.space i } := by
      rw [stop_kernel]
      rfl
    by_cases hcurrent : i = p.current
    · exact .same (p.space i) nofun htask (fun _ => .inr ⟨hcurrent, rfl⟩) fun hi =>
        .inl (hcurrent ▸ stop_over (.inl (hcurrent ▸ hi)))
    · exact .still (p.space i) nofun htask (stop_stage p hcurrent)
  | fork space => exact fate_fork h space i
  | kill victim => exact fate_kill h henabled victim i
  | leave => exact .still (p.space i) nofun rfl rfl

end Process

/-! ## The invariant -/

namespace Endings

variable {s s' : Endings} {e : EndingEvent} {es : List EndingEvent} {i : ℕ}

/-- The exit code of task `i` goes with what has ended its program. -/
def Tells (s : Endings) (i : ℕ) : Prop :=
  match s.ending i with
  | none => s.process.stage i = .forked ∧ (s.tasks i).exitCode = 0 ∧ (s.tasks i).state ≠ .terminated
  | some ending =>
    ending.Leaves (s.tasks i).exitCode ∧ ((s.tasks i).Alive → (s.process.stage i).Over)

theorem tells_none (hnone : s.ending i = none) : s.Tells i ↔
    s.process.stage i = .forked ∧ (s.tasks i).exitCode = 0 ∧
      (s.tasks i).state ≠ .terminated := by
  simp only [Tells, hnone]

theorem tells_some {ending : Ending} (hsome : s.ending i = some ending) : s.Tells i ↔
    ending.Leaves (s.tasks i).exitCode ∧ ((s.tasks i).Alive → (s.process.stage i).Over) := by
  simp only [Tells, hsome]

/-- The exit code of every forked child. -/
structure Known (s : Endings) : Prop where
  accounted : s.process.Accounted
  tells : ∀ i, (s.tasks i).state ≠ .unused → (s.tasks i).waitable = true → s.Tells i

theorem mark_of_none {ending : Ending} (hnone : s.ending i = none) :
    s.mark i ending i = some ending := by
  rw [mark, if_pos hnone, Function.update_self]

theorem mark_of_some {j : ℕ} {ending ending' : Ending} (hsome : s.ending i = some ending) :
    s.mark j ending' i = some ending := by
  unfold mark
  split_ifs with hj
  · rw [Function.update_of_ne, hsome]
    rintro rfl
    cases hsome.symm.trans hj
  · exact hsome

theorem mark_of_ne {j : ℕ} {ending : Ending} (hne : i ≠ j) : s.mark j ending i = s.ending i := by
  unfold mark
  split_ifs
  · exact Function.update_of_ne hne _ _
  · rfl

/-- What a step that changes no exit code has to record for task `i`. -/
structure Records (s : Endings) (e : ProcessEvent) (s' : Endings) (i : ℕ) : Prop where
  born : s.process.spawned e = some i → s'.ending i = none
  first : s.process.spawned e ≠ some i → ∀ ending, s.ending i = some ending →
    s'.ending i = some ending
  child : s.process.spawned e ≠ some i → s.ending i = none → s.process.stage i = .forked →
    (∃ ending, s'.ending i = some ending ∧ ending.Leaves 0 ∧
      ((s'.tasks i).Alive → (s'.process.stage i).Over)) ∨
    s'.ending i = none ∧ ¬ (i = s.current ∧ e = .stop) ∧
      ¬ (e = .kill i ∧ (s.process.kernel.sched.terminate i).isSome = true)
  create : (s.tasks i).waitable = true → ¬ (i = s.current ∧ ∃ space, e = .create space)

theorem Known.records (h : s.Known) {e : ProcessEvent} (hfate : s.process.Fate e s'.process i)
    (hrecords : s.Records e s' i) (hused : (s'.tasks i).state ≠ .unused)
    (hwaitable : (s'.tasks i).waitable = true) : s'.Tells i := by
  cases hfate with
  | born hspawned hlive hcode hstage =>
    exact (tells_none (hrecords.born hspawned)).2 ⟨hstage hwaitable, hcode, hlive⟩
  | stays hspawned hold hended halive hstage hover =>
    obtain ⟨hused', hwaitable', hcode⟩ := hold hused
    have hcode : (s'.tasks i).exitCode = (s.tasks i).exitCode := hcode
    have hchild := hwaitable'.symm.trans hwaitable
    have htells := h.tells i hused' hchild
    cases hending : s.ending i with
    | some ending =>
      obtain ⟨hleaves, hpast⟩ := (tells_some hending).1 htells
      refine (tells_some (hrecords.first hspawned ending hending)).2 ⟨hcode ▸ hleaves, fun hi => ?_⟩
      exact (hover (hpast (halive hi))).resolve_right (hrecords.create hchild)
    | none =>
      obtain ⟨hforked, hzero, hlive⟩ := (tells_none hending).1 htells
      rcases hrecords.child hspawned hending hforked with
        ⟨ending, hnew, hleaves, hpast⟩ | ⟨hnew, hstop, hkill⟩
      · rw [tells_some hnew, hcode, hzero]
        exact ⟨hleaves, hpast⟩
      · refine (tells_none hnew).2 ⟨(hstage hforked).resolve_right hstop, hcode.trans hzero, ?_⟩
        intro hterminated
        rcases hended hterminated with hold | hkilled | houtside
        · exact hlive hold
        · exact hkill hkilled
        · cases hforked.symm.trans houtside

/-- A program that ends without an exit code. -/
theorem records_stop (ending : Ending) (hleaves : ending.Leaves 0)
    (hin : (s.process.stage s.current).InProgram) (hprocess : s'.process = s.process.stop)
    (hcurrent : s.ending s.current = none → s.process.stage s.current = .forked →
      s'.ending s.current = some ending)
    (hfirst : ∀ e, s.ending i = some e → s'.ending i = some e)
    (hother : i ≠ s.current → s'.ending i = s.ending i) : s.Records .stop s' i where
  born := nofun
  first _ := hfirst
  child _ hnone hforked := by
    by_cases hi : i = s.current
    · subst hi
      refine .inl ⟨ending, hcurrent hnone hforked, hleaves, fun _ => ?_⟩
      rw [hprocess]
      exact Process.stop_over (.inr hin)
    · exact .inr ⟨(hother hi).trans hnone, fun h => hi h.1, nofun⟩
  create _ h := nomatch h.2.choose_spec

/-- A program that ends with an exit code. -/
theorem Known.exitWith (h : s.Known) {code : UInt32} (ending : Ending)
    (hleaves : ending.Leaves code) (hin : s.InProgram) :
    (Endings.mk (s.exitWith code) (s.mark s.current ending)).Known := by
  obtain ⟨hidle, hstage⟩ := hin
  have hcode : ProcessStep s.process (.kernel (.call (.setExitCode code)))
      (s.process.after (.kernel (.call (.setExitCode code)))) := ⟨⟨hidle, trivial⟩, rfl⟩
  have haccounted : (s.exitWith code).Accounted :=
    (h.accounted.step hcode).step (e := .stop) ⟨hidle, rfl⟩
  have htasks : ∀ i, (s.exitWith code).kernel.sched.tasks i =
      if i = s.current then { s.tasks i with exitCode := code } else s.tasks i := fun i => by
    rw [Endings.exitWith, show ∀ p : Process, (p.after .stop).kernel = p.kernel from
      Process.stop_kernel]
    refine (Sched.modifyTask_tasks s.process.kernel.sched s.current i fun t =>
      { t with exitCode := code }).trans ?_
    split_ifs with hi
    · rw [hi]
      rfl
    · rfl
  refine ⟨haccounted, fun i hused hwaitable => ?_⟩
  have hused : ((s.exitWith code).kernel.sched.tasks i).state ≠ .unused := hused
  have hwaitable : ((s.exitWith code).kernel.sched.tasks i).waitable = true := hwaitable
  rw [htasks] at hused hwaitable
  by_cases hi : i = s.current
  · subst hi
    rw [if_pos rfl] at hused hwaitable
    have hnone : s.ending s.current = none := by
      cases hending : s.ending s.current with
      | none => rfl
      | some old =>
        have hover := ((tells_some hending).1 (h.tells _ hused hwaitable)).2
          (Process.idle_alive h.accounted.sound hidle.1)
        cases hprogram : s.process.stage s.current <;> rw [hprogram] at hover hstage <;>
          first
            | exact hover.elim
            | exact hstage.elim
    refine (tells_some (mark_of_none hnone)).2 ⟨?_, fun _ => ?_⟩
    · have hself : (s.exitWith code).kernel.sched.tasks s.current =
          { s.tasks s.current with exitCode := code } := (htasks _).trans (if_pos rfl)
      simp only [Endings.tasks, hself]
      exact hleaves
    · exact Process.stop_over (p := s.process.after (.kernel (.call (.setExitCode code))))
        (.inr hstage)
  · rw [if_neg hi] at hused hwaitable
    have hself : (s.exitWith code).kernel.sched.tasks i = s.tasks i :=
      (htasks i).trans (if_neg hi)
    have hkept : (s.exitWith code).stage i = s.process.stage i :=
      Process.stop_stage (s.process.after (.kernel (.call (.setExitCode code)))) hi
    have htells := h.tells i hused hwaitable
    unfold Tells at htells ⊢
    simp only [mark_of_ne hi, Endings.tasks, hself, hkept]
    exact htells

theorem Known.step (h : s.Known) (hstep : EndingStep s e s') : s'.Known := by
  obtain ⟨henabled, rfl⟩ := hstep
  cases e with
  | process e =>
    obtain ⟨henabled, hplain⟩ := henabled
    have hstep : ProcessStep s.process e (s.process.after e) := ⟨henabled, rfl⟩
    have hcode : ∀ code, e ≠ .kernel (.call (.setExitCode code)) := by
      rintro code rfl
      exact hplain
    refine ⟨h.accounted.step hstep, fun i => ?_⟩
    have hsame : s.process.spawned e ≠ some i →
        (s.after (.process e)).ending i = s.ending i := fun hne => by
      simp only [after]
      cases hspawned : s.process.spawned e with
      | none => rfl
      | some child =>
        refine Function.update_of_ne ?_ _ _
        rintro rfl
        exact hne hspawned
    refine h.records (e := e) (Process.fate h.accounted hstep hcode i) ⟨fun hspawned => ?_,
      fun hne ending hending => (hsame hne).trans hending,
      fun hne hnone hforked => .inr ⟨(hsame hne).trans hnone, ?_, ?_⟩, ?_⟩
    · simp only [after, hspawned, Function.update_self]
    · rintro ⟨rfl, rfl⟩
      exact hplain hforked
    · rintro ⟨rfl, -⟩
      exact hplain
    · rintro hwaitable ⟨rfl, space, rfl⟩
      cases hplain.symm.trans hwaitable
  | exit code => exact h.exitWith (.exit code) rfl henabled
  | signal signo => exact h.exitWith (.signal signo) ⟨henabled.2.2, rfl⟩ henabled.1
  | fault =>
    have hstep : ProcessStep s.process .stop (s.process.after .stop) := ⟨henabled.1, rfl⟩
    refine ⟨h.accounted.step hstep, fun i =>
      h.records (Process.fate h.accounted hstep (by rintro _ ⟨⟩) i) ?_⟩
    exact records_stop .exception rfl henabled.2 rfl (fun hnone _ => mark_of_none hnone)
      (fun _ => mark_of_some) mark_of_ne
  | exec =>
    have hstep : ProcessStep s.process .stop (s.process.after .stop) := ⟨henabled.1, rfl⟩
    refine ⟨h.accounted.step hstep, fun i =>
      h.records (Process.fate h.accounted hstep (by rintro _ ⟨⟩) i) ?_⟩
    refine records_stop .exec rfl henabled.2 rfl (fun hnone hforked => ?_)
      (fun ending hending => ?_) fun hi => ?_
    · simp only [after, if_pos hforked, mark_of_none hnone]
    · simp only [after]
      split_ifs
      · exact mark_of_some hending
      · exact hending
    · simp only [after]
      split_ifs
      · exact mark_of_ne hi
      · rfl
  | sigkill victim =>
    have hstep : ProcessStep s.process (.kill victim) (s.process.after (.kill victim)) :=
      ⟨henabled.1, rfl⟩
    refine ⟨h.accounted.step hstep, fun i =>
      h.records (Process.fate h.accounted hstep (by rintro _ ⟨⟩) i) ?_⟩
    refine ⟨by rintro ⟨⟩, fun _ ending hending => ?_, fun _ hnone hforked => ?_,
      fun _ hcreate => ?_⟩
    · simp only [after]
      split_ifs
      · exact mark_of_some hending
      · exact hending
    · by_cases hi : i = victim
      · subst hi
        cases hkill : s.process.kernel.sched.terminate i with
        | none =>
          refine .inr ⟨?_, by rintro ⟨_, ⟨⟩⟩, ?_⟩
          · simp only [after, hkill, Option.isSome_none, Bool.false_eq_true, if_false, hnone]
          · rintro ⟨-, hsome⟩
            cases hsome
        | some r =>
          refine .inl ⟨.sigkill, ?_, rfl, fun halive => ?_⟩
          · simp only [after, hkill, Option.isSome_some, if_true, mark_of_none hnone]
          · obtain ⟨-, -, -, -, -, -, -, hdead⟩ := Sched.terminate_some hkill
            refine absurd ?_ hdead
            simp only [Endings.tasks, after, Process.after, Process.kill, hkill, Kernel.after,
              Kernel.afterCall] at halive
            exact halive
      · refine .inr ⟨?_, by rintro ⟨_, ⟨⟩⟩, ?_⟩
        · simp only [after]
          split_ifs
          · exact (mark_of_ne hi).trans hnone
          · exact hnone
        · rintro ⟨heq, -⟩
          exact hi (ProcessEvent.kill.inj heq).symm
    · obtain ⟨-, -, ⟨⟩⟩ := hcreate

theorem known_boot : boot.Known where
  accounted := Process.accounted_boot
  tells i _ hwaitable := by
    have hfalse : (boot.tasks i).waitable = false := by
      simp only [Endings.tasks, boot, Process.boot, Kernel.boot, Sched.initial,
        Function.update_apply]
      split_ifs <;> rfl
    cases hfalse.symm.trans hwaitable

theorem known_run (hrun : Run EndingStep boot es s) : s.Known :=
  hrun.invariant (fun _ _ _ h hstep => h.step hstep) known_boot

/-- What `waitpid` returns is the exit code of a task that has ended. -/
theorem collected_code {child : ℕ} {code : UInt32}
    (hcollected : s.collected e = some (child, code)) :
    (s.tasks child).state = .terminated ∧ code = (s.tasks child).exitCode := by
  cases e with
  | process e =>
    cases e with
    | kernel e =>
      have hcollected : s.process.kernel.collected e = some (child, code) := hcollected
      cases e with
      | call c =>
        cases c with
        | waitpid pid nohang =>
          have hwaits := s.process.kernel.sched.waits_waitpid pid nohang
          simp only [Kernel.collected] at hcollected
          generalize s.process.kernel.sched.waitpid pid nohang = r at hcollected hwaits
          obtain ⟨w, t⟩ := r
          cases hwaits with
          | peek _ _ hended =>
            obtain ⟨rfl, rfl⟩ := Prod.mk.inj (Option.some.inj hcollected)
            exact ⟨hended, rfl⟩
          | collect _ hended =>
            obtain ⟨rfl, rfl⟩ := Prod.mk.inj (Option.some.inj hcollected)
            exact ⟨hended, rfl⟩
          | _ => cases hcollected
        | _ => cases hcollected
      | proceed ready =>
        simp only [Kernel.collected] at hcollected
        split at hcollected
        · split_ifs at hcollected with hended
          obtain ⟨rfl, rfl⟩ := Prod.mk.inj (Option.some.inj hcollected)
          exact ⟨hended, rfl⟩
        · cases hcollected
      | _ => cases hcollected
    | _ => cases hcollected
  | _ => cases hcollected

end Endings

/-- **Exit status.** Whenever a `waitpid` returns the exit code of a forked child, its program has
ended in one of the ways that there are. The status word tells which if and only if the program was
not ended by a SIGKILL from another task or by an exception. -/
theorem exit_status_iff {es : List EndingEvent} {s : Endings} {e : EndingEvent} {child : ℕ}
    {code : UInt32} (hrun : Run EndingStep Endings.boot es s)
    (hcollected : s.collected e = some (child, code)) (hforked : (s.tasks child).waitable = true) :
    ∃ ending, s.ending child = some ending ∧
      (ending.Shown (storeStatus code) ↔ ¬ ending.Forced) := by
  obtain ⟨hended, rfl⟩ := Endings.collected_code hcollected
  have htells := (Endings.known_run hrun).tells child (by rw [hended]; rintro ⟨⟩) hforked
  cases hending : s.ending child with
  | none => exact absurd hended ((Endings.tells_none hending).1 htells).2.2
  | some ending =>
    exact ⟨ending, rfl, ((Endings.tells_some hending).1 htells).1.shown_iff⟩

/-- Task 1 forks task 2 and waits for it, and the program of task 2 ends. -/
def Endings.awaitedChild (e : EndingEvent) : List EndingEvent :=
  [.process (.kernel (.call (.spawn false))), .process (.kernel (.call .yield)),
    .process (.create (some 1)), .process .go, .process .go, .process (.fork (some 2)),
    .process (.kernel (.call (.waitpid (some 2) false))), .process (.kernel (.proceed false)), e,
    .process .go, .process .go, .process .go, .process .leave, .process .go,
    .process (.kernel (.proceed false))]

/-- The child exits with the code 3. -/
theorem exit_status_iff_exit :
    ∃ ending, ((Endings.awaitedChild (.exit 3)).foldl Endings.after Endings.boot).ending 2 =
        some ending ∧ (ending.Shown (storeStatus 3) ↔ ¬ ending.Forced) :=
  exit_status_iff (e := .process (.kernel (.proceed false))) (Run.of_plays (by decide +kernel))
    (by decide +kernel) (by decide +kernel)

/-- A child that is ended by an exception has the status of an exit with the code 0. -/
theorem exit_status_hides : ¬ ∀ (es : List EndingEvent) (s : Endings) (e : EndingEvent) (child : ℕ)
    (code : UInt32), Run EndingStep Endings.boot es s → s.collected e = some (child, code) →
    (s.tasks child).waitable = true →
    ∃ ending, s.ending child = some ending ∧ ending.Shown (storeStatus code) := by
  intro hall
  obtain ⟨ending, hending, hshown⟩ := hall (Endings.awaitedChild .fault) _
    (.process (.kernel (.proceed false))) 2 0 (Run.of_plays (by decide +kernel))
    (by decide +kernel) (by decide +kernel)
  have hfault : ((Endings.awaitedChild .fault).foldl Endings.after Endings.boot).ending 2 =
      some .exception := by decide +kernel
  obtain rfl := Option.some.inj (hfault.symm.trans hending)
  exact hshown rfl

end Tcmk
