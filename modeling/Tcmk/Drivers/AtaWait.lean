import Tcmk.Drivers.AtaLock
import Tcmk.Sched.Waiting

/-!
# Waiting for the disk's interrupt

`wait_for_io` tests `IRQ_SEEN` and marks its task as `IoWait` with the interrupts off, so no task
is in `IoWait` while the flag is set (`Alert.seen`). Only the task that holds the lock clears the
flag, so it stays set until the task that waits has seen it, and `wait_for_io` returns `true`
(`wakeup_not_lost`).
-/

namespace Tcmk

open Lib

/-- In `wait_for_io`, before its result is known. -/
def Point.AwaitsDisk : Point → Prop
  | .ioArm _ | .ioYield _ | .ioCheck _ => True
  | _ => False

instance (p : Point) : Decidable p.AwaitsDisk :=
  match p with
  | .ioArm _ | .ioYield _ | .ioCheck _ => instDecidableTrue
  | .free | .sleepYield _ | .sleepCheck _ | .awake | .childYield _ | .childCheck _ | .halted =>
    instDecidableFalse

namespace Kernel

variable {k k' : Kernel} {e : KernelEvent} {i : ℕ}

/-- The result of a `wait_for_io` whose result is settled by the step. -/
def ioResult (k : Kernel) : KernelEvent → Option Bool
  | .proceed ready =>
    match k.point k.sched.current with
    | .ioArm _ => if ready then some true else none
    | .ioCheck deadline =>
      if ready then some true
      else if reached k.sched.ticks deadline then some false
      else none
    | _ => none
  | _ => none

/-- A task in `wait_for_io` has been there before, or calls it. -/
theorem awaitsDisk_acts (hstep : KernelStep k e k') (hacts : k.Acts i e)
    (hawaits : (k'.point i).AwaitsDisk) :
    (k.point i).AwaitsDisk ∨ ∃ timeout, e = .call (.waitForIo timeout) := by
  obtain ⟨henabled, rfl⟩ := hstep
  have henter : ∀ {p : Point} {s : Sched}, k.sched.current = i →
      ((k.enter p s).point i).AwaitsDisk → p.AwaitsDisk := fun hi hpoint => by
    rw [← hi, enter_self] at hpoint
    exact hpoint
  cases e with
  | tick => exact hacts.elim
  | preempt => exact hacts.elim
  | diskIrq => exact hacts.elim
  | call c =>
    have hi : k.sched.current = i := hacts
    have hfree : ¬ (k.point i).AwaitsDisk := by
      rw [← hi, henabled.1]
      exact id
    cases c with
    | waitForIo timeout => exact .inr ⟨timeout, rfl⟩
    | spawn waitable =>
      simp only [after, afterCall] at hawaits
      split at hawaits
      · rename_i index s heq
        rw [show (⟨s, Function.update k.point index .free⟩ : Kernel).point i =
          Function.update k.point index .free i from rfl, Function.update_apply] at hawaits
        split_ifs at hawaits
        · exact hawaits.elim
        · exact absurd hawaits hfree
      · exact absurd hawaits hfree
    | waitpid pid nohang =>
      simp only [after, afterCall] at hawaits
      split at hawaits
      · exact (henter hi hawaits).elim
      · exact absurd hawaits hfree
    | terminate index =>
      simp only [after, afterCall] at hawaits
      split at hawaits <;> exact absurd hawaits hfree
    | exit => exact (henter (p := .halted) hi hawaits).elim
    | _ =>
      simp only [after, afterCall] at hawaits
      first
        | exact absurd hawaits hfree
        | split_ifs at hawaits <;> first
          | exact absurd hawaits hfree
          | exact (henter hi hawaits).elim
  | proceed ready =>
    have hi : k.sched.current = i := hacts
    refine .inl ?_
    rw [← hi]
    cases hcur : k.point k.sched.current with
    | ioArm deadline => trivial
    | ioYield deadline => trivial
    | ioCheck deadline => trivial
    | free => exact absurd hcur henabled
    | _ =>
      simp only [after, afterProceed, hcur] at hawaits
      first
        | exact (henter hi hawaits).elim
        | split_ifs at hawaits <;> exact (henter hi hawaits).elim

theorem awaitsDisk_step (h : k.Sound) (hstep : KernelStep k e k')
    (halive : (k'.sched.tasks i).Alive)
    (hawaits : (k'.point i).AwaitsDisk) :
    (k.sched.tasks i).Alive ∧ (k.point i).AwaitsDisk ∨
      (∃ timeout, e = .call (.waitForIo timeout)) ∧ i = k.sched.current := by
  by_cases hacts : k.Acts i e
  · have hi := hacts.current
    subst hi
    refine (awaitsDisk_acts hstep hacts hawaits).imp (fun hold => ⟨?_, hold⟩) fun hcall =>
      ⟨hcall, rfl⟩
    refine h.alive.resolve_left fun hhalted => ?_
    rw [hhalted] at hold
    exact hold
  · rcases (change h hstep i).alive halive with hold | ⟨waitable, rfl, hindex⟩
    · rw [point_step h hstep hold.1 hacts] at hawaits
      exact .inl ⟨hold, hawaits⟩
    · obtain ⟨-, rfl⟩ := hstep
      rw [spawned_point hindex] at hawaits
      exact hawaits.elim

end Kernel

namespace Ata

variable {w w' : Ata} {e : AtaEvent} {es : List AtaEvent} {i : ℕ}

/-- The step is one of task `i`. -/
def Acts (w : Ata) (i : ℕ) : AtaEvent → Prop
  | .call _ | .begin _ | .proceed | .go _ => w.current = i
  | .tick | .preempt | .irq => False

instance (w : Ata) (i : ℕ) (e : AtaEvent) : Decidable (w.Acts i e) :=
  match e with
  | .call _ | .begin _ | .proceed | .go _ => inferInstanceAs (Decidable (w.current = i))
  | .tick | .preempt | .irq => instDecidableFalse

/-- The result of a `wait_for_io` whose result is settled by the step. -/
def ioResult (w : Ata) : AtaEvent → Option Bool
  | .proceed => w.kernel.ioResult (.proceed w.seen)
  | _ => none

/-- The steps of the kernel in a step of the machine are those of the same task. -/
theorem kernelEvent_acts {e' : KernelEvent} (he : w.kernelEvent e = some e')
    (hacts : w.kernel.Acts i e') : w.Acts i e := by
  have hi : w.current = i := hacts.current
  cases e with
  | tick =>
    cases he
    exact hacts
  | preempt =>
    cases he
    exact hacts
  | irq =>
    cases he
    exact hacts
  | _ => exact hi

theorem kernelEvent_terminate (he : w.kernelEvent e = some (.call (.terminate i))) :
    e = .call (.terminate i) := by
  cases e with
  | call c =>
    cases he
    rfl
  | go ok =>
    simp only [kernelEvent] at he
    split at he
    · split_ifs at he
      cases he
    · split_ifs at he
      cases he
    · cases he
  | _ => cases he

/-- `wait_for_io` tests the flag. -/
theorem kernelEvent_proceed {ready : Bool} (he : w.kernelEvent e = some (.proceed ready)) :
    ready = w.seen := by
  cases e with
  | proceed =>
    cases he
    rfl
  | go ok =>
    simp only [kernelEvent] at he
    split at he
    · split_ifs at he
      cases he
    · split_ifs at he
      cases he
    · cases he
  | _ => cases he

/-- The flag is cleared by a task that holds the lock, and that is not in `wait_for_io`. -/
theorem seen_step (h : w.kernel.Sound) (hstep : AtaStep w e w') (hseen : w.seen = true) :
    w'.seen = true ∨ w.current ∈ w.holders ∧ w.kernel.point w.current = .free := by
  obtain ⟨henabled, rfl⟩ := hstep
  cases e with
  | call c => cases c <;> exact .inl hseen
  | begin c =>
    refine .inl ?_
    simp only [after, command]
    split_ifs <;> exact hseen
  | go ok =>
    have hhold : (w.stage w.current).Holding → w.current ∈ w.holders := fun hold =>
      ⟨current_alive h henabled.1, hold⟩
    cases hstage : w.stage w.current with
    | arm a => exact .inr ⟨hhold (by rw [hstage]; trivial), henabled.1⟩
    | clear a => exact .inr ⟨hhold (by rw [hstage]; trivial), henabled.1⟩
    | sectors c left =>
      refine .inl ?_
      cases left <;> simp only [after, advance, hstage] <;> exact hseen
    | poll a =>
      refine .inl ?_
      cases a <;> simp only [after, advance, hstage] <;> exact hseen
    | _ =>
      refine .inl ?_
      simp only [after, advance, hstage]
      (try split_ifs) <;> exact hseen
  | irq => exact .inl rfl
  | _ => exact .inl hseen

/-- Only the interrupt sets the flag. -/
theorem seen_before (hstep : AtaStep w e w') (hirq : e ≠ .irq) (hseen : w'.seen = true) :
    w.seen = true := by
  obtain ⟨-, rfl⟩ := hstep
  cases e with
  | irq => exact absurd rfl hirq
  | call c => cases c <;> exact hseen
  | begin c =>
    simp only [after, command] at hseen
    split_ifs at hseen <;> exact hseen
  | go ok =>
    simp only [after, advance] at hseen
    split at hseen <;> (try split_ifs at hseen) <;> first
      | exact hseen
      | cases hseen
  | _ => exact hseen

/-- While the flag is set no task sleeps, and a task in `wait_for_io` is there in `await_irq`. -/
structure Alert (w : Ata) : Prop extends w.Safe where
  seen : w.seen = true → ∀ i, (w.kernel.sched.tasks i).state ≠ .ioWait
  stage : ∀ i, (w.kernel.sched.tasks i).Alive → (w.kernel.point i).AwaitsDisk →
    ∃ a, w.stage i = .clear a

theorem Alert.holds (h : w.Alert) (halive : (w.kernel.sched.tasks i).Alive)
    (hawaits : (w.kernel.point i).AwaitsDisk) : i ∈ w.holders := by
  obtain ⟨a, hstage⟩ := h.stage i halive hawaits
  exact ⟨halive, by rw [hstage]; trivial⟩

/-- The flag stays set while a task waits for it. -/
theorem Alert.seen_stays (h : w.Alert) (hstep : AtaStep w e w') (hseen : w.seen = true)
    (halive : (w.kernel.sched.tasks i).Alive) (hawaits : (w.kernel.point i).AwaitsDisk) :
    w'.seen = true := by
  refine (seen_step h.sound hstep hseen).resolve_right ?_
  rintro ⟨hheld, hfree⟩
  obtain rfl := h.excl.unique i (h.holds halive hawaits) _ hheld
  rw [hfree] at hawaits
  exact hawaits

/-- A step of the scheduler that is not a call of `wait_for_io`. -/
theorem Alert.stage_kernel (h : w.Alert) {e : KernelEvent} {k : Kernel}
    (hstep : KernelStep w.kernel e k) (hcall : ∀ timeout, e ≠ .call (.waitForIo timeout))
    (halive : (k.sched.tasks i).Alive) (hawaits : (k.point i).AwaitsDisk) :
    (w.kernel.sched.tasks i).Alive ∧ ∃ a, w.stage i = .clear a := by
  rcases Kernel.awaitsDisk_step h.sound hstep halive hawaits with
    ⟨hold, hawaits⟩ | ⟨⟨timeout, he⟩, -⟩
  · exact ⟨hold, h.stage i hold hawaits⟩
  · exact absurd he (hcall timeout)

theorem Alert.stage_step (h : w.Alert) (hstep : AtaStep w e w')
    (halive : (w'.kernel.sched.tasks i).Alive) (hawaits : (w'.kernel.point i).AwaitsDisk) :
    ∃ a, w'.stage i = .clear a := by
  obtain ⟨henabled, rfl⟩ := hstep
  cases e with
  | call c =>
    have hkernel : KernelStep w.kernel (.call c) (w.kernel.after (.call c)) := ⟨henabled.1, rfl⟩
    have hold : (w.kernel.sched.tasks i).Alive ∧ ∃ a, w.stage i = .clear a := by
      refine h.stage_kernel hkernel (fun timeout he => ?_) ?_ ?_
      · cases he
        exact henabled.2.2
      · cases c <;> exact halive
      · cases c <;> exact hawaits
    cases c with
    | spawn waitable =>
      obtain ⟨hold, a, hstage⟩ := hold
      refine ⟨a, ?_⟩
      have hne : (w.kernel.sched.spawnInner waitable).1 ≠ some i := fun hindex => by
        rcases Sched.spawnInner_tasks h.sound.sched.beyond waitable i with ⟨-, hne⟩ | ⟨hunused, -⟩
        · exact hne hindex
        · exact hold.1 hunused
      exact (startOut_apply ..).trans ((if_neg hne).trans hstage)
    | _ => exact hold.2
  | begin c =>
    simp only [after, command] at halive hawaits ⊢
    split_ifs at halive hawaits ⊢
    · exact h.stage i halive hawaits
    · exact h.stage i halive hawaits
    · rw [enter_stage, if_neg]
      · exact h.stage i halive hawaits
      · rintro rfl
        have hawaits : (w.kernel.point w.current).AwaitsDisk := hawaits
        rw [henabled.1] at hawaits
        exact hawaits
  | proceed =>
    have hkernel : KernelStep w.kernel (.proceed w.seen) (w.kernel.after (.proceed w.seen)) :=
      ⟨henabled, rfl⟩
    exact (h.stage_kernel hkernel (by rintro _ ⟨⟩) halive hawaits).2
  | go ok =>
    have hfree : ¬ (w.kernel.point w.current).AwaitsDisk := by
      rw [henabled.1]
      exact id
    rcases advance_cases w ok henabled.2 with ⟨x, locked, seen, heq⟩ | heq | ⟨a, heq⟩ <;>
      simp only [after, heq] at halive hawaits ⊢
    · rw [enter_stage, if_neg]
      · exact h.stage i halive hawaits
      · rintro rfl
        exact hfree hawaits
    · have hkernel : KernelStep w.kernel (.call .yield) (w.kernel.after (.call .yield)) :=
        ⟨enabled_call henabled.1 (by rintro ⟨⟩), rfl⟩
      exact (h.stage_kernel hkernel (by rintro _ ⟨⟩) halive hawaits).2
    · have hkernel : KernelStep w.kernel (.call (.waitForIo ioTimeoutTicks))
        (w.kernel.after (.call (.waitForIo ioTimeoutTicks))) :=
        ⟨enabled_call henabled.1 (by rintro ⟨⟩), rfl⟩
      have hstage : ((w.enter (.clear a)).withKernel (.call (.waitForIo ioTimeoutTicks))).stage i =
        if i = w.current then .clear a else w.stage i := enter_stage ..
      rw [hstage]
      split_ifs with hi
      · exact ⟨a, rfl⟩
      · rcases Kernel.awaitsDisk_step h.sound hkernel halive hawaits with ⟨hold, hawaits⟩ | ⟨-, hi'⟩
        · exact h.stage i hold hawaits
        · exact absurd hi' hi
  | tick => exact (h.stage_kernel (e := .tick) ⟨trivial, rfl⟩ (by rintro _ ⟨⟩) halive hawaits).2
  | preempt =>
    exact (h.stage_kernel (e := .preempt) ⟨trivial, rfl⟩ (by rintro _ ⟨⟩) halive hawaits).2
  | irq => exact (h.stage_kernel (e := .diskIrq) ⟨trivial, rfl⟩ (by rintro _ ⟨⟩) halive hawaits).2

/-- The interrupt wakes every task that sleeps. -/
theorem irq_wakes (h : w.kernel.Sound) (i : ℕ) :
    ((w.after .irq).kernel.sched.tasks i).state ≠ .ioWait ∧
      ((w.kernel.sched.tasks i).state = .ioWait →
        ((w.after .irq).kernel.sched.tasks i).state = .ready) := by
  have htasks : (w.after .irq).kernel.sched.tasks i = w.kernel.sched.wakeIoWaiters.tasks i := rfl
  have hlt : (w.kernel.sched.tasks i).state = .ioWait → i < w.kernel.sched.taskCount :=
    fun hstate =>
    h.sched.lt_of_used (by rw [hstate]; rintro ⟨⟩)
  rw [htasks, Sched.wakeIoWaiters_tasks]
  split_ifs with hi
  · exact ⟨by rintro ⟨⟩, fun _ => rfl⟩
  · exact ⟨fun hstate => hi ⟨hlt hstate, hstate⟩, fun hstate => absurd ⟨hlt hstate, hstate⟩ hi⟩

theorem Alert.step (h : w.Alert) (hstep : AtaStep w e w') : w'.Alert := by
  refine ⟨h.toSafe.step hstep, fun hseen i hstate => ?_, fun i => h.stage_step hstep⟩
  by_cases hirq : e = .irq
  · subst hirq
    rw [hstep.2] at hstate
    exact (irq_wakes h.sound i).1 hstate
  · have hbefore := seen_before hstep hirq hseen
    rcases kernel_step hstep with ⟨-, heq⟩ | ⟨e', he', hkernel⟩
    · rw [heq] at hstate
      exact h.seen hbefore i hstate
    · rcases Kernel.ioWait_step h.sound hkernel hstate with hold | ⟨rfl, -⟩
      · exact h.seen hbefore i hold
      · cases (kernelEvent_proceed he').trans hbefore

theorem alert_boot : boot.Alert where
  toSafe := safe_boot
  seen := by rintro ⟨⟩
  stage := fun _ _ hawaits => hawaits.elim

/-! ## The return of `wait_for_io` -/

/-- The steps of its own that a task has left in `wait_for_io` when the flag is set. -/
def ioStepsLeft : Point → ℕ
  | .ioYield _ => 2
  | _ => 1

/-- The steps of task `i` in a run. -/
def ownSteps (i : ℕ) : Ata → List AtaEvent → ℕ
  | _, [] => 0
  | w, e :: es => (if w.Acts i e then 1 else 0) + ownSteps i (w.after e) es

/-- A step after which task `i` is not asleep. -/
def AwakeStep (i : ℕ) (w : Ata) (e : AtaEvent) (w' : Ata) : Prop :=
  AtaStep w e w' ∧ (w'.kernel.sched.tasks i).state ≠ .ioWait

/-- In a run through `es`, `wait_for_io` returns `true` to task `i`, which has not slept since. -/
def Notices (w : Ata) (i : ℕ) (es : List AtaEvent) : Prop :=
  ∃ fs e gs u, es = fs ++ e :: gs ∧ Run (AwakeStep i) w fs u ∧ u.Acts i e ∧
    u.ioResult e = some true

/-- Task `i` is in `wait_for_io`, and the flag is set. -/
structure Notified (i : ℕ) (w : Ata) : Prop extends w.Alert where
  flag : w.seen = true
  alive : (w.kernel.sched.tasks i).Alive
  awaits : (w.kernel.point i).AwaitsDisk

/-- A step of the task itself takes it nearer to the return, and the others leave it where it is. -/
theorem Notified.step (h : Notified i w) (hstep : AtaStep w e w')
    (hkill : e ≠ .call (.terminate i)) :
    (Notified i w' ∧ (if w.Acts i e then 1 else 0) + ioStepsLeft (w'.kernel.point i) =
      ioStepsLeft (w.kernel.point i)) ∨ (w.Acts i e ∧ w.ioResult e = some true) := by
  have halert := h.toAlert.step hstep
  have hflag := h.toAlert.seen_stays hstep h.flag h.alive h.awaits
  have hfree : w.kernel.point i ≠ .free := fun hfree => by
    have hawaits := h.awaits
    rw [hfree] at hawaits
    exact hawaits
  have halive : (w'.kernel.sched.tasks i).Alive := by
    rcases kernel_step hstep with ⟨-, heq⟩ | ⟨e', he', hkernel⟩
    · rw [heq]
      exact h.alive
    · refine Kernel.alive_step h.sound hkernel hfree h.alive ?_
      rintro rfl
      exact hkill (kernelEvent_terminate he')
  by_cases hacts : w.Acts i e
  · obtain ⟨henabled, rfl⟩ := hstep
    cases e with
    | call c => exact absurd (hacts ▸ henabled.1.1) hfree
    | begin c => exact absurd (hacts ▸ henabled.1) hfree
    | go ok => exact absurd (hacts ▸ henabled.1) hfree
    | proceed =>
      have hi : w.current = i := hacts
      subst hi
      have hflagged := h.flag
      have hawaits := h.awaits
      cases hpoint : w.kernel.point w.current with
      | ioArm d =>
        refine .inr ⟨rfl, ?_⟩
        have hpoint : w.kernel.point w.kernel.sched.current = .ioArm d := hpoint
        simp only [ioResult, Kernel.ioResult, hpoint, if_pos hflagged]
      | ioCheck d =>
        refine .inr ⟨rfl, ?_⟩
        have hpoint : w.kernel.point w.kernel.sched.current = .ioCheck d := hpoint
        simp only [ioResult, Kernel.ioResult, hpoint, if_pos hflagged]
      | ioYield d =>
        have hpoint' : (w.after .proceed).kernel.point w.current = .ioCheck d := by
          have hpoint : w.kernel.point w.kernel.sched.current = .ioYield d := hpoint
          simp only [after, withKernel, Kernel.after, Kernel.afterProceed, hpoint]
          exact Kernel.enter_self ..
        refine .inl ⟨⟨halert, hflag, halive, ?_⟩, ?_⟩
        · rw [hpoint']
          trivial
        · rw [hpoint', if_pos hacts]
          rfl
      | _ =>
        rw [hpoint] at hawaits
        exact hawaits.elim
    | _ => exact hacts.elim
  · have hpoint : w'.kernel.point i = w.kernel.point i := by
      rcases kernel_step hstep with ⟨-, heq⟩ | ⟨e', he', hkernel⟩
      · rw [heq]
      · exact Kernel.point_step h.sound hkernel h.alive.1 fun hk =>
          hacts (kernelEvent_acts he' hk)
    refine .inl ⟨⟨halert, hflag, halive, ?_⟩, ?_⟩
    · rw [hpoint]
      exact h.awaits
    · rw [hpoint, if_neg hacts, Nat.zero_add]

theorem Notified.run (h : Notified i w) (hrun : Run AtaStep w es w')
    (hkill : .call (.terminate i) ∉ es)
    (hsteps : ioStepsLeft (w.kernel.point i) ≤ ownSteps i w es) : w.Notices i es := by
  induction hrun with
  | nil w =>
    have hpos : 0 < ioStepsLeft (w.kernel.point i) := by
      unfold ioStepsLeft
      split <;> omega
    exact absurd hsteps (Nat.not_le.2 hpos)
  | @cons w m w' e es hstep _ ih =>
    obtain ⟨hkill, hkills⟩ := not_or.1 (List.mem_cons.not.1 hkill)
    rcases h.step hstep (Ne.symm hkill) with ⟨hnext, hleft⟩ | ⟨hacts, hresult⟩
    · have hm : w.after e = m := hstep.2.symm
      rw [ownSteps, hm, ← hleft] at hsteps
      obtain ⟨fs, e', gs, u, rfl, hu, hreturn⟩ :=
        ih hnext hkills (Nat.le_of_add_le_add_left hsteps)
      exact ⟨e :: fs, e', gs, u, rfl, .cons ⟨hstep, hnext.seen hnext.flag i⟩ hu, hreturn⟩
    · exact ⟨[], e, es, w, rfl, .nil w, hacts, hresult⟩

end Ata

open Ata (ownSteps ioStepsLeft)

/-- **I/O wake-ups.** In every reachable state, the interrupt makes each task in `IoWait` ready,
and no task is in `IoWait` if the interrupt has come since the flag was last cleared. A task that is
in `wait_for_io` then is not put to sleep again, and the call returns `true` with its next
step, or, if the task is still before its `yield_now`, with the step after it. -/
theorem wakeup_not_lost {w : Ata} {es : List AtaEvent} (hrun : Run AtaStep Ata.boot es w) (i : ℕ) :
    ((w.kernel.sched.tasks i).state = .ioWait →
      ((w.after .irq).kernel.sched.tasks i).state = .ready) ∧
    (w.seen = true → (w.kernel.sched.tasks i).state ≠ .ioWait ∧
      ((w.kernel.sched.tasks i).Alive → (w.kernel.point i).AwaitsDisk →
        ∀ gs v, Run AtaStep w gs v → .call (.terminate i) ∉ gs →
          ioStepsLeft (w.kernel.point i) ≤ ownSteps i w gs → w.Notices i gs)) := by
  have h : w.Alert := hrun.invariant (fun _ _ _ h hstep => h.step hstep) Ata.alert_boot
  refine ⟨(Ata.irq_wakes h.sound i).2, fun hseen => ⟨h.seen hseen i, ?_⟩⟩
  intro halive hawaits gs v hgs hkill hsteps
  have hnotified : Ata.Notified i w := ⟨h, hseen, halive, hawaits⟩
  exact hnotified.run hgs hkill hsteps

/-- The interrupt comes while task 1 sleeps in a read. Once the idle task has yielded,
`wait_for_io` returns `true`. -/
theorem wakeup_not_lost_reading : (Ata.reading.after .irq).Notices 1 [.call .yield, .proceed] := by
  have hrun : Run AtaStep Ata.boot _ Ata.reading := Ata.reading_run.mono fun _ _ _ hstep => hstep.1
  have hirq : AtaStep Ata.reading .irq (Ata.reading.after .irq) := ⟨trivial, rfl⟩
  have hnext : Run AtaStep (Ata.reading.after .irq) [.call .yield, .proceed]
      (((Ata.reading.after .irq).after (.call .yield)).after .proceed) :=
    .cons ⟨by decide +kernel, rfl⟩ (.cons ⟨by decide +kernel, rfl⟩ (.nil _))
  exact ((wakeup_not_lost (hrun.append (.cons hirq (.nil _))) 1).2 rfl).2
    ⟨by decide +kernel, by decide +kernel⟩ (by decide +kernel) _ _ hnext (by decide)
    (by decide +kernel)

/-- The timer takes the processor from task 1 before its `yield_now`. As it is next dispatched it
first makes that `yield_now`. -/
theorem wakeup_next_dispatch : ¬ ∀ (es gs : List AtaEvent) (w u : Ata) (i : ℕ),
    Run AtaStep Ata.boot es w → (w.kernel.sched.tasks i).state = .ioWait → w.current ≠ i →
      Run (fun w e w' => AtaStep w e w' ∧ w.current ≠ i) (w.after .irq) gs u →
        .call (.terminate i) ∉ gs → u.current = i → u.ioResult .proceed = some true := by
  intro hall
  let w := (((((((((((Ata.boot.after (.call (.spawn false))).after (.call .yield)).after
    (.begin ⟨false, 1, 512⟩)).after (.go true)).after (.go true)).after (.go true)).after
    (.go true)).after (.go true)).after .proceed).after .tick).after .tick).after .preempt
  have hrun : Run AtaStep Ata.boot [.call (.spawn false), .call .yield, .begin ⟨false, 1, 512⟩,
      .go true, .go true, .go true, .go true, .go true, .proceed, .tick, .tick, .preempt] w :=
    .cons ⟨by decide +kernel, rfl⟩ (.cons ⟨by decide +kernel, rfl⟩
      (.cons ⟨by decide +kernel, rfl⟩ (.cons ⟨by decide +kernel, rfl⟩
        (.cons ⟨by decide +kernel, rfl⟩ (.cons ⟨by decide +kernel, rfl⟩
          (.cons ⟨by decide +kernel, rfl⟩ (.cons ⟨by decide +kernel, rfl⟩
            (.cons ⟨by decide +kernel, rfl⟩ (.cons ⟨trivial, rfl⟩ (.cons ⟨trivial, rfl⟩
              (.cons ⟨trivial, rfl⟩ (.nil _))))))))))))
  have hnext : Run (fun w e w' => AtaStep w e w' ∧ w.current ≠ 1) (w.after .irq) [.call .yield]
      ((w.after .irq).after (.call .yield)) :=
    .cons ⟨⟨by decide +kernel, rfl⟩, by decide +kernel⟩ (.nil _)
  have hresult := hall _ _ w _ 1 hrun (by decide +kernel) (by decide +kernel) hnext (by decide)
    (by decide +kernel)
  have hnone : ((w.after .irq).after (.call .yield)).ioResult .proceed = none := by decide +kernel
  cases hnone.symm.trans hresult

end Tcmk
