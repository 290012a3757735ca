import Tcmk.Sched.Tasks

/-!
# Waiting for the disk

`wait_for_io` gives its task a deadline, but `wake_expired` does not look at tasks in `IoWait`.
So the task becomes runnable exactly when the disk's interrupt arrives, at whatever time that is
(`ioWait_timeout`). Once it runs after its deadline, `wait_for_io` returns in three steps of the
task.
-/

namespace Tcmk

open Lib

namespace Kernel

variable {k k' u v : Kernel} {e : KernelEvent} {es fs : List KernelEvent} {i : ℕ} {d : UInt32}

/-- The step runs `pick_next`. -/
def Selects (k : Kernel) : KernelEvent → Prop
  | .preempt => 2 ≤ k.sched.taskCount ∧ k.sched.preemptLock = 0 ∧ k.sched.needResched = true
  | .call .yield => True
  | .call (.sleep ticks) => k.sched.current = idleTask ∨ ticks = 0
  | .proceed _ =>
    match k.point k.sched.current with
    | .sleepYield _ | .ioYield _ | .childYield _ | .halted => True
    | _ => False
  | _ => False

/-- Task `i` is runnable at some time in a run through `es`, before it is killed. -/
def Wakes (k : Kernel) (i : ℕ) (es : List KernelEvent) : Prop :=
  ∃ fs gs u, es = fs ++ gs ∧ .call (.terminate i) ∉ fs ∧ Run KernelStep k fs u ∧
    (u.sched.tasks i).Runnable

/-! ## The wait -/

/-- Task `i` sleeps in `wait_for_io`. -/
structure Asleep (i : ℕ) (d : UInt32) (k : Kernel) : Prop where
  state : (k.sched.tasks i).state = .ioWait
  point : k.point i = .ioYield d ∨ k.point i = .ioCheck d ∧ k.sched.current ≠ i

theorem Asleep.not_runnable (h : Asleep i d k) : ¬ (k.sched.tasks i).Runnable := by
  unfold Task.Runnable
  rw [h.state]
  nofun

/-- Nothing but the interrupt and a kill ends the wait. -/
theorem Asleep.step (h : Asleep i d k) (hk : k.Sound) (hstep : KernelStep k e k')
    (hirq : e ≠ .diskIrq) (hkill : e ≠ .call (.terminate i)) : Asleep i d k' := by
  have hstate := h.state
  have hfree : k.point i ≠ .free := by
    rcases h.point with hp | ⟨hp, -⟩ <;> rw [hp] <;> rintro ⟨⟩
  have hexit : ¬ k.Ends e i := by
    rintro (he | ⟨he, hi⟩)
    · exact hkill he
    · obtain ⟨henabled, -⟩ := hstep
      rw [he] at henabled
      exact hfree (hi ▸ henabled.1)
  have hstate' : (k'.sched.tasks i).state = .ioWait := by
    cases change hk hstep i with
    | like hlike => exact hlike.ioWait hstate
    | woken he => exact absurd he hirq
    | own hi _ _ _ _ hpoint =>
      rcases h.point with hp | ⟨-, hne⟩
      · rw [hp] at hpoint
        rcases hpoint with hpoint | hpoint | ⟨_, hpoint⟩ <;> cases hpoint
      · exact absurd hi.symm hne
    | spawned _ _ hold =>
      rw [hstate] at hold
      cases hold
    | ended he => exact absurd he hexit
    | freed he =>
      rcases he with ⟨he, -⟩ | hold
      · exact absurd he hexit
      · rw [hstate] at hold
        cases hold
    | collected _ hold =>
      rw [hstate] at hold
      cases hold
  refine ⟨hstate', ?_⟩
  by_cases hacts : k.Acts i e
  · -- The task gives up the processor, which it cannot get back in this state.
    have hyield := yieldNow_current hk.sched
    obtain ⟨henabled, rfl⟩ := hstep
    cases e with
    | tick => exact hacts.elim
    | preempt => exact hacts.elim
    | diskIrq => exact hacts.elim
    | call c => exact absurd (hacts ▸ henabled.1) hfree
    | proceed ready =>
      have hcurrent : k.sched.current = i := hacts
      have hp := h.point.resolve_right fun hp => hp.2 hcurrent
      have hafter : k.after (.proceed ready) = k.enter (.ioCheck d) k.sched.yieldNow := by
        simp only [after, afterProceed, hcurrent, hp]
      rw [hafter] at hstate' ⊢
      refine .inr ⟨hcurrent ▸ enter_self k _ _, fun heq => ?_⟩
      have heq : k.sched.yieldNow.current = i := heq
      have hstate' : (k.sched.yieldNow.tasks i).state = .ioWait := hstate'
      rcases hyield with ⟨-, hready⟩ | hrunning
      · rw [hcurrent, hstate'] at hready
        cases hready
      · rw [heq, hstate'] at hrunning
        cases hrunning
  · have hpoint := point_step hk hstep (by rw [hstate]; rintro ⟨⟩) hacts
    rw [hpoint]
    refine h.point.imp id fun hp => ⟨hp.1, fun heq => ?_⟩
    rcases current_step hk hstep with hcurrent | hrunning
    · exact hp.2 (hcurrent.symm.trans heq)
    · rw [heq, hstate'] at hrunning
      cases hrunning

theorem Asleep.run (h : Asleep i d k) (hk : k.Sound) (hrun : Run KernelStep k es k')
    (hirq : .diskIrq ∉ es) (hkill : .call (.terminate i) ∉ es) : Asleep i d k' ∧ k'.Sound := by
  induction hrun with
  | nil => exact ⟨h, hk⟩
  | cons hstep _ ih =>
    obtain ⟨hirq, hirqs⟩ := not_or.1 (List.mem_cons.not.1 hirq)
    obtain ⟨hkill, hkills⟩ := not_or.1 (List.mem_cons.not.1 hkill)
    exact ih (h.step hk hstep (Ne.symm hirq) (Ne.symm hkill)) (hk.step hstep) hirqs hkills

/-- The interrupt ends it. -/
theorem Asleep.woken (h : Asleep i d k) (hk : k.Sound) :
    ((k.after .diskIrq).sched.tasks i).state = .ready := by
  have hlt := hk.sched.lt_of_used (i := i) (by rw [h.state]; nofun)
  simp only [after, withSched, Sched.wakeIoWaiters_tasks, if_pos (And.intro hlt h.state)]

/-- The task has just found the disk not ready. -/
theorem asleep_armed (hpoint : k.point k.sched.current = .ioArm d) :
    Asleep k.sched.current d (k.after (.proceed false)) := by
  have hafter : k.after (.proceed false) = k.enter (.ioYield d) k.sched.awaitDevice := by
    simp only [after, afterProceed, hpoint, Bool.false_eq_true, if_false]
  rw [hafter]
  refine ⟨?_, .inl (enter_self ..)⟩
  simp only [enter, Sched.awaitDevice, Sched.setState, Sched.modifyTask_self]

/-- A sleeping task wakes exactly when the interrupt arrives. -/
theorem Asleep.wakes_iff (h : Asleep i d k) (hk : k.Sound) (hrun : Run KernelStep k es k') :
    k.Wakes i es ↔ ∃ fs gs, es = fs ++ .diskIrq :: gs ∧ .call (.terminate i) ∉ fs := by
  constructor
  · rintro ⟨fs, gs, u, rfl, hkill, hfs, hrunnable⟩
    have hirq : .diskIrq ∈ fs := by
      by_contra hirq
      exact (h.run hk hfs hirq hkill).1.not_runnable hrunnable
    obtain ⟨fs', gs', rfl⟩ := List.append_of_mem hirq
    exact ⟨fs', gs' ++ gs, by simp, fun hmem => hkill (List.mem_append_left _ hmem)⟩
  · rintro ⟨fs, gs, rfl, hkill⟩
    -- The first interrupt is the one that wakes the task.
    obtain ⟨fs', gs', heq, hirq⟩ :=
      List.eq_append_cons_of_mem
        (List.mem_append_right fs (List.mem_singleton_self KernelEvent.diskIrq))
    have hkill' : .call (.terminate i) ∉ fs' ++ [.diskIrq] := fun hmem => by
      have hall : .call (.terminate i) ∈ fs ++ [KernelEvent.diskIrq] := by
        rw [heq]
        rcases List.mem_append.1 hmem with hmem | hmem
        · exact List.mem_append_left _ hmem
        · exact List.mem_append_right _ (List.mem_cons.2 (.inl (List.mem_singleton.1 hmem)))
      rcases List.mem_append.1 hall with hall | hall
      · exact hkill hall
      · cases List.mem_singleton.1 hall
    have hes : fs ++ .diskIrq :: gs = (fs' ++ [.diskIrq]) ++ (gs' ++ gs) := by
      rw [show fs ++ KernelEvent.diskIrq :: gs = (fs ++ [.diskIrq]) ++ gs by simp, heq]
      simp
    rw [hes] at hrun
    obtain ⟨u, hu, -⟩ := hrun.split
    obtain ⟨v, hv, hlast⟩ := hu.split
    obtain ⟨hasleep, hsound⟩ := h.run hk hv hirq fun hmem => hkill' (List.mem_append_left _ hmem)
    refine ⟨fs' ++ [.diskIrq], gs' ++ gs, u, hes, hkill', hu, .inl ?_⟩
    cases hlast with
    | cons hstep hnil =>
      cases hnil
      rw [hstep.2]
      exact hasleep.woken hsound

/-! ## The return -/

/-- The steps that a task has left in `wait_for_io` when its deadline has passed. -/
def stepsLeft : Point → ℕ
  | .ioYield _ => 3
  | .ioCheck _ => 2
  | .awake => 1
  | _ => 0

/-- The steps of task `i` in a run. -/
def ownSteps (i : ℕ) : Kernel → List KernelEvent → ℕ
  | _, [] => 0
  | k, e :: es => (if k.Acts i e then 1 else 0) + ownSteps i (k.after e) es

/-- A step at or after the deadline. -/
def DueStep (d : UInt32) (k : Kernel) (e : KernelEvent) (k' : Kernel) : Prop :=
  KernelStep k e k' ∧ reached k.sched.ticks d

/-- `wait_for_io` returns at some time in a run through `es`. -/
def Returns (k : Kernel) (i : ℕ) (es : List KernelEvent) : Prop :=
  ∃ fs gs u, es = fs ++ gs ∧ Run KernelStep k fs u ∧ u.point i = .free ∧
    (u.sched.tasks i).state = .running

/-- Task `i` is on its way out of `wait_for_io`. -/
structure Leaving (i : ℕ) (d : UInt32) (k : Kernel) : Prop where
  alive : (k.sched.tasks i).Alive
  point : k.point i = .ioYield d ∨ k.point i = .ioCheck d ∨ k.point i = .awake

theorem Leaving.not_free (h : Leaving i d k) : k.point i ≠ .free := by
  rcases h.point with hp | hp | hp <;> rw [hp] <;> nofun

/-- A step of the task itself takes it nearer to the return, and the others leave it where it is. -/
theorem Leaving.step (h : Leaving i d k) (hk : k.Sound) (hstep : DueStep d k e k')
    (hkill : e ≠ .call (.terminate i)) :
    (Leaving i d k' ∧
      (if k.Acts i e then 1 else 0) + stepsLeft (k'.point i) = stepsLeft (k.point i)) ∨
      (k'.point i = .free ∧ (k'.sched.tasks i).state = .running) := by
  obtain ⟨hstep, hdue⟩ := hstep
  have halive := alive_step hk hstep h.not_free h.alive hkill
  by_cases hacts : k.Acts i e
  · obtain ⟨henabled, rfl⟩ := hstep
    rw [if_pos hacts]
    cases e with
    | tick => exact hacts.elim
    | preempt => exact hacts.elim
    | diskIrq => exact hacts.elim
    | call c => exact absurd (hacts ▸ henabled.1) h.not_free
    | proceed ready =>
      have hi : k.sched.current = i := hacts
      subst hi
      rcases h.point with hp | hp | hp
      · have hafter : k.after (.proceed ready) = k.enter (.ioCheck d) k.sched.yieldNow := by
          simp only [after, afterProceed, hp]
        have hpoint : (k.after (.proceed ready)).point k.sched.current = .ioCheck d :=
          hafter ▸ enter_self ..
        refine .inl ⟨⟨halive, .inr (.inl hpoint)⟩, ?_⟩
        rw [hp, hpoint]
        rfl
      · have hafter : k.after (.proceed ready) = k.enter .awake k.sched := by
          simp only [after, afterProceed, hp, if_pos hdue, ite_self]
        have hpoint : (k.after (.proceed ready)).point k.sched.current = .awake :=
          hafter ▸ enter_self ..
        refine .inl ⟨⟨halive, .inr (.inr hpoint)⟩, ?_⟩
        rw [hp, hpoint]
        rfl
      · have hafter : k.after (.proceed ready) =
            k.enter .free (k.sched.setState k.sched.current .running) := by
          simp only [after, afterProceed, hp]
        rw [hafter]
        refine .inr ⟨enter_self .., ?_⟩
        simp only [enter, Sched.setState, Sched.modifyTask_self]
  · have hpoint := point_step hk hstep h.alive.1 hacts
    refine .inl ⟨⟨halive, by rw [hpoint]; exact h.point⟩, ?_⟩
    rw [hpoint, if_neg hacts, Nat.zero_add]

theorem Leaving.run (h : Leaving i d k) (hk : k.Sound) (hrun : Run (DueStep d) k es k')
    (hkill : .call (.terminate i) ∉ es) (hsteps : stepsLeft (k.point i) ≤ ownSteps i k es) :
    k.Returns i es := by
  induction hrun with
  | nil k =>
    rcases h.point with hp | hp | hp <;> rw [hp] at hsteps <;> cases hsteps
  | @cons k m k' e es hstep _ ih =>
    obtain ⟨hkill, hkills⟩ := not_or.1 (List.mem_cons.not.1 hkill)
    rcases h.step hk hstep (Ne.symm hkill) with ⟨hleaving, hleft⟩ | ⟨hpoint, hstate⟩
    · have hm : k.after e = m := hstep.1.2.symm
      rw [ownSteps, hm, ← hleft] at hsteps
      obtain ⟨fs, gs, u, rfl, hu, hfree⟩ :=
        ih hleaving (hk.step hstep.1) hkills (Nat.le_of_add_le_add_left hsteps)
      exact ⟨e :: fs, gs, u, rfl, .cons hstep.1 hu, hfree⟩
    · exact ⟨[e], es, m, rfl, .cons hstep.1 (.nil m), hpoint, hstate⟩

end Kernel

open Kernel (DueStep ownSteps)

/-- **I/O waits.** Task `i` has entered `IoWait` with deadline `d`, and `e` is a selection at or
after the deadline. The task has become runnable by then exactly if the interrupt has arrived
before it was killed; the deadline plays no part in it. A task that is runnable at or after the
deadline returns from `wait_for_io` in three steps of its own. -/
theorem ioWait_timeout {k m m' : Kernel} {es₀ es : List KernelEvent} {e : KernelEvent} {d : UInt32}
    (hboot : Run KernelStep Kernel.boot es₀ k) (hpoint : k.point k.sched.current = .ioArm d)
    (hrun : Run KernelStep (k.after (.proceed false)) es m) (hselects : m.Selects e)
    (_hdue : reached m.sched.ticks d) (hstep : KernelStep m e m') :
    ((k.after (.proceed false)).Wakes k.sched.current (es ++ [e]) ↔
      ∃ fs gs, es = fs ++ .diskIrq :: gs ∧ .call (.terminate k.sched.current) ∉ fs) ∧
    ∀ fs gs u v, Run KernelStep (k.after (.proceed false)) fs u →
      (u.sched.tasks k.sched.current).Runnable →
      u.point k.sched.current = .ioYield d ∨ u.point k.sched.current = .ioCheck d →
      Run (DueStep d) u gs v → .call (.terminate k.sched.current) ∉ gs →
      3 ≤ ownSteps k.sched.current u gs → u.Returns k.sched.current gs := by
  have hk := Kernel.sound_run hboot
  have harmed : KernelStep k (.proceed false) (k.after (.proceed false)) :=
    ⟨by rw [Kernel.Enabled, hpoint]; rintro ⟨⟩, rfl⟩
  have hsound := hk.step harmed
  constructor
  · rw [(Kernel.asleep_armed hpoint).wakes_iff hsound (hrun.append (.cons hstep (.nil m')))]
    -- The selection itself is not the interrupt.
    constructor
    · rintro ⟨fs, gs, heq, hkill⟩
      rcases List.eq_nil_or_concat gs with rfl | ⟨gs, e', rfl⟩
      · obtain ⟨-, hlast⟩ := List.append_inj' heq rfl
        rw [List.cons.inj hlast |>.1] at hselects
        exact hselects.elim
      · rw [List.concat_eq_append, ← List.cons_append, ← List.append_assoc] at heq
        exact ⟨fs, gs, (List.append_inj' heq rfl).1, hkill⟩
    · rintro ⟨fs, gs, rfl, hkill⟩
      exact ⟨fs, gs ++ [e], by simp, hkill⟩
  · intro fs gs u v hu hrunnable hpoint hdue hkill hsteps
    have halive : (u.sched.tasks k.sched.current).Alive := by
      rcases hrunnable with hstate | hstate <;>
        exact ⟨by rw [hstate]; rintro ⟨⟩, by rw [hstate]; rintro ⟨⟩⟩
    have hleaving : Kernel.Leaving k.sched.current d u :=
      ⟨halive, hpoint.elim .inl fun hp => .inr (.inl hp)⟩
    refine hleaving.run (hu.invariant (fun _ _ _ hk hstep => hk.step hstep) hsound) hdue hkill ?_
    refine Nat.le_trans ?_ hsteps
    rcases hpoint with hp | hp
    · rw [hp]
      exact Nat.le_refl 3
    · rw [hp]
      exact Nat.le_succ 2

/-- A task waits one tick for the disk, whose interrupt comes at its deadline. -/
theorem ioWait_timeout_interrupt :
    let k := ((Kernel.boot.after (.call (.spawn true))).after (.call .yield)).after
      (.call (.waitForIo 1))
    (k.after (.proceed false)).Wakes 1 ([.proceed false, .tick, .diskIrq] ++ [.call .yield]) ↔
      ∃ fs gs, [.proceed false, .tick, .diskIrq] = fs ++ KernelEvent.diskIrq :: gs ∧
        .call (.terminate 1) ∉ fs :=
  (ioWait_timeout
    (.cons (e := .call (.spawn true)) ⟨by decide, rfl⟩
      (.cons (e := .call .yield) ⟨by decide +kernel, rfl⟩
        (.cons (e := .call (.waitForIo 1)) ⟨by decide +kernel, rfl⟩ (.nil _))))
    (d := 1) (by decide +kernel)
    (.cons (e := .proceed false) ⟨by decide +kernel, rfl⟩
      (.cons (e := .tick) ⟨by decide, rfl⟩ (.cons (e := .diskIrq) ⟨by decide, rfl⟩ (.nil _))))
    (e := .call .yield) trivial (by decide +kernel) ⟨by decide +kernel, rfl⟩).1

/-- Without the interrupt, no selection after the deadline wakes the task. -/
theorem ioWait_timeout_lost : ¬ ∀ (es₀ es : List KernelEvent) (k m m' : Kernel) (e : KernelEvent)
    (d : UInt32), Run KernelStep Kernel.boot es₀ k → k.point k.sched.current = .ioArm d →
    Run KernelStep (k.after (.proceed false)) es m → m.Selects e → reached m.sched.ticks d →
    KernelStep m e m' → .call (.terminate k.sched.current) ∉ es →
    (k.after (.proceed false)).Wakes k.sched.current (es ++ [e]) := by
  intro hall
  let k := ((Kernel.boot.after (.call (.spawn true))).after (.call .yield)).after
    (.call (.waitForIo 1))
  have hboot : Run KernelStep Kernel.boot
      [.call (.spawn true), .call .yield, .call (.waitForIo 1)] k :=
    .cons ⟨by decide, rfl⟩ (.cons ⟨by decide +kernel, rfl⟩
      (.cons ⟨by decide +kernel, rfl⟩ (.nil _)))
  have hpoint : k.point k.sched.current = .ioArm 1 := by decide +kernel
  have hrun : Run KernelStep (k.after (.proceed false)) [.proceed false, .tick]
      (((k.after (.proceed false)).after (.proceed false)).after .tick) :=
    .cons ⟨by decide +kernel, rfl⟩ (.cons ⟨by decide, rfl⟩ (.nil _))
  obtain ⟨fs, gs, u, heq, hkill, hu, hrunnable⟩ := hall _ _ k _ _ (.call .yield) 1 hboot hpoint hrun
    trivial (by decide +kernel) ⟨by decide +kernel, rfl⟩ (by simp)
  have hsound := (Kernel.sound_run hboot).step (e := .proceed false) ⟨by decide +kernel, rfl⟩
  have hirq : KernelEvent.diskIrq ∉ fs := fun hmem => by
    have hmem' := List.mem_append_left gs hmem
    rw [← heq] at hmem'
    simp at hmem'
  exact ((Kernel.asleep_armed hpoint).run hsound hu hirq hkill).1.not_runnable hrunnable

end Tcmk
