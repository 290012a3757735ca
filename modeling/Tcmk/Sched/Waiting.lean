import Tcmk.Sched.Tasks

/-!
# Waiting for a child

`wake_expired` finds out that a child has ended by looking at its slot, so a task that waits is
safe as long as the slot stays with the child. It does when each task waits only for tasks that it
has forked (`Kernel.WaitsForOwn`): such a slot is kept until the one task that waits for it has
taken the exit code.

`SYS_WAITPID` does not check this. A task may name any other task, and one that nobody forked
gives its slot back as it ends.
-/

namespace Tcmk

open Lib

/-- The task has not begun to wait, for a child or the disk, and its exit code is the same. -/
structure Task.Still (t t' : Task) : Prop where
  waiting : t'.state = .waiting → t.state = .waiting ∧ t'.waitFor = t.waitFor
  ioWait : t'.state = .ioWait → t.state = .ioWait
  exitCode : t'.exitCode = t.exitCode

namespace Task.Still

variable {t t' t'' : Task}

theorem refl (t : Task) : t.Still t := ⟨fun h => ⟨h, rfl⟩, id, rfl⟩

theorem trans (h : t.Still t') (h' : t'.Still t'') : t.Still t'' := by
  refine ⟨fun hwaiting => ?_, h.ioWait ∘ h'.ioWait, h'.exitCode.trans h.exitCode⟩
  obtain ⟨hmid, heq'⟩ := h'.waiting hwaiting
  obtain ⟨hold, heq⟩ := h.waiting hmid
  exact ⟨hold, heq'.trans heq⟩

theorem of_fields (hstate : t'.state = t.state) (hwaitFor : t'.waitFor = t.waitFor)
    (hcode : t'.exitCode = t.exitCode) : t.Still t' :=
  ⟨fun h => ⟨hstate.symm.trans h, hwaitFor⟩, hstate.symm.trans, hcode⟩

/-- A task that does not wait has not begun to. -/
theorem of_state (state : TaskState) (hstate : t'.state = state)
    (hne : state ≠ .waiting ∧ state ≠ .ioWait) (hcode : t'.exitCode = t.exitCode) : t.Still t' :=
  ⟨fun h => absurd (hstate.symm.trans h) hne.1, fun h => absurd (hstate.symm.trans h) hne.2, hcode⟩

end Task.Still

namespace Sched

variable {s t : Sched} {i j : ℕ}

theorem still_modifyTask {f : Task → Task} (h : (s.tasks i).Still (f (s.tasks i))) (j : ℕ) :
    (s.tasks j).Still ((s.modifyTask i f).tasks j) := by
  rw [modifyTask_tasks]
  split_ifs with hj
  · exact hj ▸ h
  · exact .refl _

theorem still_setState {state : TaskState} (hne : state ≠ .waiting ∧ state ≠ .ioWait) (j : ℕ) :
    (s.tasks j).Still ((s.setState i state).tasks j) :=
  still_modifyTask (.of_state state rfl hne rfl) j

theorem still_fallAsleep (s : Sched) (wakeTick : UInt32) (i : ℕ) :
    (s.tasks i).Still ((s.fallAsleep wakeTick).tasks i) :=
  still_modifyTask (.of_state .blocked rfl (by decide) rfl) i

theorem still_wake (now : UInt32) (tasks : ℕ → Task) (t : Task) : t.Still (wake now tasks t) := by
  rcases wake_cases now tasks t with heq | hready
  · rw [heq]
    exact .refl t
  · refine .of_state _ hready (by decide) ?_
    unfold wake
    split
    · split_ifs <;> rfl
    · split_ifs <;> rfl
    · rfl

theorem still_wakeExpired (s : Sched) (i : ℕ) : (s.tasks i).Still (s.wakeExpired.tasks i) := by
  rw [wakeExpired_tasks]
  split_ifs
  · exact still_wake ..
  · exact .refl _

theorem still_refillCredits (s : Sched) (i : ℕ) :
    (s.tasks i).Still (s.refillCredits.tasks i) := by
  rw [refillCredits_tasks]
  split_ifs
  · exact .of_fields rfl rfl rfl
  · exact .refl _

theorem still_pickNext (s : Sched) (c i : ℕ) : (s.tasks i).Still ((s.pickNext c).2.tasks i) := by
  have hrefill : (s.tasks i).Still (s.wakeExpired.refillCredits.tasks i) :=
    (still_wakeExpired s i).trans (still_refillCredits _ i)
  unfold pickNext
  simp only
  split
  · exact still_wakeExpired s i
  · split <;> exact hrefill

theorem still_switchTo {next : ℕ} (hne : next ≠ s.current) (i : ℕ) :
    (s.tasks i).Still ((s.switchTo next).tasks i) := by
  have hwaitFor := switchTo_field Task.waitFor (fun _ _ => rfl) (fun _ _ => rfl) s next i
  have hcode := switchTo_field Task.exitCode (fun _ _ => rfl) (fun _ _ => rfl) s next i
  have hstate := switchTo_state s i hne
  split_ifs at hstate
  · exact .of_state _ hstate (by decide) hcode
  · exact .of_state _ hstate (by decide) hcode
  · exact .of_fields hstate hwaitFor hcode

theorem still_yieldNow (s : Sched) (i : ℕ) : (s.tasks i).Still (s.yieldNow.tasks i) := by
  obtain ⟨u, rfl, hcases⟩ := s.yieldNow_cases
  have hpick := still_pickNext { s with needResched := false } s.current i
  rcases hcases with ⟨-, heq⟩ | ⟨hne, heq⟩
  · rw [heq]
    exact hpick
  · rw [heq]
    exact hpick.trans (still_switchTo (by rwa [pickNext_current]) i)

theorem still_preemptFromTimer (s : Sched) (i : ℕ) :
    (s.tasks i).Still (s.preemptFromTimer.tasks i) := by
  unfold Sched.preemptFromTimer
  split_ifs
  · exact .refl _
  · exact .refl _
  · exact .refl _
  · exact still_yieldNow { s with preemptions := s.preemptions + 1 } i

theorem still_onTimerTick (s : Sched) (i : ℕ) : (s.tasks i).Still (s.onTimerTick.tasks i) :=
  .of_fields (onTimerTick_field Task.state (fun _ _ => rfl) (fun _ _ => rfl) s i)
    (onTimerTick_field Task.waitFor (fun _ _ => rfl) (fun _ _ => rfl) s i)
    (onTimerTick_field Task.exitCode (fun _ _ => rfl) (fun _ _ => rfl) s i)

theorem still_wakeIoWaiters (s : Sched) (i : ℕ) :
    (s.tasks i).Still (s.wakeIoWaiters.tasks i) := by
  rw [wakeIoWaiters_tasks]
  split_ifs
  · exact .of_state .ready rfl (by decide) rfl
  · exact .refl _

theorem still_releaseSlot (s : Sched) (i j : ℕ) :
    (s.tasks j).Still ((s.releaseSlot i).tasks j) :=
  still_modifyTask (.of_state .unused rfl (by decide) rfl) j

theorem still_reapOrphans (s : Sched) (i : ℕ) : (s.tasks i).Still (s.reapOrphans.tasks i) := by
  unfold Sched.reapOrphans
  refine List.foldlRecOn (motive := fun t : Sched => (s.tasks i).Still (t.tasks i)) _ _
    (.refl _) fun t ht j _ => ?_
  split_ifs
  · exact ht
  · exact ht
  · exact ht.trans (still_releaseSlot t j i)

theorem still_terminateCurrent (s : Sched) (i : ℕ) :
    (s.tasks i).Still (s.terminateCurrent.tasks i) := by
  have hset : (s.tasks i).Still ((s.setState s.current .terminated).tasks i) :=
    still_modifyTask (.of_state .terminated rfl (by decide) rfl) i
  unfold Sched.terminateCurrent
  simp only
  split_ifs
  · exact (hset.trans (still_releaseSlot ..)).trans (still_reapOrphans ..)
  · exact hset.trans (still_reapOrphans ..)

theorem still_terminate {index space : ℕ} (h : s.terminate index = some (space, t)) (i : ℕ) :
    (s.tasks i).Still (t.tasks i) := by
  have hset : (s.tasks i).Still ((s.modifyTask index fun t =>
      { t with state := .terminated, addressSpace := 0 }).tasks i) :=
    still_modifyTask (.of_state .terminated rfl (by decide) rfl) i
  unfold Sched.terminate at h
  simp only at h
  split_ifs at h
  · obtain ⟨-, rfl⟩ := Prod.mk.inj (Option.some.inj h)
    exact hset.trans (still_releaseSlot ..)
  · obtain ⟨-, rfl⟩ := Prod.mk.inj (Option.some.inj h)
    exact hset

end Sched

/-! ### Steps -/

namespace Kernel

/-- The task that the step begins to wait for. -/
def blocksOn (k : Kernel) : KernelEvent → Option ℕ
  | .call (.waitpid pid nohang) =>
    match (k.sched.waitpid pid nohang).1 with
    | .blocked child => some child
    | _ => none
  | _ => none

variable {k k' : Kernel} {e : KernelEvent} {es : List KernelEvent} {i child : ℕ}

/-- A `waitpid` that blocks. -/
theorem blocksOn_some (h : k.blocksOn e = some child) : ∃ pid nohang,
    e = .call (.waitpid pid nohang) ∧
      k.sched.waitpid pid nohang = (.blocked child, k.sched.startWaiting child) ∧
      k.after e = k.enter (.childYield child) (k.sched.startWaiting child) := by
  cases e with
  | call c =>
    cases c with
    | waitpid pid nohang =>
      have hwaits := k.sched.waits_waitpid pid nohang
      simp only [blocksOn] at h
      generalize hr : k.sched.waitpid pid nohang = r at h hwaits
      obtain ⟨w, s⟩ := r
      cases w with
      | blocked c =>
        obtain rfl := Option.some.inj h
        have hs : s = k.sched.startWaiting c := by
          cases hwaits
          rfl
        rw [hs] at hr
        refine ⟨pid, nohang, rfl, hr, ?_⟩
        simp only [after, afterCall, hr]
      | _ => cases h
    | _ => cases h
  | _ => cases h

/-- What a step does to the fields of task `i` that a waiting task looks at. -/
inductive Course (k : Kernel) (e : KernelEvent) (k' : Kernel) (i : ℕ) : Prop
  | still (h : (k.sched.tasks i).Still (k'.sched.tasks i))
  | spawned (hold : (k.sched.tasks i).state = .unused) (hnew : (k'.sched.tasks i).state = .ready)
  | exitCode (hi : i = k.sched.current) (hpoint : k.point i = .free)
      (hstate : (k'.sched.tasks i).state = (k.sched.tasks i).state)
      (hwaitFor : (k'.sched.tasks i).waitFor = (k.sched.tasks i).waitFor)
  | armed (he : e = .proceed false) (hi : i = k.sched.current)
      (hstate : (k'.sched.tasks i).state = .ioWait)
      (hcode : (k'.sched.tasks i).exitCode = (k.sched.tasks i).exitCode)
  | blocked {child : ℕ} (he : k.blocksOn e = some child) (hi : i = k.sched.current)
      (hstate : (k'.sched.tasks i).state = .waiting)
      (hwaitFor : (k'.sched.tasks i).waitFor = child + 1) (hpoint : k'.point i = .childYield child)

theorem course_call {c : TaskCall} (h : k.Sound) (henabled : k.Enabled (.call c)) (i : ℕ) :
    k.Course (.call c) (k.after (.call c)) i := by
  cases c with
  | spawn waitable =>
    have hspawn := Sched.spawnInner_tasks h.sched.beyond waitable i
    have hsched : (k.after (.call (.spawn waitable))).sched = (k.sched.spawnInner waitable).2 := by
      simp only [after, afterCall]
      split <;> rename_i heq <;> rw [heq]
      rfl
    rcases hspawn with ⟨htasks, -⟩ | ⟨hold, -, hnew, -⟩
    · refine .still ?_
      rw [hsched, htasks]
      exact .refl _
    · exact .spawned hold (by rwa [hsched])
  | yield => exact .still (Sched.still_yieldNow k.sched i)
  | sleep ticks =>
    simp only [after, afterCall]
    split_ifs
    · exact .still (Sched.still_yieldNow k.sched i)
    · exact .still (Sched.still_fallAsleep ..)
  | waitForIo timeout =>
    simp only [after, afterCall]
    split_ifs <;> exact .still (.refl _)
  | waitpid pid nohang =>
    have hwaits := k.sched.waits_waitpid pid nohang
    cases hblocks : k.blocksOn (.call (.waitpid pid nohang)) with
    | some child =>
      obtain ⟨-, -, -, -, hafter⟩ := blocksOn_some hblocks
      rw [hafter]
      by_cases hi : i = k.sched.current
      · subst hi
        refine .blocked hblocks rfl ?_ ?_ (Function.update_self ..) <;>
          simp only [enter, Sched.startWaiting, Sched.modifyTask_self]
      · refine .still ?_
        simp only [enter, Sched.startWaiting, Sched.modifyTask_tasks, if_neg hi]
        exact .refl _
    | none =>
      simp only [blocksOn] at hblocks
      generalize hr : k.sched.waitpid pid nohang = r at hblocks hwaits
      obtain ⟨w, s⟩ := r
      refine .still ?_
      simp only [after, afterCall, hr]
      cases hwaits with
      | block => cases hblocks
      | collect => exact Sched.still_releaseSlot ..
      | _ => exact .refl _
  | setNice index value =>
    refine .still ?_
    simp only [after, afterCall, withSched]
    rcases k.sched.setNice_getD index value with heq | heq
    · rw [heq]
      exact .refl _
    · rw [heq]
      exact Sched.still_modifyTask (.of_fields rfl rfl rfl) i
  | setExitCode code =>
    by_cases hi : i = k.sched.current
    · subst hi
      refine .exitCode rfl henabled.1 ?_ ?_ <;>
        simp only [after, afterCall, withSched, Sched.modifyTask_self]
    · refine .still ?_
      simp only [after, afterCall, withSched, Sched.modifyTask_tasks, if_neg hi]
      exact .refl _
  | terminate index =>
    simp only [after, afterCall]
    split
    · rename_i heq
      exact .still (Sched.still_terminate heq i)
    · exact .still (.refl _)
  | exit => exact .still (Sched.still_terminateCurrent k.sched i)

theorem course (h : k.Sound) (hstep : KernelStep k e k') (i : ℕ) : k.Course e k' i := by
  obtain ⟨henabled, rfl⟩ := hstep
  cases e with
  | tick => exact .still (Sched.still_onTimerTick k.sched i)
  | preempt => exact .still (Sched.still_preemptFromTimer k.sched i)
  | diskIrq => exact .still (Sched.still_wakeIoWaiters k.sched i)
  | call c => exact course_call h henabled i
  | proceed ready =>
    simp only [after, afterProceed]
    cases k.point k.sched.current with
    | awake => exact .still (Sched.still_setState (by decide) i)
    | ioArm deadline =>
      cases ready with
      | true => exact .still (.refl _)
      | false =>
        by_cases hi : i = k.sched.current
        · subst hi
          refine .armed rfl rfl ?_ ?_ <;>
            simp [enter, Sched.awaitDevice, Sched.setState, Sched.modifyTask_self]
        · refine .still ?_
          simp only [Bool.false_eq_true, if_false, enter, Sched.awaitDevice, Sched.setState,
            Sched.modifyTask_tasks, if_neg hi]
          exact .refl _
    | childCheck child =>
      refine .still ?_
      simp only
      split_ifs
      · exact Sched.still_releaseSlot ..
      · exact .refl _
    | _ =>
      refine .still ?_
      simp only
      first
        | exact Sched.still_yieldNow k.sched i
        | split_ifs <;> exact .refl _
        | exact .refl _

/-! ### Waits for own children -/

/-- Every task in use that a waiting `waitpid` asks for is one that the caller has forked. -/
def WaitsForOwn (k : Kernel) : KernelEvent → Prop
  | .call (.waitpid pid false) => k.sched.current ≠ idleTask → ∀ child ≠ k.sched.current,
      (k.sched.tasks child).state ≠ .unused →
      pid = none ∧ (k.sched.tasks child).parent = k.sched.current ∨ pid = some child →
      (k.sched.tasks child).parent = k.sched.current ∧ (k.sched.tasks child).waitable = true
  | _ => True

/-- Task `child` is in use, and was forked by the task in slot `i`. -/
structure ChildOf (k : Kernel) (child i : ℕ) : Prop where
  used : (k.sched.tasks child).state ≠ .unused
  parent : (k.sched.tasks child).parent = i
  waitable : (k.sched.tasks child).waitable = true

/-- Task `i` is in `wait_for_task` for `child`. -/
def AwaitsChild (k : Kernel) (i child : ℕ) : Prop :=
  k.point i = .childYield child ∨ k.point i = .childCheck child

/-- The children that tasks wait for are theirs, as long as they live. -/
def Waiting (k : Kernel) : Prop :=
  ∀ i child, (k.sched.tasks i).Alive → k.AwaitsChild i child → k.ChildOf child i

theorem AwaitsChild.not_free (h : k.AwaitsChild i child) : k.point i ≠ .free := by
  rcases h with hp | hp <;> rw [hp] <;> rintro ⟨⟩

theorem AwaitsChild.not_idle (h : k.AwaitsChild i child) (hk : k.Sound) : i ≠ idleTask := by
  rintro rfl
  exact h.not_free hk.idle

/-- A collection that may wait is one of the current task's child, and releases the slot. -/
theorem collected_child {code : UInt32} (h : k.Sound) (hwaiting : k.Waiting)
    (henabled : k.Enabled e) (hown : k.WaitsForOwn e)
    (hpeek : ∀ c, e = .call (.waitpid (some c) true) → (k.sched.tasks c).state ≠ .terminated)
    (hcollected : k.collected e = some (child, code)) :
    (k.sched.tasks child).state = .terminated ∧ (k.sched.tasks child).parent = k.sched.current ∧
      ((k.after e).sched.tasks child).state = .unused ∧ k.Acts k.sched.current e ∧
      (k.after e).point k.sched.current = .free := by
  have hreleased : ∀ {s : Sched}, ((s.releaseSlot child).tasks child).state = .unused := by
    intro s
    rw [Sched.releaseSlot_tasks, if_pos rfl]
    rfl
  cases e with
  | call c =>
    cases c with
    | waitpid pid nohang =>
      have halive : (k.sched.tasks k.sched.current).Alive := h.alive.resolve_left fun hhalted => by
        rw [henabled.1] at hhalted
        cases hhalted
      have hwaits := k.sched.waits_waitpid pid nohang
      simp only [Kernel.collected] at hcollected
      generalize hr : k.sched.waitpid pid nohang = r at hcollected hwaits
      obtain ⟨w, s⟩ := r
      have hsched : (k.after (.call (.waitpid pid nohang))).sched = s := by
        simp only [after, afterCall, hr]
        split <;> rename_i heq <;> cases heq <;> rfl
      have hpoint : (∀ child, w ≠ .blocked child) →
          (k.after (.call (.waitpid pid nohang))).point k.sched.current = .free := fun hw => by
        simp only [after, afterCall, hr]
        exact henabled.1
      rw [hsched]
      cases hwaits with
      | noChild => cases hcollected
      | notYet => cases hcollected
      | block => cases hcollected
      | peek hpid hnohang hended =>
        subst hpid hnohang
        exact absurd hended (hpeek _ rfl)
      | @collect child' hwho hended =>
        obtain ⟨heq, -⟩ := Prod.mk.inj (Option.some.inj hcollected)
        have heq : child' = child := heq
        subst heq
        refine ⟨hended, ?_, hreleased, rfl, hpoint (by rintro _ ⟨⟩)⟩
        rcases hwho with ⟨-, hparent⟩ | rfl
        · exact hparent
        · cases nohang with
          | true => exact absurd hended (hpeek _ rfl)
          | false =>
            have hidle : k.sched.current ≠ idleTask := fun hidle => by
              -- The idle task does not wait.
              have hnone : (k.sched.waitpid (some child') false).1 = .noChild := by
                simp only [Sched.waitpid, Sched.waitForTask, hidle]
                split_ifs <;> simp_all
              rw [hr] at hnone
              cases hnone
            refine (hown hidle child' ?_ (by rw [hended]; rintro ⟨⟩) (.inr rfl)).1
            rintro rfl
            exact halive.2 hended
    | _ => cases hcollected
  | proceed ready =>
    simp only [Kernel.collected] at hcollected
    cases hpoint : k.point k.sched.current with
    | childCheck child' =>
      rw [hpoint] at hcollected
      simp only at hcollected
      split_ifs at hcollected with hended
      obtain ⟨rfl, -⟩ := Prod.mk.inj (Option.some.inj hcollected)
      have halive := h.alive.resolve_left (by rw [hpoint]; rintro ⟨⟩)
      refine ⟨hended, (hwaiting _ _ halive (.inr hpoint)).parent, ?_, rfl, ?_⟩
      · simp only [after, afterProceed, hpoint, if_pos hended]
        exact hreleased
      · simp only [after, afterProceed, hpoint, if_pos hended]
        exact enter_self ..
    | _ =>
      rw [hpoint] at hcollected
      cases hcollected
  | _ => cases hcollected

/-- A task that waits for a child goes on waiting, or starts to. -/
theorem waits_step (hstep : KernelStep k e k') (hacts : k.Acts i e)
    (hpoint : k'.AwaitsChild i child) :
    k.AwaitsChild i child ∨ k.blocksOn e = some child ∧ i = k.sched.current := by
  obtain ⟨henabled, rfl⟩ := hstep
  -- The points that a call or a step of another kind leads to are not of this kind.
  have hno : ∀ {p : Point} {s : Sched}, k.sched.current = i → (k.enter p s).AwaitsChild i child →
      p ≠ .childYield child → p ≠ .childCheck child → False := fun hi hpoint hy hc => by
    rw [AwaitsChild, ← hi, enter_self] at hpoint
    exact hpoint.elim hy hc
  cases e with
  | tick => exact hacts.elim
  | preempt => exact hacts.elim
  | diskIrq => exact hacts.elim
  | call c =>
    have hi : k.sched.current = i := hacts
    have hfree : ¬ k.AwaitsChild i child := fun hawaits => hawaits.not_free (hi ▸ henabled.1)
    cases c with
    | waitpid pid nohang =>
      cases hblocks : k.blocksOn (.call (.waitpid pid nohang)) with
      | some child' =>
        obtain ⟨-, -, -, -, hafter⟩ := blocksOn_some hblocks
        rw [hafter, AwaitsChild, ← hi, enter_self] at hpoint
        refine .inr ⟨?_, hi.symm⟩
        rcases hpoint with hp | hp <;> cases hp
        rfl
      | none =>
        simp only [blocksOn] at hblocks
        simp only [after, afterCall] at hpoint
        split at hpoint
        · rename_i heq
          rw [heq] at hblocks
          cases hblocks
        · exact absurd hpoint hfree
    | spawn waitable =>
      simp only [after, afterCall] at hpoint
      split at hpoint
      · rename_i index s heq
        rw [AwaitsChild, show (⟨s, Function.update k.point index .free⟩ : Kernel).point i =
          Function.update k.point index .free i from rfl, Function.update_apply] at hpoint
        split_ifs at hpoint
        · rcases hpoint with hp | hp <;> cases hp
        · exact absurd hpoint hfree
      · exact absurd hpoint hfree
    | terminate index =>
      simp only [after, afterCall] at hpoint
      split at hpoint <;> exact absurd hpoint hfree
    | exit =>
      simp only [after, afterCall] at hpoint
      exact (hno hi hpoint (by rintro ⟨⟩) (by rintro ⟨⟩)).elim
    | _ =>
      simp only [after, afterCall] at hpoint
      first
        | exact absurd hpoint hfree
        | split_ifs at hpoint <;> first
          | exact absurd hpoint hfree
          | exact (hno hi hpoint (by rintro ⟨⟩) (by rintro ⟨⟩)).elim
  | proceed ready =>
    have hi : k.sched.current = i := hacts
    have hsame : ∀ {p : Point} {child' : ℕ} {s : Sched},
        p = .childYield child' ∨ p = .childCheck child' → (k.enter p s).AwaitsChild i child →
        child' = child := fun hp hpoint => by
      rw [AwaitsChild, ← hi, enter_self] at hpoint
      rcases hp with rfl | rfl <;> rcases hpoint with hpoint | hpoint <;> cases hpoint <;> rfl
    cases hcur : k.point k.sched.current with
    | childYield child' =>
      simp only [after, afterProceed, hcur] at hpoint
      obtain rfl := hsame (.inr rfl) hpoint
      exact .inl (.inl (hi ▸ hcur))
    | childCheck child' =>
      simp only [after, afterProceed, hcur] at hpoint
      split_ifs at hpoint
      · exact (hno hi hpoint (by rintro ⟨⟩) (by rintro ⟨⟩)).elim
      · obtain rfl := hsame (.inl rfl) hpoint
        exact .inl (.inr (hi ▸ hcur))
    | free => exact absurd hcur henabled
    | _ =>
      simp only [after, afterProceed, hcur] at hpoint
      first
        | exact (hno hi hpoint (by rintro ⟨⟩) (by rintro ⟨⟩)).elim
        | split_ifs at hpoint <;> exact (hno hi hpoint (by rintro ⟨⟩) (by rintro ⟨⟩)).elim

/-- A task blocks on a child of its own. -/
theorem blocksOn_child (h : k.WaitsForOwn e) (hblocks : k.blocksOn e = some child) :
    k.ChildOf child k.sched.current ∧ k.sched.current ≠ idleTask ∧ child ≠ k.sched.current := by
  obtain ⟨pid, nohang, rfl, hr, -⟩ := blocksOn_some hblocks
  have hwaits := k.sched.waits_waitpid pid nohang
  rw [hr] at hwaits
  generalize hs : k.sched.startWaiting child = s at hwaits hr
  cases hwaits with
  | block hwho hidle hne hused =>
    cases nohang with
    | true =>
      -- With `WNOHANG` the call does not wait.
      exfalso
      cases pid with
      | none =>
        simp only [Sched.waitpid, Sched.reapFinishedChild] at hr
        split_ifs at hr
        · cases hr
        · split at hr <;> cases hr
      | some c =>
        simp only [Sched.waitpid] at hr
        split_ifs at hr <;> cases hr
    | false =>
      obtain ⟨hparent, hwaitable⟩ := h hidle child hne hused hwho
      exact ⟨⟨hused, hparent, hwaitable⟩, hidle, hne⟩

/-- A child stays until its living parent collects it. -/
theorem ChildOf.step (hchild : k.ChildOf child i) (h : k.Sound) (hstep : KernelStep k e k')
    (hwaiting : k.Waiting) (hown : k.WaitsForOwn e) (halive : (k'.sched.tasks i).Alive)
    (hpoint : k.Acts i e → k'.point i ≠ .free) :
    k'.ChildOf child i ∧ ((k.sched.tasks child).state = .terminated →
      (k'.sched.tasks child).state = .terminated) := by
  obtain ⟨hused, hparent, hwaitable⟩ := hchild
  cases change h hstep child with
  | like hlike =>
    exact ⟨⟨fun heq => hused (hlike.unused.1 heq), hlike.parent.trans hparent,
      hlike.waitable.trans hwaitable⟩, hlike.ended.2⟩
  | woken _ hold hnew =>
    rw [hnew]
    refine ⟨⟨?_, ?_, ?_⟩, fun hended => ?_⟩
    · rw [hnew]
      rintro ⟨⟩
    · rw [hnew]
      exact hparent
    · rw [hnew]
      exact hwaitable
    · rw [hold] at hended
      cases hended
  | own _ hold hnew hsame hsame' =>
    exact ⟨⟨hnew.1, hsame.trans hparent, hsame'.trans hwaitable⟩, fun hended =>
      absurd hended hold.2⟩
  | spawned _ _ hold => exact absurd hold hused
  | ended _ _ _ hnew hsame hsame' =>
    exact ⟨⟨by rw [hnew]; rintro ⟨⟩, hsame.trans hparent, hsame'⟩, fun _ => hnew⟩
  | freed _ hwhy =>
    rcases hwhy with ⟨-, hfalse⟩ | hdead
    · rw [hwaitable] at hfalse
      cases hfalse
    · exact absurd halive (hparent ▸ hdead)
  | collected he hold hnew =>
    obtain ⟨henabled, rfl⟩ := hstep
    have hpeek : ∀ c, e = .call (.waitpid (some c) true) → (k.sched.tasks c).state ≠
      .terminated := by
      rintro c rfl hended
      -- The call leaves the slot in use.
      have hsched : (k.after (.call (.waitpid (some c) true))).sched = k.sched := by
        simp only [after, afterCall, Sched.waitpid]
        split_ifs <;> rfl
      rw [hsched, hold] at hnew
      cases hnew
    obtain ⟨-, hcurrent, -, hacts, hfree⟩ := collected_child h hwaiting henabled hown hpeek he
    rw [← hcurrent, hparent] at hacts hfree
    exact absurd hfree (hpoint hacts)

/-- A living task that waits has waited before, or starts to. -/
theorem awaits_step (h : k.Sound) (hstep : KernelStep k e k') (halive : (k'.sched.tasks i).Alive)
    (hawaits : k'.AwaitsChild i child) :
    (k.sched.tasks i).Alive ∧ k.AwaitsChild i child ∨
      k.blocksOn e = some child ∧ i = k.sched.current := by
  by_cases hacts : k.Acts i e
  · refine (waits_step hstep hacts hawaits).imp (fun hold => ⟨?_, hold⟩) id
    have hi := hacts.current
    subst hi
    refine h.alive.resolve_left fun hhalted => ?_
    rcases hold with hp | hp <;> rw [hp] at hhalted <;> cases hhalted
  · rcases (change h hstep i).alive halive with hold | ⟨waitable, rfl, hindex⟩
    · have hsame := point_step h hstep hold.1 hacts
      rw [AwaitsChild, hsame] at hawaits
      exact .inl ⟨hold, hawaits⟩
    · obtain ⟨-, rfl⟩ := hstep
      exact absurd (spawned_point hindex) hawaits.not_free

theorem waiting_step (h : k.Sound) (hstep : KernelStep k e k') (hwaiting : k.Waiting)
    (hown : k.WaitsForOwn e) : k'.Waiting := by
  intro i child halive hawaits
  have hfree := hawaits.not_free
  rcases awaits_step h hstep halive hawaits with ⟨hold, hchild⟩ | ⟨hblocks, rfl⟩
  · exact ((hwaiting i child hold hchild).step h hstep hwaiting hown halive fun _ => hfree).1
  · obtain ⟨hchild, -⟩ := blocksOn_child hown hblocks
    exact (hchild.step h hstep hwaiting hown halive fun _ => hfree).1

theorem waiting_boot : boot.Waiting := by
  rintro i child - (hp | hp) <;> cases hp

/-- A task in the middle of a call does not begin to wait. -/
theorem blocksOn_ne (henabled : k.Enabled e) (hblocks : k.blocksOn e = some child)
    (hfree : k.point i ≠ .free) : i ≠ k.sched.current := by
  obtain ⟨pid, nohang, rfl, -⟩ := blocksOn_some hblocks
  rintro rfl
  exact hfree henabled.1

/-! ### The state `Waiting` -/

/-- Task `i` sleeps in `wait_for_task`. -/
structure Sleeps (k : Kernel) (i child : ℕ) : Prop where
  waitFor : (k.sched.tasks i).waitFor = child + 1
  point : k.point i = .childYield child ∨ k.point i = .childCheck child ∧ k.sched.current ≠ i

theorem Sleeps.awaits (h : k.Sleeps i child) : k.AwaitsChild i child := h.point.imp id And.left

/-- A task in state `Waiting` has been so before, or starts to. -/
theorem sleeps_step (h : k.Sound) (hstep : KernelStep k e k')
    (hsleeps : (k.sched.tasks i).state = .waiting → ∃ child, k.Sleeps i child)
    (hstate : (k'.sched.tasks i).state = .waiting) : ∃ child, k'.Sleeps i child := by
  have hgo : (k.sched.tasks i).state = .waiting →
      (k'.sched.tasks i).waitFor = (k.sched.tasks i).waitFor → ∃ child, k'.Sleeps i child :=
    fun hold hwaitFor => by
      obtain ⟨child, hsleep⟩ := hsleeps hold
      refine ⟨child, hwaitFor.trans hsleep.waitFor, ?_⟩
      have hfree := hsleep.awaits.not_free
      by_cases hacts : k.Acts i e
      · have hyield := yieldNow_current h.sched
        obtain ⟨henabled, rfl⟩ := hstep
        cases e with
        | call c => exact absurd (hacts ▸ henabled.1) hfree
        | proceed ready =>
          have hi : k.sched.current = i := hacts
          have hp := hsleep.point.resolve_right fun hp => hp.2 hi
          have hafter : k.after (.proceed ready) = k.enter (.childCheck child)
            k.sched.yieldNow := by
            simp only [after, afterProceed, hi, hp]
          rw [hafter] at hstate ⊢
          refine .inr ⟨hi ▸ enter_self .., fun heq => ?_⟩
          have heq : k.sched.yieldNow.current = i := heq
          have hstate : (k.sched.yieldNow.tasks i).state = .waiting := hstate
          -- The task has lost the processor, which goes to one that runs.
          rcases hyield with ⟨-, hready⟩ | hrunning
          · rw [hi, hstate] at hready
            cases hready
          · rw [heq, hstate] at hrunning
            cases hrunning
        | _ => exact hacts.elim
      · rw [point_step h hstep (by rw [hold]; rintro ⟨⟩) hacts]
        refine hsleep.point.imp id fun hp => ⟨hp.1, fun heq => ?_⟩
        rcases current_step h hstep with hcurrent | hrunning
        · exact hp.2 (hcurrent.symm.trans heq)
        · rw [heq, hstate] at hrunning
          cases hrunning
  cases course h hstep i with
  | still hstill => exact hgo (hstill.waiting hstate).1 (hstill.waiting hstate).2
  | spawned _ hnew =>
    rw [hnew] at hstate
    cases hstate
  | exitCode _ _ hsame hwaitFor => exact hgo (hsame.symm.trans hstate) hwaitFor
  | armed _ _ hnew =>
    rw [hnew] at hstate
    cases hstate
  | @blocked child _ hi _ hwaitFor hpoint => exact ⟨child, hwaitFor, .inl hpoint⟩

/-- The exit code of a task that has ended does not change. -/
theorem exitCode_step (h : k.Sound) (hstep : KernelStep k e k')
    (hended : (k.sched.tasks i).state = .terminated) :
    (k'.sched.tasks i).exitCode = (k.sched.tasks i).exitCode := by
  have hcurrent : i = k.sched.current → k.point i ≠ .free := by
    rintro rfl hfree
    have halive := h.alive.resolve_left (by rw [hfree]; rintro ⟨⟩)
    exact halive.2 hended
  cases course h hstep i with
  | still hstill => exact hstill.exitCode
  | spawned hold =>
    rw [hended] at hold
    cases hold
  | exitCode hi hpoint => exact absurd hpoint (hcurrent hi)
  | armed _ _ _ hcode => exact hcode
  | blocked hblocks hi =>
    obtain ⟨pid, nohang, rfl, -⟩ := blocksOn_some hblocks
    exact absurd (hi ▸ hstep.1.1) (hcurrent hi)

/-- A task that is in `IoWait` has been there before, or has just found the disk not ready. -/
theorem ioWait_step (h : k.Sound) (hstep : KernelStep k e k')
    (hstate : (k'.sched.tasks i).state = .ioWait) :
    (k.sched.tasks i).state = .ioWait ∨ e = .proceed false ∧ i = k.sched.current := by
  cases course h hstep i with
  | still hstill => exact .inl (hstill.ioWait hstate)
  | spawned _ hnew =>
    rw [hnew] at hstate
    cases hstate
  | exitCode _ _ hsame => exact .inl (hsame.symm.trans hstate)
  | armed he hi => exact .inr ⟨he, hi⟩
  | blocked _ _ hnew =>
    rw [hnew] at hstate
    cases hstate

end Kernel

end Tcmk
