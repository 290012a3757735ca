import Tcmk.Sched.Tasks

/-!
# Where a task lives

The stacks of a task and its address space are set when the task is created, and by the code that
runs a program. The scheduler leaves them alone, and loads the address space of the task that it
switches to (`Kernel.settled_step`).
-/

namespace Tcmk

open Lib

/-- The stacks and the address space are the same. -/
structure Task.SameHome (t t' : Task) : Prop where
  stackTop : t'.stackTop = t.stackTop
  kernelStackTop : t'.kernelStackTop = t.kernelStackTop
  addressSpace : t'.addressSpace = t.addressSpace

namespace Task.SameHome

variable {t t' t'' : Task}

theorem refl (t : Task) : t.SameHome t := ⟨rfl, rfl, rfl⟩

theorem trans (h : t.SameHome t') (h' : t'.SameHome t'') : t.SameHome t'' where
  stackTop := h'.stackTop.trans h.stackTop
  kernelStackTop := h'.kernelStackTop.trans h.kernelStackTop
  addressSpace := h'.addressSpace.trans h.addressSpace

end Task.SameHome

namespace Sched

/-- From `s` to `t` no task moves, and the page directory in use is that of the current task if
there has been a switch. -/
structure Settled (s t : Sched) : Prop where
  home : ∀ i, (s.tasks i).SameHome (t.tasks i)
  heap : t.heap = s.heap
  cr3 : t.current = s.current ∧ t.cr3 = s.cr3 ∨ t.cr3 = (t.tasks t.current).addressSpace

variable {s t u : Sched} {i : ℕ}

namespace Settled

/-- No switch. -/
theorem of_same (home : ∀ i, (s.tasks i).SameHome (t.tasks i)) (heap : t.heap = s.heap)
    (current : t.current = s.current) (cr3 : t.cr3 = s.cr3) : Settled s t :=
  ⟨home, heap, .inl ⟨current, cr3⟩⟩

theorem refl (s : Sched) : Settled s s := of_same (fun _ => .refl _) rfl rfl rfl

theorem trans (h : Settled s t) (h' : Settled t u) : Settled s u where
  home i := (h.home i).trans (h'.home i)
  heap := h'.heap.trans h.heap
  cr3 := by
    rcases h'.cr3 with ⟨hcurrent', hcr3'⟩ | hload'
    · rcases h.cr3 with ⟨hcurrent, hcr3⟩ | hload
      · exact .inl ⟨hcurrent'.trans hcurrent, hcr3'.trans hcr3⟩
      · refine .inr ?_
        rw [hcr3', hload, hcurrent', (h'.home _).addressSpace]
    · exact .inr hload'

end Settled

theorem settled_modifyTask {f : Task → Task} (h : (s.tasks i).SameHome (f (s.tasks i))) :
    Settled s (s.modifyTask i f) := by
  refine .of_same (fun j => ?_) rfl rfl rfl
  rw [modifyTask_tasks]
  split_ifs with hj
  · exact hj ▸ h
  · exact .refl _

theorem settled_wakeExpired (s : Sched) : Settled s s.wakeExpired := by
  refine .of_same (fun i => ?_) rfl rfl rfl
  rw [wakeExpired_tasks]
  split_ifs
  · unfold wake
    split
    · split_ifs <;> exact ⟨rfl, rfl, rfl⟩
    · split_ifs <;> exact ⟨rfl, rfl, rfl⟩
    · exact .refl _
  · exact .refl _

theorem settled_refillCredits (s : Sched) : Settled s s.refillCredits := by
  refine .of_same (fun i => ?_) rfl rfl rfl
  rw [refillCredits_tasks]
  split_ifs <;> exact ⟨rfl, rfl, rfl⟩

theorem settled_wakeIoWaiters (s : Sched) : Settled s s.wakeIoWaiters := by
  refine .of_same (fun i => ?_) rfl rfl rfl
  rw [wakeIoWaiters_tasks]
  split_ifs <;> exact ⟨rfl, rfl, rfl⟩

theorem settled_pickNext (s : Sched) (c : ℕ) : Settled s (s.pickNext c).2 := by
  have hrefill := (settled_wakeExpired s).trans (settled_refillCredits _)
  unfold pickNext
  simp only
  split
  · exact settled_wakeExpired s
  · split <;> exact hrefill

theorem settled_switchTo (s : Sched) (next : ℕ) : Settled s (s.switchTo next) where
  home i :=
    { stackTop := switchTo_field Task.stackTop (fun _ _ => rfl) (fun _ _ => rfl) s next i
      kernelStackTop :=
        switchTo_field Task.kernelStackTop (fun _ _ => rfl) (fun _ _ => rfl) s next i
      addressSpace := switchTo_field Task.addressSpace (fun _ _ => rfl) (fun _ _ => rfl) s next i }
  heap := by
    unfold switchTo
    simp only
    split_ifs <;> rfl
  cr3 := .inr rfl

theorem settled_yieldNow (s : Sched) : Settled s s.yieldNow := by
  obtain ⟨u, rfl, hcases⟩ := s.yieldNow_cases
  have hresched : Settled s { s with needResched := false } :=
    .of_same (fun _ => .refl _) rfl rfl rfl
  have hpick := hresched.trans (settled_pickNext { s with needResched := false } s.current)
  rcases hcases with ⟨-, heq⟩ | ⟨-, heq⟩
  · rw [heq]
    exact hpick
  · rw [heq]
    exact hpick.trans (settled_switchTo _ _)

theorem settled_preemptFromTimer (s : Sched) : Settled s s.preemptFromTimer := by
  have hcount : Settled s { s with preemptions := s.preemptions + 1 } :=
    .of_same (fun _ => .refl _) rfl rfl rfl
  unfold Sched.preemptFromTimer
  split_ifs
  · exact .refl s
  · exact .refl s
  · exact .refl s
  · exact hcount.trans (settled_yieldNow _)

theorem settled_onTimerTick (s : Sched) : Settled s s.onTimerTick := by
  refine .of_same (fun i => ?_) ?_ (onTimerTick_current s) ?_
  · exact
      { stackTop := onTimerTick_field Task.stackTop (fun _ _ => rfl) (fun _ _ => rfl) s i
        kernelStackTop :=
          onTimerTick_field Task.kernelStackTop (fun _ _ => rfl) (fun _ _ => rfl) s i
        addressSpace := onTimerTick_field Task.addressSpace (fun _ _ => rfl) (fun _ _ => rfl) s i }
  · unfold onTimerTick
    simp only
    split_ifs <;> rfl
  · unfold onTimerTick
    simp only
    split_ifs <;> rfl

theorem settled_releaseSlot (s : Sched) (i : ℕ) : Settled s (s.releaseSlot i) :=
  settled_modifyTask ⟨rfl, rfl, rfl⟩

theorem settled_reapOrphans (s : Sched) : Settled s s.reapOrphans := by
  unfold Sched.reapOrphans
  refine List.foldlRecOn _ _ (.refl s) fun t ht i _ => ?_
  split_ifs
  · exact ht
  · exact ht
  · exact ht.trans (settled_releaseSlot t i)

theorem settled_terminateCurrent (s : Sched) : Settled s s.terminateCurrent := by
  have hstate : Settled s (s.setState s.current .terminated) := settled_modifyTask ⟨rfl, rfl, rfl⟩
  unfold Sched.terminateCurrent
  simp only
  split_ifs
  · exact (hstate.trans (settled_releaseSlot _ _)).trans (settled_reapOrphans _)
  · exact hstate.trans (settled_reapOrphans _)

theorem settled_awaitDevice (s : Sched) : Settled s s.awaitDevice := by
  have hstate : Settled s (s.setState s.current .ioWait) := settled_modifyTask ⟨rfl, rfl, rfl⟩
  exact ⟨hstate.home, rfl, .inl ⟨rfl, rfl⟩⟩

theorem settled_waits {pid : Option ℕ} {nohang : Bool} {w : Wait} (h : Waits s pid nohang w t) :
    Settled s t := by
  cases h with
  | noChild => exact .refl s
  | notYet => exact .refl s
  | peek => exact .refl s
  | collect => exact settled_releaseSlot ..
  | block => exact settled_modifyTask ⟨rfl, rfl, rfl⟩

/-- A killed task keeps its stacks, and no longer has an address space. -/
theorem terminate_home {index space : ℕ} (h : s.terminate index = some (space, t)) :
    t.heap = s.heap ∧ t.cr3 = s.cr3 ∧ (t.tasks index).addressSpace = 0 ∧
      (t.tasks index).stackTop = (s.tasks index).stackTop ∧
      (t.tasks index).kernelStackTop = (s.tasks index).kernelStackTop := by
  unfold Sched.terminate at h
  simp only at h
  split_ifs at h <;> obtain ⟨-, rfl⟩ := Prod.mk.inj (Option.some.inj h)
  · refine ⟨rfl, rfl, ?_⟩
    rw [releaseSlot_tasks, if_pos rfl, modifyTask_self]
    exact ⟨rfl, rfl, rfl⟩
  · refine ⟨rfl, rfl, ?_⟩
    rw [modifyTask_self]
    exact ⟨rfl, rfl, rfl⟩

/-- A new task has no address space, and its stacks are those of the slot or come from the heap. -/
theorem spawnInner_home {waitable : Bool} (h : (s.spawnInner waitable).1 = some i) :
    ((s.spawnInner waitable).2.tasks i).addressSpace = 0 ∧
      s.slotStacks i = (some (((s.spawnInner waitable).2.tasks i).stackTop,
        ((s.spawnInner waitable).2.tasks i).kernelStackTop), (s.spawnInner waitable).2.heap) := by
  have hfill : ∀ (t : Sched) (j : ℕ), t.tasks = s.tasks → t.heap = s.heap →
      (t.fillSlot j waitable).1 = some i →
      ((t.fillSlot j waitable).2.tasks i).addressSpace = 0 ∧
        s.slotStacks i = (some (((t.fillSlot j waitable).2.tasks i).stackTop,
          ((t.fillSlot j waitable).2.tasks i).kernelStackTop), (t.fillSlot j waitable).2.heap) := by
    intro t j htasks hheap hi
    have hslots : t.slotStacks j = s.slotStacks j := by simp only [slotStacks, htasks, hheap]
    unfold fillSlot at hi ⊢
    rw [hslots] at hi ⊢
    split at hi
    · cases hi
    · rename_i heq
      obtain rfl := Option.some.inj hi
      simp only [heq, Function.update_self, and_self]
  unfold spawnInner at h ⊢
  split at h
  · exact hfill s _ rfl rfl h
  · split_ifs at h ⊢
    exact hfill { s with taskCount := s.taskCount + 1 } _ rfl rfl h

theorem spawnInner_cr3 (s : Sched) (waitable : Bool) : (s.spawnInner waitable).2.cr3 = s.cr3 := by
  have hfill : ∀ (t : Sched) (j : ℕ), (t.fillSlot j waitable).2.cr3 = t.cr3 := fun t j => by
    unfold fillSlot
    split <;> rfl
  unfold spawnInner
  split
  · exact hfill s _
  · split_ifs
    · rfl
    · exact hfill _ _

end Sched

namespace Kernel

open Sched (Settled)

variable {k k' : Kernel} {e : KernelEvent}

theorem settled_proceed (k : Kernel) (ready : Bool) :
    Settled k.sched (k.after (.proceed ready)).sched := by
  simp only [after, afterProceed]
  split
  · exact .refl _
  · exact Sched.settled_yieldNow _
  · split_ifs <;> exact .refl _
  · split_ifs
    · exact .refl _
    · exact Sched.settled_awaitDevice _
  · exact Sched.settled_yieldNow _
  · split_ifs <;> exact .refl _
  · exact Sched.settled_modifyTask (f := fun t => { t with state := .running }) ⟨rfl, rfl, rfl⟩
  · exact Sched.settled_yieldNow _
  · split_ifs
    · exact Sched.settled_releaseSlot ..
    · exact .refl _
  · exact Sched.settled_yieldNow _

/-- Only a call that creates a task, or kills one, moves it. -/
theorem settled_step (hspawn : ∀ waitable, e ≠ .call (.spawn waitable))
    (hkill : ∀ i, e ≠ .call (.terminate i)) : Settled k.sched (k.after e).sched := by
  cases e with
  | tick => exact Sched.settled_onTimerTick _
  | preempt => exact Sched.settled_preemptFromTimer _
  | diskIrq => exact Sched.settled_wakeIoWaiters _
  | proceed ready => exact settled_proceed k ready
  | call c =>
    cases c with
    | spawn waitable => exact absurd rfl (hspawn waitable)
    | yield => exact Sched.settled_yieldNow _
    | sleep ticks =>
      simp only [after, afterCall]
      split_ifs
      · exact Sched.settled_yieldNow _
      · exact Sched.settled_modifyTask (f := fun t => { t with
          wakeTick := k.sched.ticks + ticks, state := .blocked }) ⟨rfl, rfl, rfl⟩
    | waitForIo timeout =>
      simp only [after, afterCall]
      split_ifs <;> exact .refl _
    | waitpid pid nohang =>
      have hwaits := Sched.settled_waits (k.sched.waits_waitpid pid nohang)
      simp only [after, afterCall]
      split <;> rename_i heq <;> rw [heq] at hwaits <;> exact hwaits
    | setNice index value =>
      simp only [after, afterCall, withSched]
      rcases k.sched.setNice_getD index value with heq | heq
      · rw [heq]
        exact .refl _
      · rw [heq]
        exact Sched.settled_modifyTask ⟨rfl, rfl, rfl⟩
    | setExitCode code =>
      exact Sched.settled_modifyTask (f := fun t => { t with exitCode := code }) ⟨rfl, rfl, rfl⟩
    | terminate index => exact absurd rfl (hkill index)
    | exit => exact Sched.settled_terminateCurrent _

end Kernel

end Tcmk
