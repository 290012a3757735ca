import Tcmk.Sched.Selection

/-!
# What a step does to a task

`Kernel.change`: a step leaves a task as it is, or wakes it from `IoWait`, or it is a step of the
task itself, or it begins or ends its life. Invariants about the tasks follow from these cases.
-/

namespace Tcmk

open Lib

/-- The task is as far in its life as before, and waits for the disk if it did so. -/
structure Task.Like (t t' : Task) : Prop where
  unused : t'.state = .unused ↔ t.state = .unused
  ended : t'.state = .terminated ↔ t.state = .terminated
  ioWait : t.state = .ioWait → t'.state = .ioWait
  parent : t'.parent = t.parent
  waitable : t'.waitable = t.waitable

namespace Task.Like

variable {t t' t'' : Task}

theorem refl (t : Task) : t.Like t := ⟨Iff.rfl, Iff.rfl, id, rfl, rfl⟩

theorem trans (h : t.Like t') (h' : t'.Like t'') : t.Like t'' where
  unused := h'.unused.trans h.unused
  ended := h'.ended.trans h.ended
  ioWait := h'.ioWait ∘ h.ioWait
  parent := h'.parent.trans h.parent
  waitable := h'.waitable.trans h.waitable

/-- Only other fields change. -/
theorem of_fields (hstate : t'.state = t.state) (hparent : t'.parent = t.parent)
    (hwaitable : t'.waitable = t.waitable) : t.Like t' :=
  ⟨by rw [hstate], by rw [hstate], fun h => hstate.trans h, hparent, hwaitable⟩

/-- A task that runs, or may, stays so. -/
theorem of_runnable (h : t.state = .ready ∨ t.state = .running)
    (h' : t'.state = .ready ∨ t'.state = .running) (hparent : t'.parent = t.parent)
    (hwaitable : t'.waitable = t.waitable) : t.Like t' := by
  refine ⟨?_, ?_, ?_, hparent, hwaitable⟩ <;> rcases h with h | h <;> rcases h' with h' | h' <;>
    simp [h, h']

theorem alive (h : t.Like t') : t'.Alive ↔ t.Alive :=
  and_congr (not_congr h.unused) (not_congr h.ended)

end Task.Like

namespace Sched

variable {s t : Sched} {i j : ℕ}

/-! ### Functions that leave all tasks as they are -/

theorem like_wake (now : UInt32) (tasks : ℕ → Task) (t : Task) : t.Like (wake now tasks t) := by
  unfold wake
  split
  · split_ifs
    · exact ⟨by simp [*], by simp [*], by simp [*], rfl, rfl⟩
    · exact .refl t
  · split_ifs
    · exact ⟨by simp [*], by simp [*], by simp [*], rfl, rfl⟩
    · exact .refl t
  · exact .refl t

theorem like_wakeExpired (s : Sched) (i : ℕ) : (s.tasks i).Like (s.wakeExpired.tasks i) := by
  rw [wakeExpired_tasks]
  split_ifs
  · exact like_wake ..
  · exact .refl _

theorem like_refillCredits (s : Sched) (i : ℕ) : (s.tasks i).Like (s.refillCredits.tasks i) := by
  rw [refillCredits_tasks]
  split_ifs
  · exact .of_fields rfl rfl rfl
  · exact .refl _

theorem like_pickNext (s : Sched) (c i : ℕ) : (s.tasks i).Like ((s.pickNext c).2.tasks i) := by
  have hrefill : (s.tasks i).Like (s.wakeExpired.refillCredits.tasks i) :=
    (like_wakeExpired s i).trans (like_refillCredits _ i)
  unfold pickNext
  simp only
  split
  · exact like_wakeExpired s i
  · split <;> exact hrefill

theorem like_switchTo {next : ℕ} (hne : next ≠ s.current) (hready : (s.tasks next).state = .ready)
    (i : ℕ) : (s.tasks i).Like ((s.switchTo next).tasks i) := by
  have hparent := switchTo_field Task.parent (fun _ _ => rfl) (fun _ _ => rfl) s next i
  have hwaitable := switchTo_field Task.waitable (fun _ _ => rfl) (fun _ _ => rfl) s next i
  have hstate := switchTo_state s i hne
  split_ifs at hstate with hi hcur
  · subst hi
    exact .of_runnable (.inl hready) (.inr hstate) hparent hwaitable
  · exact .of_runnable (.inr hcur.2) (.inl hstate) hparent hwaitable
  · exact .of_fields hstate hparent hwaitable

theorem Sound.like_yieldNow (h : s.Sound) (i : ℕ) : (s.tasks i).Like (s.yieldNow.tasks i) := by
  obtain ⟨u, rfl, hcases⟩ := s.yieldNow_cases
  have h' : ({ s with needResched := false } : Sched).Sound :=
    h.of_moves rfl rfl fun _ => .same rfl rfl
  have hpick := like_pickNext { s with needResched := false } s.current i
  rcases hcases with ⟨-, heq⟩ | ⟨hne, heq⟩
  · rw [heq]
    exact hpick
  · rw [heq]
    exact hpick.trans (like_switchTo (by rwa [pickNext_current]) (h'.picked_ready hne) i)

theorem Sound.like_preemptFromTimer (h : s.Sound) (i : ℕ) :
    (s.tasks i).Like (s.preemptFromTimer.tasks i) := by
  have h' : ({ s with preemptions := s.preemptions + 1 } : Sched).Sound :=
    h.of_moves rfl rfl fun _ => .same rfl rfl
  unfold Sched.preemptFromTimer
  split_ifs
  · exact .refl _
  · exact .refl _
  · exact .refl _
  · exact h'.like_yieldNow i

theorem like_onTimerTick (s : Sched) (i : ℕ) : (s.tasks i).Like (s.onTimerTick.tasks i) :=
  .of_fields (onTimerTick_field Task.state (fun _ _ => rfl) (fun _ _ => rfl) s i)
    (onTimerTick_field Task.parent (fun _ _ => rfl) (fun _ _ => rfl) s i)
    (onTimerTick_field Task.waitable (fun _ _ => rfl) (fun _ _ => rfl) s i)

/-- The entry of another task. -/
theorem like_modifyTask {f : Task → Task} (h : (s.tasks i).Like (f (s.tasks i))) (j : ℕ) :
    (s.tasks j).Like ((s.modifyTask i f).tasks j) := by
  rw [modifyTask_tasks]
  split_ifs with hj
  · exact hj ▸ h
  · exact .refl _

/-! ### Functions that end a task -/

/-- The entry that `release_slot` leaves. -/
def released (t : Task) : Task := { t with
  state := .unused, waitable := false, waitFor := 0, credits := 0 }

theorem releaseSlot_tasks (s : Sched) (i j : ℕ) :
    (s.releaseSlot i).tasks j = if j = i then released (s.tasks i) else s.tasks j :=
  modifyTask_tasks ..

theorem released_not_alive (t : Task) : ¬ (released t).Alive := fun h => h.1 rfl

/-- Task `i` has ended, and the task that would collect it is no longer alive. -/
def Orphan (s : Sched) (i : ℕ) : Prop :=
  (s.tasks i).state = .terminated ∧ (s.tasks i).waitable = true ∧ ¬ s.parentAlive i

instance (s : Sched) (i : ℕ) : Decidable (s.Orphan i) := inferInstanceAs (Decidable (_ ∧ _ ∧ _))

/-- The table after `n` rounds of `reap_orphans`. -/
def reapedBelow (s : Sched) (n : ℕ) : Sched := { s with
  tasks := fun j => if j < n ∧ s.Orphan j then released (s.tasks j) else s.tasks j }

theorem reapedBelow_self (s : Sched) (n : ℕ) : (s.reapedBelow n).tasks n = s.tasks n :=
  if_neg fun h => Nat.lt_irrefl n h.1

/-- A released task was not alive, so the parents are as alive as before. -/
theorem reapedBelow_parentAlive (s : Sched) (n : ℕ) :
    (s.reapedBelow n).parentAlive n ↔ s.parentAlive n := by
  simp only [parentAlive, reapedBelow_self]
  refine and_congr_right fun _ => ?_
  simp only [reapedBelow]
  split_ifs with horphan
  · exact iff_of_false (fun h => h.1 rfl) fun h => h.2 horphan.2.1
  · exact Iff.rfl

theorem reapedBelow_succ (s : Sched) (n : ℕ) : s.reapedBelow (n + 1) =
    if s.Orphan n then (s.reapedBelow n).releaseSlot n else s.reapedBelow n := by
  have hbelow : ∀ j, j ≠ n → (j < n + 1 ↔ j < n) := fun j hj => by omega
  split_ifs with horphan
  · simp only [reapedBelow, releaseSlot, modifyTask]
    congr 1
    funext j
    rw [Function.update_apply]
    by_cases hj : j = n
    · rw [hj, if_pos rfl, if_pos ⟨Nat.lt_succ_self n, horphan⟩,
        if_neg fun h => Nat.lt_irrefl n h.1]
      rfl
    · simp only [if_neg hj, hbelow j hj]
  · simp only [reapedBelow]
    congr 1
    funext j
    by_cases hj : j = n
    · rw [hj, if_neg fun h => horphan h.2, if_neg fun h => horphan h.2]
    · simp only [hbelow j hj]

/-- `reap_orphans` releases the orphans, and no others. -/
theorem reapOrphans_eq (s : Sched) : s.reapOrphans = s.reapedBelow s.taskCount := by
  have hrounds : ∀ n, (List.range n).foldl (fun s i =>
      if (s.tasks i).state ≠ .terminated ∨ (s.tasks i).waitable = false then s
      else if s.parentAlive i then s
      else s.releaseSlot i) s = s.reapedBelow n := by
    intro n
    induction n with
    | zero => simp [reapedBelow]
    | succ n ih =>
      rw [List.range_succ, List.foldl_append, ih, reapedBelow_succ]
      simp only [List.foldl_cons, List.foldl_nil, reapedBelow_self, reapedBelow_parentAlive]
      by_cases hskip : (s.tasks n).state ≠ .terminated ∨ (s.tasks n).waitable = false
      · rw [if_pos hskip, if_neg]
        rintro ⟨hended, hwaitable, -⟩
        rcases hskip with hne | hfalse
        · exact hne hended
        · cases hwaitable.symm.trans hfalse
      · obtain ⟨hended, hwaitable⟩ := not_or.1 hskip
        rw [if_neg hskip]
        by_cases halive : s.parentAlive n
        · rw [if_pos halive, if_neg fun h => h.2.2 halive]
        · rw [if_neg halive,
            if_pos ⟨Classical.not_not.1 hended, Bool.of_not_eq_false hwaitable, halive⟩]
  exact hrounds s.taskCount

theorem reapOrphans_tasks (hbeyond : ∀ i ≥ s.taskCount, (s.tasks i).state = .unused) (i : ℕ) :
    s.reapOrphans.tasks i = s.tasks i ∨
      ((s.tasks i).state = .terminated ∧ (s.tasks i).waitable = true ∧
        s.reapOrphans.tasks i = released (s.tasks i) ∧
        ¬ (s.reapOrphans.tasks (s.tasks i).parent).Alive) := by
  rw [reapOrphans_eq]
  by_cases horphan : i < s.taskCount ∧ s.Orphan i
  · obtain ⟨-, hended, hwaitable, hdead⟩ := id horphan
    refine .inr ⟨hended, hwaitable, if_pos horphan, ?_⟩
    simp only [reapedBelow]
    split_ifs
    · exact released_not_alive _
    · rintro ⟨hunused, hended⟩
      refine hdead ⟨?_, hunused, hended⟩
      by_contra hge
      exact hunused (hbeyond _ (Nat.not_lt.1 hge))
  · exact .inl (if_neg horphan)

/-- It leaves no orphan. -/
theorem reapOrphans_parent (hbeyond : ∀ i ≥ s.taskCount, (s.tasks i).state = .unused)
    (hended : (s.reapOrphans.tasks i).state = .terminated)
    (hwaitable : (s.reapOrphans.tasks i).waitable = true) :
    (s.reapOrphans.tasks (s.reapOrphans.tasks i).parent).Alive := by
  rw [reapOrphans_eq] at hended hwaitable ⊢
  have hsame : ¬ (i < s.taskCount ∧ s.Orphan i) := fun horphan => by
    have hnew : (s.reapedBelow s.taskCount).tasks i = released (s.tasks i) := if_pos horphan
    rw [hnew] at hended
    cases hended
  have hold : (s.reapedBelow s.taskCount).tasks i = s.tasks i := if_neg hsame
  rw [hold] at hended hwaitable ⊢
  have hlt : i < s.taskCount := by
    by_contra hge
    rw [hbeyond i (Nat.not_lt.1 hge)] at hended
    cases hended
  have halive : s.parentAlive i := by
    by_contra hdead
    exact hsame ⟨hlt, hended, hwaitable, hdead⟩
  have hparent : (s.reapedBelow s.taskCount).tasks (s.tasks i).parent =
      s.tasks (s.tasks i).parent := if_neg fun h => halive.2.2 h.2.1
  rw [hparent]
  exact halive.2

theorem terminateCurrent_tasks (hbeyond : ∀ i ≥ s.taskCount, (s.tasks i).state = .unused)
    (hcurrent : s.current < s.taskCount) (hne : i ≠ s.current) :
    s.terminateCurrent.tasks i = s.tasks i ∨
      ((s.tasks i).state = .terminated ∧ s.terminateCurrent.tasks i = released (s.tasks i) ∧
        ¬ (s.terminateCurrent.tasks (s.tasks i).parent).Alive) := by
  unfold Sched.terminateCurrent
  simp only
  have hreap : ∀ t : Sched, t.taskCount = s.taskCount → (∀ j ≠ s.current, t.tasks j = s.tasks j) →
      t.reapOrphans.tasks i = s.tasks i ∨
        ((s.tasks i).state = .terminated ∧ t.reapOrphans.tasks i = released (s.tasks i) ∧
          ¬ (t.reapOrphans.tasks (s.tasks i).parent).Alive) := fun t hcount htasks => by
    have hbeyond' : ∀ j ≥ t.taskCount, (t.tasks j).state = .unused := fun j hj => by
      rw [hcount] at hj
      rw [htasks j (Nat.ne_of_gt (Nat.lt_of_lt_of_le hcurrent hj))]
      exact hbeyond j hj
    rcases reapOrphans_tasks hbeyond' i with h | ⟨hended, -, h, hparent⟩
    · exact .inl (h.trans (htasks i hne))
    · rw [htasks i hne] at hended h hparent
      exact .inr ⟨hended, h, hparent⟩
  have hset : ∀ j ≠ s.current, (s.setState s.current .terminated).tasks j = s.tasks j :=
    fun j hj => by rw [setState, modifyTask_tasks, if_neg hj]
  have hcur : (s.setState s.current .terminated).current = s.current := rfl
  simp only [hcur]
  split_ifs
  · refine hreap _ rfl fun j hj => ?_
    rw [releaseSlot_tasks, if_neg hj]
    exact hset j hj
  · exact hreap _ rfl hset

/-- The task that ends itself: its slot stays for the parent, or is released. -/
theorem terminateCurrent_self (hbeyond : ∀ i ≥ s.taskCount, (s.tasks i).state = .unused)
    (hcurrent : s.current < s.taskCount) :
    let t := s.tasks s.current
    let t' := s.terminateCurrent.tasks s.current
    (t.waitable = true ∧ t'.state = .terminated ∧ t'.parent = t.parent ∧ t'.waitable = true) ∨
      (t'.state = .unused ∧
        (t.waitable = false ∨ ¬ (s.terminateCurrent.tasks t.parent).Alive)) := by
  unfold Sched.terminateCurrent
  simp only
  have hset : (s.setState s.current .terminated).tasks s.current =
      { s.tasks s.current with state := .terminated } := modifyTask_self ..
  have hbeyond' : ∀ j ≥ s.taskCount,
      ((s.setState s.current .terminated).tasks j).state = .unused := fun j hj => by
    rw [setState, modifyTask_tasks, if_neg (Nat.ne_of_gt (Nat.lt_of_lt_of_le hcurrent hj))]
    exact hbeyond j hj
  have hcur : (s.setState s.current .terminated).current = s.current := rfl
  simp only [hcur, hset]
  split_ifs with hwaitable
  · have hslot : (((s.setState s.current .terminated).releaseSlot s.current).tasks
        s.current).state = .unused := by rw [releaseSlot_tasks, if_pos rfl]; rfl
    have hbeyond'' : ∀ j ≥ s.taskCount, (((s.setState s.current .terminated).releaseSlot
        s.current).tasks j).state = .unused := fun j hj => by
      rw [releaseSlot_tasks]
      split_ifs
      · rfl
      · exact hbeyond' j hj
    refine .inr ⟨?_, .inl hwaitable⟩
    rcases reapOrphans_tasks (s := (s.setState s.current .terminated).releaseSlot s.current)
      hbeyond'' s.current with h | ⟨hended, -⟩
    · exact (congrArg Task.state h).trans hslot
    · cases hslot.symm.trans hended
  · have hwaitable' : (s.tasks s.current).waitable = true := by simpa using hwaitable
    rcases reapOrphans_tasks (s := s.setState s.current .terminated) hbeyond' s.current with
      h | ⟨-, -, h, hparent⟩
    · rw [h, hset]
      exact .inl ⟨hwaitable', rfl, rfl, hwaitable'⟩
    · rw [hset] at h hparent
      refine .inr ⟨?_, .inr hparent⟩
      rw [h]
      rfl

theorem terminate_self {index space : ℕ} (h : s.terminate index = some (space, t)) :
    (s.tasks index).waitable = true ∧ (t.tasks index).state = .terminated ∧
        (t.tasks index).parent = (s.tasks index).parent ∧ (t.tasks index).waitable = true ∨
      (s.tasks index).waitable = false ∧ (t.tasks index).state = .unused := by
  unfold Sched.terminate at h
  simp only at h
  split_ifs at h with hindex hstate hwaitable
  · obtain ⟨-, rfl⟩ := Prod.mk.inj (Option.some.inj h)
    rw [modifyTask_self] at hwaitable
    exact .inr ⟨hwaitable, by rw [releaseSlot_tasks, if_pos rfl]; rfl⟩
  · obtain ⟨-, rfl⟩ := Prod.mk.inj (Option.some.inj h)
    rw [modifyTask_self] at hwaitable ⊢
    exact .inl ⟨by simpa using hwaitable, rfl, rfl, by simpa using hwaitable⟩

/-! ### A new task -/

theorem fillSlot_tasks (s : Sched) (i j : ℕ) (waitable : Bool) :
    (s.fillSlot i waitable).2.tasks j = s.tasks j ∧ (s.fillSlot i waitable).1 ≠ some j ∨
      j = i ∧ (s.fillSlot i waitable).1 = some j ∧
        ((s.fillSlot i waitable).2.tasks j).state = .ready ∧
        ((s.fillSlot i waitable).2.tasks j).parent = s.current ∧
        ((s.fillSlot i waitable).2.tasks j).waitable = waitable := by
  unfold fillSlot
  split
  · exact .inl ⟨rfl, nofun⟩
  · simp only [Function.update_apply]
    split_ifs with hj
    · exact .inr ⟨hj, by rw [hj], rfl, rfl, rfl⟩
    · exact .inl ⟨rfl, fun heq => hj (Option.some.inj heq).symm⟩

theorem spawnInner_current (s : Sched) (waitable : Bool) :
    (s.spawnInner waitable).2.current = s.current := by
  have hfill : ∀ (t : Sched) (i : ℕ), (t.fillSlot i waitable).2.current = t.current := fun t i => by
    unfold fillSlot
    split <;> rfl
  unfold spawnInner
  split
  · exact hfill s _
  · split_ifs
    · rfl
    · exact hfill _ _

/-- `spawn_inner` fills a slot that is unused, and touches no other. -/
theorem spawnInner_tasks (hbeyond : ∀ i ≥ s.taskCount, (s.tasks i).state = .unused)
    (waitable : Bool) (j : ℕ) :
    (s.spawnInner waitable).2.tasks j = s.tasks j ∧ (s.spawnInner waitable).1 ≠ some j ∨
      (s.tasks j).state = .unused ∧ (s.spawnInner waitable).1 = some j ∧
        ((s.spawnInner waitable).2.tasks j).state = .ready ∧
        ((s.spawnInner waitable).2.tasks j).parent = s.current ∧
        ((s.spawnInner waitable).2.tasks j).waitable = waitable := by
  unfold spawnInner
  split
  · rename_i index hfind
    have hunused := List.find?_some hfind
    refine (s.fillSlot_tasks index j waitable).imp id fun h => ⟨?_, h.2⟩
    rw [h.1]
    exact of_decide_eq_true hunused
  · split_ifs
    · exact .inl ⟨rfl, nofun⟩
    · refine (fillSlot_tasks { s with taskCount := s.taskCount + 1 } _ j waitable).imp id
        fun h => ⟨?_, h.2⟩
      rw [h.1]
      exact hbeyond _ (Nat.le_refl _)

end Sched

/-! ### Steps -/

namespace Kernel

open Sched (released)

/-- The step is the exit of task `i`, or the call that kills it. -/
def Ends (k : Kernel) (e : KernelEvent) (i : ℕ) : Prop :=
  e = .call (.terminate i) ∨ e = .call .exit ∧ i = k.sched.current

/-- What the step from `k` to `k'` does to task `i`. -/
inductive Change (k : Kernel) (e : KernelEvent) (k' : Kernel) (i : ℕ) : Prop
  | like (h : (k.sched.tasks i).Like (k'.sched.tasks i))
  | woken (he : e = .diskIrq) (hold : (k.sched.tasks i).state = .ioWait)
      (hnew : k'.sched.tasks i = { k.sched.tasks i with state := .ready })
  /-- The task blocks, or marks itself as running. -/
  | own (hi : i = k.sched.current) (hold : (k.sched.tasks i).Alive)
      (hnew : (k'.sched.tasks i).Alive) (hparent : (k'.sched.tasks i).parent =
        (k.sched.tasks i).parent)
      (hwaitable : (k'.sched.tasks i).waitable = (k.sched.tasks i).waitable)
      (hpoint : k.point i = .free ∨ k.point i = .awake ∨ ∃ deadline, k.point i = .ioArm deadline)
  | spawned {waitable : Bool} (he : e = .call (.spawn waitable))
      (hindex : (k.sched.spawnInner waitable).1 = some i)
      (hold : (k.sched.tasks i).state = .unused) (hnew : (k'.sched.tasks i).state = .ready)
      (hparent : (k'.sched.tasks i).parent = k.sched.current)
      (hwaitable : (k'.sched.tasks i).waitable = waitable)
  /-- The task ends, and its slot is kept for the parent. -/
  | ended (he : k.Ends e i) (hold : (k.sched.tasks i).Alive)
      (hwaitable : (k.sched.tasks i).waitable = true) (hnew : (k'.sched.tasks i).state =
        .terminated)
      (hparent : (k'.sched.tasks i).parent = (k.sched.tasks i).parent)
      (hwaitable' : (k'.sched.tasks i).waitable = true)
  /-- The slot is released, since no parent will ask for the task. -/
  | freed (he : k.Ends e i ∧ (k.sched.tasks i).Alive ∨ (k.sched.tasks i).state = .terminated)
      (hwhy : (k.sched.tasks i).Alive ∧ (k.sched.tasks i).waitable = false ∨
        ¬ (k'.sched.tasks (k.sched.tasks i).parent).Alive)
      (hnew : (k'.sched.tasks i).state = .unused)
  /-- The slot is released by the call that returns the exit code. -/
  | collected (he : k.collected e = some (i, (k.sched.tasks i).exitCode))
      (hold : (k.sched.tasks i).state = .terminated) (hnew : (k'.sched.tasks i).state = .unused)

variable {k k' : Kernel} {e : KernelEvent}

theorem Change.refl (k : Kernel) (e : KernelEvent) (i : ℕ) : k.Change e k i := .like (.refl _)

/-- The current task changes its own entry. -/
theorem Change.current {f : Task → Task} (halive : (k.sched.tasks k.sched.current).Alive)
    (hnew : (f (k.sched.tasks k.sched.current)).Alive)
    (hparent : (f (k.sched.tasks k.sched.current)).parent = (k.sched.tasks k.sched.current).parent)
    (hwaitable : (f (k.sched.tasks k.sched.current)).waitable =
      (k.sched.tasks k.sched.current).waitable)
    (hpoint : k.point k.sched.current = .free ∨ k.point k.sched.current = .awake ∨
      ∃ deadline, k.point k.sched.current = .ioArm deadline)
    (htasks : k'.sched.tasks = (k.sched.modifyTask k.sched.current f).tasks) (i : ℕ) :
    k.Change e k' i := by
  by_cases hi : i = k.sched.current
  · subst hi
    have heq := congrFun htasks k.sched.current
    rw [Sched.modifyTask_self] at heq
    exact .own rfl halive (by rwa [heq]) (by rw [heq, hparent]) (by rw [heq, hwaitable]) hpoint
  · refine .like ?_
    rw [htasks, Sched.modifyTask_tasks, if_neg hi]
    exact .refl _

/-- A slot is released by the call that returns its exit code. -/
theorem Change.collect (child : ℕ)
    (he : k.collected e = some (child, (k.sched.tasks child).exitCode))
    (hended : (k.sched.tasks child).state = .terminated)
    (hsched : k'.sched = k.sched.releaseSlot child) (i : ℕ) : k.Change e k' i := by
  by_cases hi : i = child
  · subst hi
    refine .collected he hended ?_
    rw [hsched, Sched.releaseSlot_tasks, if_pos rfl]
    rfl
  · refine .like ?_
    rw [hsched, Sched.releaseSlot_tasks, if_neg hi]
    exact .refl _

theorem change_waitpid {pid : Option ℕ} {nohang : Bool} {w : Sched.Wait} {s : Sched}
    (hfree : k.point k.sched.current = .free) (halive : (k.sched.tasks k.sched.current).Alive)
    (hw : k.sched.waitpid pid nohang = (w, s)) (hsched : k'.sched = s) (i : ℕ) :
    k.Change (.call (.waitpid pid nohang)) k' i := by
  have hwaits := k.sched.waits_waitpid pid nohang
  rw [hw] at hwaits
  have hlike : k'.sched = k.sched → k.Change (.call (.waitpid pid nohang)) k' i := fun heq => by
    refine .like ?_
    rw [heq]
    exact .refl _
  cases hwaits with
  | noChild => exact hlike hsched
  | notYet => exact hlike hsched
  | peek => exact hlike hsched
  | @collect child _ hended =>
    refine .collect child ?_ hended hsched i
    simp only [Kernel.collected, hw]
  | @block child _ _ _ _ =>
    exact .current (f := fun t => { t with waitFor := child + 1, state := .waiting })
      halive ⟨nofun, nofun⟩ rfl rfl (.inl hfree) (by rw [hsched]; rfl) i

theorem change_call {c : TaskCall} (h : k.Sound) (henabled : k.Enabled (.call c)) (i : ℕ) :
    k.Change (.call c) (k.after (.call c)) i := by
  have hs := h.sched
  have hfree := henabled.1
  have halive : (k.sched.tasks k.sched.current).Alive := h.alive.resolve_left fun hhalted => by
    rw [hfree] at hhalted
    cases hhalted
  have hyield : k.Change (.call c) (k.withSched k.sched.yieldNow) i := .like (hs.like_yieldNow i)
  cases c with
  | spawn waitable =>
    have hspawn := Sched.spawnInner_tasks hs.beyond waitable i
    simp only [after, afterCall]
    split <;> rename_i heq
    · have hsplit : ∀ {k'' : Kernel}, k''.sched = (k.sched.spawnInner waitable).2 →
          k.Change (.call (.spawn waitable)) k'' i := fun {k''} hk => by
        rcases hspawn with ⟨htasks, -⟩ | ⟨hold, hindex, hstate, hparent, hwaitable⟩
        · refine .like ?_
          rw [hk, htasks]
          exact .refl _
        · exact .spawned rfl hindex hold (by rwa [hk]) (by rwa [hk]) (by rwa [hk])
      exact hsplit (by rw [heq])
    · refine .like ?_
      rw [heq] at hspawn
      rcases hspawn with ⟨htasks, -⟩ | ⟨-, hindex, -⟩
      · exact .of_fields (congrArg Task.state htasks) (congrArg Task.parent htasks)
          (congrArg Task.waitable htasks)
      · cases hindex
  | yield => exact hyield
  | sleep ticks =>
    simp only [after, afterCall]
    split_ifs
    · exact hyield
    · exact .current (f := fun t => { t with
        wakeTick := k.sched.ticks + ticks, state := .blocked })
        halive ⟨nofun, nofun⟩ rfl rfl (.inl hfree) rfl i
  | waitForIo timeout =>
    simp only [after, afterCall]
    split_ifs <;> exact .like (.refl _)
  | waitpid pid nohang =>
    simp only [after, afterCall]
    split <;> rename_i heq <;> exact change_waitpid hfree halive heq rfl i
  | setNice index value =>
    refine .like ?_
    simp only [after, afterCall, withSched]
    rcases k.sched.setNice_getD index value with heq | heq
    · rw [heq]
      exact .refl _
    · rw [heq]
      exact Sched.like_modifyTask (.of_fields rfl rfl rfl) i
  | setExitCode code =>
    exact .like (Sched.like_modifyTask (s := k.sched) (i := k.sched.current)
      (f := fun t => { t with exitCode := code }) (.of_fields rfl rfl rfl) i)
  | terminate index =>
    simp only [after, afterCall]
    split
    · rename_i space s heq
      obtain ⟨-, -, hold, -, -, -, htasks, -⟩ := Sched.terminate_some heq
      by_cases hi : i = index
      · subst hi
        rcases Sched.terminate_self
          heq with ⟨hwaitable, hnew, hparent, hwaitable'⟩ | ⟨hwaitable, hnew⟩
        · exact .ended (.inl rfl) hold hwaitable hnew hparent hwaitable'
        · exact .freed (.inl ⟨.inl rfl, hold⟩) (.inl ⟨hold, hwaitable⟩) hnew
      · refine .like ?_
        simp only [withSched, htasks i hi]
        exact .refl _
    · exact .refl _ _ _
  | exit =>
    by_cases hi : i = k.sched.current
    · subst hi
      rcases Sched.terminateCurrent_self hs.beyond hs.current_lt with
        ⟨hwaitable, hnew, hparent, hwaitable'⟩ | ⟨hnew, hwhy⟩
      · exact .ended (.inr ⟨rfl, rfl⟩) halive hwaitable hnew hparent hwaitable'
      · exact .freed (.inl ⟨.inr ⟨rfl, rfl⟩, halive⟩)
          (hwhy.imp (fun hwaitable => ⟨halive, hwaitable⟩) id) hnew
    · rcases Sched.terminateCurrent_tasks hs.beyond hs.current_lt
        hi with heq | ⟨hended, heq, hparent⟩
      · refine .like ?_
        simp only [after, afterCall, enter, heq]
        exact .refl _
      · refine .freed (.inr hended) (.inr hparent) ?_
        simp only [after, afterCall, enter, heq]
        rfl

theorem change_proceed (h : k.Sound) (ready : Bool) (i : ℕ) :
    k.Change (.proceed ready) (k.after (.proceed ready)) i := by
  have halive : k.point k.sched.current ≠ .halted → (k.sched.tasks k.sched.current).Alive :=
    h.alive.resolve_left
  simp only [after, afterProceed]
  cases hpoint : k.point k.sched.current with
  | free => exact .refl _ _ _
  | awake =>
    exact .current (f := fun t => { t with state := .running })
      (halive (by rw [hpoint]; nofun)) ⟨nofun, nofun⟩ rfl rfl (.inr (.inl hpoint)) rfl i
  | ioArm deadline =>
    simp only
    split_ifs
    · exact .like (.refl _)
    · exact .current (f := fun t => { t with state := .ioWait })
        (halive (by rw [hpoint]; nofun)) ⟨nofun, nofun⟩ rfl rfl (.inr (.inr ⟨_, hpoint⟩)) rfl i
  | childCheck child =>
    simp only
    split_ifs with hended
    · refine .collect child ?_ hended rfl i
      simp only [Kernel.collected, hpoint, if_pos hended]
    · exact .like (.refl _)
  | _ =>
    simp only
    first
      | exact .like (h.sched.like_yieldNow i)
      | split_ifs <;> exact .like (.refl _)

theorem change (h : k.Sound) (hstep : KernelStep k e k') (i : ℕ) : k.Change e k' i := by
  obtain ⟨henabled, rfl⟩ := hstep
  cases e with
  | tick => exact .like (k.sched.like_onTimerTick i)
  | preempt => exact .like (h.sched.like_preemptFromTimer i)
  | diskIrq =>
    have heq := k.sched.wakeIoWaiters_tasks i
    split_ifs at heq with hi
    · exact .woken rfl hi.2 heq
    · refine .like ?_
      simp only [after, withSched, heq]
      exact .refl _
  | call c => exact change_call h henabled i
  | proceed ready => exact change_proceed h ready i

/-- Every task in use was so before, under the same parent, or is new. -/
theorem Change.used {i : ℕ} (h : k.Change e k' i) (hused : (k'.sched.tasks i).state ≠ .unused) :
    ((k.sched.tasks i).state ≠ .unused ∧
      (k'.sched.tasks i).parent = (k.sched.tasks i).parent ∧
      (k'.sched.tasks i).waitable = (k.sched.tasks i).waitable) ∨
    ∃ waitable, e = .call (.spawn waitable) ∧ (k.sched.spawnInner waitable).1 = some i ∧
      (k.sched.tasks i).state = .unused ∧ (k'.sched.tasks i).parent = k.sched.current ∧
      (k'.sched.tasks i).waitable = waitable := by
  cases h with
  | like hlike =>
    exact .inl ⟨fun heq => hused (hlike.unused.2 heq), hlike.parent, hlike.waitable⟩
  | woken _ hold hnew =>
    refine .inl ⟨by rw [hold]; rintro ⟨⟩, ?_, ?_⟩ <;> rw [hnew]
  | own _ hold _ hparent hwaitable => exact .inl ⟨hold.1, hparent, hwaitable⟩
  | spawned he hindex hold _ hparent hwaitable =>
    exact .inr ⟨_, he, hindex, hold, hparent, hwaitable⟩
  | ended _ hold hwaitable _ hparent hwaitable' =>
    exact .inl ⟨hold.1, hparent, hwaitable'.trans hwaitable.symm⟩
  | freed _ _ hnew => exact absurd hnew hused
  | collected _ _ hnew => exact absurd hnew hused

theorem Change.alive {i : ℕ} (h : k.Change e k' i) (halive : (k'.sched.tasks i).Alive) :
    (k.sched.tasks i).Alive ∨
      ∃ waitable, e = .call (.spawn waitable) ∧ (k.sched.spawnInner waitable).1 = some i := by
  cases h with
  | like hlike => exact .inl (hlike.alive.1 halive)
  | woken _ hold => exact .inl ⟨by rw [hold]; rintro ⟨⟩, by rw [hold]; rintro ⟨⟩⟩
  | own _ hold => exact .inl hold
  | spawned he hindex => exact .inr ⟨_, he, hindex⟩
  | ended _ _ _ hnew => exact absurd hnew halive.2
  | freed _ _ hnew => exact absurd hnew halive.1
  | collected _ _ hnew => exact absurd hnew halive.1

/-- A task that has ended had done so before, or ends in this step. -/
theorem Change.terminated {i : ℕ} (h : k.Change e k' i)
    (hended : (k'.sched.tasks i).state = .terminated) :
    (k'.sched.tasks i).parent = (k.sched.tasks i).parent ∧
      (k'.sched.tasks i).waitable = (k.sched.tasks i).waitable ∧
      ((k.sched.tasks i).state = .terminated ∨
        k.Ends e i ∧ (k.sched.tasks i).Alive ∧ (k.sched.tasks i).waitable = true) := by
  cases h with
  | like hlike => exact ⟨hlike.parent, hlike.waitable, .inl (hlike.ended.1 hended)⟩
  | woken _ _ hnew =>
    rw [hnew] at hended
    cases hended
  | own _ _ hnew => exact absurd hended hnew.2
  | spawned _ _ _ hnew =>
    rw [hnew] at hended
    cases hended
  | ended he hold hwaitable _ hparent hwaitable' =>
    exact ⟨hparent, hwaitable'.trans hwaitable.symm, .inr ⟨he, hold, hwaitable⟩⟩
  | freed _ _ hnew =>
    rw [hnew] at hended
    cases hended
  | collected _ _ hnew =>
    rw [hnew] at hended
    cases hended

/-- A task that dies is one whose end the step is. -/
theorem Change.ends {i : ℕ} (h : k.Change e k' i) (hold : (k.sched.tasks i).Alive)
    (hdead : ¬ (k'.sched.tasks i).Alive) : k.Ends e i := by
  cases h with
  | like hlike => exact absurd (hlike.alive.2 hold) hdead
  | woken _ _ hnew =>
    rw [hnew] at hdead
    exact absurd ⟨by rintro ⟨⟩, by rintro ⟨⟩⟩ hdead
  | own _ _ hnew => exact absurd hnew hdead
  | spawned _ _ hunused => exact absurd hunused hold.1
  | ended he => exact he
  | freed he => exact he.elim And.left fun hended => absurd hended hold.2
  | collected _ hended => exact absurd hended hold.2

/-- A step that neither ends nor starts a task leaves it as alive as it was. -/
theorem Change.alive_iff {i : ℕ} (h : k.Change e k' i) (hends : ¬ k.Ends e i)
    (hspawn : ∀ waitable, e ≠ .call (.spawn waitable)) :
    (k'.sched.tasks i).Alive ↔ (k.sched.tasks i).Alive := by
  constructor
  · intro halive
    exact (h.alive halive).resolve_right fun hnew => hspawn _ hnew.choose_spec.1
  · intro hold
    by_contra hdead
    exact hends (h.ends hold hdead)

/-- A task killed by another, and what its death leaves as it is. -/
theorem killed {i : ℕ} (hold : (k.sched.tasks i).Alive)
    (hdead : ¬ ((k.after (.call (.terminate i))).sched.tasks i).Alive) :
    i ≠ idleTask ∧ i ≠ k.sched.current ∧
      ∀ j ≠ i, (k.after (.call (.terminate i))).sched.tasks j = k.sched.tasks j := by
  simp only [after, afterCall] at hdead ⊢
  split at hdead
  · rename_i space s heq
    obtain ⟨hidle, hcurrent, -, -, -, -, htasks, -⟩ := Sched.terminate_some heq
    exact ⟨hidle, hcurrent, htasks⟩
  · exact absurd hold hdead

/-- Only a kill ends a task in the middle of a call. -/
theorem alive_step {i : ℕ} (h : k.Sound) (hstep : KernelStep k e k') (hfree : k.point i ≠ .free)
    (halive : (k.sched.tasks i).Alive) (hkill : e ≠ .call (.terminate i)) :
    (k'.sched.tasks i).Alive := by
  have hends : ¬ k.Ends e i := by
    rintro (he | ⟨he, hi⟩)
    · exact hkill he
    · obtain ⟨henabled, -⟩ := hstep
      rw [he] at henabled
      exact hfree (hi ▸ henabled.1)
  cases change h hstep i with
  | like hlike => exact hlike.alive.2 halive
  | woken _ _ hnew =>
    rw [hnew]
    exact ⟨by rintro ⟨⟩, by rintro ⟨⟩⟩
  | own _ _ hnew => exact hnew
  | spawned _ _ hold => exact absurd hold halive.1
  | ended he => exact absurd he hends
  | freed he => exact absurd he (not_or.2 ⟨fun he => hends he.1, halive.2⟩)
  | collected _ hold => exact absurd hold halive.2

/-! ### Where the tasks are, and which is current -/

/-- The step is one of task `i`, in a call. -/
def Acts (k : Kernel) (i : ℕ) : KernelEvent → Prop
  | .call _ => k.sched.current = i
  | .proceed _ => k.sched.current = i
  | _ => False

instance (k : Kernel) (i : ℕ) (e : KernelEvent) : Decidable (k.Acts i e) :=
  match e with
  | .call _ | .proceed _ => inferInstanceAs (Decidable (k.sched.current = i))
  | .tick | .preempt | .diskIrq => instDecidableFalse

theorem Acts.current {i : ℕ} (h : k.Acts i e) : k.sched.current = i := by
  cases e with
  | call c => exact h
  | proceed ready => exact h
  | _ => exact h.elim

theorem enter_point {p : Point} {s : Sched} {i : ℕ} (hi : k.sched.current ≠ i) :
    (k.enter p s).point i = k.point i :=
  Function.update_of_ne hi.symm _ _

theorem enter_self (k : Kernel) (p : Point) (s : Sched) :
    (k.enter p s).point k.sched.current = p :=
  Function.update_self ..

/-- A new task is in no call. -/
theorem spawned_point {waitable : Bool} {i : ℕ}
    (hindex : (k.sched.spawnInner waitable).1 = some i) :
    (k.after (.call (.spawn waitable))).point i = .free := by
  simp only [after, afterCall]
  split <;> rename_i heq <;> rw [heq] at hindex
  · rw [Option.some.inj hindex]
    exact Function.update_self ..
  · cases hindex

/-- A task stays where it is while it does not act. -/
theorem point_step {i : ℕ} (h : k.Sound) (hstep : KernelStep k e k')
    (hused : (k.sched.tasks i).state ≠ .unused) (hi : ¬ k.Acts i e) : k'.point i = k.point i := by
  obtain ⟨-, rfl⟩ := hstep
  cases e with
  | tick => rfl
  | preempt => rfl
  | diskIrq => rfl
  | call c =>
    have hi : k.sched.current ≠ i := hi
    cases c with
    | spawn waitable =>
      simp only [after, afterCall]
      split
      · rename_i index s heq
        refine Function.update_of_ne (fun hindex => hused ?_) _ _
        rcases Sched.spawnInner_tasks h.sched.beyond waitable i with ⟨-, hne⟩ | ⟨hold, -⟩
        · exact absurd (by rw [heq, hindex]) hne
        · exact hold
      · rfl
    | waitpid pid nohang =>
      simp only [after, afterCall]
      split
      · exact enter_point hi
      · rfl
    | terminate index =>
      simp only [after, afterCall]
      split <;> rfl
    | exit => exact enter_point hi
    | _ =>
      simp only [after, afterCall]
      first
        | rfl
        | split_ifs <;> first
          | rfl
          | exact enter_point hi
  | proceed ready =>
    have hi : k.sched.current ≠ i := hi
    simp only [after, afterProceed]
    split <;> (try split_ifs) <;> first
      | rfl
      | exact enter_point hi

/-- After a `yield_now` the current task can run. -/
theorem yieldNow_current {s : Sched} (h : s.Sound) :
    (s.yieldNow.current = s.current ∧ (s.yieldNow.tasks s.current).state = .ready) ∨
      (s.yieldNow.tasks s.yieldNow.current).state = .running := by
  obtain ⟨u, rfl, hcases⟩ := s.yieldNow_cases
  have h' : ({ s with needResched := false } : Sched).Sound :=
    h.of_moves rfl rfl fun _ => .same rfl rfl
  rcases hcases with ⟨hsame, heq⟩ | ⟨hne, heq⟩
  · rw [heq, Sched.pickNext_current]
    obtain ⟨-, hstate, -⟩ := h'.pickNext_spec
    rw [hsame] at hstate
    rcases hstate with hready | ⟨-, hrunning⟩ | ⟨-, hrunning⟩
    · exact .inl ⟨rfl, hready⟩
    · exact .inr hrunning
    · exact .inr hrunning
  · refine .inr ?_
    rw [heq, Sched.switchTo_current,
      Sched.switchTo_state _ _ (by rwa [Sched.pickNext_current]), if_pos rfl]

/-- A task becomes the current one only as it is marked `Running`. -/
theorem current_step (h : k.Sound) (hstep : KernelStep k e k') :
    k'.sched.current = k.sched.current ∨
      (k'.sched.tasks k'.sched.current).state = .running := by
  obtain ⟨-, rfl⟩ := hstep
  have hyield : ∀ {s : Sched}, s.Sound → s.yieldNow.current = s.current ∨
      (s.yieldNow.tasks s.yieldNow.current).state = .running := fun hs =>
    (yieldNow_current hs).imp And.left id
  have hs := h.sched
  cases e with
  | tick => exact .inl (Sched.onTimerTick_current _)
  | preempt =>
    have h' : ({ k.sched with preemptions := k.sched.preemptions + 1 } : Sched).Sound :=
      hs.of_moves rfl rfl fun _ => .same rfl rfl
    simp only [after, withSched]
    unfold Sched.preemptFromTimer
    split_ifs
    · exact .inl rfl
    · exact .inl rfl
    · exact .inl rfl
    · exact hyield h'
  | diskIrq => exact .inl rfl
  | call c =>
    cases c with
    | spawn waitable =>
      have hcurrent := Sched.spawnInner_current k.sched waitable
      simp only [after, afterCall]
      split <;> rename_i heq <;> rw [heq] at hcurrent <;> exact .inl hcurrent
    | yield => exact hyield hs
    | sleep ticks =>
      simp only [after, afterCall]
      split_ifs
      · exact hyield hs
      · exact .inl rfl
    | waitForIo timeout =>
      simp only [after, afterCall]
      split_ifs <;> exact .inl rfl
    | waitpid pid nohang =>
      have hwaits := k.sched.waits_waitpid pid nohang
      have hcurrent : ∀ {w : Sched.Wait} {s : Sched}, Sched.Waits k.sched pid nohang w s →
          s.current = k.sched.current := fun hw => by
        cases hw <;> rfl
      simp only [after, afterCall]
      split <;> rename_i heq <;> rw [heq] at hwaits <;> exact .inl (hcurrent hwaits)
    | setNice index value =>
      simp only [after, afterCall, withSched]
      rcases k.sched.setNice_getD index value with heq | heq <;> rw [heq] <;> exact .inl rfl
    | setExitCode code => exact .inl rfl
    | terminate index =>
      simp only [after, afterCall]
      split
      · rename_i heq
        exact .inl (Sched.terminate_some heq).2.2.2.2.1
      · exact .inl rfl
    | exit => exact .inl (Sched.terminateCurrent_current _)
  | proceed ready =>
    simp only [after, afterProceed]
    split <;> (try split_ifs) <;> first
      | exact .inl rfl
      | exact hyield hs

end Kernel

end Tcmk
