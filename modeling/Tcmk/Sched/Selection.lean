import Tcmk.Sched.Machine

/-!
# Which task is selected

At every step of every run the task table is `Sound`: the idle task can run, no other task than
the current one is marked `Running`, and slots beyond `TASK_COUNT` are unused. It follows that
`pick_next` returns a task that can run, and the idle task only when no other one can
(`pickNext_runnable`).
-/

namespace Tcmk

open Lib

namespace Sched

variable {s t : Sched} {i : ℕ}

/-- What holds of the task table at every step. -/
structure Sound (s : Sched) : Prop where
  current_lt : s.current < s.taskCount
  count_le : s.taskCount ≤ maxTasks
  idle : (s.tasks idleTask).state = .ready ∨ (s.tasks idleTask).state = .running
  /-- Only the current task is marked `Running`. -/
  running : ∀ i, (s.tasks i).state = .running → i = s.current
  beyond : ∀ i ≥ s.taskCount, (s.tasks i).state = .unused
  /-- The index `wait_for - 1` does not wrap. -/
  waitFor : ∀ i, (s.tasks i).state = .waiting → 0 < (s.tasks i).waitFor

/-- The ways in which a step may change the state of a task in place. -/
def Move (s : Sched) (i : ℕ) (t : Task) : Prop :=
  (t.state = (s.tasks i).state ∧ t.waitFor = (s.tasks i).waitFor) ∨
    (i < s.taskCount ∧ t.state = .ready) ∨ (i = s.current ∧ t.state = .running) ∨
    (i < s.taskCount ∧ i ≠ idleTask ∧ t.state ≠ .running ∧ (t.state = .waiting → 0 < t.waitFor))

theorem Move.same {t : Task} (hstate : t.state = (s.tasks i).state)
    (hwait : t.waitFor = (s.tasks i).waitFor) : s.Move i t := .inl ⟨hstate, hwait⟩

theorem Sound.of_moves (h : s.Sound) (hcurrent : t.current = s.current)
    (hcount : t.taskCount = s.taskCount) (hmoves : ∀ i, s.Move i (t.tasks i)) : t.Sound where
  current_lt := by rw [hcurrent, hcount]; exact h.current_lt
  count_le := by rw [hcount]; exact h.count_le
  idle := by
    rcases hmoves idleTask with ⟨hstate, -⟩ | ⟨-, hstate⟩ | ⟨-, hstate⟩ | ⟨-, hne, -⟩
    · rw [hstate]
      exact h.idle
    · exact .inl hstate
    · exact .inr hstate
    · exact absurd rfl hne
  running i hi := by
    rw [hcurrent]
    rcases hmoves i with ⟨hstate, -⟩ | ⟨-, hstate⟩ | ⟨hcur, -⟩ | ⟨-, -, hne, -⟩
    · exact h.running i (hstate ▸ hi)
    · rw [hstate] at hi
      cases hi
    · exact hcur
    · exact absurd hi hne
  beyond i hi := by
    rw [hcount] at hi
    rcases hmoves i with ⟨hstate, -⟩ | ⟨hlt, -⟩ | ⟨hcur, -⟩ | ⟨hlt, -⟩
    · rw [hstate]
      exact h.beyond i hi
    · exact absurd hlt (Nat.not_lt.2 hi)
    · exact absurd (hcur ▸ h.current_lt) (Nat.not_lt.2 hi)
    · exact absurd hlt (Nat.not_lt.2 hi)
  waitFor i hi := by
    rcases hmoves i with ⟨hstate, hwait⟩ | ⟨-, hstate⟩ | ⟨-, hstate⟩ | ⟨-, -, -, hwait⟩
    · rw [hwait]
      exact h.waitFor i (hstate ▸ hi)
    · rw [hstate] at hi
      cases hi
    · rw [hstate] at hi
      cases hi
    · exact hwait hi

theorem Sound.modifyTask (h : s.Sound) {f : Task → Task} (hmove : s.Move i (f (s.tasks i))) :
    (s.modifyTask i f).Sound := by
  refine h.of_moves rfl rfl fun j => ?_
  rw [modifyTask_tasks]
  split_ifs with hj
  · exact hj ▸ hmove
  · exact .same rfl rfl

theorem Sound.lt_of_used (h : s.Sound) (hi : (s.tasks i).state ≠ .unused) : i < s.taskCount :=
  Nat.lt_of_not_le fun hle => hi (h.beyond i hle)

theorem Sound.ne_idle (h : s.Sound) (hready : (s.tasks i).state ≠ .ready)
    (hrunning : (s.tasks i).state ≠ .running) : i ≠ idleTask := by
  rintro rfl
  exact h.idle.elim hready hrunning

/-! ### Loops over the table -/

theorem wake_terminated (now : UInt32) (tasks : ℕ → Task) (t : Task) :
    (wake now tasks t).state = .terminated ↔ t.state = .terminated := by
  unfold wake
  split
  · split_ifs <;> simp_all
  · split_ifs <;> simp_all
  · exact Iff.rfl

/-- A round only asks which tasks have ended. -/
theorem wake_congr {tasks tasks' : ℕ → Task}
    (h : ∀ j, (tasks j).state = .terminated ↔ (tasks' j).state = .terminated) (now : UInt32)
    (t : Task) : wake now tasks t = wake now tasks' t := by
  unfold wake
  split
  · rfl
  · simp only [h]
  · rfl

theorem wakeExpired_tasks (s : Sched) (i : ℕ) :
    s.wakeExpired.tasks i =
      if i < s.taskCount then wake s.ticks s.tasks (s.tasks i) else s.tasks i := by
  have heach : each s.taskCount (fun tasks i => wake s.ticks tasks (tasks i)) s.tasks =
      fun j => if j < s.taskCount then wake s.ticks s.tasks (s.tasks j) else s.tasks j :=
    each_eq fun i _ => by
      -- A target counts as ended before its own round exactly when it does after it.
      have hended : ∀ j, (if j < i then wake s.ticks s.tasks (s.tasks j) else s.tasks j).state =
          .terminated ↔ (s.tasks j).state = .terminated := fun j => by
        split_ifs
        · exact wake_terminated ..
        · exact Iff.rfl
      simp only [if_neg (Nat.lt_irrefl i)]
      exact wake_congr hended _ _
  exact congrFun heach i

/-- A task woken is ready. -/
theorem wake_cases (now : UInt32) (tasks : ℕ → Task) (t : Task) :
    wake now tasks t = t ∨ (wake now tasks t).state = .ready := by
  unfold wake
  split
  · split_ifs <;> simp
  · split_ifs <;> simp
  · exact .inl rfl

theorem wakeExpired_credits (s : Sched) (i : ℕ) :
    (s.wakeExpired.tasks i).credits = (s.tasks i).credits := by
  rw [wakeExpired_tasks]
  split_ifs
  · unfold wake
    split
    · split_ifs <;> rfl
    · split_ifs <;> rfl
    · rfl
  · rfl

theorem refillCredits_tasks (s : Sched) (i : ℕ) :
    s.refillCredits.tasks i =
      if i < s.taskCount then { s.tasks i with credits := sliceTicks (s.tasks i).nice }
      else s.tasks i :=
  congrFun (each_self _ (fun t : Task => { t with credits := sliceTicks t.nice }) s.tasks) i

theorem refillCredits_state (s : Sched) (i : ℕ) :
    (s.refillCredits.tasks i).state = (s.tasks i).state := by
  rw [refillCredits_tasks]
  split_ifs <;> rfl

theorem refillCredits_credits (hi : i < s.taskCount) : 0 < (s.refillCredits.tasks i).credits := by
  rw [refillCredits_tasks, if_pos hi]
  exact sliceTicks_pos _

theorem wakeIoWaiters_tasks (s : Sched) (i : ℕ) :
    s.wakeIoWaiters.tasks i =
      if i < s.taskCount ∧ (s.tasks i).state = .ioWait then { s.tasks i with state := .ready }
      else s.tasks i := by
  refine (congrFun (each_self _ (fun t : Task => if t.state = .ioWait then
    { t with state := .ready } else t) s.tasks) i).trans ?_
  by_cases hi : i < s.taskCount <;> simp [hi]

theorem Sound.wakeExpired (h : s.Sound) : s.wakeExpired.Sound := by
  refine h.of_moves rfl rfl fun i => ?_
  rw [wakeExpired_tasks]
  split_ifs with hi
  · rcases wake_cases s.ticks s.tasks (s.tasks i) with heq | hready
    · rw [heq]
      exact .same rfl rfl
    · exact .inr (.inl ⟨hi, hready⟩)
  · exact .same rfl rfl

theorem Sound.refillCredits (h : s.Sound) : s.refillCredits.Sound := by
  refine h.of_moves rfl rfl fun i => ?_
  rw [refillCredits_tasks]
  split_ifs <;> exact .same rfl rfl

theorem Sound.wakeIoWaiters (h : s.Sound) : s.wakeIoWaiters.Sound := by
  refine h.of_moves rfl rfl fun i => ?_
  rw [wakeIoWaiters_tasks]
  split_ifs with hi
  · exact .inr (.inl ⟨hi.1, rfl⟩)
  · exact .same rfl rfl

theorem Sound.releaseSlot (h : s.Sound) (hended : (s.tasks i).state = .terminated) :
    (s.releaseSlot i).Sound :=
  h.modifyTask (.inr (.inr (.inr ⟨h.lt_of_used (by rw [hended]; decide),
    h.ne_idle (by rw [hended]; decide) (by rw [hended]; decide), by simp, by simp⟩)))

theorem Sound.reapOrphans (h : s.Sound) : s.reapOrphans.Sound := by
  unfold Sched.reapOrphans
  refine List.foldlRecOn _ _ h fun t ht i _ => ?_
  split_ifs with hskip halive
  · exact ht
  · exact ht
  · exact ht.releaseSlot (Classical.not_not.1 (not_or.1 hskip).1)

/-! ### Selection -/

theorem mem_candidates {c i : ℕ} (hc : c < s.taskCount) (hi : i < s.taskCount) :
    i ∈ s.candidates c := by
  refine List.mem_map.2 ⟨(i + (s.taskCount - 1 - c)) % s.taskCount, ?_, ?_⟩
  · exact List.mem_range.2 (Nat.mod_lt _ (Nat.zero_lt_of_lt hi))
  · rw [← Nat.add_assoc, Nat.add_right_comm, Nat.add_mod_mod,
      show c + 1 + (i + (s.taskCount - 1 - c)) = i + s.taskCount by omega, Nat.add_mod_right,
      Nat.mod_eq_of_lt hi]

theorem lt_of_mem_candidates {c i : ℕ} (hi : i ∈ s.candidates c) : i < s.taskCount := by
  obtain ⟨j, hj, rfl⟩ := List.mem_map.1 hi
  exact Nat.mod_lt _ (Nat.zero_lt_of_lt (List.mem_range.1 hj))

theorem pass_some {c i : ℕ} (h : s.pass c = some i) : s.Eligible i ∧ i < s.taskCount := by
  have helig : decide (s.Eligible i) = true := List.find?_some (p := fun c => s.Eligible c) h
  exact ⟨of_decide_eq_true helig, lt_of_mem_candidates (List.mem_of_find?_eq_some h)⟩

theorem pass_none {c : ℕ} (hc : c < s.taskCount) (h : s.pass c = none) (hi : i < s.taskCount) :
    ¬ s.Eligible i := fun helig =>
  List.find?_eq_none.1 h i (mem_candidates hc hi) (decide_eq_true helig)

/-- After a refill every ready task but the idle one can be taken. -/
theorem refillCredits_eligible (hi : i < s.taskCount) :
    s.refillCredits.Eligible i ↔ (s.tasks i).state = .ready ∧ i ≠ idleTask := by
  unfold Eligible
  rw [refillCredits_state]
  exact ⟨fun h => ⟨h.1, h.2.1⟩, fun h => ⟨h.1, h.2, Nat.ne_of_gt (refillCredits_credits hi)⟩⟩

theorem Sound.pickNext (h : s.Sound) (c : ℕ) : (s.pickNext c).2.Sound := by
  unfold Sched.pickNext
  simp only
  split
  · exact h.wakeExpired
  · split <;> exact h.wakeExpired.refillCredits

/-- The task that `pick_next` returns can run, and is not the idle task when another one can. -/
theorem Sound.pickNext_spec (h : s.Sound) :
    let picked := s.pickNext s.current
    picked.1 < s.taskCount ∧
    ((picked.2.tasks picked.1).state = .ready ∨
      picked.1 = s.current ∧ (picked.2.tasks picked.1).state = .running ∨
      picked.1 = idleTask ∧ (picked.2.tasks picked.1).state = .running) ∧
    (picked.1 = idleTask → ∀ i ≠ idleTask,
      (picked.2.tasks i).state ≠ .ready ∧ (picked.2.tasks i).state ≠ .running) := by
  unfold Sched.pickNext
  simp only
  split
  · rename_i i hpass
    obtain ⟨⟨hready, hne, -⟩, hlt⟩ := pass_some hpass
    exact ⟨hlt, .inl hready, fun heq => absurd heq hne⟩
  · have hw := h.wakeExpired
    split
    · rename_i i hpass
      obtain ⟨⟨hready, hne, -⟩, hlt⟩ := pass_some hpass
      exact ⟨hlt, .inl hready, fun heq => absurd heq hne⟩
    · rename_i hpass
      have hr := hw.refillCredits
      have hcurrent : s.current < s.wakeExpired.refillCredits.taskCount := h.current_lt
      -- No other task is ready now.
      have hnone : ∀ i ≠ idleTask, (s.wakeExpired.refillCredits.tasks i).state ≠ .ready :=
        fun i hi hready => by
          have hlt : i < s.wakeExpired.taskCount := hr.lt_of_used (by rw [hready]; decide)
          refine pass_none hcurrent hpass hlt ((refillCredits_eligible hlt).2 ⟨?_, hi⟩)
          rwa [refillCredits_state] at hready
      unfold lastResort
      split_ifs with hstay hidle
      · exact ⟨h.current_lt, .inr (.inl ⟨rfl, hstay.2.1⟩), fun heq => absurd heq hstay.1⟩
      · refine ⟨Nat.zero_lt_of_lt h.current_lt, ?_, fun _ i hi => ⟨hnone i hi, fun hrunning => ?_⟩⟩
        · exact hidle.imp id fun hrunning => .inr ⟨rfl, hrunning⟩
        · have heq : i = s.current := hr.running i hrunning
          subst heq
          exact hstay ⟨hi, hrunning, refillCredits_credits hcurrent⟩
      · exact absurd hr.idle hidle

/-! ### Switching -/

theorem switchTo_state (s : Sched) {next : ℕ} (i : ℕ) (hne : next ≠ s.current) :
    ((s.switchTo next).tasks i).state =
      if i = next then .running
      else if i = s.current ∧ (s.tasks i).state = .running then .ready
      else (s.tasks i).state := by
  unfold switchTo setState
  simp only
  by_cases hi : i = next
  · subst hi
    simp
  · by_cases hc : i = s.current
    · subst hc
      split_ifs <;> simp_all [modifyTask_tasks, refillCredits_state]
    · split_ifs <;> simp_all [modifyTask_tasks, refillCredits_state]

/-- A switch changes no other fields than the state and the credits. -/
theorem switchTo_field {α : Sort*} (g : Task → α) (hstate : ∀ t state, g { t with state } = g t)
    (hcredits : ∀ t credits, g { t with credits } = g t) (s : Sched) (next i : ℕ) :
    g ((s.switchTo next).tasks i) = g (s.tasks i) := by
  have hrefill : ∀ (t : Sched), g (t.refillCredits.tasks i) = g (t.tasks i) := fun t => by
    rw [refillCredits_tasks]
    split_ifs
    · exact hcredits ..
    · rfl
  unfold switchTo setState
  simp only
  rw [modifyTask_field _ _ _ _ g fun t => hstate t _]
  split_ifs <;> simp only [hrefill, modifyTask_field _ _ _ _ g fun t => hstate t _,
    modifyTask_field _ _ _ _ g fun t => hcredits t _]

@[simp] theorem switchTo_current (s : Sched) (next : ℕ) : (s.switchTo next).current = next := rfl

@[simp] theorem switchTo_taskCount (s : Sched) (next : ℕ) :
    (s.switchTo next).taskCount = s.taskCount := by
  unfold switchTo setState
  simp only
  split_ifs <;> rfl

theorem Sound.switchTo {next : ℕ} (h : s.Sound) (hne : next ≠ s.current)
    (hlt : next < s.taskCount) : (s.switchTo next).Sound where
  current_lt := by simpa using hlt
  count_le := by simpa using h.count_le
  idle := by
    rw [switchTo_state s _ hne]
    split_ifs
    · exact .inr rfl
    · exact .inl rfl
    · exact h.idle
  running i hi := by
    rw [switchTo_state s _ hne] at hi
    split_ifs at hi with hi' hcur
    · exact hi'
    · exact absurd ⟨h.running i hi, hi⟩ hcur
  beyond i hi := by
    rw [switchTo_taskCount] at hi
    rw [switchTo_state s _ hne, if_neg (Nat.ne_of_gt (Nat.lt_of_lt_of_le hlt hi)), if_neg]
    · exact h.beyond i hi
    · exact fun hcur => absurd (hcur.1 ▸ h.current_lt) (Nat.not_lt.2 hi)
  waitFor i hi := by
    rw [switchTo_state s _ hne] at hi
    rw [switchTo_field Task.waitFor (fun _ _ => rfl) fun _ _ => rfl]
    split_ifs at hi
    exact h.waitFor i hi

theorem pickNext_current (s : Sched) (c : ℕ) : (s.pickNext c).2.current = s.current := by
  unfold pickNext
  simp only
  split
  · rfl
  · split <;> rfl

theorem pickNext_taskCount (s : Sched) (c : ℕ) : (s.pickNext c).2.taskCount = s.taskCount := by
  unfold pickNext
  simp only
  split
  · rfl
  · split <;> rfl

/-- A task other than the current one is ready when it is picked. -/
theorem Sound.picked_ready (h : s.Sound) (hne : (s.pickNext s.current).1 ≠ s.current) :
    ((s.pickNext s.current).2.tasks (s.pickNext s.current).1).state = .ready := by
  rcases h.pickNext_spec.2.1 with hready | ⟨heq, -⟩ | ⟨-, hrunning⟩
  · exact hready
  · exact absurd heq hne
  · have heq := (h.pickNext s.current).running _ hrunning
    rw [pickNext_current] at heq
    exact absurd heq hne

/-- `yield_now` keeps the current task or switches to the one that it picks. -/
theorem yieldNow_cases (s : Sched) : ∃ u : Sched, u = { s with needResched := false } ∧
    ((u.pickNext s.current).1 = s.current ∧ s.yieldNow = (u.pickNext s.current).2 ∨
      (u.pickNext s.current).1 ≠ s.current ∧
        s.yieldNow = (u.pickNext s.current).2.switchTo (u.pickNext s.current).1) := by
  refine ⟨_, rfl, ?_⟩
  unfold Sched.yieldNow
  simp only
  rw [pickNext_current]
  split_ifs with heq
  · exact .inl ⟨heq, rfl⟩
  · exact .inr ⟨heq, rfl⟩

theorem Sound.yieldNow (h : s.Sound) : s.yieldNow.Sound := by
  obtain ⟨u, hu, hcases⟩ := s.yieldNow_cases
  have h' : u.Sound := by
    rw [hu]
    exact h.of_moves rfl rfl fun _ => .same rfl rfl
  have hcurrent : u.current = s.current := by rw [hu]
  have hpicked := h'.pickNext s.current
  rcases hcases with ⟨-, heq⟩ | ⟨hne, heq⟩
  · rw [heq]
    exact hpicked
  · rw [heq]
    refine hpicked.switchTo ?_ ?_
    · rwa [pickNext_current, hcurrent]
    · rw [pickNext_taskCount, ← hcurrent]
      exact h'.pickNext_spec.1

/-! ### The other functions -/

theorem Sound.preemptFromTimer (h : s.Sound) : s.preemptFromTimer.Sound := by
  have h' : ({ s with preemptions := s.preemptions + 1 } : Sched).Sound :=
    h.of_moves rfl rfl fun _ => .same rfl rfl
  unfold Sched.preemptFromTimer
  split_ifs
  · exact h
  · exact h
  · exact h
  · exact h'.yieldNow

/-- A tick changes no other fields than the credits and the time used. -/
theorem onTimerTick_field {α : Sort*} (g : Task → α)
    (hcredits : ∀ t credits, g { t with credits } = g t)
    (hticks : ∀ t cpuTicks, g { t with cpuTicks } = g t) (s : Sched) (i : ℕ) :
    g (s.onTimerTick.tasks i) = g (s.tasks i) := by
  unfold Sched.onTimerTick
  simp only
  split_ifs
  · rw [modifyTask_field _ _ _ _ g fun t => hcredits t _,
      modifyTask_field _ _ _ _ g fun t => hticks t _]
  · exact (modifyTask_field _ _ _ _ g fun t => hcredits t _).trans
      (modifyTask_field _ _ _ _ g fun t => hticks t _)

@[simp] theorem onTimerTick_current (s : Sched) : s.onTimerTick.current = s.current := by
  unfold Sched.onTimerTick
  simp only
  split_ifs <;> rfl

@[simp] theorem onTimerTick_taskCount (s : Sched) : s.onTimerTick.taskCount = s.taskCount := by
  unfold Sched.onTimerTick
  simp only
  split_ifs <;> rfl

theorem Sound.onTimerTick (h : s.Sound) : s.onTimerTick.Sound :=
  h.of_moves (onTimerTick_current s) (onTimerTick_taskCount s) fun i =>
    .same (onTimerTick_field Task.state (fun _ _ => rfl) (fun _ _ => rfl) s i)
      (onTimerTick_field Task.waitFor (fun _ _ => rfl) (fun _ _ => rfl) s i)

theorem Sound.fillSlot (h : s.Sound) (hi : i < s.taskCount) (waitable : Bool) :
    (s.fillSlot i waitable).2.Sound := by
  unfold Sched.fillSlot
  split
  · exact h.of_moves rfl rfl fun _ => .same rfl rfl
  · refine h.of_moves rfl rfl fun j => ?_
    simp only [Function.update_apply]
    split_ifs with hj
    · exact .inr (.inl ⟨hj ▸ hi, rfl⟩)
    · exact .same rfl rfl

theorem Sound.spawnInner (h : s.Sound) (waitable : Bool) : (s.spawnInner waitable).2.Sound := by
  unfold Sched.spawnInner
  split
  · rename_i i hfind
    exact h.fillSlot (List.mem_range.1 (List.mem_of_find?_eq_some hfind)) waitable
  · split_ifs with hfull
    · exact h
    · have h' : ({ s with taskCount := s.taskCount + 1 } : Sched).Sound :=
        { h with
          current_lt := Nat.lt_succ_of_lt h.current_lt
          count_le := Nat.lt_of_not_le hfull
          beyond := fun i hi => h.beyond i (Nat.le_of_succ_le hi) }
      exact h'.fillSlot (Nat.lt_succ_self _) waitable

/-- The current task stops being runnable. -/
theorem Sound.stop (h : s.Sound) (hidle : s.current ≠ idleTask) {f : Task → Task}
    (hrunning : (f (s.tasks s.current)).state ≠ .running)
    (hwait : (f (s.tasks s.current)).state = .waiting → 0 < (f (s.tasks s.current)).waitFor) :
    (s.modifyTask s.current f).Sound :=
  h.modifyTask (.inr (.inr (.inr ⟨h.current_lt, hidle, hrunning, hwait⟩)))

theorem Sound.awaitDevice (h : s.Sound) (hidle : s.current ≠ idleTask) : s.awaitDevice.Sound := by
  have h' : (s.setState s.current .ioWait).Sound := h.stop hidle (by simp) (by simp)
  exact h'.of_moves rfl rfl fun _ => .same rfl rfl

theorem reapOrphans_current (s : Sched) : s.reapOrphans.current = s.current := by
  unfold Sched.reapOrphans
  refine List.foldlRecOn (motive := fun t : Sched => t.current = s.current) _ _ rfl
    fun t ht i _ => ?_
  split_ifs <;> exact ht

theorem terminateCurrent_current (s : Sched) : s.terminateCurrent.current = s.current := by
  unfold Sched.terminateCurrent
  simp only
  rw [reapOrphans_current]
  split_ifs <;> rfl

theorem Sound.terminateCurrent (h : s.Sound) (hidle : s.current ≠ idleTask) :
    s.terminateCurrent.Sound := by
  have h' : (s.setState s.current .terminated).Sound := h.stop hidle (by simp) (by simp)
  unfold Sched.terminateCurrent
  simp only
  split_ifs
  · exact (h'.releaseSlot (by simp [setState])).reapOrphans
  · exact h'.reapOrphans

theorem Sound.terminate {t : Sched} (h : s.Sound) {index space : ℕ}
    (ht : s.terminate index = some (space, t)) : t.Sound := by
  unfold Sched.terminate at ht
  simp only at ht
  split at ht
  · cases ht
  · rename_i hindex
    split at ht
    · cases ht
    · rename_i hstate
      have hlt := h.lt_of_used (not_or.1 hstate).1
      have h' : (s.modifyTask index fun t =>
          { t with state := .terminated, addressSpace := 0 }).Sound :=
        h.modifyTask (.inr (.inr (.inr ⟨hlt, (not_or.1 hindex).1, by simp, by simp⟩)))
      obtain rfl := (Prod.mk.inj (Option.some.inj ht)).2
      split_ifs
      · exact h'.releaseSlot (by simp)
      · exact h'

theorem findChild_some {parent : ℕ} {p : TaskState → Bool} (hi : s.findChild parent p = some i) :
    i < s.taskCount ∧ i ≠ parent ∧ (s.tasks i).parent = parent ∧ p (s.tasks i).state = true := by
  have hp := List.find?_some hi
  rw [Bool.and_eq_true, decide_eq_true_iff] at hp
  exact ⟨List.mem_range.1 (List.mem_of_find?_eq_some hi), hp.1.1, hp.1.2, hp.2⟩

/-- What a `waitpid` comes to before its first `yield_now`, and the scheduler after it. -/
inductive Waits (s : Sched) (pid : Option ℕ) (nohang : Bool) : Wait → Sched → Prop
  | noChild : Waits s pid nohang .noChild s
  | notYet : Waits s pid nohang .notYet s
  /-- `WNOHANG` with a pid reads the exit code and leaves the slot as it is. -/
  | peek {child : ℕ} (hpid : pid = some child) (hnohang : nohang = true)
      (hended : (s.tasks child).state = .terminated) :
      Waits s pid nohang (.collected child (s.tasks child).exitCode) s
  | collect {child : ℕ} (hwho : pid = none ∧ (s.tasks child).parent = s.current ∨ pid = some child)
      (hended : (s.tasks child).state = .terminated) :
      Waits s pid nohang (.collected child (s.tasks child).exitCode) (s.releaseSlot child)
  | block {child : ℕ} (hwho : pid = none ∧ (s.tasks child).parent = s.current ∨ pid = some child)
      (hidle : s.current ≠ idleTask) (hne : child ≠ s.current)
      (hused : (s.tasks child).state ≠ .unused) :
      Waits s pid nohang (.blocked child) (s.startWaiting child)

theorem waits_waitForTask {pid : Option ℕ} {child : ℕ} (nohang : Bool)
    (hwho : pid = none ∧ (s.tasks child).parent = s.current ∨ pid = some child) :
    Waits s pid nohang (s.waitForTask child).1 (s.waitForTask child).2 := by
  unfold waitForTask
  split_ifs with hbad hunused hended
  · exact .noChild
  · exact .noChild
  · exact .collect hwho hended
  · exact .block hwho (fun hidle => hbad (.inr (.inr hidle))) (fun heq => hbad (.inr (.inl heq)))
      hunused

theorem waits_waitpid (s : Sched) (pid : Option ℕ) (nohang : Bool) :
    Waits s pid nohang (s.waitpid pid nohang).1 (s.waitpid pid nohang).2 := by
  unfold waitpid
  split
  · split_ifs
    · exact .noChild
    · unfold reapFinishedChild
      split
      · rename_i i hi
        exact .collect (.inl ⟨rfl, (findChild_some hi).2.2.1⟩) (eq_of_beq (findChild_some hi).2.2.2)
      · exact .notYet
    · unfold waitForAny
      split
      · rename_i i hi
        exact .collect (.inl ⟨rfl, (findChild_some hi).2.2.1⟩) (eq_of_beq (findChild_some hi).2.2.2)
      · split
        · rename_i i hi
          exact waits_waitForTask _ (.inl ⟨rfl, (findChild_some hi).2.2.1⟩)
        · exact .noChild
  · split_ifs with hcount hnohang hended
    · exact .noChild
    · exact .notYet
    · exact .peek rfl hnohang (Classical.not_not.1 hended)
    · exact waits_waitForTask _ (.inr rfl)

theorem Sound.startWaiting (h : s.Sound) (hidle : s.current ≠ idleTask) (child : ℕ) :
    (s.startWaiting child).Sound :=
  h.stop hidle (by simp) (by simp)

theorem Sound.waits (h : s.Sound) {pid : Option ℕ} {nohang : Bool} {w : Wait}
    (hwaits : Waits s pid nohang w t) : t.Sound := by
  cases hwaits with
  | noChild => exact h
  | notYet => exact h
  | peek => exact h
  | collect _ hended => exact h.releaseSlot hended
  | block _ hidle => exact h.startWaiting hidle _

/-! ### The current task is alive -/

end Sched

/-- The task has started and not ended. -/
def Task.Alive (t : Task) : Prop := t.state ≠ .unused ∧ t.state ≠ .terminated

namespace Sched

variable {s t : Sched} {i : ℕ}

/-- A current task is alive after a step that it was alive before, or that chose it. -/
def Lives (s t : Sched) : Prop :=
  t.current ≠ s.current ∨ (s.tasks s.current).Alive → (t.tasks t.current).Alive

theorem lives_of_state (hcurrent : t.current = s.current)
    (hstate : (s.tasks s.current).Alive → (t.tasks s.current).Alive) : Lives s t := by
  rintro (hne | halive)
  · exact absurd hcurrent hne
  · rw [hcurrent]
    exact hstate halive

theorem wake_alive {now : UInt32} {tasks : ℕ → Task} {t : Task} :
    (wake now tasks t).Alive ↔ t.Alive := by
  unfold wake
  split
  · split_ifs <;> simp_all [Task.Alive]
  · split_ifs <;> simp_all [Task.Alive]
  · exact Iff.rfl

theorem wakeExpired_alive (s : Sched) (i : ℕ) :
    (s.wakeExpired.tasks i).Alive ↔ (s.tasks i).Alive := by
  rw [wakeExpired_tasks]
  split_ifs
  · exact wake_alive
  · exact Iff.rfl

theorem pickNext_alive (s : Sched) (c i : ℕ) :
    ((s.pickNext c).2.tasks i).Alive ↔ (s.tasks i).Alive := by
  have hrefill : (s.wakeExpired.refillCredits.tasks i).Alive ↔ (s.tasks i).Alive := by
    unfold Task.Alive
    rw [refillCredits_state]
    exact wakeExpired_alive s i
  unfold pickNext
  simp only
  split
  · exact wakeExpired_alive s i
  · split <;> exact hrefill

theorem lives_yieldNow (s : Sched) : Lives s s.yieldNow := by
  obtain ⟨u, rfl, ⟨-, heq⟩ | ⟨hne, heq⟩⟩ := s.yieldNow_cases
  · rw [heq]
    exact lives_of_state (pickNext_current ..) fun halive => (pickNext_alive ..).2 halive
  · rw [heq]
    intro _
    rw [switchTo_current]
    unfold Task.Alive
    rw [switchTo_state _ _ (by rwa [pickNext_current]), if_pos rfl]
    exact ⟨nofun, nofun⟩

theorem lives_preemptFromTimer (s : Sched) : Lives s s.preemptFromTimer := by
  unfold Sched.preemptFromTimer
  split_ifs
  · exact lives_of_state rfl id
  · exact lives_of_state rfl id
  · exact lives_of_state rfl id
  · exact lives_yieldNow { s with preemptions := s.preemptions + 1 }

/-- A change of one task's entry. -/
theorem lives_modifyTask {f : Task → Task}
    (hf : i = s.current → (s.tasks i).Alive → (f (s.tasks i)).Alive) :
    Lives s (s.modifyTask i f) := by
  refine lives_of_state rfl fun halive => ?_
  rw [modifyTask_tasks]
  split_ifs with hi
  · exact hf hi.symm (hi ▸ halive)
  · exact halive

theorem lives_fillSlot (s : Sched) (i : ℕ) (waitable : Bool) :
    Lives s (s.fillSlot i waitable).2 := by
  unfold Sched.fillSlot
  split
  · exact lives_of_state rfl id
  · refine lives_of_state rfl fun halive => ?_
    simp only [Function.update_apply]
    split_ifs
    · exact ⟨nofun, nofun⟩
    · exact halive

theorem lives_spawnInner (s : Sched) (waitable : Bool) : Lives s (s.spawnInner waitable).2 := by
  unfold Sched.spawnInner
  split
  · exact lives_fillSlot s _ _
  · split_ifs
    · exact lives_of_state rfl id
    · exact lives_fillSlot { s with taskCount := s.taskCount + 1 } _ _

theorem setNice_getD (s : Sched) (index : ℕ) (value : Int8) :
    (s.setNice index value).getD s = s ∨ (s.setNice index value).getD s =
      s.modifyTask index fun t => { t with nice := clampNice value } := by
  unfold setNice
  split_ifs
  · exact .inl rfl
  · exact .inl rfl
  · exact .inr rfl

theorem lives_awaitDevice (s : Sched) : Lives s s.awaitDevice := by
  refine lives_of_state rfl fun _ => ?_
  simp only [awaitDevice, setState, modifyTask_self]
  exact ⟨nofun, nofun⟩

theorem lives_releaseSlot (hended : (s.tasks i).state = .terminated) :
    Lives s (s.releaseSlot i) :=
  lives_modifyTask fun _ halive => absurd hended halive.2

theorem lives_waits {pid : Option ℕ} {nohang : Bool} {w : Wait} (h : Waits s pid nohang w t) :
    Lives s t := by
  cases h with
  | noChild => exact lives_of_state rfl id
  | notYet => exact lives_of_state rfl id
  | peek => exact lives_of_state rfl id
  | collect _ hended => exact lives_releaseSlot hended
  | block => exact lives_modifyTask fun _ _ => ⟨nofun, nofun⟩

theorem terminate_switches {index space : ℕ} (ht : s.terminate index = some (space, t)) :
    t.switches = s.switches := by
  unfold Sched.terminate at ht
  simp only at ht
  split_ifs at ht <;> obtain ⟨-, rfl⟩ := Prod.mk.inj (Option.some.inj ht) <;> rfl

theorem terminate_some {index space : ℕ} (ht : s.terminate index = some (space, t)) :
    index ≠ idleTask ∧ index ≠ s.current ∧ (s.tasks index).Alive ∧
      space = (s.tasks index).addressSpace ∧ t.current = s.current ∧
        t.taskCount = s.taskCount ∧ (∀ i ≠ index, t.tasks i = s.tasks i) ∧
          ¬ (t.tasks index).Alive := by
  unfold Sched.terminate at ht
  simp only at ht
  split at ht
  · cases ht
  · rename_i hindex
    split at ht
    · cases ht
    · rename_i hstate
      obtain ⟨hidle, hmax⟩ := not_or.1 hindex
      obtain ⟨rfl, rfl⟩ := Prod.mk.inj (Option.some.inj ht)
      refine ⟨hidle, (not_or.1 hmax).2, not_or.1 hstate, rfl, ?_⟩
      split_ifs
      · refine ⟨rfl, rfl, fun i hi => ?_, fun halive => halive.1 (by simp [releaseSlot])⟩
        simp only [releaseSlot, modifyTask_tasks, if_neg hi]
      · refine ⟨rfl, rfl, fun i hi => ?_, fun halive => halive.2 (by simp)⟩
        simp only [modifyTask_tasks, if_neg hi]

end Sched

namespace Kernel

/-- The scheduler's table is sound, the idle task is in no call, and a current task that is not
halted is alive. -/
structure Sound (k : Kernel) : Prop where
  sched : k.sched.Sound
  idle : k.point idleTask = .free
  alive : k.point k.sched.current = .halted ∨ (k.sched.tasks k.sched.current).Alive

variable {k k' : Kernel} {e : KernelEvent} {es : List KernelEvent}

theorem Sound.withSched {s : Sched} (h : k.Sound) (hs : s.Sound) (hlives : k.sched.Lives s) :
    (k.withSched s).Sound := by
  refine ⟨hs, h.idle, ?_⟩
  by_cases hcurrent : s.current = k.sched.current
  · rcases h.alive with hhalted | halive
    · exact .inl (hcurrent ▸ hhalted)
    · exact .inr (hlives (.inr halive))
  · exact .inr (hlives (.inl hcurrent))

/-- A step to another point of a call that the current task may be in. -/
theorem Sound.enter {s : Sched} {p : Point} (h : k.Sound) (hs : s.Sound)
    (hidle : k.sched.current ≠ idleTask ∨ p = .free)
    (hlives : k.sched.Lives s ∧ (p = .halted ∨ k.point k.sched.current ≠ .halted) ∨
      s.current = k.sched.current ∧ p = .halted) : (k.enter p s).Sound := by
  refine ⟨hs, ?_, ?_⟩
  · simp only [Kernel.enter, Function.update_apply]
    split_ifs with heq
    · exact hidle.resolve_left fun hne => hne heq.symm
    · exact h.idle
  · simp only [Kernel.enter, Function.update_apply]
    rcases hlives with ⟨hlives, hp⟩ | ⟨hcurrent, hp⟩
    · by_cases hcurrent : s.current = k.sched.current
      · rw [if_pos hcurrent]
        refine hp.imp id fun hne => hlives (.inr (h.alive.resolve_left hne))
      · exact .inr (hlives (.inl hcurrent))
    · rw [if_pos hcurrent]
      exact .inl hp

theorem Sound.afterCall (h : k.Sound) {c : TaskCall} (hfree : k.point k.sched.current = .free)
    (hexit : c = .exit → k.sched.current ≠ idleTask) : (k.afterCall c).Sound := by
  have hs := h.sched
  have hne : k.point k.sched.current ≠ .halted := by
    rw [hfree]
    nofun
  have halive := h.alive.resolve_left hne
  cases c with
  | spawn waitable =>
    have hspawn := hs.spawnInner waitable
    have hlives := k.sched.lives_spawnInner waitable
    unfold Kernel.afterCall
    simp only
    split
    · rename_i index s heq
      rw [heq] at hspawn hlives
      refine ⟨hspawn, ?_, .inr (hlives (.inr halive))⟩
      simp only [Function.update_apply]
      split_ifs
      · rfl
      · exact h.idle
    · rename_i s heq
      rw [heq] at hspawn hlives
      exact h.withSched hspawn hlives
  | yield => exact h.withSched hs.yieldNow k.sched.lives_yieldNow
  | sleep ticks =>
    unfold Kernel.afterCall
    simp only
    split_ifs with hidle
    · exact h.withSched hs.yieldNow k.sched.lives_yieldNow
    · have hcurrent := (not_or.1 hidle).1
      exact h.enter (hs.stop hcurrent (by simp) (by simp)) (.inl hcurrent)
        (.inl ⟨Sched.lives_modifyTask fun _ _ => ⟨nofun, nofun⟩, .inr hne⟩)
  | waitForIo timeout =>
    unfold Kernel.afterCall
    simp only
    split_ifs with hidle
    · exact h
    · exact h.enter hs (.inl hidle) (.inl ⟨Sched.lives_of_state rfl id, .inr hne⟩)
  | waitpid pid nohang =>
    have hwaits := k.sched.waits_waitpid pid nohang
    unfold Kernel.afterCall
    simp only
    split
    · rename_i child s heq
      rw [heq] at hwaits
      have hidle : k.sched.current ≠ idleTask := by
        cases hwaits with
        | block _ hidle => exact hidle
      exact h.enter (hs.waits hwaits) (.inl hidle) (.inl ⟨Sched.lives_waits hwaits, .inr hne⟩)
    · rename_i w s _ heq
      rw [heq] at hwaits
      exact h.withSched (hs.waits hwaits) (Sched.lives_waits hwaits)
  | setNice index value =>
    unfold Kernel.afterCall
    simp only
    rcases k.sched.setNice_getD index value with heq | heq
    · rw [heq]
      exact h
    · rw [heq]
      exact h.withSched (hs.modifyTask (.same rfl rfl))
        (Sched.lives_modifyTask fun _ halive => halive)
  | setExitCode code =>
    exact h.withSched (hs.modifyTask (.same rfl rfl))
      (Sched.lives_modifyTask fun _ halive => halive)
  | terminate index =>
    unfold Kernel.afterCall
    simp only
    split
    · rename_i space s heq
      obtain ⟨-, hne, -, -, hcurrent, -, htasks, -⟩ := Sched.terminate_some heq
      refine h.withSched (hs.terminate heq) (Sched.lives_of_state hcurrent fun halive => ?_)
      rwa [htasks _ hne.symm]
    · exact h
  | exit =>
    exact h.enter (hs.terminateCurrent (hexit rfl)) (.inl (hexit rfl))
      (.inr ⟨Sched.terminateCurrent_current _, rfl⟩)

theorem Sound.afterProceed (h : k.Sound) (ready : Bool) : (k.afterProceed ready).Sound := by
  have hs := h.sched
  unfold Kernel.afterProceed
  simp only
  cases hpoint : k.point k.sched.current with
  | free => exact h
  | awake =>
    exact h.enter (hs.modifyTask (.inr (.inr (.inl ⟨rfl, rfl⟩)))) (.inr rfl)
      (.inl ⟨Sched.lives_modifyTask fun _ _ => ⟨nofun, nofun⟩, .inr (by rw [hpoint]; nofun)⟩)
  | halted =>
    have hidle : k.sched.current ≠ idleTask := fun heq => by
      rw [heq, h.idle] at hpoint
      cases hpoint
    exact h.enter hs.yieldNow (.inl hidle) (.inl ⟨k.sched.lives_yieldNow, .inl rfl⟩)
  | _ =>
    -- The idle task is in no call that it could go on with.
    have hidle : k.sched.current ≠ idleTask := fun heq => by
      rw [heq, h.idle] at hpoint
      cases hpoint
    have hne : k.point k.sched.current ≠ .halted := by
      rw [hpoint]
      nofun
    simp only
    first
      | exact h.enter hs.yieldNow (.inl hidle) (.inl ⟨k.sched.lives_yieldNow, .inr hne⟩)
      | split_ifs with htest <;> first
        | exact h.enter hs (.inl hidle) (.inl ⟨Sched.lives_of_state rfl id, .inr hne⟩)
        | exact h.enter (hs.awaitDevice hidle) (.inl hidle)
            (.inl ⟨Sched.lives_awaitDevice _, .inr hne⟩)
        | exact h.enter (hs.releaseSlot htest) (.inr rfl)
            (.inl ⟨Sched.lives_releaseSlot htest, .inr hne⟩)

theorem Sound.step (h : k.Sound) (hstep : KernelStep k e k') : k'.Sound := by
  obtain ⟨henabled, rfl⟩ := hstep
  cases e with
  | tick =>
    refine h.withSched h.sched.onTimerTick (Sched.lives_of_state (by simp) fun halive => ?_)
    unfold Task.Alive
    rwa [Sched.onTimerTick_field Task.state (fun _ _ => rfl) fun _ _ => rfl]
  | preempt => exact h.withSched h.sched.preemptFromTimer k.sched.lives_preemptFromTimer
  | diskIrq =>
    refine h.withSched h.sched.wakeIoWaiters (Sched.lives_of_state rfl fun halive => ?_)
    rw [Sched.wakeIoWaiters_tasks]
    split_ifs
    · exact ⟨nofun, nofun⟩
    · exact halive
  | call c => exact h.afterCall henabled.1 henabled.2
  | proceed ready => exact h.afterProceed ready

theorem sound_boot : boot.Sound where
  sched :=
    { current_lt := by decide
      count_le := by decide
      idle := .inr rfl
      running := fun i hi => by
        by_contra hne
        simp [boot, Sched.initial, Function.update_of_ne (show i ≠ 0 from hne), Task.empty] at hi
      beyond := fun i hi => by
        have hne : i ≠ 0 := Nat.ne_of_gt hi
        simp [boot, Sched.initial, Function.update_of_ne hne, Task.empty]
      waitFor := fun i hi => by
        by_cases hne : i = 0
        · subst hne
          cases hi
        · simp [boot, Sched.initial, Function.update_of_ne hne, Task.empty] at hi }
  idle := rfl
  alive := .inr ⟨nofun, nofun⟩

/-- Every state of a run from the boot on is sound. -/
theorem sound_run (h : Run KernelStep boot es k) : k.Sound :=
  h.invariant (I := Kernel.Sound) (fun _ _ _ hk hstep => hk.step hstep) sound_boot

end Kernel

/-- The task can run. -/
def Task.Runnable (t : Task) : Prop := t.state = .ready ∨ t.state = .running

/-- **Selection.** In every state of a run from the boot on, `pick_next` returns a task that is
`Ready` or `Running`, and it returns the idle task only when no other task is. -/
theorem pickNext_runnable {k : Kernel} {es : List KernelEvent}
    (hrun : Run KernelStep Kernel.boot es k) :
    let picked := k.sched.pickNext k.sched.current
    (picked.2.tasks picked.1).Runnable ∧
      (picked.1 = idleTask → ∀ i ≠ idleTask, ¬ (picked.2.tasks i).Runnable) := by
  obtain ⟨-, hstate, hidle⟩ := (Kernel.sound_run hrun).sched.pickNext_spec
  refine ⟨hstate.imp id fun h => h.elim And.right And.right, fun heq i hi hrunnable => ?_⟩
  obtain ⟨hready, hrunning⟩ := hidle heq i hi
  exact hrunnable.elim hready hrunning

/-- The idle task spawns a task and yields to it. -/
theorem pickNext_runnable_spawned :
    let k := (Kernel.boot.after (.call (.spawn false))).after (.call .yield)
    let picked := k.sched.pickNext k.sched.current
    (picked.2.tasks picked.1).Runnable ∧
      (picked.1 = idleTask → ∀ i ≠ idleTask, ¬ (picked.2.tasks i).Runnable) :=
  pickNext_runnable
    (.cons (e := .call (.spawn false)) ⟨by decide, rfl⟩
      (.cons (e := .call .yield) ⟨by decide, rfl⟩ (.nil _)))

end Tcmk
