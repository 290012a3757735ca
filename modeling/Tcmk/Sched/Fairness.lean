import Tcmk.Sched.Selection

/-!
# Bounded waiting

A task that is ready and not selected waits at most until the credits of the others are used up
and the tasks before it in the round have had their turn. The rank of a waiting task bounds the
context switches until then: each switch to another task lowers it, and nothing raises it as
long as no task is spawned and no priority changes.

* While the task has no credits, the others use up theirs: each switch to one of them costs one
  credit, and when none has credits left all get new ones.
* While it has credits, the search for a candidate, which starts behind the current task, comes
  nearer to it with each switch.
-/

namespace Tcmk

open Lib

namespace Sched

variable {s s' : Sched} {t c i : ℕ}

instance (t : Task) : Decidable t.Alive := inferInstanceAs (Decidable (_ ∧ _))

/-- The other task counts for the wait of task `t`. -/
def Rival (s : Sched) (t i : ℕ) : Prop := i ≠ idleTask ∧ i ≠ t ∧ (s.tasks i).Alive

instance (s : Sched) (t i : ℕ) : Decidable (s.Rival t i) := inferInstanceAs (Decidable (_ ∧ _ ∧ _))

/-- The credits that the other tasks have left, not counting the idle task's. -/
def creditsOfOthers (s : Sched) (t : ℕ) : ℕ :=
  ∑ i ∈ Finset.range s.taskCount, if s.Rival t i then (s.tasks i).credits else 0

/-- The turns that a task still has before the next refill. -/
def turns (s : Sched) (t i : ℕ) : ℕ :=
  if s.Rival t i then
    if i = s.current then (s.tasks i).credits - 1 else (s.tasks i).credits
  else 0

def turnsOfOthers (s : Sched) (t : ℕ) : ℕ := ∑ i ∈ Finset.range s.taskCount, s.turns t i

/-- How far the search of `pick_next` goes from task `c` to task `t`. -/
def distance (s : Sched) (c t : ℕ) : ℕ := if c ≤ t then t - c else t + s.taskCount - c

/-- A bound on the switches until task `t` is selected. -/
def rank (s : Sched) (t : ℕ) : ℕ :=
  if 0 < (s.tasks t).credits then s.distance s.current t else s.turnsOfOthers t + maxTasks

theorem turnsOfOthers_le (s : Sched) (t : ℕ) : s.turnsOfOthers t ≤ s.creditsOfOthers t :=
  Finset.sum_le_sum fun i _ => by
    unfold turns
    split_ifs
    · exact Nat.sub_le ..
    · exact Nat.le_refl _
    · exact Nat.le_refl _

theorem Sound.distance_lt (h : s.Sound) (hne : s.current ≠ t) (ht : t < s.taskCount) :
    0 < s.distance s.current t ∧ s.distance s.current t < maxTasks := by
  have hcurrent := h.current_lt
  have hcount := h.count_le
  unfold distance
  split_ifs <;> omega

theorem Sound.rank_pos (h : s.Sound) (hne : s.current ≠ t) (ht : t < s.taskCount) :
    0 < s.rank t := by
  unfold rank
  split_ifs
  · exact (h.distance_lt hne ht).1
  · exact Nat.add_pos_right _ (by decide)

theorem Sound.rank_le (h : s.Sound) (hne : s.current ≠ t) (ht : t < s.taskCount) :
    s.rank t ≤ s.creditsOfOthers t + maxTasks := by
  unfold rank
  split_ifs
  · exact Nat.le_trans (Nat.le_of_lt (h.distance_lt hne ht).2) (Nat.le_add_left ..)
  · exact Nat.add_le_add_right (turnsOfOthers_le s t) _

/-! ## Steps without a switch -/

/-- The step neither switches nor gives anybody credits. -/
structure Quiet (t : ℕ) (s s' : Sched) : Prop where
  current : s'.current = s.current
  taskCount : s'.taskCount = s.taskCount
  switches : s'.switches = s.switches
  own : (s'.tasks t).credits = (s.tasks t).credits
  others : ∀ i, (s'.tasks i).Alive →
    (s.tasks i).Alive ∧ (s'.tasks i).credits ≤ (s.tasks i).credits

theorem Quiet.turns_le (h : Quiet t s s') (i : ℕ) : s'.turns t i ≤ s.turns t i := by
  unfold turns
  rw [h.current]
  by_cases hrival : s'.Rival t i
  · obtain ⟨halive, hle⟩ := h.others i hrival.2.2
    rw [if_pos hrival, if_pos (show s.Rival t i from ⟨hrival.1, hrival.2.1, halive⟩)]
    split_ifs
    · exact Nat.sub_le_sub_right hle 1
    · exact hle
  · rw [if_neg hrival]
    exact Nat.zero_le _

theorem Quiet.rank_le (h : Quiet t s s') : s'.rank t ≤ s.rank t := by
  unfold rank distance turnsOfOthers
  rw [h.own, h.current, h.taskCount]
  split_ifs
  · exact Nat.le_refl _
  · exact Nat.le_refl _
  · exact Nat.add_le_add_right (Finset.sum_le_sum fun i _ => h.turns_le i) _

theorem Quiet.refl (s : Sched) (t : ℕ) : Quiet t s s :=
  ⟨rfl, rfl, rfl, rfl, fun _ halive => ⟨halive, Nat.le_refl _⟩⟩

theorem Quiet.trans {s'' : Sched} (h : Quiet t s s') (h' : Quiet t s' s'') : Quiet t s s'' where
  current := h'.current.trans h.current
  taskCount := h'.taskCount.trans h.taskCount
  switches := h'.switches.trans h.switches
  own := h'.own.trans h.own
  others i halive :=
    have hi' := h'.others i halive
    have hi := h.others i hi'.1
    ⟨hi.1, Nat.le_trans hi'.2 hi.2⟩

/-- A change of one entry that gives nobody credits. -/
theorem quiet_modifyTask {f : Task → Task}
    (hown : i = t → (f (s.tasks i)).credits = (s.tasks i).credits)
    (hothers : (f (s.tasks i)).Alive →
      (s.tasks i).Alive ∧ (f (s.tasks i)).credits ≤ (s.tasks i).credits) :
    Quiet t s (s.modifyTask i f) := by
  refine ⟨rfl, rfl, rfl, ?_, fun j => ?_⟩
  · rw [modifyTask_tasks]
    split_ifs with hi
    · rw [hown hi.symm, hi]
    · rfl
  · rw [modifyTask_tasks]
    split_ifs with hj
    · rw [hj]
      exact hothers
    · exact fun halive => ⟨halive, Nat.le_refl _⟩

/-- A change of the current task's state. -/
theorem quiet_current (f : Task → Task) (hf : ∀ t, (f t).credits = t.credits)
    (hne : s.current ≠ t) (halive : (s.tasks s.current).Alive) :
    Quiet t s (s.modifyTask s.current f) :=
  quiet_modifyTask (fun heq => absurd heq hne) fun _ => ⟨halive, Nat.le_of_eq (hf _)⟩

theorem quiet_fallAsleep (hne : s.current ≠ t) (halive : (s.tasks s.current).Alive)
    (wake : UInt32) : Quiet t s (s.fallAsleep wake) :=
  quiet_current _ (fun _ => rfl) hne halive

theorem quiet_awaitDevice (hne : s.current ≠ t) (halive : (s.tasks s.current).Alive) :
    Quiet t s s.awaitDevice :=
  have hset : Quiet t s (s.setState s.current .ioWait) := quiet_current _ (fun _ => rfl) hne halive
  ⟨hset.current, hset.taskCount, hset.switches, hset.own, hset.others⟩

theorem quiet_setRunning (hne : s.current ≠ t) (halive : (s.tasks s.current).Alive) :
    Quiet t s (s.setState s.current .running) :=
  quiet_current _ (fun _ => rfl) hne halive

theorem quiet_releaseSlot (hi : i ≠ t) : Quiet t s (s.releaseSlot i) :=
  quiet_modifyTask (fun heq => absurd heq hi) fun halive => absurd rfl halive.1

theorem quiet_reapOrphans (hready : (s.tasks t).state = .ready) : Quiet t s s.reapOrphans := by
  unfold reapOrphans
  refine (List.foldlRecOn (motive := fun u : Sched => Quiet t s u ∧ (u.tasks t).state = .ready)
    _ _ ⟨.refl s t, hready⟩ fun u hu i _ => ?_).1
  split_ifs with hskip
  · exact hu
  · exact hu
  · have hne : i ≠ t := fun heq => by
      have hended := Classical.not_not.1 (not_or.1 hskip).1
      rw [heq, hu.2] at hended
      cases hended
    refine ⟨hu.1.trans (quiet_releaseSlot hne), ?_⟩
    rw [releaseSlot, modifyTask_tasks, if_neg hne.symm]
    exact hu.2

theorem quiet_terminateCurrent (hready : (s.tasks t).state = .ready) (hne : s.current ≠ t) :
    Quiet t s s.terminateCurrent := by
  have hset : Quiet t s (s.setState s.current .terminated) :=
    quiet_modifyTask (fun heq => absurd heq hne) fun halive => absurd rfl halive.2
  have hset' : ((s.setState s.current .terminated).tasks t).state = .ready := by
    rw [setState, modifyTask_tasks, if_neg hne.symm]
    exact hready
  unfold terminateCurrent
  simp only
  split_ifs
  · refine (hset.trans (quiet_releaseSlot hne)).trans (quiet_reapOrphans ?_)
    rw [releaseSlot, modifyTask_tasks, if_neg (show t ≠ s.current from hne.symm)]
    exact hset'
  · exact hset.trans (quiet_reapOrphans hset')

theorem quiet_terminate {index space : ℕ} (ht : s.terminate index = some (space, s'))
    (hready : (s'.tasks t).state = .ready) : Quiet t s s' := by
  obtain ⟨-, -, -, -, hcurrent, hcount, htasks, hdead⟩ := terminate_some ht
  have hne : t ≠ index := by
    rintro rfl
    exact hdead ⟨by rw [hready]; nofun, by rw [hready]; nofun⟩
  refine ⟨hcurrent, hcount, terminate_switches ht, by rw [htasks t hne], fun i halive => ?_⟩
  have hi : i ≠ index := by
    rintro rfl
    exact hdead halive
  rw [htasks i hi] at halive ⊢
  exact ⟨halive, Nat.le_refl _⟩

theorem quiet_onTimerTick (hne : s.current ≠ t) : Quiet t s s.onTimerTick := by
  have hticks : Quiet t s { s with ticks := s.ticks + 1 } :=
    ⟨rfl, rfl, rfl, rfl, fun _ halive => ⟨halive, Nat.le_refl _⟩⟩
  have hused : Quiet t s (({ s with ticks := s.ticks + 1 } : Sched).modifyTask s.current
      fun t => { t with cpuTicks := t.cpuTicks + 1 }) :=
    hticks.trans (quiet_modifyTask (fun heq => absurd heq hne) fun halive =>
      ⟨halive, Nat.le_refl _⟩)
  unfold onTimerTick
  simp only
  split_ifs
  · exact hused.trans (quiet_modifyTask (fun heq => absurd heq hne) fun halive =>
      ⟨halive, Nat.sub_le ..⟩)
  · have hzero := hused.trans
      (quiet_modifyTask (i := s.current) (f := fun t => { t with credits := 0 })
        (fun heq => absurd heq hne) fun halive => ⟨halive, Nat.zero_le _⟩)
    exact ⟨hzero.current, hzero.taskCount, hzero.switches, hzero.own, hzero.others⟩

theorem quiet_wakeExpired (s : Sched) (t : ℕ) : Quiet t s s.wakeExpired :=
  ⟨rfl, rfl, rfl, wakeExpired_credits s t, fun i halive =>
    ⟨(wakeExpired_alive s i).1 halive, Nat.le_of_eq (wakeExpired_credits s i)⟩⟩

theorem quiet_wakeIoWaiters (s : Sched) (t : ℕ) : Quiet t s s.wakeIoWaiters := by
  have htasks : ∀ i, (s.wakeIoWaiters.tasks i).credits = (s.tasks i).credits ∧
      ((s.wakeIoWaiters.tasks i).Alive → (s.tasks i).Alive) := fun i => by
    rw [wakeIoWaiters_tasks]
    split_ifs with hi
    · exact ⟨rfl, fun _ => ⟨by rw [hi.2]; nofun, by rw [hi.2]; nofun⟩⟩
    · exact ⟨rfl, id⟩
  exact ⟨rfl, rfl, rfl, (htasks t).1, fun i halive =>
    ⟨(htasks i).2 halive, Nat.le_of_eq (htasks i).1⟩⟩

theorem quiet_waits {pid : Option ℕ} {nohang : Bool} {w : Wait} (h : Waits s pid nohang w s')
    (hready : (s.tasks t).state = .ready) (hne : s.current ≠ t)
    (halive : (s.tasks s.current).Alive) : Quiet t s s' := by
  cases h with
  | noChild => exact .refl s t
  | notYet => exact .refl s t
  | peek => exact .refl s t
  | collect _ hended =>
    refine quiet_releaseSlot fun heq => ?_
    rw [heq, hready] at hended
    cases hended
  | block => exact quiet_current _ (fun _ => rfl) hne halive

/-! ## Switches -/

theorem switchTo_switches (s : Sched) (next : ℕ) : (s.switchTo next).switches = s.switches + 1 := by
  unfold switchTo setState
  simp only
  split_ifs <;> rfl

theorem switchTo_credits {next : ℕ} (hnext : next ≠ idleTask) (s : Sched) (i : ℕ) :
    ((s.switchTo next).tasks i).credits =
      if i = s.current ∧ i ≠ idleTask then (s.tasks i).credits - 1 else (s.tasks i).credits := by
  unfold switchTo setState
  simp only [if_neg hnext]
  split_ifs <;> simp only [modifyTask_tasks] <;> split_ifs <;> simp_all

theorem switchTo_credits_other {next : ℕ} (hnext : next ≠ idleTask) (hi : s.current ≠ i) :
    ((s.switchTo next).tasks i).credits = (s.tasks i).credits := by
  rw [switchTo_credits hnext, if_neg fun heq => hi heq.1.symm]

/-- A selection among ready tasks takes the first one in the round that has credits, or refills
all credits and then takes the first one. -/
theorem Sound.pickNext_cases (h : s.Sound) (hready : (s.tasks t).state = .ready)
    (ht : t ≠ idleTask) : ∃ c u, s.pickNext s.current = (c, u) ∧ u.pass s.current = some c ∧
      (u = s.wakeExpired ∨
        u = s.wakeExpired.refillCredits ∧ (s.tasks t).credits = 0) := by
  have hlt : t < s.taskCount := h.lt_of_used (by rw [hready]; nofun)
  have hcurrent : s.current < s.wakeExpired.taskCount := h.current_lt
  have hwoken : (s.wakeExpired.tasks t).state = .ready := by
    rw [wakeExpired_tasks, if_pos hlt]
    unfold wake
    rw [hready]
    exact hready
  cases hpass : s.wakeExpired.pass s.current with
  | some c => exact ⟨c, s.wakeExpired, by simp only [Sched.pickNext, hpass], hpass, .inl rfl⟩
  | none =>
    have hzero : (s.tasks t).credits = 0 := by
      by_contra hne
      refine pass_none hcurrent hpass hlt ⟨hwoken, ht, ?_⟩
      rwa [wakeExpired_credits]
    have helig : s.wakeExpired.refillCredits.Eligible t :=
      (refillCredits_eligible (s := s.wakeExpired) hlt).2 ⟨hwoken, ht⟩
    cases hpass' : s.wakeExpired.refillCredits.pass s.current with
    | some c =>
      exact ⟨c, _, by simp only [Sched.pickNext, hpass, hpass'], hpass', .inr ⟨rfl, hzero⟩⟩
    | none => exact absurd helig (pass_none hcurrent hpass' hlt)

theorem mod_of_lt_double {x n : ℕ} (h : x < 2 * n) : x % n = if x < n then x else x - n := by
  split_ifs with hlt
  · exact Nat.mod_eq_of_lt hlt
  · rw [Nat.mod_eq_sub_mod (Nat.le_of_not_lt hlt), Nat.mod_eq_of_lt (by omega)]

/-- The first candidate in the round is nearer to the current task than any other one. -/
theorem pass_distance (hc : s.current < s.taskCount) (hpass : s.pass s.current = some c)
    (ht : t < s.taskCount) (helig : s.Eligible t) (hne : c ≠ t) (hcurrent : s.current ≠ t) :
    s.distance c t < s.distance s.current t := by
  unfold pass candidates at hpass
  rw [List.find?_map, Option.map_eq_some_iff] at hpass
  obtain ⟨j, hfind, hj⟩ := hpass
  obtain ⟨-, hmem, hfirst⟩ := List.find?_range_eq_some.1 hfind
  have hjlt := List.mem_range.1 hmem
  -- Task `t` is a candidate too, at this place in the round.
  have hd : s.distance s.current t - 1 < s.taskCount ∧
      (s.current + (s.distance s.current t - 1 + 1)) % s.taskCount = t := by
    rw [mod_of_lt_double (by unfold distance; split_ifs <;> omega)]
    unfold distance
    split_ifs <;> omega
  have hle : j ≤ s.distance s.current t - 1 := by
    by_contra hgt
    have hnot := hfirst _ (Nat.lt_of_not_le hgt)
    simp only [Function.comp_apply, hd.2, Bool.not_eq_true', decide_eq_false_iff_not] at hnot
    exact hnot helig
  have hjne : j ≠ s.distance s.current t - 1 := fun heq => hne (by rw [← hj, heq, hd.2])
  rw [mod_of_lt_double (by omega)] at hj
  have hpos : 0 < s.distance s.current t := by
    unfold distance
    split_ifs <;> omega
  unfold distance at hle hjne hpos ⊢
  split_ifs at hj hle hjne hpos ⊢ <;> omega

/-- A switch to another task that has credits uses up one of its turns. -/
theorem turnsOfOthers_switchTo (helig : s.Eligible c) (hc : c < s.taskCount) (hne : c ≠ t)
    (hcurrent : c ≠ s.current) :
    (s.switchTo c).turnsOfOthers t + 1 ≤ s.turnsOfOthers t := by
  obtain ⟨hready, hidle, hcredits⟩ := helig
  have hrival : ∀ i, (s.switchTo c).Rival t i → s.Rival t i := fun i hi => by
    refine ⟨hi.1, hi.2.1, ?_⟩
    have halive := hi.2.2
    unfold Task.Alive at halive ⊢
    rw [switchTo_state s i hcurrent] at halive
    split_ifs at halive with hic hir
    · rw [hic, hready]
      exact ⟨nofun, nofun⟩
    · rw [hir.2]
      exact ⟨nofun, nofun⟩
    · exact halive
  have hle : ∀ i, (s.switchTo c).turns t i ≤ s.turns t i := fun i => by
    by_cases hi : (s.switchTo c).Rival t i
    · unfold turns
      rw [if_pos hi, if_pos (hrival i hi), switchTo_credits hidle]
      simp only [switchTo_current, hi.1, ne_eq, not_false_eq_true, and_true]
      split_ifs <;> omega
    · unfold turns
      rw [if_neg hi]
      exact Nat.zero_le _
  have hlt : (s.switchTo c).turns t c < s.turns t c := by
    have hc' : s.Rival t c := ⟨hidle, hne, by rw [hready]; nofun, by rw [hready]; nofun⟩
    have hnew : (s.switchTo c).turns t c ≤ (s.tasks c).credits - 1 := by
      unfold turns
      rw [switchTo_credits hidle]
      simp only [switchTo_current, hcurrent, if_true, false_and, if_false]
      split_ifs
      · exact Nat.le_refl _
      · exact Nat.zero_le _
    have hold : s.turns t c = (s.tasks c).credits := by
      unfold turns
      rw [if_pos hc', if_neg hcurrent]
    omega
  unfold turnsOfOthers
  rw [switchTo_taskCount]
  exact Finset.sum_lt_sum (fun i _ => hle i) ⟨c, Finset.mem_range.2 hc, hlt⟩

/-- The first selection that goes to another task lowers the rank. -/
theorem rank_switchTo (h : s.Sound) (hpass : s.pass s.current = some c)
    (hready : (s.tasks t).state = .ready) (ht : t ≠ idleTask) (hne : c ≠ t)
    (hcurrent : c ≠ s.current) (hst : s.current ≠ t) :
    (s.switchTo c).rank t + 1 ≤ s.rank t := by
  obtain ⟨helig, hc⟩ := pass_some hpass
  have hlt : t < s.taskCount := h.lt_of_used (by rw [hready]; nofun)
  unfold rank
  rw [switchTo_credits_other helig.2.1 hst]
  split_ifs with hpos
  · have hd := pass_distance h.current_lt hpass hlt ⟨hready, ht, Nat.ne_of_gt hpos⟩ hne hst
    unfold distance at hd ⊢
    rw [switchTo_current, switchTo_taskCount]
    exact hd
  · have hturns := turnsOfOthers_switchTo helig hc hne hcurrent
    omega

/-- A `yield_now` after which task `t` still waits: the rank falls with each switch. -/
theorem rank_yieldNow (h : s.Sound) (hready : (s.tasks t).state = .ready) (ht : t ≠ idleTask)
    (hst : s.current ≠ t) (hwaits : s.yieldNow.current ≠ t) :
    s.yieldNow.switches + s.yieldNow.rank t ≤ s.switches + s.rank t := by
  have hlt : t < s.taskCount := h.lt_of_used (by rw [hready]; nofun)
  obtain ⟨u, hu, hcases⟩ := s.yieldNow_cases
  have hquiet : Quiet t s u := by
    rw [hu]
    exact ⟨rfl, rfl, rfl, rfl, fun _ halive => ⟨halive, Nat.le_refl _⟩⟩
  have hsound : u.Sound := by
    rw [hu]
    exact h.of_moves rfl rfl fun _ => .same rfl rfl
  have hu' : (u.tasks t).state = .ready := by rwa [hu]
  obtain ⟨c, v, hpick, hpass, hv⟩ := hsound.pickNext_cases hu' ht
  rw [hquiet.current] at hpick hpass
  simp only [hpick] at hcases
  have hquiet' : Quiet t s u.wakeExpired := hquiet.trans (quiet_wakeExpired u t)
  rcases hv with rfl | ⟨rfl, hzero⟩
  · have hsound' := hsound.wakeExpired
    have hready' : (u.wakeExpired.tasks t).state = .ready := by
      rw [wakeExpired_tasks]
      split_ifs
      · unfold wake
        rw [hu']
        exact hu'
      · exact hu'
    rcases hcases with ⟨-, heq⟩ | ⟨hne, heq⟩
    · rw [heq, hquiet'.switches]
      exact Nat.add_le_add_left hquiet'.rank_le _
    · rw [heq] at hwaits ⊢
      have hc : c ≠ u.wakeExpired.current := by rwa [hquiet'.current]
      have hpass' : u.wakeExpired.pass u.wakeExpired.current = some c := by rwa [hquiet'.current]
      have hst' : u.wakeExpired.current ≠ t := by rwa [hquiet'.current]
      have hrank := rank_switchTo hsound' hpass' hready' ht hwaits hc hst'
      have hle := hquiet'.rank_le
      rw [switchTo_switches, hquiet'.switches]
      omega
  · -- The credits are refilled, so task `t` is in the round from now on.
    have hsound' := hsound.wakeExpired.refillCredits
    have hcount : u.wakeExpired.refillCredits.taskCount = s.taskCount := hquiet'.taskCount
    have hswitches : u.wakeExpired.refillCredits.switches = s.switches := hquiet'.switches
    have hcurrent : u.wakeExpired.refillCredits.current = s.current := hquiet'.current
    have hpos : 0 < (u.wakeExpired.refillCredits.tasks t).credits :=
      refillCredits_credits (by rw [hquiet'.taskCount]; exact hlt)
    have hold : maxTasks ≤ s.rank t := by
      unfold rank
      rw [if_neg (by rw [← hquiet.own, hzero]; exact Nat.lt_irrefl _)]
      exact Nat.le_add_left ..
    rcases hcases with ⟨-, heq⟩ | ⟨hne, heq⟩
    · rw [heq, hswitches]
      have hd := hsound'.distance_lt (t := t) (by rwa [hcurrent]) (by rwa [hcount])
      have hnew : u.wakeExpired.refillCredits.rank t < maxTasks := by
        unfold rank
        rw [if_pos hpos]
        exact hd.2
      omega
    · rw [heq] at hwaits ⊢
      obtain ⟨helig, hc⟩ := pass_some hpass
      have hd := (hsound'.switchTo (by rwa [hcurrent]) hc).distance_lt (t := t) hwaits
        (by rwa [switchTo_taskCount, hcount])
      have hnew : (u.wakeExpired.refillCredits.switchTo c).rank t < maxTasks := by
        unfold rank
        rw [switchTo_credits_other helig.2.1 (by rwa [hcurrent]), if_pos hpos]
        exact hd.2
      rw [switchTo_switches, hswitches]
      omega

theorem yieldNow_taskCount (s : Sched) : s.yieldNow.taskCount = s.taskCount := by
  obtain ⟨u, rfl, ⟨-, heq⟩ | ⟨-, heq⟩⟩ := s.yieldNow_cases
  · rw [heq, pickNext_taskCount]
  · rw [heq, switchTo_taskCount, pickNext_taskCount]

/-- A running task that yields while task `t` is ready is switched away from. -/
theorem yieldNow_switches (h : s.Sound) (hready : (s.tasks t).state = .ready) (ht : t ≠ idleTask)
    (hrunning : (s.tasks s.current).state = .running) : s.yieldNow.switches = s.switches + 1 := by
  obtain ⟨u, hu, hcases⟩ := s.yieldNow_cases
  have hsound : u.Sound := by
    rw [hu]
    exact h.of_moves rfl rfl fun _ => .same rfl rfl
  have htasks : u.tasks = s.tasks := by rw [hu]
  have hcurrent : u.current = s.current := by rw [hu]
  have hwoken : (u.wakeExpired.tasks s.current).state = .running := by
    rw [wakeExpired_tasks, htasks]
    split_ifs
    · unfold wake
      rw [hrunning]
      exact hrunning
    · exact hrunning
  obtain ⟨c, v, hpick, hpass, hv⟩ := hsound.pickNext_cases (t := t) (by rwa [htasks]) ht
  rw [hcurrent] at hpick
  simp only [hpick] at hcases
  have hkept : (v.tasks s.current).state = .running ∧ v.switches = s.switches := by
    rcases hv with rfl | ⟨rfl, -⟩
    · exact ⟨hwoken, by rw [hu]; rfl⟩
    · exact ⟨(refillCredits_state ..).trans hwoken, by rw [hu]; rfl⟩
  have hne : c ≠ s.current := fun heq => by
    have helig := (pass_some hpass).1.1
    rw [heq, hkept.1] at helig
    cases helig
  rcases hcases with ⟨heq, -⟩ | ⟨-, heq⟩
  · exact absurd heq hne
  · rw [heq, switchTo_switches, hkept.2]

end Sched

/-! ## Runs -/

/-- No task is spawned, and no priority changes. -/
def KernelEvent.Plain : KernelEvent → Prop
  | .call (.spawn _) => False
  | .call (.setNice ..) => False
  | _ => True

instance (e : KernelEvent) : Decidable e.Plain :=
  match e with
  | .call (.spawn _) | .call (.setNice ..) => instDecidableFalse
  | .call .yield | .call .exit | .call (.terminate _) | .call (.waitpid ..) | .call (.sleep _)
  | .call (.waitForIo _) | .call (.setExitCode _) | .tick | .preempt | .diskIrq | .proceed _ =>
    instDecidableTrue

/-- A step after which task `t` is ready and still not selected. -/
def WaitStep (t : ℕ) (k : Kernel) (e : KernelEvent) (k' : Kernel) : Prop :=
  KernelStep k e k' ∧ e.Plain ∧ (k'.sched.tasks t).state = .ready ∧ k'.sched.current ≠ t

namespace Kernel

variable {k k' : Kernel} {e : KernelEvent} {es : List KernelEvent} {t : ℕ}

open Sched (Quiet)

/-- A step in which task `t` waits is quiet, or it is a `yield_now`. -/
theorem waitStep_cases (h : k.Sound) (hready : (k.sched.tasks t).state = .ready)
    (hst : k.sched.current ≠ t) (hstep : WaitStep t k e k') :
    Quiet t k.sched k'.sched ∨
      ∃ u : Sched, u.Sound ∧ (u.tasks t).state = .ready ∧ Quiet t k.sched u ∧
      k'.sched = u.yieldNow := by
  obtain ⟨⟨henabled, rfl⟩, hplain, hready', -⟩ := hstep
  have hyield : ∃ u : Sched, u.Sound ∧ (u.tasks t).state = .ready ∧ Quiet t k.sched u ∧
      k.sched.yieldNow = u.yieldNow := ⟨_, h.sched, hready, .refl _ t, rfl⟩
  cases e with
  | tick => exact .inl (Sched.quiet_onTimerTick hst)
  | preempt =>
    simp only [after, withSched]
    unfold Sched.preemptFromTimer
    split_ifs
    · exact .inl (.refl _ t)
    · exact .inl (.refl _ t)
    · exact .inl (.refl _ t)
    · exact .inr ⟨{ k.sched with preemptions := k.sched.preemptions + 1 },
        h.sched.of_moves rfl rfl fun _ => .same rfl rfl, hready,
        ⟨rfl, rfl, rfl, rfl, fun _ halive => ⟨halive, Nat.le_refl _⟩⟩, rfl⟩
  | diskIrq => exact .inl (Sched.quiet_wakeIoWaiters _ t)
  | call c =>
    have halive : (k.sched.tasks k.sched.current).Alive := h.alive.resolve_left fun hhalted => by
      rw [henabled.1] at hhalted
      cases hhalted
    cases c with
    | spawn => exact hplain.elim
    | setNice => exact hplain.elim
    | yield => exact .inr hyield
    | sleep ticks =>
      simp only [after, afterCall]
      split_ifs
      · exact .inr hyield
      · exact .inl (Sched.quiet_fallAsleep hst halive _)
    | waitForIo timeout =>
      simp only [after, afterCall]
      split_ifs <;> exact .inl (.refl _ t)
    | waitpid pid nohang =>
      have hquiet := Sched.quiet_waits (k.sched.waits_waitpid pid nohang) hready hst halive
      simp only [after, afterCall]
      split <;> rename_i heq <;> rw [heq] at hquiet <;> exact .inl hquiet
    | setExitCode code =>
      exact .inl (Sched.quiet_current (fun t => { t with exitCode := code }) (fun _ => rfl) hst
        halive)
    | terminate index =>
      simp only [after, afterCall] at hready' ⊢
      cases heq : k.sched.terminate index with
      | none => exact .inl (.refl _ t)
      | some r =>
        rw [heq] at hready'
        exact .inl (Sched.quiet_terminate heq hready')
    | exit => exact .inl (Sched.quiet_terminateCurrent hready hst)
  | proceed ready =>
    have halive : k.point k.sched.current ≠ .halted → (k.sched.tasks k.sched.current).Alive :=
      h.alive.resolve_left
    simp only [after, afterProceed]
    cases hpoint : k.point k.sched.current with
    | free => exact .inl (.refl _ t)
    | awake => exact .inl (Sched.quiet_setRunning hst (halive (by rw [hpoint]; nofun)))
    | ioArm deadline =>
      simp only
      split_ifs
      · exact .inl (.refl _ t)
      · exact .inl (Sched.quiet_awaitDevice hst (halive (by rw [hpoint]; nofun)))
    | childCheck child =>
      simp only
      split_ifs with hended
      · refine .inl (Sched.quiet_releaseSlot fun heq => ?_)
        rw [heq, hready] at hended
        cases hended
      · exact .inl (.refl _ t)
    | _ =>
      simp only
      first
        | exact .inr hyield
        | split_ifs <;> exact .inl (.refl _ t)

theorem rank_step (h : k.Sound) (hready : (k.sched.tasks t).state = .ready) (ht : t ≠ idleTask)
    (hst : k.sched.current ≠ t) (hstep : WaitStep t k e k') :
    k'.sched.switches + k'.sched.rank t ≤ k.sched.switches + k.sched.rank t := by
  rcases waitStep_cases h hready hst hstep with hquiet | ⟨u, hu, hready', hquiet, heq⟩
  · rw [hquiet.switches]
    exact Nat.add_le_add_left hquiet.rank_le _
  · have hwaits : u.yieldNow.current ≠ t := heq ▸ hstep.2.2.2
    have hle := Sched.rank_yieldNow hu hready' ht (by rwa [hquiet.current]) hwaits
    rw [heq]
    refine Nat.le_trans hle ?_
    rw [hquiet.switches]
    exact Nat.add_le_add_left hquiet.rank_le _

theorem rank_run (h : k.Sound) (hready : (k.sched.tasks t).state = .ready) (ht : t ≠ idleTask)
    (hst : k.sched.current ≠ t) (hrun : Run (WaitStep t) k es k') :
    (k'.Sound ∧ (k'.sched.tasks t).state = .ready ∧ k'.sched.current ≠ t) ∧
      k'.sched.switches + k'.sched.rank t ≤ k.sched.switches + k.sched.rank t := by
  induction hrun with
  | nil k => exact ⟨⟨h, hready, hst⟩, Nat.le_refl _⟩
  | cons hstep _ ih =>
    obtain ⟨hend, hle⟩ := ih (h.step hstep.1) hstep.2.2.1 hstep.2.2.2
    exact ⟨hend, hle.trans (rank_step h hready ht hst hstep)⟩

end Kernel

/-- **Bounded waiting.** As long as a task is ready and not selected, fewer than `S + MAX_TASKS`
context switches happen, where `S` are the credits that the others have at the start; fewer than
`MAX_TASKS` if the task has credits itself. Meanwhile a running task that yields is switched away
from each time, and the switch with this number selects the task at the latest. -/
theorem bounded_waiting {k k' : Kernel} {es es' : List KernelEvent} {t : ℕ}
    (hboot : Run KernelStep Kernel.boot es k) (ht : t ≠ idleTask)
    (hready : (k.sched.tasks t).state = .ready) (hwaits : k.sched.current ≠ t)
    (hrun : Run (WaitStep t) k es' k') :
    k'.sched.switches < k.sched.switches + k.sched.creditsOfOthers t + maxTasks ∧
      (0 < (k.sched.tasks t).credits → k'.sched.switches < k.sched.switches + maxTasks) ∧
      ((k'.sched.tasks k'.sched.current).state = .running →
        k'.sched.yieldNow.switches = k'.sched.switches + 1 ∧
          (k'.sched.switches + 1 = k.sched.switches + k.sched.creditsOfOthers t + maxTasks →
            k'.sched.yieldNow.current = t)) := by
  have h := Kernel.sound_run hboot
  have hlt : t < k.sched.taskCount := h.sched.lt_of_used (by rw [hready]; nofun)
  have hle := h.sched.rank_le hwaits hlt
  obtain ⟨⟨h', hready', hwaits'⟩, hrank⟩ := Kernel.rank_run h hready ht hwaits hrun
  have hpos := h'.sched.rank_pos hwaits' (h'.sched.lt_of_used (by rw [hready']; nofun))
  refine ⟨by omega, fun hcredits => ?_, fun hrunning => ⟨?_, fun hlast => ?_⟩⟩
  · have hd := (h.sched.distance_lt hwaits hlt).2
    unfold Sched.rank at hrank hpos
    rw [if_pos hcredits] at hrank
    omega
  · exact Sched.yieldNow_switches h'.sched hready' ht hrunning
  · by_contra hother
    have hyield := Sched.rank_yieldNow h'.sched hready' ht hwaits' hother
    have hswitch := Sched.yieldNow_switches h'.sched hready' ht hrunning
    have hlt' := h'.sched.lt_of_used (i := t) (by rw [hready']; nofun)
    have hpos' := h'.sched.yieldNow.rank_pos hother (by rwa [Sched.yieldNow_taskCount])
    omega

/-- The idle task spawns three tasks and yields to the first, which yields to the second, in which a
tick comes. -/
theorem bounded_waiting_spawned :
    let spawned := ((Kernel.boot.after (.call (.spawn true))).after (.call (.spawn true))).after
      (.call (.spawn true))
    let k := spawned.after (.call .yield)
    let k' := (k.after (.call .yield)).after .tick
    k'.sched.switches < k.sched.switches + k.sched.creditsOfOthers 3 + maxTasks ∧
      (0 < (k.sched.tasks 3).credits → k'.sched.switches < k.sched.switches + maxTasks) ∧
      ((k'.sched.tasks k'.sched.current).state = .running →
        k'.sched.yieldNow.switches = k'.sched.switches + 1 ∧
          (k'.sched.switches + 1 = k.sched.switches + k.sched.creditsOfOthers 3 + maxTasks →
            k'.sched.yieldNow.current = 3)) :=
  bounded_waiting
    (.cons (e := .call (.spawn true)) ⟨by decide, rfl⟩
      (.cons (e := .call (.spawn true)) ⟨by decide, rfl⟩
        (.cons (e := .call (.spawn true)) ⟨by decide, rfl⟩
          (.cons (e := .call .yield) ⟨by decide, rfl⟩ (.nil _)))))
    (by decide) (by decide +kernel) (by decide +kernel)
    (.cons (e := .call .yield)
      ⟨⟨by decide +kernel, rfl⟩, by decide, by decide +kernel, by decide +kernel⟩
      (.cons (e := .tick)
        ⟨⟨by decide +kernel, rfl⟩, by decide, by decide +kernel, by decide +kernel⟩ (.nil _)))

end Tcmk
