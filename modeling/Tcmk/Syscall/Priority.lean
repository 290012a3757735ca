import Tcmk.Sched.Selection
import Tcmk.Syscall.Frame

/-!
# Priorities (`setpriority` and `getpriority`)

The new priority comes in a register and is cut to its low 8 bits before it is clamped. So the task
gets the value that was meant exactly if both are clamped to the same (`priority_round_trip`).
-/

namespace Tcmk

open Errno

/-- `PRIO_PROCESS`. -/
def prioProcess : ℕ := 0

namespace Sched

/-- `nice_of`. -/
def niceOf (s : Sched) (index : ℕ) : Int8 :=
  if index ≥ maxTasks then 0 else (s.tasks index).nice

/-- The task that the second argument names. -/
def priorityTask (s : Sched) (who : ℕ) : ℕ := if who = 0 then s.current else who

/-- `SYS_SETPRIORITY`. -/
def sysSetpriority (s : Sched) (which who prio : ℕ) : ℤ × Sched :=
  if which ≠ prioProcess then (-einval, s)
  else
    match s.setNice (s.priorityTask who) (Int8.ofNat prio) with
    | some s => (0, s)
    | none => (-esrch, s)

/-- `SYS_GETPRIORITY`. -/
def sysGetpriority (s : Sched) (which who : ℕ) : ℤ :=
  if which ≠ prioProcess then -einval else 20 - (s.niceOf (s.priorityTask who)).toInt

/-- The task is in the table. -/
def Exists (s : Sched) (i : ℕ) : Prop :=
  i < s.taskCount ∧ i < maxTasks ∧ (s.tasks i).state ≠ .unused

instance (s : Sched) (i : ℕ) : Decidable (s.Exists i) := inferInstanceAs (Decidable (_ ∧ _ ∧ _))

/-- The credits that a task gets when they are refilled. -/
def grant (s : Sched) (i : ℕ) : ℕ := (s.refillCredits.tasks i).credits

/-- The scheduler after `setpriority` with a signed value. -/
def withPriority (arch : Arch) (s : Sched) (who : ℕ) (v : ℤ) : Sched :=
  (s.sysSetpriority prioProcess who (arch.register v)).2

end Sched

/-- A value in the range of priorities. -/
def clampPriority (v : ℤ) : ℤ := max (-20) (min v 19)

/-- Cutting the value to 8 bits makes no difference to the priority. -/
def KeepsPriority (v : ℤ) : Prop :=
  -128 ≤ v ∧ v ≤ 127 ∨
    127 < v ∧ 19 ≤ v % 256 ∧ v % 256 ≤ 127 ∨
    v < -128 ∧ 128 ≤ v % 256 ∧ v % 256 ≤ 236

instance (v : ℤ) : Decidable (KeepsPriority v) := inferInstanceAs (Decidable (_ ∨ _ ∨ _))

theorem keepsPriority_iff (v : ℤ) :
    KeepsPriority v ↔ clampPriority (v.bmod 256) = clampPriority v := by
  unfold KeepsPriority clampPriority
  rw [Int.bmod_def]
  omega

theorem clampPriority_mono {v w : ℤ} (h : v ≤ w) : clampPriority v ≤ clampPriority w := by
  unfold clampPriority
  omega

theorem clampNice_toInt (value : Int8) :
    (Sched.clampNice value).toInt = clampPriority value.toInt := by
  have hlow : Int8.toInt (-20) = -20 := by decide
  have hhigh : Int8.toInt 19 = 19 := by decide
  unfold Sched.clampNice clampPriority
  split_ifs with h h'
  · rw [Int8.lt_iff_toInt_lt, hlow] at h
    omega
  · rw [gt_iff_lt, Int8.lt_iff_toInt_lt, hhigh] at h'
    omega
  · rw [Int8.lt_iff_toInt_lt, hlow] at h
    rw [gt_iff_lt, Int8.lt_iff_toInt_lt, hhigh] at h'
    omega

/-- A higher value is fewer ticks. -/
theorem sliceTicks_anti {a b : Int8} (h : a.toInt ≤ b.toInt) : sliceTicks b ≤ sliceTicks a := by
  have hten : Int8.toInt (-10) = -10 := by decide
  have hone : Int8.toInt (-1) = -1 := by decide
  have hfour : Int8.toInt 4 = 4 := by decide
  unfold sliceTicks
  simp only [Int8.le_iff_toInt_le, hten, hone, hfour]
  split_ifs <;> omega

namespace Sched

variable {arch : Arch} {s : Sched} {who : ℕ} {v : ℤ}

/-- What a task's priority is after `setpriority`. -/
theorem withPriority_eq (h : s.Exists (s.priorityTask who)) (v : ℤ) :
    s.withPriority arch who v = s.modifyTask (s.priorityTask who) fun t =>
      { t with nice := clampNice (Int8.ofNat (arch.register v)) } := by
  unfold withPriority sysSetpriority setNice
  rw [if_neg (not_not.2 rfl), if_neg (Nat.not_le.2 h.2.1), if_neg h.2.2]

theorem nice_withPriority (h : s.Exists (s.priorityTask who)) (v : ℤ) :
    (((s.withPriority arch who v).tasks (s.priorityTask who)).nice).toInt =
    clampPriority (v.bmod 256) := by
  rw [withPriority_eq h, modifyTask_self, clampNice_toInt, Int8.toInt_ofNat', ← register_bmod
    arch v]

/-- What `getpriority` answers after `setpriority`. -/
theorem getpriority_withPriority (h : s.Exists (s.priorityTask who)) (v : ℤ) :
    (s.withPriority arch who v).sysGetpriority prioProcess who =
    20 - clampPriority (v.bmod 256) := by
  have htask : (s.withPriority arch who v).priorityTask who = s.priorityTask who := by
    rw [withPriority_eq h]
    rfl
  unfold sysGetpriority niceOf
  rw [if_neg (not_not.2 rfl), htask, if_neg (Nat.not_le.2 h.2.1), nice_withPriority h]

theorem grant_withPriority (h : s.Exists (s.priorityTask who)) (v : ℤ) :
    (s.withPriority arch who v).grant (s.priorityTask who) =
      sliceTicks ((s.withPriority arch who v).tasks (s.priorityTask who)).nice := by
  have hcount : (s.withPriority arch who v).taskCount = s.taskCount := by
    rw [withPriority_eq h]
    rfl
  unfold grant
  rw [refillCredits_tasks, hcount, if_pos h.1]

/-- `getpriority` reports the value that `setpriority` was called with. -/
def Reports (arch : Arch) (s : Sched) (who : ℕ) (v : ℤ) : Prop :=
  (s.withPriority arch who v).sysGetpriority prioProcess who = 20 - clampPriority v

theorem reports_iff (h : s.Exists (s.priorityTask who)) :
    s.Reports arch who v ↔ KeepsPriority v := by
  unfold Reports
  rw [getpriority_withPriority h, keepsPriority_iff]
  omega

end Sched

/-- **Priorities.** Of two values, both are reported as they were set and the lower one gets at
least the credits of the higher one, if and only if cutting each of them to 8 bits makes no
difference to its priority. -/
theorem priority_round_trip (arch : Arch) (s : Sched) (who : ℕ)
    (hexists : s.Exists (s.priorityTask who)) {v w : ℤ} (hle : v ≤ w) :
    (s.Reports arch who v ∧ s.Reports arch who w ∧
      (s.withPriority arch who w).grant (s.priorityTask who) ≤
        (s.withPriority arch who v).grant (s.priorityTask who)) ↔
      KeepsPriority v ∧ KeepsPriority w := by
  rw [Sched.reports_iff hexists, Sched.reports_iff hexists]
  refine ⟨fun h => ⟨h.1, h.2.1⟩, fun h => ⟨h.1, h.2, ?_⟩⟩
  rw [Sched.grant_withPriority hexists, Sched.grant_withPriority hexists]
  refine sliceTicks_anti ?_
  rw [Sched.nice_withPriority hexists, Sched.nice_withPriority hexists, (keepsPriority_iff v).1 h.1,
    (keepsPriority_iff w).1 h.2]
  exact clampPriority_mono hle

theorem priority_round_trip_idle :
    Sched.initial.Reports .i386 0 (-5) ∧ Sched.initial.Reports .i386 0 300 ∧
      (Sched.initial.withPriority .i386 0 300).grant 0 ≤
      (Sched.initial.withPriority .i386 0 (-5)).grant 0 :=
  (priority_round_trip .i386 Sched.initial 0 (by decide) (by decide)).2 ⟨by decide, by decide⟩

/-- The value 200 is cut to -56: it is reported as -20, and gives more credits than 100. -/
theorem priority_cut :
    ¬ ∀ (arch : Arch) (s : Sched) (who : ℕ), s.Exists (s.priorityTask who) →
      (∀ v, arch.IsSigned v → s.Reports arch who v) ∧
        ∀ v w, arch.IsSigned v → arch.IsSigned w → v ≤ w →
          (s.withPriority arch who w).grant (s.priorityTask who) ≤
            (s.withPriority arch who v).grant (s.priorityTask who) := by
  intro hall
  obtain ⟨hreports, -⟩ := hall .i386 Sched.initial 0 (by decide)
  have hcut : ¬ KeepsPriority 200 := by decide
  exact hcut ((Sched.reports_iff (by decide)).1 (hreports 200 (by decide)))

end Tcmk
