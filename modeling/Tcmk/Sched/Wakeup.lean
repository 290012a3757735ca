import Tcmk.Sched.Lineage
import Tcmk.Sched.Waiting
import Tcmk.Sched.IoWait

/-!
# Waking the parent

A waiting task names a slot, and `wake_expired` wakes it when the slot is `Terminated`. `Watch`
records which task was in the slot as the wait began.

- While tasks wait only for tasks they have forked (`Kernel.WaitsForOwn`), the slot keeps that
  task, and the wait ends when the task does (`waiting_not_stranded`).
- `wait_for_any` waits for the first child in the table. It returns once any child has ended only
  if that one is the first to end (`Kernel.FirstEnds`, `waitAny_returns`).
-/

namespace Tcmk

open Lib

namespace Kernel

variable {k k' : Kernel} {e : KernelEvent} {es : List KernelEvent} {i child : ℕ}

/-! ## The return of `wait_for_task` -/

/-- In a run through `es`, task `i` gets the exit code of task `child`. -/
def Collects (k : Kernel) (i child : ℕ) (code : UInt32) (es : List KernelEvent) : Prop :=
  ∃ fs e gs u, es = fs ++ e :: gs ∧ Run KernelStep k fs u ∧ u.Acts i e ∧
    u.collected e = some (child, code)

/-- A step in which nobody waits for another's child. -/
def OwnStep (k : Kernel) (e : KernelEvent) (k' : Kernel) : Prop :=
  KernelStep k e k' ∧ k.WaitsForOwn e

/-- The steps that a task has left in `wait_for_task` when the child has ended. -/
def childStepsLeft : Point → ℕ
  | .childYield _ => 2
  | _ => 1

/-- Task `i` waits for a child that has ended. -/
structure Finishing (i child : ℕ) (k : Kernel) : Prop where
  sound : k.Sound
  waiting : k.Waiting
  alive : (k.sched.tasks i).Alive
  awaits : k.AwaitsChild i child
  ended : (k.sched.tasks child).state = .terminated

/-- A step of the task itself takes it nearer to the return, and the others leave it where it is. -/
theorem Finishing.step (h : Finishing i child k) (hstep : OwnStep k e k')
    (hkill : e ≠ .call (.terminate i)) :
    (Finishing i child k' ∧
      (k'.sched.tasks child).exitCode = (k.sched.tasks child).exitCode ∧
      (if k.Acts i e then 1 else 0) + childStepsLeft (k'.point i) = childStepsLeft (k.point i)) ∨
      (k.Acts i e ∧ k.collected e = some (child, (k.sched.tasks child).exitCode)) := by
  obtain ⟨hstep, hown⟩ := hstep
  have hsound := h.sound
  have hcode := exitCode_step hsound hstep h.ended
  have halive := alive_step hsound hstep h.awaits.not_free h.alive hkill
  have hwaiting := waiting_step hsound hstep h.waiting hown
  have hstays : k'.point i ≠ .free → (k'.sched.tasks child).state = .terminated := fun hfree =>
    ((h.waiting i child h.alive h.awaits).step hsound hstep h.waiting hown halive
      fun _ => hfree).2 h.ended
  have hsound' := hsound.step hstep
  by_cases hacts : k.Acts i e
  · obtain ⟨henabled, rfl⟩ := hstep
    cases e with
    | call c => exact absurd (hacts ▸ henabled.1) h.awaits.not_free
    | proceed ready =>
      have hi : k.sched.current = i := hacts
      subst hi
      rcases h.awaits with hp | hp
      · have hpoint : (k.after (.proceed ready)).point k.sched.current = .childCheck child := by
          simp only [after, afterProceed, hp]
          exact enter_self ..
        refine .inl ⟨⟨hsound', hwaiting, halive, .inr hpoint,
          hstays (by rw [hpoint]; rintro ⟨⟩)⟩, hcode, ?_⟩
        rw [if_pos hacts, hp, hpoint]
        rfl
      · refine .inr ⟨rfl, ?_⟩
        simp only [collected, hp, if_pos h.ended]
    | _ => exact hacts.elim
  · have hpoint := point_step hsound hstep h.alive.1 hacts
    refine .inl ⟨⟨hsound', hwaiting, halive, ?_, hstays ?_⟩, hcode, ?_⟩
    · rw [AwaitsChild, hpoint]
      exact h.awaits
    · rw [hpoint]
      exact h.awaits.not_free
    · rw [if_neg hacts, hpoint, Nat.zero_add]

theorem Finishing.run (h : Finishing i child k) (hrun : Run OwnStep k es k')
    (hkill : .call (.terminate i) ∉ es) (hsteps : childStepsLeft (k.point i) ≤ ownSteps i k es) :
    k.Collects i child (k.sched.tasks child).exitCode es := by
  induction hrun with
  | nil k =>
    rcases h.awaits with hp | hp <;> rw [hp] at hsteps <;> cases hsteps
  | @cons k m k' e es hstep _ ih =>
    obtain ⟨hkill, hkills⟩ := not_or.1 (List.mem_cons.not.1 hkill)
    rcases h.step hstep (Ne.symm hkill) with ⟨hfinishing, hcode, hleft⟩ | ⟨hacts, hcollected⟩
    · have hm : k.after e = m := hstep.1.2.symm
      rw [ownSteps, hm, ← hleft] at hsteps
      obtain ⟨fs, e', gs, u, rfl, hu, hreturn⟩ :=
        ih hfinishing hkills (Nat.le_of_add_le_add_left hsteps)
      rw [hcode] at hreturn
      exact ⟨e :: fs, e', gs, u, rfl, .cons hstep.1 hu, hreturn⟩
    · exact ⟨[], e, es, k, rfl, .nil k, hacts, hcollected⟩

/-- The next wake pass wakes the task exactly if the child has ended. -/
theorem Sleeps.woken_iff (h : k.Sleeps i child) (hk : k.Sound)
    (hstate : (k.sched.tasks i).state = .waiting) :
    (k.sched.wakeExpired.tasks i).state = .ready ↔ (k.sched.tasks child).state = .terminated := by
  have hlt := hk.sched.lt_of_used (i := i) (by rw [hstate]; rintro ⟨⟩)
  rw [Sched.wakeExpired_tasks, if_pos hlt]
  simp only [Sched.wake, hstate, h.waitFor, Nat.add_sub_cancel]
  split_ifs with hended
  · exact iff_of_true rfl hended
  · refine iff_of_false (fun heq => ?_) hended
    rw [hstate] at heq
    cases heq

end Kernel

/-! ## The record -/

/-- The kernel and its tasks, with a record of whom they wait for. -/
structure Watch where
  family : Family
  /-- the number of the task that each task has begun to wait for -/
  target : ℕ → ℕ
  /-- whether it did so in `wait_for_any` -/
  any : ℕ → Bool

namespace Watch

def kernel (w : Watch) : Kernel := w.family.kernel

def boot : Watch := ⟨Family.boot, fun _ => 0, fun _ => false⟩

/-- Record the beginning of a wait. -/
def note (w : Watch) (any : Bool) : Option ℕ → Watch
  | none => w
  | some child => { w with
      target := Function.update w.target w.kernel.sched.current (w.family.who child)
      any := Function.update w.any w.kernel.sched.current any }

def after (w : Watch) (e : KernelEvent) : Watch :=
  { w.note (decide (e = .call (.waitpid none false))) (w.kernel.blocksOn e) with
    family := w.family.after e }

end Watch

/-- One step, and its record. -/
def WatchStep (w : Watch) (e : KernelEvent) (w' : Watch) : Prop :=
  w.kernel.Enabled e ∧ w' = w.after e

/-- A step in which nobody waits for another's child. -/
def OwnWatchStep (w : Watch) (e : KernelEvent) (w' : Watch) : Prop :=
  WatchStep w e w' ∧ w.kernel.WaitsForOwn e

namespace Watch

open Kernel (OwnStep ownSteps Finishing Collects)

variable {w w' : Watch} {e : KernelEvent} {es : List KernelEvent} {i child : ℕ}

/-- The record says nothing about what the kernel does. -/
theorem kernel_step (hstep : WatchStep w e w') : KernelStep w.kernel e w'.kernel := by
  obtain ⟨henabled, rfl⟩ := hstep
  exact ⟨henabled, rfl⟩

theorem kernel_run (hrun : Run OwnWatchStep w es w') : Run OwnStep w.kernel es w'.kernel := by
  have hsim : ∀ (w : Watch) (k : Kernel) (e : KernelEvent) (w' : Watch), w.kernel = k →
      OwnWatchStep w e w' → ∃ k', OwnStep k e k' ∧ w'.kernel = k' := fun w k e w' hw hstep => by
    subst hw
    exact ⟨_, ⟨kernel_step hstep.1, hstep.2⟩, rfl⟩
  obtain ⟨k', hrun', rfl⟩ := hrun.simulate (R := fun (w : Watch) (k : Kernel) => w.kernel = k)
    hsim rfl
  exact hrun'

/-- A wait names the task that it began with. -/
structure Known (w : Watch) : Prop where
  sound : w.kernel.Sound
  waiting : w.kernel.Waiting
  sleeps : ∀ i, (w.kernel.sched.tasks i).state = .waiting → ∃ child, w.kernel.Sleeps i child
  target : ∀ i child, (w.kernel.sched.tasks i).Alive → w.kernel.AwaitsChild i child →
    w.family.who child = w.target i

/-- The record of a task in the middle of a call stays. -/
theorem after_record (henabled : w.kernel.Enabled e) (hfree : w.kernel.point i ≠ .free) :
    (w.after e).target i = w.target i ∧ (w.after e).any i = w.any i := by
  simp only [after]
  cases hblocks : w.kernel.blocksOn e with
  | none => exact ⟨rfl, rfl⟩
  | some child =>
    have hne := Kernel.blocksOn_ne henabled hblocks hfree
    exact ⟨Function.update_of_ne hne .., Function.update_of_ne hne ..⟩

theorem Known.step (h : w.Known) (hstep : OwnWatchStep w e w') : w'.Known := by
  obtain ⟨hstep, hown⟩ := hstep
  have hkernel := kernel_step hstep
  refine ⟨h.sound.step hkernel, Kernel.waiting_step h.sound hkernel h.waiting hown,
    fun i => Kernel.sleeps_step h.sound hkernel (h.sleeps i), fun i child halive hawaits => ?_⟩
  obtain ⟨henabled, rfl⟩ := hstep
  rcases Kernel.awaits_step h.sound hkernel halive hawaits with ⟨hold, hchild⟩ | ⟨hblocks, rfl⟩
  · rw [(after_record henabled hchild.not_free).1, ← h.target i child hold hchild]
    exact Family.who_step h.sound (h.waiting i child hold hchild).used
  · obtain ⟨hchild, -⟩ := Kernel.blocksOn_child hown hblocks
    simp only [after, hblocks, note, Function.update_self]
    exact Family.who_step h.sound hchild.used

theorem known_boot : boot.Known where
  sound := Kernel.sound_boot
  waiting := Kernel.waiting_boot
  sleeps := fun i hstate => by
    by_cases hi : i = 0
    · subst hi
      cases hstate
    · simp [boot, kernel, Family.boot, Kernel.boot, Sched.initial, hi, Task.empty] at hstate
  target := fun i child _ hawaits => by
    rcases hawaits with hp | hp <;> cases hp

/-- Task `i` waits for a slot that still holds the task it has begun to wait for. -/
def Holds (w : Watch) (i child : ℕ) : Prop :=
  (w.kernel.sched.tasks i).waitFor = child + 1 ∧
    (w.kernel.sched.tasks child).state ≠ .unused ∧ w.family.who child = w.target i

/-- The next wake pass makes task `i` ready, and its call returns the exit code of task `child`,
after two steps of task `i` at most. -/
def Answered (w : Watch) (i child : ℕ) : Prop :=
  (w.kernel.sched.wakeExpired.tasks i).state = .ready ∧
    ∀ gs v, Run OwnWatchStep w gs v → .call (.terminate i) ∉ gs → 2 ≤ ownSteps i w.kernel gs →
      w.kernel.Collects i child (w.kernel.sched.tasks child).exitCode gs

theorem Known.answered (h : w.Known) (hstate : (w.kernel.sched.tasks i).state = .waiting)
    (hsleeps : w.kernel.Sleeps i child)
    (hended : (w.kernel.sched.tasks child).state = .terminated) : w.Answered i child := by
  refine ⟨(hsleeps.woken_iff h.sound hstate).2 hended, fun gs v hrun hkill hsteps => ?_⟩
  have halive : (w.kernel.sched.tasks i).Alive :=
    ⟨by rw [hstate]; rintro ⟨⟩, by rw [hstate]; rintro ⟨⟩⟩
  have hfinishing : Finishing i child w.kernel :=
    ⟨h.sound, h.waiting, halive, hsleeps.awaits, hended⟩
  refine hfinishing.run (kernel_run hrun) hkill (Nat.le_trans ?_ hsteps)
  rcases hsleeps.awaits with hp | hp <;> rw [hp]
  · exact Nat.le_refl 2
  · exact Nat.le_succ 1

end Watch

/-- **Waiting tasks.** In every state of a run in which tasks wait only for tasks they have
forked, a task in state `Waiting` waits for a slot that still holds the task it has begun to wait
for. Once that task has ended, the next wake pass makes the waiting task ready, and `wait_for_task`
returns the exit code. -/
theorem waiting_not_stranded {w : Watch} {es : List KernelEvent}
    (hrun : Run OwnWatchStep Watch.boot es w) (i : ℕ)
    (hstate : (w.kernel.sched.tasks i).state = .waiting) :
    ∃ child, w.Holds i child ∧
      ((w.kernel.sched.tasks child).state = .terminated → w.Answered i child) := by
  have h : w.Known := hrun.invariant (fun _ _ _ h hstep => h.step hstep) Watch.known_boot
  have halive : (w.kernel.sched.tasks i).Alive :=
    ⟨by rw [hstate]; rintro ⟨⟩, by rw [hstate]; rintro ⟨⟩⟩
  obtain ⟨child, hsleeps⟩ := h.sleeps i hstate
  exact ⟨child, ⟨hsleeps.waitFor, (h.waiting i child halive hsleeps.awaits).used,
    h.target i child halive hsleeps.awaits⟩, h.answered hstate hsleeps⟩

/-- Task 1 forks task 2 and waits for it, and task 2 exits. -/
theorem waiting_not_stranded_exit :
    let w := (((((Watch.boot.after (.call (.spawn false))).after (.call .yield)).after
      (.call (.spawn true))).after (.call (.waitpid (some 2) false))).after (.proceed false)).after
      (.call .exit)
    w.Holds 1 2 ∧ w.Answered 1 2 := by
  intro w
  have hrun : Run OwnWatchStep Watch.boot [.call (.spawn false), .call .yield, .call (.spawn true),
      .call (.waitpid (some 2) false), .proceed false, .call .exit] w := by
    refine .cons ⟨⟨by decide, rfl⟩, trivial⟩ (.cons ⟨⟨by decide +kernel, rfl⟩, trivial⟩
      (.cons ⟨⟨by decide +kernel, rfl⟩, trivial⟩ (.cons ⟨⟨by decide +kernel, rfl⟩, ?_⟩
        (.cons ⟨⟨by decide +kernel, rfl⟩, trivial⟩ (.cons ⟨⟨by decide +kernel, rfl⟩, trivial⟩
          (.nil _))))))
    rintro - child - - (⟨hpid, -⟩ | hpid)
    · cases hpid
    · cases hpid
      decide +kernel
  obtain ⟨child, hholds, hanswered⟩ := waiting_not_stranded hrun 1 (by decide +kernel)
  have hchild : (w.kernel.sched.tasks 1).waitFor = 3 := by decide +kernel
  obtain rfl : child = 2 := by
    rw [hholds.1] at hchild
    omega
  exact ⟨hholds, hanswered (by decide +kernel)⟩

/-- Task 1 waits for task 2, which it has not forked. As task 2 exits, its slot becomes `Unused`. -/
theorem waiting_stranded : ¬ ∀ (es : List KernelEvent) (w : Watch),
    Run WatchStep Watch.boot es w → ∀ i, (w.kernel.sched.tasks i).state = .waiting →
      ∃ child, w.Holds i child := by
  intro hall
  let w := (((((Watch.boot.after (.call (.spawn false))).after (.call (.spawn false))).after
    (.call .yield)).after (.call (.waitpid (some 2) false))).after (.proceed false)).after
    (.call .exit)
  have hrun : Run WatchStep Watch.boot [.call (.spawn false), .call (.spawn false), .call .yield,
      .call (.waitpid (some 2) false), .proceed false, .call .exit] w :=
    .cons ⟨by decide, rfl⟩ (.cons ⟨by decide +kernel, rfl⟩ (.cons ⟨by decide +kernel, rfl⟩
      (.cons ⟨by decide +kernel, rfl⟩ (.cons ⟨by decide +kernel, rfl⟩
        (.cons ⟨by decide +kernel, rfl⟩ (.nil _))))))
  obtain ⟨child, hwaitFor, hused, -⟩ := hall _ _ hrun 1 (by decide +kernel)
  have hchild : (w.kernel.sched.tasks 1).waitFor = 3 ∧
      (w.kernel.sched.tasks 2).state = .unused := by decide +kernel
  obtain rfl : child = 2 := by
    rw [hchild.1] at hwaitFor
    omega
  exact hused hchild.2

/-! ## Any child -/

namespace Kernel

variable {k k' : Kernel} {e : KernelEvent} {i child : ℕ}

/-- `wait_for_any` waits only if no child has ended. -/
theorem blocksOn_any (hblocks : k.blocksOn (.call (.waitpid none false)) = some child) {j : ℕ}
    (hj : j < k.sched.taskCount) (hne : j ≠ k.sched.current)
    (hparent : (k.sched.tasks j).parent = k.sched.current) :
    (k.sched.tasks j).state ≠ .terminated := by
  intro hended
  obtain ⟨pid, nohang, he, hr, -⟩ := blocksOn_some hblocks
  cases he
  have hsome : k.sched.findChild k.sched.current (· == .terminated) ≠ none := fun hnone => by
    have hall := List.find?_eq_none.1 hnone j (List.mem_range.2 hj)
    rw [decide_eq_true (And.intro hne hparent), hended] at hall
    exact hall rfl
  simp only [Sched.waitpid, Sched.waitForAny, Bool.false_eq_true, if_false] at hr
  split_ifs at hr
  · cases hr
  · split at hr
    · cases hr
    · rename_i heq
      exact hsome heq

end Kernel

namespace Watch

variable {w w' : Watch} {e : KernelEvent} {es : List KernelEvent} {i child : ℕ}

/-- Task `i` is in `wait_for_any`, which waits for task `child`, and that has not ended. -/
structure AwaitsAny (w : Watch) (i child : ℕ) : Prop where
  any : w.any i = true
  alive : (w.kernel.sched.tasks i).Alive
  awaits : w.kernel.AwaitsChild i child
  running : (w.kernel.sched.tasks child).state ≠ .terminated

/-- Of the children of a task in `wait_for_any`, the one it waits for is the first to end. -/
def FirstEnds (w : Watch) (e : KernelEvent) : Prop :=
  ∀ i child, w.AwaitsAny i child → ∀ j, w.kernel.Ends e j → (w.kernel.sched.tasks j).Alive →
    (w.kernel.sched.tasks j).parent = i → j = child

/-- As long as a task is in `wait_for_any`, none of its children has ended. -/
structure First (w : Watch) : Prop extends w.Known where
  first : ∀ i child, w.AwaitsAny i child → ∀ j, (w.kernel.sched.tasks j).parent = i →
    (w.kernel.sched.tasks j).state ≠ .terminated

end Watch

/-- A step in which nobody waits for another's child, and no child ends before the one that its
parent waits for. -/
def FirstWatchStep (w : Watch) (e : KernelEvent) (w' : Watch) : Prop :=
  OwnWatchStep w e w' ∧ w.FirstEnds e

namespace Watch

variable {w w' : Watch} {e : KernelEvent} {es : List KernelEvent} {i child : ℕ}

theorem First.step (h : w.First) (hstep : FirstWatchStep w e w') : w'.First := by
  obtain ⟨hstep, hfirst⟩ := hstep
  refine ⟨h.toKnown.step hstep, fun i child hawaits j hparent hended => ?_⟩
  obtain ⟨⟨henabled, rfl⟩, hown⟩ := hstep
  have hkernel : KernelStep w.kernel e (w.after e).kernel := kernel_step ⟨henabled, rfl⟩
  obtain ⟨hsame, -, hold⟩ := (Kernel.change h.sound hkernel j).terminated hended
  rw [hsame] at hparent
  rcases Kernel.awaits_step h.sound hkernel hawaits.alive hawaits.awaits with
    ⟨halive, hchild⟩ | ⟨hblocks, rfl⟩
  · have hbefore : w.AwaitsAny i child := by
      refine ⟨(after_record henabled hchild.not_free).2 ▸ hawaits.any, halive, hchild,
        fun hterminated => hawaits.running ?_⟩
      exact ((h.waiting i child halive hchild).step h.sound hkernel h.waiting hown hawaits.alive
        fun _ => hawaits.awaits.not_free).2 hterminated
    rcases hold with hold | ⟨hends, hold, -⟩
    · exact h.first i child hbefore j hparent hold
    · obtain rfl := hfirst i child hbefore j hends hold hparent
      exact hawaits.running hended
  · have hany : decide (e = .call (.waitpid none false)) = true := by
      have hany := hawaits.any
      simp only [after, hblocks, note, Function.update_self] at hany
      exact hany
    obtain rfl := of_decide_eq_true hany
    have hcurrent : (w.kernel.sched.tasks w.kernel.sched.current).Alive :=
      h.sound.alive.resolve_left (by rw [henabled.1]; rintro ⟨⟩)
    rcases hold with hold | ⟨hends | ⟨hexit, -⟩, -⟩
    · refine Kernel.blocksOn_any hblocks (h.sound.sched.lt_of_used ?_) ?_ hparent hold
      · rw [hold]
        rintro ⟨⟩
      · rintro rfl
        exact hcurrent.2 hold
    · cases hends
    · cases hexit

theorem first_boot : boot.First where
  toKnown := known_boot
  first := fun i child hawaits => by
    cases hawaits.any

/-- A task blocked in `wait_for_any` is answered once any child of it has ended. -/
def AnyAnswered (w : Watch) : Prop :=
  ∀ i, w.any i = true → (w.kernel.sched.tasks i).state = .waiting →
    (∃ j, (w.kernel.sched.tasks j).parent = i ∧ (w.kernel.sched.tasks j).state = .terminated) →
    ∃ child, (w.kernel.sched.tasks child).parent = i ∧
      (w.kernel.sched.tasks child).state = .terminated ∧ w.Answered i child

end Watch

/-- **Waiting for any child.** In every state of a run in which the child that `wait_for_any`
waits for is the first to end, a task blocked there is woken by the next wake pass once any child
has ended, and the call returns a child that has ended. -/
theorem waitAny_returns {w : Watch} {es : List KernelEvent}
    (hrun : Run FirstWatchStep Watch.boot es w) : w.AnyAnswered := by
  have h : w.First := hrun.invariant (fun _ _ _ h hstep => h.step hstep) Watch.first_boot
  rintro i hany hstate ⟨j, hparent, hended⟩
  have halive : (w.kernel.sched.tasks i).Alive :=
    ⟨by rw [hstate]; rintro ⟨⟩, by rw [hstate]; rintro ⟨⟩⟩
  obtain ⟨child, hsleeps⟩ := h.sleeps i hstate
  have hchild : (w.kernel.sched.tasks child).state = .terminated := by
    by_contra hrunning
    exact h.first i child ⟨hany, halive, hsleeps.awaits, hrunning⟩ j hparent hended
  exact ⟨child, (h.waiting i child halive hsleeps.awaits).parent, hchild,
    h.answered hstate hsleeps hchild⟩

/-- Task 1 has forked tasks 2 and 3. -/
def Watch.twoForked : Watch :=
  (((Watch.boot.after (.call (.spawn false))).after (.call .yield)).after
    (.call (.spawn true))).after (.call (.spawn true))

/-- Nothing is asked of a step in which no task ends. -/
theorem Watch.firstEnds_of_not_ends {w : Watch} {e : KernelEvent}
    (hends : ∀ j, ¬ w.kernel.Ends e j) : w.FirstEnds e :=
  fun _ _ _ j hj => absurd hj (hends j)

theorem Watch.twoForked_run : Run FirstWatchStep Watch.boot
    [.call (.spawn false), .call .yield, .call (.spawn true), .call (.spawn true)] twoForked :=
  .cons ⟨⟨⟨by decide, rfl⟩, trivial⟩, firstEnds_of_not_ends (by rintro j (h | ⟨h, -⟩) <;> cases h)⟩
    (.cons ⟨⟨⟨by decide +kernel, rfl⟩, trivial⟩,
      firstEnds_of_not_ends (by rintro j (h | ⟨h, -⟩) <;> cases h)⟩
    (.cons ⟨⟨⟨by decide +kernel, rfl⟩, trivial⟩,
      firstEnds_of_not_ends (by rintro j (h | ⟨h, -⟩) <;> cases h)⟩
    (.cons ⟨⟨⟨by decide +kernel, rfl⟩, trivial⟩,
      firstEnds_of_not_ends (by rintro j (h | ⟨h, -⟩) <;> cases h)⟩ (.nil _))))

theorem Watch.twoForked_own : twoForked.kernel.WaitsForOwn (.call (.waitpid none false)) := by
  have h : twoForked.First :=
    twoForked_run.invariant (fun _ _ _ h hstep => h.step hstep) first_boot
  have hall : ∀ i < 4, (twoForked.kernel.sched.tasks i).parent = 1 →
      (twoForked.kernel.sched.tasks i).waitable = true := by decide +kernel
  rintro - child - hused (⟨-, hparent⟩ | hpid)
  · exact ⟨hparent, hall child (h.sound.sched.lt_of_used hused) hparent⟩
  · cases hpid

/-- Task 1 forks tasks 2 and 3 and waits for any of them, and task 2 exits. -/
theorem waitAny_returns_first :
    (((Watch.twoForked.after (.call (.waitpid none false))).after (.proceed false)).after
      (.call .exit)).AnyAnswered := by
  have hrun : Run FirstWatchStep Watch.twoForked
      [.call (.waitpid none false), .proceed false, .call .exit]
      (((Watch.twoForked.after (.call (.waitpid none false))).after (.proceed false)).after
        (.call .exit)) := by
    refine .cons ⟨⟨⟨by decide +kernel, rfl⟩, Watch.twoForked_own⟩,
        Watch.firstEnds_of_not_ends (by rintro j (h | ⟨h, -⟩) <;> cases h)⟩
      (.cons ⟨⟨⟨by decide +kernel, rfl⟩, trivial⟩,
        Watch.firstEnds_of_not_ends (by rintro j (h | ⟨h, -⟩) <;> cases h)⟩
      (.cons ⟨⟨⟨by decide +kernel, rfl⟩, trivial⟩, ?_⟩ (.nil _)))
    rintro i child hawaits j (h | ⟨-, rfl⟩) - hparent
    · cases h
    · -- The task that exits is the child that task 1 waits for.
      obtain rfl : 1 = i := hparent
      rcases hawaits.awaits with hp | hp
      · cases hp
      · cases hp
        rfl
  exact waitAny_returns (Watch.twoForked_run.append hrun)

/-- Task 1 forks tasks 2 and 3 and waits for any of them. Task 3 exits first, and the next wake pass
leaves task 1 waiting for task 2. -/
theorem waitAny_misses : ¬ ∀ (es : List KernelEvent) (w : Watch),
    Run OwnWatchStep Watch.boot es w → w.AnyAnswered := by
  intro hall
  let w := (((Watch.twoForked.after (.call (.waitpid none false))).after (.proceed false)).after
    (.call .yield)).after (.call .exit)
  have hforked : Run OwnWatchStep Watch.boot _ Watch.twoForked :=
    Watch.twoForked_run.mono fun _ _ _ hstep => hstep.1
  have hrun : Run OwnWatchStep Watch.twoForked
      [.call (.waitpid none false), .proceed false, .call .yield, .call .exit] w :=
    .cons ⟨⟨by decide +kernel, rfl⟩, Watch.twoForked_own⟩
      (.cons ⟨⟨by decide +kernel, rfl⟩, trivial⟩ (.cons ⟨⟨by decide +kernel, rfl⟩, trivial⟩
        (.cons ⟨⟨by decide +kernel, rfl⟩, trivial⟩ (.nil _))))
  obtain ⟨-, -, -, hready, -⟩ := hall _ w (hforked.append hrun) 1 (by decide +kernel)
    (by decide +kernel) ⟨3, by decide +kernel, by decide +kernel⟩
  have hwaiting : (w.kernel.sched.wakeExpired.tasks 1).state = .waiting := by decide +kernel
  cases hready.symm.trans hwaiting

end Tcmk
