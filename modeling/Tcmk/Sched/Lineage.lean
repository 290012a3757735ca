import Tcmk.Sched.Tasks

/-!
# Who has forked whom

A task is known by its slot, and slots are reused. `Family` numbers the tasks in the order of their
creation, and records the creator of each and every exit code that a `waitpid` returns.

The task table names a parent by its slot. That is the slot of the creator as long as no new task
takes the slot of a parent that has left children (`Kernel.TakesFresh`, `Family.Lineage`).
-/

namespace Tcmk

open Lib

/-- A call of `waitpid` has returned the exit code of task number `child`. -/
structure Collection where
  child : ℕ
  receiver : ℕ
  code : UInt32
  /-- whether it has released the child's slot -/
  released : Bool
  deriving DecidableEq

/-- The kernel, with a record of the tasks that there have been. -/
structure Family where
  kernel : Kernel
  /-- the number of the last task in each slot -/
  who : ℕ → ℕ
  born : ℕ
  /-- who created each task -/
  forker : ℕ → ℕ
  log : List Collection

namespace Family

def boot : Family := ⟨Kernel.boot, fun _ => 0, 1, fun _ => 0, []⟩

/-- The slot in which a step puts a new task. -/
def spawned (f : Family) : KernelEvent → Option ℕ
  | .call (.spawn waitable) => (f.kernel.sched.spawnInner waitable).1
  | _ => none

/-- Record a new task. -/
def bear (f : Family) : Option ℕ → Family
  | none => f
  | some slot => { f with
      who := Function.update f.who slot f.born
      born := f.born + 1
      forker := Function.update f.forker f.born (f.who f.kernel.sched.current) }

/-- Record a collection in a step to `k'`. -/
def note (f : Family) (k' : Kernel) : Option (ℕ × UInt32) → Family
  | none => f
  | some (child, code) => { f with
      log := ⟨f.who child, f.who f.kernel.sched.current, code,
        decide ((k'.sched.tasks child).state = .unused)⟩ :: f.log }

def after (f : Family) (e : KernelEvent) : Family :=
  { (f.bear (f.spawned e)).note (f.kernel.after e) (f.kernel.collected e) with
    kernel := f.kernel.after e }

end Family

/-- One step, and its record. -/
def FamilyStep (f : Family) (e : KernelEvent) (f' : Family) : Prop :=
  f.kernel.Enabled e ∧ f' = f.after e

/-- The record says nothing about what the kernel does. -/
theorem Family.of_run {k k' : Kernel} {es : List KernelEvent} {f : Family} (hf : f.kernel = k)
    (h : Run KernelStep k es k') : ∃ f', Run FamilyStep f es f' ∧ f'.kernel = k' := by
  have hsim : ∀ (k : Kernel) (f : Family) (e : KernelEvent) (k' : Kernel), f.kernel = k →
      KernelStep k e k' → ∃ f', FamilyStep f e f' ∧ f'.kernel = k' := fun k f e k' hf hstep => by
    subst hf
    exact ⟨f.after e, ⟨hstep.1, rfl⟩, hstep.2.symm⟩
  exact h.simulate (R := fun (k : Kernel) (f : Family) => f.kernel = k) hsim hf

/-- A new task does not take the slot of a parent that has left children. -/
def Kernel.TakesFresh (k : Kernel) : KernelEvent → Prop
  | .call (.spawn waitable) => ∀ slot, (k.sched.spawnInner waitable).1 = some slot →
      ∀ i, (k.sched.tasks i).state ≠ .unused → (k.sched.tasks i).parent ≠ slot
  | _ => True

/-- It is enough to look at the slots that have been used. -/
theorem Kernel.takesFresh_spawn {k : Kernel} {waitable : Bool} (h : k.Sound)
    (hall : ∀ i < k.sched.taskCount,
      (k.sched.spawnInner waitable).1 ≠ some (k.sched.tasks i).parent) :
    k.TakesFresh (.call (.spawn waitable)) := by
  rintro slot hslot i hused rfl
  exact hall i (h.sched.lt_of_used hused) hslot

/-- What the task table says about the tasks' creators. -/
structure Family.Lineage (f : Family) : Prop where
  sound : f.kernel.Sound
  /-- Numbers are given out in order. -/
  fresh : ∀ i, (f.kernel.sched.tasks i).state ≠ .unused → f.who i < f.born
  distinct : ∀ i j, (f.kernel.sched.tasks i).state ≠ .unused →
    (f.kernel.sched.tasks j).state ≠ .unused → f.who i = f.who j → i = j
  /-- The parent in the task table is the slot of the creator. -/
  parent : ∀ i, (f.kernel.sched.tasks i).state ≠ .unused → i ≠ idleTask →
    (f.kernel.sched.tasks i).parent ≠ i ∧
      f.forker (f.who i) = f.who (f.kernel.sched.tasks i).parent

namespace Family

variable {f f' : Family} {e : KernelEvent} {i : ℕ}

section Fields

variable (f : Family) (k : Kernel) (c : Option (ℕ × UInt32))

@[simp] theorem note_who : (f.note k c).who = f.who := by cases c <;> rfl

@[simp] theorem note_born : (f.note k c).born = f.born := by cases c <;> rfl

@[simp] theorem note_forker : (f.note k c).forker = f.forker := by cases c <;> rfl

end Fields

/-- The slot of a new task was unused, and names the current task as the parent. -/
theorem spawned_some {slot : ℕ} (h : f.kernel.Sound) (hspawned : f.spawned e = some slot) :
    ∃ waitable, e = .call (.spawn waitable) ∧
      (f.kernel.sched.spawnInner waitable).1 = some slot ∧
      (f.kernel.sched.tasks slot).state = .unused := by
  cases e with
  | call c =>
    cases c with
    | spawn waitable =>
      refine ⟨waitable, rfl, hspawned, ?_⟩
      rcases Sched.spawnInner_tasks h.sched.beyond waitable slot with ⟨-, hne⟩ | ⟨hunused, -⟩
      · exact absurd hspawned hne
      · exact hunused
    | _ => cases hspawned
  | _ => cases hspawned

theorem after_who (f : Family) (e : KernelEvent) :
    (f.after e).who = (f.bear (f.spawned e)).who := by
  simp only [after, note_who]

theorem after_born (f : Family) (e : KernelEvent) :
    (f.after e).born = (f.bear (f.spawned e)).born := by
  simp only [after, note_born]

theorem after_forker (f : Family) (e : KernelEvent) :
    (f.after e).forker = (f.bear (f.spawned e)).forker := by
  simp only [after, note_forker]

/-- The number of a task in use does not change. -/
theorem who_step (h : f.kernel.Sound) (hused : (f.kernel.sched.tasks i).state ≠ .unused) :
    (f.after e).who i = f.who i := by
  rw [after_who]
  cases hspawned : f.spawned e with
  | none => rfl
  | some slot =>
    refine Function.update_of_ne ?_ _ _
    rintro rfl
    obtain ⟨-, -, -, hunused⟩ := spawned_some h hspawned
    exact hused hunused

theorem born_le (f : Family) (e : KernelEvent) : f.born ≤ (f.after e).born := by
  rw [after_born]
  cases f.spawned e with
  | none => exact Nat.le_refl _
  | some slot => exact Nat.le_succ _

/-- Nor does the creator of a task. -/
theorem forker_step {n : ℕ} (hn : n < f.born) : (f.after e).forker n = f.forker n := by
  rw [after_forker]
  cases f.spawned e with
  | none => rfl
  | some slot => exact Function.update_of_ne (Nat.ne_of_lt hn) ..

/-- A task in use was so before, under the same parent, or is new. -/
theorem used_step (h : f.kernel.Sound) (hstep : FamilyStep f e f')
    (hused : (f'.kernel.sched.tasks i).state ≠ .unused) :
    ((f.kernel.sched.tasks i).state ≠ .unused ∧ f'.who i = f.who i ∧
      (f'.kernel.sched.tasks i).parent = (f.kernel.sched.tasks i).parent) ∨
    (f.spawned e = some i ∧ f'.who i = f.born ∧ f'.born = f.born + 1 ∧
      (f'.kernel.sched.tasks i).parent = f.kernel.sched.current ∧
      f'.forker f.born = f.who f.kernel.sched.current) := by
  obtain ⟨henabled, rfl⟩ := hstep
  have hkernel : KernelStep f.kernel e (f.after e).kernel := ⟨henabled, rfl⟩
  rcases (Kernel.change h hkernel i).used hused with
    ⟨hold, hparent, -⟩ | ⟨waitable, rfl, hindex, -, hparent, -⟩
  · exact .inl ⟨hold, who_step h hold, hparent⟩
  · have hspawned : f.spawned (.call (.spawn waitable)) = some i := hindex
    refine .inr ⟨hspawned, ?_, ?_, hparent, ?_⟩
    · rw [after_who, hspawned]
      exact Function.update_self ..
    · rw [after_born, hspawned]
      rfl
    · rw [after_forker, hspawned]
      exact Function.update_self ..

theorem Lineage.step (h : f.Lineage) (hstep : FamilyStep f e f') (hfresh : f.kernel.TakesFresh e) :
    f'.Lineage := by
  have hkernel : KernelStep f.kernel e f'.kernel := by
    obtain ⟨henabled, rfl⟩ := hstep
    exact ⟨henabled, rfl⟩
  have hused := fun i => used_step (i := i) h.sound hstep
  have hborn : f.born ≤ f'.born := by
    rw [hstep.2]
    exact born_le f e
  refine ⟨h.sound.step hkernel, fun i hi => ?_, fun i j hi hj heq => ?_, fun i hi hidle => ?_⟩
  · rcases hused i hi with ⟨hold, hwho, -⟩ | ⟨-, hwho, hsucc, -⟩
    · rw [hwho]
      exact Nat.lt_of_lt_of_le (h.fresh i hold) hborn
    · rw [hwho, hsucc]
      exact Nat.lt_succ_self _
  · rcases hused i hi with ⟨hold, hwho, -⟩ | ⟨hnew, hwho, -⟩ <;>
      rcases hused j hj with ⟨hold', hwho', -⟩ | ⟨hnew', hwho', -⟩ <;> rw [hwho, hwho'] at heq
    · exact h.distinct i j hold hold' heq
    · exact absurd heq (Nat.ne_of_lt (h.fresh i hold))
    · exact absurd heq.symm (Nat.ne_of_lt (h.fresh j hold'))
    · exact Option.some.inj (hnew.symm.trans hnew')
  · rcases hused i hi with ⟨hold, hwho, hparent⟩ | ⟨hnew, hwho, -, hparent, hforker⟩
    · obtain ⟨hne, hforker⟩ := h.parent i hold hidle
      rw [hwho, hparent]
      refine ⟨hne, ?_⟩
      have hsame : f'.who (f.kernel.sched.tasks i).parent = f.who
        (f.kernel.sched.tasks i).parent := by
        rw [hstep.2, after_who]
        cases hspawned : f.spawned e with
        | none => rfl
        | some slot =>
          obtain ⟨waitable, rfl, hindex, -⟩ := spawned_some h.sound hspawned
          exact Function.update_of_ne (hfresh slot hindex i hold) ..
      rw [hsame, ← hforker, hstep.2]
      exact forker_step (h.fresh i hold)
    · obtain ⟨waitable, rfl, -, hunused⟩ := spawned_some h.sound hnew
      obtain ⟨henabled, rfl⟩ := hstep
      have hcurrent : (f.kernel.sched.tasks f.kernel.sched.current).Alive :=
        h.sound.alive.resolve_left (by rw [henabled.1]; rintro ⟨⟩)
      rw [hparent, hwho, hforker]
      refine ⟨fun heq => hcurrent.1 (heq ▸ hunused), (who_step h.sound hcurrent.1).symm⟩

theorem lineage_boot : boot.Lineage where
  sound := Kernel.sound_boot
  fresh := fun _ _ => Nat.one_pos
  distinct := fun i j hi hj _ => by
    have hzero : ∀ i, (boot.kernel.sched.tasks i).state ≠ .unused → i = 0 := fun i hi => by
      by_contra hne
      exact hi (by simp [boot, Kernel.boot, Sched.initial, hne, Task.empty])
    rw [hzero i hi, hzero j hj]
  parent := fun i hi hidle => absurd (show (boot.kernel.sched.tasks i).state = .unused by
    simp [boot, Kernel.boot, Sched.initial, show i ≠ 0 from hidle, Task.empty]) hi

end Family

end Tcmk
