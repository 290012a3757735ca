import Tcmk.Sched.Lineage

/-!
# Orphans

A task that has ended keeps its slot until the task that forked it collects the exit code. If that
task is gone nobody will, and `reap_orphans` returns the slot. `terminate_current` calls it, and
leaves no orphan (`terminateCurrent_parent`). `terminate` does not.

No ended task loses its parent in a run in which `terminate` takes only tasks whose death makes no
orphan (`Kernel.KillsClean`, `no_orphans`).
-/

namespace Tcmk

open Lib

namespace Sched

/-- A task that ends itself leaves no orphan. -/
theorem terminateCurrent_parent {s : Sched} {i : ℕ}
    (hbeyond : ∀ i ≥ s.taskCount, (s.tasks i).state = .unused) (hcurrent : s.current < s.taskCount)
    (hended : (s.terminateCurrent.tasks i).state = .terminated)
    (hwaitable : (s.terminateCurrent.tasks i).waitable = true) :
    (s.terminateCurrent.tasks (s.terminateCurrent.tasks i).parent).Alive := by
  have hset : ∀ j ≥ s.taskCount,
      ((s.setState s.current .terminated).tasks j).state = .unused := fun j hj => by
    rw [setState, modifyTask_tasks, if_neg (Nat.ne_of_gt (Nat.lt_of_lt_of_le hcurrent hj))]
    exact hbeyond j hj
  unfold Sched.terminateCurrent at hended hwaitable ⊢
  simp only at hended hwaitable ⊢
  split_ifs at hended hwaitable ⊢
  · refine reapOrphans_parent (fun j hj => ?_) hended hwaitable
    rw [releaseSlot_tasks]
    split_ifs
    · rfl
    · exact hset j hj
  · exact reapOrphans_parent hset hended hwaitable

end Sched

/-- The task whose slot is kept for its exit code has a parent that can collect it. -/
def Family.NoOrphans (f : Family) : Prop :=
  ∀ i, (f.kernel.sched.tasks i).state = .terminated →
    (f.kernel.sched.tasks (f.kernel.sched.tasks i).parent).Alive ∧
      f.who (f.kernel.sched.tasks i).parent = f.forker (f.who i)

/-- A kill that makes no orphan: all children of the task that have ended are collected, and if it
is to be collected itself its parent is alive. -/
def Kernel.KillsClean (k : Kernel) : KernelEvent → Prop
  | .call (.terminate i) => i ≠ idleTask → i ≠ k.sched.current → (k.sched.tasks i).Alive →
      (∀ j, (k.sched.tasks j).parent = i → (k.sched.tasks j).state ≠ .terminated) ∧
        ((k.sched.tasks i).waitable = true → (k.sched.tasks (k.sched.tasks i).parent).Alive)
  | _ => True

/-- A step that makes no orphan. -/
def CleanStep (f : Family) (e : KernelEvent) (f' : Family) : Prop :=
  FamilyStep f e f' ∧ f.kernel.KillsClean e ∧ f.kernel.TakesFresh e

namespace Family

variable {f f' : Family} {e : KernelEvent} {es : List KernelEvent}

/-- What holds in every run without such a kill. -/
structure Tidy (f : Family) : Prop extends f.Lineage where
  waitable : ∀ i, (f.kernel.sched.tasks i).state = .terminated →
    (f.kernel.sched.tasks i).waitable = true
  alive : ∀ i, (f.kernel.sched.tasks i).state = .terminated →
    (f.kernel.sched.tasks (f.kernel.sched.tasks i).parent).Alive

theorem Tidy.step (h : f.Tidy) (hstep : CleanStep f e f') : f'.Tidy := by
  obtain ⟨hstep, hclean, hfresh⟩ := hstep
  have hlineage := h.toLineage.step hstep hfresh
  obtain ⟨henabled, rfl⟩ := hstep
  have hkernel : KernelStep f.kernel e (f.after e).kernel := ⟨henabled, rfl⟩
  have hchange := Kernel.change h.sound hkernel
  have hwaitable : ∀ i, ((f.after e).kernel.sched.tasks i).state = .terminated →
      ((f.after e).kernel.sched.tasks i).waitable = true := fun i hended => by
    obtain ⟨-, hsame, hold | ⟨-, -, hold⟩⟩ := (hchange i).terminated hended
    · exact hsame.trans (h.waitable i hold)
    · exact hsame.trans hold
  refine ⟨hlineage, hwaitable, fun i hended => ?_⟩
  by_cases hexit : e = .call .exit
  · subst hexit
    exact Sched.terminateCurrent_parent h.sound.sched.beyond h.sound.sched.current_lt hended
      (hwaitable i hended)
  obtain ⟨hparent, -, hold⟩ := (hchange i).terminated hended
  rw [hparent]
  rcases hold with hold | ⟨hends, halive, hold⟩
  · -- The task had ended before; its parent has not been killed.
    have halive := h.alive i hold
    by_contra hdead
    obtain rfl := ((hchange _).ends halive hdead).resolve_right fun h => hexit h.1
    obtain ⟨hidle, hcurrent, -⟩ := Kernel.killed halive hdead
    exact (hclean hidle hcurrent halive).1 i rfl hold
  · -- The task has been killed; its parent was alive.
    obtain rfl := hends.resolve_right fun h => hexit h.1
    obtain ⟨hidle, hcurrent, hframe⟩ := Kernel.killed halive fun h => h.2 hended
    have hparent := (hclean hidle hcurrent halive).2 hold
    have hne := (h.parent i halive.1 hidle).1
    have hsame : (f.after (.call (.terminate i))).kernel.sched.tasks
        (f.kernel.sched.tasks i).parent = f.kernel.sched.tasks (f.kernel.sched.tasks i).parent :=
      hframe _ hne
    rw [hsame]
    exact hparent

theorem tidy_boot : boot.Tidy where
  toLineage := lineage_boot
  waitable := fun i hended => by
    by_cases hi : i = 0
    · subst hi
      cases hended
    · simp [boot, Kernel.boot, Sched.initial, hi, Task.empty] at hended
  alive := fun i hended => by
    by_cases hi : i = 0
    · subst hi
      cases hended
    · simp [boot, Kernel.boot, Sched.initial, hi, Task.empty] at hended

end Family

/-- **Orphans.** In every state of a run whose kills make no orphan, the parent of each task that
has ended and keeps its slot is alive, and is the task that forked it. -/
theorem no_orphans {f : Family} {es : List KernelEvent} (hrun : Run CleanStep Family.boot es f) :
    f.NoOrphans := by
  have h : f.Tidy := hrun.invariant (fun _ _ _ h hstep => h.step hstep) Family.tidy_boot
  intro i hended
  have hused : (f.kernel.sched.tasks i).state ≠ .unused := by rw [hended]; rintro ⟨⟩
  have hidle : i ≠ idleTask :=
    h.sound.sched.ne_idle (by rw [hended]; rintro ⟨⟩) (by rw [hended]; rintro ⟨⟩)
  exact ⟨h.alive i hended, (h.parent i hused hidle).2.symm⟩

/-- Task 1 forks task 2 and kills it. -/
theorem no_orphans_kill :
    ((((Family.boot.after (.call (.spawn false))).after (.call .yield)).after
      (.call (.spawn true))).after (.call (.terminate 2))).NoOrphans := by
  let f := ((Family.boot.after (.call (.spawn false))).after (.call .yield)).after
    (.call (.spawn true))
  have hyielded : ((Kernel.boot.after (.call (.spawn false))).after (.call .yield)).Sound :=
    (Kernel.sound_boot.step ⟨by decide, rfl⟩).step ⟨by decide +kernel, rfl⟩
  have hsound : f.kernel.Sound :=
    hyielded.step (e := .call (.spawn true)) ⟨by decide +kernel, rfl⟩
  have hrunning : ∀ j < 3, (f.kernel.sched.tasks j).state ≠ .terminated := by decide +kernel
  have hclean : f.kernel.KillsClean (.call (.terminate 2)) := by
    refine fun _ _ _ => ⟨fun j _ hended => ?_, fun _ => ⟨by decide +kernel, by decide +kernel⟩⟩
    exact hrunning j (hsound.sched.lt_of_used (by rw [hended]; rintro ⟨⟩)) hended
  exact @no_orphans _ [.call (.spawn false), .call .yield, .call (.spawn true),
    .call (.terminate 2)] (.cons ⟨⟨by decide, rfl⟩, trivial,
      Kernel.takesFresh_spawn Kernel.sound_boot (by decide +kernel)⟩
    (.cons ⟨⟨by decide +kernel, rfl⟩, trivial, trivial⟩ (.cons ⟨⟨by decide +kernel, rfl⟩, trivial,
      Kernel.takesFresh_spawn hyielded (by decide +kernel)⟩
    (.cons ⟨⟨by decide +kernel, rfl⟩, hclean, trivial⟩ (.nil _)))))

/-- Task 1 forks task 2, which exits, and is then killed by the idle task. Task 2 stays `Terminated`
with an `Unused` parent. -/
theorem orphan_left : ¬ ∀ (es : List KernelEvent) (f : Family),
    Run FamilyStep Family.boot es f → f.NoOrphans := by
  intro hall
  let f := ((((((((Family.boot.after (.call (.spawn false))).after (.call .yield)).after
    (.call (.spawn true))).after (.call .yield)).after (.call .exit)).after (.proceed false)).after
    (.call (.sleep 5))).after (.proceed false)).after (.call (.terminate 1))
  have hrun : Run FamilyStep Family.boot [.call (.spawn false), .call .yield, .call (.spawn true),
      .call .yield, .call .exit, .proceed false, .call (.sleep 5), .proceed false,
      .call (.terminate 1)] f :=
    .cons ⟨by decide, rfl⟩ (.cons ⟨by decide +kernel, rfl⟩ (.cons ⟨by decide +kernel, rfl⟩
      (.cons ⟨by decide +kernel, rfl⟩ (.cons ⟨by decide +kernel, rfl⟩
        (.cons ⟨by decide +kernel, rfl⟩ (.cons ⟨by decide +kernel, rfl⟩
          (.cons ⟨by decide +kernel, rfl⟩ (.cons ⟨by decide +kernel, rfl⟩ (.nil _)))))))))
  obtain ⟨⟨hunused, -⟩, -⟩ := hall _ _ hrun 2 (by decide +kernel)
  have hparent : (f.kernel.sched.tasks (f.kernel.sched.tasks 2).parent).state = .unused := by
    decide +kernel
  exact hunused hparent

end Tcmk
