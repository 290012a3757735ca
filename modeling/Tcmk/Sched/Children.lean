import Tcmk.Sched.Lineage
import Tcmk.Sched.Waiting

/-!
# Collecting exit codes

The record of the exit codes that `waitpid` has returned is `Orderly` in every run whose steps are
all `Careful` (`collected_orderly`). Three steps are not: `waitpid` with a pid and `WNOHANG` on a
task that has ended, which leaves the slot as it is; a waiting `waitpid` for a task that the caller
has not forked, which is not checked (`Kernel.WaitsForOwn`); and a `spawn` into a slot whose former
task has children left.
-/

namespace Tcmk

open Lib

/-- Each exit code is returned once at most, to the task that created the child, and the call
releases the slot. -/
structure Family.Orderly (f : Family) : Prop where
  once : (f.log.map Collection.child).Nodup
  forker : ∀ c ∈ f.log, f.forker c.child = c.receiver
  released : ∀ c ∈ f.log, c.released = true

/-- The steps that the code handles as it should. -/
def Kernel.Careful (k : Kernel) : KernelEvent → Prop
  | .call (.waitpid (some child) true) => (k.sched.tasks child).state ≠ .terminated
  | .call (.spawn waitable) => k.TakesFresh (.call (.spawn waitable))
  | e => k.WaitsForOwn e

theorem Kernel.Careful.waitsForOwn {k : Kernel} {e : KernelEvent} (h : k.Careful e) :
    k.WaitsForOwn e := by
  cases e with
  | call c =>
    cases c with
    | waitpid pid nohang =>
      cases nohang with
      | true => trivial
      | false =>
        cases pid with
        | none => exact h
        | some child => exact h
    | _ => trivial
  | _ => trivial

theorem Kernel.Careful.takesFresh {k : Kernel} {e : KernelEvent} (h : k.Careful e) :
    k.TakesFresh e := by
  cases e with
  | call c =>
    cases c with
    | spawn waitable => exact h
    | _ => trivial
  | _ => trivial

/-- A step that is handled as it should be. -/
def CarefulStep (f : Family) (e : KernelEvent) (f' : Family) : Prop :=
  FamilyStep f e f' ∧ f.kernel.Careful e

/-! ## The invariant -/

/-- What holds of the record in every careful run. -/
structure Family.Known (f : Family) : Prop extends f.Lineage where
  old : ∀ c ∈ f.log, c.child < f.born
  /-- A task whose exit code has been returned is gone. -/
  gone : ∀ c ∈ f.log, ∀ i, (f.kernel.sched.tasks i).state ≠ .unused → f.who i ≠ c.child
  waiting : f.kernel.Waiting
  orderly : f.Orderly

namespace Family

variable {f f' : Family} {e : KernelEvent} {i : ℕ}

theorem after_log_none (hnone : f.kernel.collected e = none) : (f.after e).log = f.log := by
  simp only [after, hnone, note]
  cases f.spawned e <;> rfl

theorem after_log_some {child : ℕ} {code : UInt32}
    (hcollected : f.kernel.collected e = some (child, code)) : (f.after e).log =
      ⟨f.who child, f.who f.kernel.sched.current, code,
        decide (((f.kernel.after e).sched.tasks child).state = .unused)⟩ :: f.log := by
  have hnone : f.spawned e = none := by
    cases e with
    | call c =>
      cases c with
      | spawn waitable => cases hcollected
      | _ => rfl
    | _ => rfl
  simp only [after, hcollected, hnone, bear, note]

theorem Known.step (h : f.Known) (hstep : CarefulStep f e f') : f'.Known := by
  obtain ⟨hstep, hcareful⟩ := hstep
  have hlineage := h.toLineage.step hstep hcareful.takesFresh
  have hused := fun i => used_step (i := i) h.sound hstep
  obtain ⟨henabled, rfl⟩ := hstep
  have hkernel : KernelStep f.kernel e (f.kernel.after e) := ⟨henabled, rfl⟩
  have hwaiting := Kernel.waiting_step h.sound hkernel h.waiting hcareful.waitsForOwn
  -- What has been recorded before stays true.
  have hold : ∀ c ∈ f.log, c.child < (f.after e).born := fun c hc =>
    Nat.lt_of_lt_of_le (h.old c hc) (born_le f e)
  have hgone : ∀ c ∈ f.log, ∀ i, ((f.after e).kernel.sched.tasks i).state ≠ .unused →
      (f.after e).who i ≠ c.child := fun c hc i hi => by
    rcases hused i hi with ⟨hi', hwho, -⟩ | ⟨-, hwho, -⟩ <;> rw [hwho]
    · exact h.gone c hc i hi'
    · exact Nat.ne_of_gt (h.old c hc)
  have hforker : ∀ c ∈ f.log, (f.after e).forker c.child = c.receiver := fun c hc =>
    (forker_step (h.old c hc)).trans (h.orderly.forker c hc)
  cases hcollected : f.kernel.collected e with
  | none =>
    have hlog := after_log_none hcollected
    refine ⟨hlineage, ?_, ?_, hwaiting, ?_, ?_, ?_⟩ <;> rw [hlog]
    · exact hold
    · exact hgone
    · exact h.orderly.once
    · exact hforker
    · exact h.orderly.released
  | some r =>
    obtain ⟨child, code⟩ := r
    have hlog := after_log_some hcollected
    obtain ⟨hended, hparent, hreleased, -⟩ :=
      Kernel.collected_child h.sound h.waiting henabled hcareful.waitsForOwn
        (by rintro c rfl; exact hcareful) hcollected
    have hchild : (f.kernel.sched.tasks child).state ≠ .unused := by rw [hended]; rintro ⟨⟩
    have hidle : child ≠ idleTask :=
      h.sound.sched.ne_idle (by rw [hended]; rintro ⟨⟩) (by rw [hended]; rintro ⟨⟩)
    have hborn := h.fresh child hchild
    refine ⟨hlineage, ?_, ?_, hwaiting, ?_, ?_, ?_⟩ <;> rw [hlog]
    · rintro c (_ | ⟨_, hc⟩)
      · exact Nat.lt_of_lt_of_le hborn (born_le f e)
      · exact hold c hc
    · rintro c (_ | ⟨_, hc⟩) i hi
      · rcases hused i hi with ⟨hi', hwho, -⟩ | ⟨-, hwho, -⟩ <;> rw [hwho]
        · -- The child's slot is no longer in use.
          intro heq
          obtain rfl := h.distinct i child hi' hchild heq
          exact hi hreleased
        · exact Nat.ne_of_gt hborn
      · exact hgone c hc i hi
    · refine List.nodup_cons.2 ⟨fun hmem => ?_, h.orderly.once⟩
      obtain ⟨c, hc, heq⟩ := List.mem_map.1 hmem
      exact h.gone c hc child hchild heq.symm
    · rintro c (_ | ⟨_, hc⟩)
      · refine (forker_step hborn).trans ?_
        exact (h.parent child hchild hidle).2.trans (congrArg f.who hparent)
      · exact hforker c hc
    · rintro c (_ | ⟨_, hc⟩)
      · exact decide_eq_true hreleased
      · exact h.orderly.released c hc

theorem known_boot : boot.Known where
  toLineage := lineage_boot
  old := fun _ hc => absurd hc List.not_mem_nil
  gone := fun _ hc => absurd hc List.not_mem_nil
  waiting := Kernel.waiting_boot
  orderly := ⟨List.nodup_nil, fun _ hc => absurd hc List.not_mem_nil,
    fun _ hc => absurd hc List.not_mem_nil⟩

end Family

/-- **Collection.** In every state of a run of careful steps, each exit code that a `waitpid` has
returned went to the task that created the child, was returned only once, and the call has
released the child's slot. -/
theorem collected_orderly {f : Family} {es : List KernelEvent}
    (hrun : Run CarefulStep Family.boot es f) : f.Orderly :=
  (hrun.invariant (I := Family.Known) (fun _ _ _ h hstep => h.step hstep)
    Family.known_boot).orderly

/-- The idle task creates a task, which exits, and collects its exit code. -/
theorem collected_orderly_once :
    let f := ((((Family.boot.after (.call (.spawn true))).after (.call .yield)).after
      (.call .exit)).after (.proceed false)).after (.call (.waitpid none true))
    f.log = [⟨1, 0, 0, true⟩] ∧ f.Orderly := by
  refine ⟨by decide +kernel, @collected_orderly _ [.call (.spawn true), .call .yield,
    .call .exit, .proceed false, .call (.waitpid none true)] ?_⟩
  exact .cons ⟨⟨by decide, rfl⟩, Kernel.takesFresh_spawn Kernel.sound_boot (by decide +kernel)⟩
    (.cons ⟨⟨by decide +kernel, rfl⟩, trivial⟩ (.cons ⟨⟨by decide +kernel, rfl⟩, trivial⟩
      (.cons ⟨⟨by decide +kernel, rfl⟩, trivial⟩
        (.cons ⟨⟨by decide +kernel, rfl⟩, trivial⟩ (.nil _)))))

/-- Task 1 forks task 2, which exits. A `waitpid` with its pid and `WNOHANG` returns the exit code
as often as it is called. -/
theorem collected_twice : ¬ ∀ (es : List KernelEvent) (f : Family),
    Run FamilyStep Family.boot es f → f.Orderly := by
  intro hall
  let f := (((((((Family.boot.after (.call (.spawn false))).after (.call .yield)).after
    (.call (.spawn true))).after (.call .yield)).after (.call .exit)).after (.proceed false)).after
    (.call (.waitpid (some 2) true))).after (.call (.waitpid (some 2) true))
  have hlog : f.log.map Collection.child = [2, 2] := by decide +kernel
  have hrun : Run FamilyStep Family.boot [.call (.spawn false), .call .yield, .call (.spawn true),
      .call .yield, .call .exit, .proceed false, .call (.waitpid (some 2) true),
      .call (.waitpid (some 2) true)] f :=
    .cons ⟨by decide, rfl⟩ (.cons ⟨by decide +kernel, rfl⟩ (.cons ⟨by decide +kernel, rfl⟩
      (.cons ⟨by decide +kernel, rfl⟩ (.cons ⟨by decide +kernel, rfl⟩
        (.cons ⟨by decide +kernel, rfl⟩ (.cons ⟨by decide +kernel, rfl⟩
          (.cons ⟨by decide +kernel, rfl⟩ (.nil _))))))))
  have honce := (hall _ _ hrun).once
  rw [hlog] at honce
  simp at honce

end Tcmk
