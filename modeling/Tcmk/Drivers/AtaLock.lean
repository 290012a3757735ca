import Tcmk.Drivers.Ata

/-!
# The lock of the disk

`DeviceLock` is given back by `drop`, on the stack of the task that has taken it. One task holds it
at most (`Safe`), and a task that leaves its command, on whatever path, has given it back. But a
task that is killed in the middle of a command drops nothing, and then the lock stays taken for
good. So it is taken exactly while a live task holds it in those runs, and no others, in which
no holder is killed (`lock_owned`).
-/

namespace Tcmk

open Lib

namespace Ata

variable {w w' : Ata} {e : AtaEvent} {i : ℕ} {x : Stage}

/-! ### Who holds the lock -/

theorem enter_stage (w : Ata) (x : Stage) (i : ℕ) :
    (w.enter x).stage i = if i = w.current then x else w.stage i :=
  Function.update_apply ..

theorem mem_holders_enter : i ∈ (w.enter x).holders ↔
    (w.kernel.sched.tasks i).Alive ∧ (if i = w.current then x else w.stage i).Holding := by
  rw [← enter_stage]
  exact Iff.rfl

/-- A step within the command, or outside of it. -/
theorem holders_enter (hx : x.Holding ↔ (w.stage w.current).Holding) :
    (w.enter x).holders = w.holders := by
  ext i
  rw [mem_holders_enter]
  refine and_congr_right fun _ => ?_
  split_ifs with hi
  · rw [hx, hi]
  · exact Iff.rfl

theorem holders_enter_holding (halive : (w.kernel.sched.tasks w.current).Alive) (hx : x.Holding) :
    (w.enter x).holders = insert w.current w.holders := by
  ext i
  rw [mem_holders_enter, Set.mem_insert_iff]
  by_cases hi : i = w.current
  · subst hi
    exact iff_of_true ⟨halive, by rwa [if_pos rfl]⟩ (.inl rfl)
  · rw [if_neg hi, or_iff_right hi]
    exact Iff.rfl

theorem holders_enter_out (hx : ¬ x.Holding) : (w.enter x).holders = w.holders \ {w.current} := by
  ext i
  rw [mem_holders_enter, Set.mem_sdiff, Set.mem_singleton_iff]
  by_cases hi : i = w.current
  · rw [if_pos hi]
    exact iff_of_false (fun h => hx h.2) fun h => h.2 hi
  · rw [if_neg hi, and_iff_left hi]
    exact Iff.rfl

/-- A step of the scheduler that neither ends nor starts a task. -/
theorem holders_withKernel {e : KernelEvent} (h : w.kernel.Sound) (henabled : w.kernel.Enabled e)
    (hends : ∀ i, ¬ w.kernel.Ends e i) (hspawn : ∀ waitable, e ≠ .call (.spawn waitable)) :
    (w.withKernel e).holders = w.holders := by
  have hkernel : KernelStep w.kernel e (w.withKernel e).kernel := ⟨henabled, rfl⟩
  ext i
  exact and_congr_left fun _ => (Kernel.change h hkernel i).alive_iff (hends i) hspawn

/-- What a step does to the lock. -/
inductive Grip (w : Ata) (e : AtaEvent) (w' : Ata) : Prop
  | same (hlocked : w'.locked = w.locked) (hholders : w'.holders = w.holders)
  | acquired (hfree : w.locked = false) (hlocked : w'.locked = true)
      (hholders : w'.holders = insert w.current w.holders)
  | released (hheld : w.current ∈ w.holders) (hlocked : w'.locked = false)
      (hholders : w'.holders = w.holders \ {w.current})
  | killed {i : ℕ} (he : e = .call (.terminate i)) (hheld : i ∈ w.holders)
      (hidle : i ≠ idleTask) (hlocked : w'.locked = w.locked)
      (hholders : w'.holders = w.holders \ {i})

theorem startOut_apply (stage : ℕ → Stage) (slot : Option ℕ) (i : ℕ) :
    startOut stage slot i = if slot = some i then .out else stage i := by
  cases slot with
  | none => rfl
  | some index =>
    simp only [startOut, Function.update_apply, Option.some.injEq]
    exact if_congr eq_comm rfl rfl

/-- The current task is alive unless it has called `terminate_current`. -/
theorem current_alive (h : w.kernel.Sound) (hfree : w.kernel.point w.current = .free) :
    (w.kernel.sched.tasks w.current).Alive :=
  h.alive.resolve_left fun hhalted => by
    rw [show w.kernel.point w.kernel.sched.current = .free from hfree] at hhalted
    cases hhalted

theorem grip_call {c : TaskCall} (h : w.kernel.Sound) (henabled : w.Enabled (.call c)) :
    Grip w (.call c) (w.after (.call c)) := by
  obtain ⟨hkernel, hout, -⟩ := henabled
  have hstep : KernelStep w.kernel (.call c) (w.kernel.after (.call c)) := ⟨hkernel, rfl⟩
  have hchange := Kernel.change h hstep
  cases c with
  | spawn waitable =>
    refine .same rfl ?_
    have hspawn := Sched.spawnInner_tasks h.sched.beyond waitable
    ext i
    have hmem : i ∈ (w.after (.call (.spawn waitable))).holders ↔
        ((w.kernel.after (.call (.spawn waitable))).sched.tasks i).Alive ∧
          (startOut w.stage (w.kernel.sched.spawnInner waitable).1 i).Holding := Iff.rfl
    rw [hmem, startOut_apply]
    split_ifs with hi
    · -- The new task is in no command, and its slot was unused.
      refine iff_of_false And.right fun hold => ?_
      rcases hspawn i with ⟨-, hne⟩ | ⟨hunused, -⟩
      · exact hne hi
      · exact hold.1.1 hunused
    · refine and_congr_left fun _ => ⟨fun hnew => ?_, fun hold => ?_⟩
      · refine ((hchange i).alive hnew).resolve_right ?_
        rintro ⟨waitable', he, hindex⟩
        cases he
        exact hi hindex
      · by_contra hdead
        rcases (hchange i).ends hold hdead with he | ⟨he, -⟩ <;> cases he
  | exit =>
    refine .same rfl ?_
    have hnot : ¬ (w.stage w.current).Holding := by
      rw [hout]
      exact id
    ext i
    by_cases hi : i = w.current
    · subst hi
      exact iff_of_false (fun hmem => hnot hmem.2) fun hmem => hnot hmem.2
    · refine and_congr_left fun _ => (hchange i).alive_iff ?_ fun _ => by rintro ⟨⟩
      rintro (he | ⟨-, hcurrent⟩)
      · cases he
      · exact hi hcurrent
  | terminate j =>
    have hother : ∀ i ≠ j, i ∈ (w.after (.call (.terminate j))).holders ↔ i ∈ w.holders :=
      fun i hi => and_congr_left fun _ => (hchange i).alive_iff (by
        rintro (he | ⟨he, -⟩)
        · cases he
          exact hi rfl
        · cases he) fun _ => by rintro ⟨⟩
    by_cases hj : j ∈ w.holders ∧ j ∉ (w.after (.call (.terminate j))).holders
    · refine .killed rfl hj.1 (Kernel.killed hj.1.1 fun halive => hj.2 ⟨halive, hj.1.2⟩).1 rfl ?_
      ext i
      rw [Set.mem_sdiff, Set.mem_singleton_iff]
      by_cases hi : i = j
      · subst hi
        exact iff_of_false hj.2 fun h => h.2 rfl
      · rw [hother i hi, and_iff_left hi]
    · refine .same rfl ?_
      ext i
      by_cases hi : i = j
      · subst hi
        refine ⟨fun hmem => ⟨?_, hmem.2⟩, fun hmem => ?_⟩
        · exact ((hchange i).alive hmem.1).resolve_right fun hnew => by
            cases hnew.choose_spec.1
        · by_contra hdead
          exact hj ⟨hmem, hdead⟩
      · exact hother i hi
  | _ =>
    refine .same rfl (holders_withKernel h hkernel (fun i => ?_) fun _ => by rintro ⟨⟩)
    rintro (he | ⟨he, -⟩) <;> cases he

/-- A call of the scheduler from within a command. -/
theorem enabled_call {c : TaskCall} (hfree : w.kernel.point w.current = .free) (hc : c ≠ .exit) :
    w.kernel.Enabled (.call c) :=
  ⟨hfree, fun he => absurd he hc⟩

theorem grip_advance (h : w.kernel.Sound) (hfree : w.kernel.point w.current = .free)
    (hin : w.stage w.current ≠ .out) (ok : Bool) : Grip w (.go ok) (w.advance ok) := by
  have halive := current_alive h hfree
  have hstay : (w.stage w.current).Holding → ∀ x : Stage, x.Holding →
      (w.enter x).holders = w.holders := fun hold x hx => holders_enter (iff_of_true hx hold)
  cases hstage : w.stage w.current with
  | out => exact absurd hstage hin
  | acquire c =>
    simp only [advance, hstage]
    split_ifs with hlocked
    · refine .same rfl (holders_withKernel h (enabled_call hfree (by rintro ⟨⟩)) (fun i => ?_)
        fun _ => by
        rintro ⟨⟩)
      rintro (he | ⟨he, -⟩) <;> cases he
    · exact .acquired (Bool.of_not_eq_true hlocked) rfl (holders_enter_holding halive trivial)
  | release =>
    simp only [advance, hstage]
    exact .released ⟨halive, by rw [hstage]; trivial⟩ rfl
      (holders_enter_out (w := w) (x := .out) id)
  | await a =>
    have hold : (w.stage w.current).Holding := by rw [hstage]; trivial
    simp only [advance, hstage]
    split_ifs
    · exact .same rfl (hstay hold _ trivial)
    · refine .same rfl ((holders_withKernel (w := w.enter (.clear a)) h
        (enabled_call hfree (by rintro ⟨⟩)) (fun i => ?_) fun _ => by rintro ⟨⟩).trans
        (hstay hold _ trivial))
      rintro (he | ⟨he, -⟩) <;> cases he
  | arm a =>
    have hold : (w.stage w.current).Holding := by rw [hstage]; trivial
    cases a <;> simp only [advance, hstage] <;> exact .same rfl (hstay hold _ trivial)
  | sectors c left =>
    have hold : (w.stage w.current).Holding := by rw [hstage]; trivial
    cases left <;> simp only [advance, hstage] <;> (try split_ifs) <;>
      exact .same rfl (hstay hold _ trivial)
  | poll a =>
    have hold : (w.stage w.current).Holding := by rw [hstage]; trivial
    cases a <;> simp only [advance, hstage] <;> (try split_ifs) <;>
      exact .same rfl (hstay hold _ trivial)
  | _ =>
    have hold : (w.stage w.current).Holding := by rw [hstage]; trivial
    simp only [advance, hstage]
    (try split_ifs) <;> exact .same rfl (hstay hold _ trivial)

theorem grip (h : w.kernel.Sound) (hstep : AtaStep w e w') : Grip w e w' := by
  obtain ⟨henabled, rfl⟩ := hstep
  cases e with
  | call c => exact grip_call h henabled
  | go ok => exact grip_advance h henabled.1 henabled.2 ok
  | begin c =>
    simp only [after, command]
    split_ifs
    · exact .same rfl rfl
    · exact .same rfl rfl
    · refine .same rfl (holders_enter (iff_of_false id ?_))
      rw [henabled.2]
      exact id
  | proceed =>
    refine .same rfl (holders_withKernel h henabled (fun i => ?_) fun _ => by rintro ⟨⟩)
    rintro (he | ⟨he, -⟩) <;> cases he
  | _ =>
    refine .same rfl (holders_withKernel h trivial (fun i => ?_) fun _ => by rintro ⟨⟩)
    rintro (he | ⟨he, -⟩) <;> cases he

/-- A step of a command moves the task on, gives up the processor, or calls `wait_for_io`. -/
theorem advance_cases (w : Ata) (ok : Bool) (hin : w.stage w.current ≠ .out) :
    (∃ x locked seen, w.advance ok = ⟨w.kernel, locked, seen, (w.enter x).stage⟩) ∨
      w.advance ok = w.withKernel (.call .yield) ∨
      ∃ a, w.advance ok = (w.enter (.clear a)).withKernel (.call (.waitForIo ioTimeoutTicks)) := by
  cases hstage : w.stage w.current with
  | out => exact absurd hstage hin
  | acquire c =>
    simp only [advance, hstage]
    split_ifs
    · exact .inr (.inl rfl)
    · exact .inl ⟨_, _, _, rfl⟩
  | await a =>
    simp only [advance, hstage]
    split_ifs
    · exact .inl ⟨_, _, _, rfl⟩
    · exact .inr (.inr ⟨a, rfl⟩)
  | arm a => cases a <;> simp only [advance, hstage] <;> exact .inl ⟨_, _, _, rfl⟩
  | sectors c left => cases left <;> simp only [advance, hstage] <;> exact .inl ⟨_, _, _, rfl⟩
  | poll a => cases a <;> simp only [advance, hstage] <;> exact .inl ⟨_, _, _, rfl⟩
  | _ =>
    simp only [advance, hstage]
    exact .inl ⟨_, _, _, rfl⟩

/-- The step of the kernel that a step of the machine is. -/
def kernelEvent (w : Ata) : AtaEvent → Option KernelEvent
  | .tick => some .tick
  | .preempt => some .preempt
  | .irq => some .diskIrq
  | .call c => some (.call c)
  | .begin _ => none
  | .proceed => some (.proceed w.seen)
  | .go _ =>
    match w.stage w.current with
    | .acquire _ => if w.locked then some (.call .yield) else none
    | .await _ => if w.current = idleTask then none else some (.call (.waitForIo ioTimeoutTicks))
    | _ => none

theorem kernel_step (hstep : AtaStep w e w') :
    w.kernelEvent e = none ∧ w'.kernel = w.kernel ∨
      ∃ e', w.kernelEvent e = some e' ∧ KernelStep w.kernel e' w'.kernel := by
  obtain ⟨henabled, rfl⟩ := hstep
  cases e with
  | call c =>
    refine .inr ⟨.call c, rfl, henabled.1, ?_⟩
    cases c <;> rfl
  | begin c =>
    refine .inl ⟨rfl, ?_⟩
    simp only [after, command]
    split_ifs <;> rfl
  | proceed => exact .inr ⟨.proceed w.seen, rfl, henabled, rfl⟩
  | go ok =>
    have hcall : ∀ c, c ≠ .exit → w.kernel.Enabled (.call c) := fun _ => enabled_call henabled.1
    have hnone : (∀ c, w.stage w.current ≠ .acquire c) → (∀ a, w.stage w.current ≠ .await a) →
        w.kernelEvent (.go ok) = none ∧ (w.after (.go ok)).kernel = w.kernel :=
        fun hacquire hawait => by
      constructor
      · simp only [kernelEvent]
      · simp only [after, advance]
        split <;> first
          | rfl
          | (split_ifs <;> rfl)
          | (rename_i c heq; exact absurd heq (hacquire c))
          | (rename_i a heq; exact absurd heq (hawait a))
    cases hstage : w.stage w.current with
    | acquire c =>
      simp only [after, kernelEvent, advance, hstage]
      split_ifs
      · exact .inr ⟨_, rfl, hcall _ (by rintro ⟨⟩), rfl⟩
      · exact .inl ⟨rfl, rfl⟩
    | await a =>
      simp only [after, kernelEvent, advance, hstage]
      split_ifs
      · exact .inl ⟨rfl, rfl⟩
      · exact .inr ⟨_, rfl, hcall _ (by rintro ⟨⟩), rfl⟩
    | _ => exact .inl (hnone (by rw [hstage]; rintro _ ⟨⟩) (by rw [hstage]; rintro _ ⟨⟩))
  | tick => exact .inr ⟨.tick, rfl, trivial, rfl⟩
  | preempt => exact .inr ⟨.preempt, rfl, trivial, rfl⟩
  | irq => exact .inr ⟨.diskIrq, rfl, trivial, rfl⟩

/-- What holds in every run. -/
structure Safe (w : Ata) : Prop where
  sound : w.kernel.Sound
  excl : Excl w.locked w.holders

theorem Safe.step (h : w.Safe) (hstep : AtaStep w e w') : w'.Safe := by
  constructor
  · rcases kernel_step hstep with ⟨-, heq⟩ | ⟨e', -, hkernel⟩
    · rw [heq]
      exact h.sound
    · exact h.sound.step hkernel
  · cases grip h.sound hstep with
    | same hlocked hholders =>
      rw [hlocked, hholders]
      exact h.excl
    | acquired hfree hlocked hholders =>
      rw [hlocked]
      exact h.excl.acquire hfree hholders.subset
    | released hheld hlocked hholders =>
      rw [hlocked]
      exact h.excl.release hheld hholders.subset
    | killed _ _ _ hlocked hholders =>
      rw [hlocked]
      exact h.excl.mono (hholders.subset.trans Set.sdiff_subset)

theorem safe_boot : boot.Safe := by
  refine ⟨Kernel.sound_boot, ?_⟩
  have hempty : boot.holders = ∅ := Set.eq_empty_of_forall_notMem fun i hi => hi.2
  rw [hempty]
  exact .empty

/-- The lock is taken exactly while a live task holds it. -/
def Owned (w : Ata) : Prop := w.locked = true ↔
  ∃ i, (w.kernel.sched.tasks i).Alive ∧ (w.stage i).Holding

/-- The step does not kill a task that holds the lock. -/
def SparesHolder (w : Ata) : AtaEvent → Prop
  | .call (.terminate i) =>
    ¬ (i ≠ idleTask ∧ (w.kernel.sched.tasks i).Alive ∧ (w.stage i).Holding)
  | _ => True

/-- The lock is taken, and nobody will give it back. -/
structure Stuck (w : Ata) : Prop extends w.Safe where
  locked : w.locked = true
  holders : w.holders = ∅

theorem owned_boot : boot.Owned :=
  iff_of_false Bool.false_ne_true fun hheld => hheld.choose_spec.2

theorem owned_step (h : w.Safe) (howned : w.Owned) (hstep : AtaStep w e w')
    (hspares : w.SparesHolder e) : w'.Owned := by
  have hexact : Exact w'.locked w'.holders := by
    have howned : Exact w.locked w.holders := howned
    cases grip h.sound hstep with
    | same hlocked hholders =>
      rw [hlocked, hholders]
      exact howned
    | acquired hfree hlocked hholders =>
      rw [hlocked, hholders]
      exact .acquire (Set.mem_insert ..)
    | released hheld hlocked hholders =>
      rw [hlocked]
      exact .release h.excl hheld hholders.subset
    | killed he hheld hidle =>
      subst he
      exact absurd ⟨hidle, hheld⟩ hspares
  exact hexact

/-- The kill of a holder succeeds, since the task that kills is another. -/
theorem dead_of_kill (h : w.Safe) (henabled : w.Enabled (.call (.terminate i)))
    (hidle : i ≠ idleTask) (hheld : i ∈ w.holders) :
    i ∉ (w.after (.call (.terminate i))).holders := by
  have hne : i ≠ w.current := by
    rintro rfl
    have hold := hheld.2
    rw [henabled.2.1] at hold
    exact hold
  have hlt : i < maxTasks :=
    Nat.lt_of_lt_of_le (h.sound.sched.lt_of_used hheld.1.1) h.sound.sched.count_le
  have hsome : w.kernel.sched.terminate i ≠ none := by
    have hindex : ¬ (i = idleTask ∨ i ≥ maxTasks ∨ i = w.kernel.sched.current) :=
      not_or.2 ⟨hidle, not_or.2 ⟨Nat.not_le.2 hlt, hne⟩⟩
    unfold Sched.terminate
    rw [if_neg hindex, if_neg (not_or.2 hheld.1)]
    rintro ⟨⟩
  obtain ⟨⟨space, s⟩, heq⟩ := Option.ne_none_iff_exists'.1 hsome
  obtain ⟨-, -, -, -, -, -, -, hdead⟩ := Sched.terminate_some heq
  intro hmem
  have halive := hmem.1
  simp only [after, withKernel, Kernel.after, Kernel.afterCall, heq] at halive
  exact hdead halive

theorem stuck_of_kill (h : w.Safe) (hstep : AtaStep w e w') (hkill : ¬ w.SparesHolder e) :
    w'.Stuck := by
  suffices hlost : w'.locked = true ∧ w'.holders = ∅ from ⟨h.step hstep, hlost.1, hlost.2⟩
  obtain ⟨i, rfl, hidle, hheld⟩ : ∃ i, e = .call (.terminate i) ∧ i ≠ idleTask ∧ i ∈ w.holders := by
    cases e with
    | call c =>
      cases c with
      | terminate i => exact ⟨i, rfl, Classical.not_not.1 hkill⟩
      | _ => exact absurd trivial hkill
    | _ => exact absurd trivial hkill
  have hgrip := grip h.sound hstep
  obtain ⟨henabled, rfl⟩ := hstep
  have hdead := dead_of_kill h henabled hidle hheld
  have htaken := h.excl.taken i hheld
  cases hgrip with
  | same _ hholders => exact absurd (hholders ▸ hheld) hdead
  | acquired hfree => cases hfree.symm.trans htaken
  | released hcurrent =>
    have hold := hcurrent.2
    rw [henabled.2.1] at hold
    exact hold.elim
  | @killed j he _ _ hlocked hholders =>
    cases he
    refine ⟨hlocked.trans htaken, ?_⟩
    rw [hholders, Set.sdiff_eq_empty]
    exact fun j hj => h.excl.unique j hj i hheld

/-- Nobody takes the lock any more. -/
theorem Stuck.step (h : w.Stuck) (hstep : AtaStep w e w') : w'.Stuck := by
  suffices hlost : w'.locked = true ∧ w'.holders = ∅ from
    ⟨h.toSafe.step hstep, hlost.1, hlost.2⟩
  have hnone : ∀ i, i ∉ w.holders := fun i hi => by
    rw [h.holders] at hi
    exact hi
  cases grip h.sound hstep with
  | same hlocked hholders => exact ⟨hlocked.trans h.locked, hholders.trans h.holders⟩
  | acquired hfree => cases hfree.symm.trans h.locked
  | released hheld => exact absurd hheld (hnone _)
  | killed _ hheld => exact absurd hheld (hnone _)

/-- In a stuck state, no live task holds the lock that is taken. -/
theorem Stuck.not_owned (h : w.Stuck) : ¬ w.Owned := fun howned => by
  obtain ⟨i, hi⟩ := howned.1 h.locked
  have hmem : i ∈ w.holders := hi
  rw [h.holders] at hmem
  exact hmem

end Ata

/-- **The lock.** A run ends in a state in which the lock is taken exactly if a live task is
between taking and giving it back in a command, if and only if no step of the run kills a task
that holds the lock. -/
theorem lock_owned {w : Ata} {es : List AtaEvent} (hrun : Run AtaStep Ata.boot es w) :
    w.Owned ↔ Run (fun w e w' => AtaStep w e w' ∧ w.SparesHolder e) Ata.boot es w := by
  have hall := Run.all_iff (P := fun w : Ata => w.Safe ∧ w.Owned) (D := Ata.Stuck)
    (C := Ata.SparesHolder)
    (fun _ _ _ h hstep hspares => ⟨h.1.step hstep, Ata.owned_step h.1 h.2 hstep hspares⟩)
    (fun _ _ _ h hstep hkill => Ata.stuck_of_kill h.1 hstep hkill)
    (fun _ _ _ h hstep => h.step hstep) (fun _ h hP => h.not_owned hP.2)
    ⟨Ata.safe_boot, Ata.owned_boot⟩ hrun
  have hsafe : w.Safe := hrun.invariant (fun _ _ _ h hstep => h.step hstep) Ata.safe_boot
  exact (and_iff_right hsafe).symm.trans hall

/-- Task 1 reads a sector and sleeps until the disk's interrupt. -/
def Ata.reading : Ata :=
  ((((((((((Ata.boot.after (.call (.spawn false))).after (.call .yield)).after
    (.begin ⟨false, 1, 512⟩)).after (.go true)).after (.go true)).after (.go true)).after
    (.go true)).after (.go true)).after .proceed).after .proceed)

theorem Ata.reading_run : Run (fun w e w' => AtaStep w e w' ∧ w.SparesHolder e) Ata.boot
    [.call (.spawn false), .call .yield, .begin ⟨false, 1, 512⟩, .go true, .go true, .go true,
      .go true, .go true, .proceed, .proceed] Ata.reading :=
  .cons ⟨⟨by decide +kernel, rfl⟩, trivial⟩ (.cons ⟨⟨by decide +kernel, rfl⟩, trivial⟩
    (.cons ⟨⟨by decide +kernel, rfl⟩, trivial⟩ (.cons ⟨⟨by decide +kernel, rfl⟩, trivial⟩
      (.cons ⟨⟨by decide +kernel, rfl⟩, trivial⟩ (.cons ⟨⟨by decide +kernel, rfl⟩, trivial⟩
        (.cons ⟨⟨by decide +kernel, rfl⟩, trivial⟩ (.cons ⟨⟨by decide +kernel, rfl⟩, trivial⟩
          (.cons ⟨⟨by decide +kernel, rfl⟩, trivial⟩ (.cons ⟨⟨by decide +kernel, rfl⟩, trivial⟩
            (.nil _))))))))))

theorem lock_owned_reading : Ata.reading.locked = true ∧ Ata.reading.Owned :=
  ⟨by decide +kernel,
    (lock_owned (Ata.reading_run.mono fun _ _ _ hstep => hstep.1)).2 Ata.reading_run⟩

/-- Task 1 is killed while it sleeps, and the lock stays taken. -/
theorem lock_lost : ¬ ∀ (es : List AtaEvent) (w : Ata), Run AtaStep Ata.boot es w → w.Owned := by
  intro hall
  have hrun := Ata.reading_run.mono fun _ _ _ hstep => hstep.1
  have hsafe : Ata.reading.Safe := hrun.invariant (fun _ _ _ h hstep => h.step hstep) Ata.safe_boot
  have hkill : AtaStep Ata.reading (.call (.terminate 1))
      (Ata.reading.after (.call (.terminate 1))) := ⟨by decide +kernel, rfl⟩
  have hheld : ¬ Ata.reading.SparesHolder (.call (.terminate 1)) := fun hspares =>
    hspares ⟨by decide, ⟨by decide +kernel, by decide +kernel⟩, by decide +kernel⟩
  exact (Ata.stuck_of_kill hsafe hkill hheld).not_owned
    (hall _ _ (hrun.append (.cons hkill (.nil _))))

end Tcmk
