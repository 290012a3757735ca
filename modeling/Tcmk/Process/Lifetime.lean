import Tcmk.Lib.Ownership
import Tcmk.Process.Space
import Tcmk.Sched.Home

/-!
# The life of an address space

A space that has been created and not destroyed is held in at most one place: in the task table, in
a local variable of the code that runs a program, or in one of `terminate`. Every step moves it from
one place to another, drops it, or destroys it (`Accounted`). So the recorded spaces are distinct
and not destroyed, and the page directory in use is never one that has been destroyed
(`address_spaces_owned`).
-/

namespace Tcmk

open Lib

/-- The space that only a local variable refers to. -/
def ImageStage.inHand : ImageStage → ℕ
  | .created space | .loaded space | .cleared space _ | .unloaded space _ => space
  | .outside | .running _ | .forked | .ended _ _ | .returned => 0

/-- The space whose page directory is in use though it is not recorded. -/
def ImageStage.inUse : ImageStage → ℕ
  | .loaded space | .cleared space _ => space
  | .outside | .created _ | .running _ | .forked | .ended _ _ | .unloaded _ _ | .returned => 0

/-- The space that is recorded for a task at this stage. -/
def ImageStage.Records : ImageStage → ℕ → Prop
  | .running (some space), recorded => recorded = space
  | .ended space _, recorded => recorded = space
  | .forked, _ => True
  | _, recorded => recorded = 0

/-- The space that `terminate` has taken from its victim. -/
def Duty.inHand : Duty → ℕ
  | .windows _ space | .files _ space | .memory _ space => space
  | .none | .leaving => 0

/-- A place that a space is held in. -/
inductive Holder
  | record (i : ℕ)
  | image (i : ℕ)
  | kill (i : ℕ)
  deriving DecidableEq

namespace Process

def held (p : Process) : Holder → ℕ
  | .record i => p.space i
  | .image i => (p.stage i).inHand
  | .kill i => (p.duty i).inHand

/-- The local variables of a task are there as long as it is alive. -/
def Present (p : Process) : Holder → Prop
  | .record _ => True
  | .image i | .kill i => (p.kernel.sched.tasks i).Alive

/-- The places that hold a space. -/
def Holds (p : Process) : Set Holder := fun h => p.held h ≠ 0 ∧ p.Present h

/-- Where the page directory in use comes from. -/
def Loads (p : Process) : Prop :=
  p.kernel.sched.cr3 = 0 ∨ p.kernel.sched.cr3 = p.space p.current ∨
    (p.kernel.sched.tasks p.current).Alive ∧ p.kernel.sched.cr3 = (p.stage p.current).inUse

structure Accounted (p : Process) : Prop where
  sound : p.kernel.Sound
  owns : Owns p.Holds p.held p.Live
  count : ∀ space, p.destroyed space ≤ p.created space ∧ p.created space ≤ p.destroyed space + 1
  record : ∀ i, (p.kernel.sched.tasks i).Alive → (p.stage i).Records (p.space i)
  /-- A task that leaves has no program. -/
  leaving : ∀ i, p.duty i = .leaving → p.stage i = .outside
  loads : p.Loads

variable {p p' : Process} {e : ProcessEvent} {es : List ProcessEvent} {i : ℕ} {stage : ImageStage}
  {duty : Duty}

theorem boot_space (i : ℕ) : boot.space i = 0 := by
  simp only [Process.space, boot, Kernel.boot, Sched.initial, Function.update_apply]
  split_ifs <;> rfl

/-! ## The parts of a step -/

section Fields

variable (p) (stage) (duty) (space i : ℕ)

@[simp] theorem setStage_kernel : (p.setStage stage).kernel = p.kernel := rfl

@[simp] theorem setDuty_kernel : (p.setDuty duty).kernel = p.kernel := rfl

theorem setStage_stage : (p.setStage stage).stage i = if i = p.current then stage else p.stage i :=
  Function.update_apply ..

theorem setDuty_duty : (p.setDuty duty).duty i = if i = p.current then duty else p.duty i :=
  Function.update_apply ..

theorem setSpace_tasks (j : ℕ) : (p.setSpace i space).kernel.sched.tasks j =
    if j = i then { p.kernel.sched.tasks i with addressSpace := space }
    else p.kernel.sched.tasks j :=
  Sched.modifyTask_tasks (f := fun t => { t with addressSpace := space }) ..

theorem setSpace_space (j : ℕ) :
    (p.setSpace i space).space j = if j = i then space else p.space j := by
  simp only [Process.space, setSpace_tasks]
  split_ifs <;> rfl

theorem setSpace_alive (j : ℕ) : ((p.setSpace i space).kernel.sched.tasks j).Alive ↔
    (p.kernel.sched.tasks j).Alive := by
  rw [setSpace_tasks]
  split_ifs with hj
  · rw [hj]
    exact Iff.rfl
  · exact Iff.rfl

theorem live_create (s : ℕ) (hfresh : p.created space = p.destroyed space) :
    (p.create space).Live s ↔ s = space ∨ p.Live s := by
  simp only [Live, Process.create, Function.update_apply]
  by_cases hs : s = space
  · simp [hs, hfresh]
  · simp [hs]

theorem destroy_of_ne {space : ℕ} (hne : space ≠ 0) : p.destroy space =
    { p with destroyed := Function.update p.destroyed space (p.destroyed space + 1) } :=
  if_neg hne

theorem live_destroy (s : ℕ) (hne : space ≠ 0) (hcount : p.created space ≤ p.destroyed space + 1) :
    (p.destroy space).Live s ↔ p.Live s ∧ s ≠ space := by
  simp only [Live, destroy_of_ne p hne, Function.update_apply]
  by_cases hs : s = space
  · subst hs
    simp [hcount]
  · simp [hs]

end Fields

theorem idle_alive (h : p.kernel.Sound) (hfree : p.kernel.point p.current = .free) :
    (p.kernel.sched.tasks p.current).Alive :=
  h.alive.resolve_left fun hhalted => by
    have hpoint : p.kernel.point p.current = .halted := hhalted
    rw [hfree] at hpoint
    cases hpoint

/-- Only the page directory changes. -/
theorem sound_switchTo (h : p.kernel.Sound) (space : ℕ) : (p.switchTo space).kernel.Sound :=
  h.withSched (h.sched.of_moves rfl rfl fun _ => .same rfl rfl) (Sched.lives_of_state rfl id)

theorem sound_setSpace (h : p.kernel.Sound) (i space : ℕ) : (p.setSpace i space).kernel.Sound :=
  h.withSched (h.sched.modifyTask (.same rfl rfl)) (Sched.lives_modifyTask fun _ => id)

namespace Accounted

/-- No space gets to another place. -/
theorem of_same (h : p.Accounted) (sound : p'.kernel.Sound)
    (hholds : ∀ a, p'.held a ≠ 0 → p'.Present a → p.Present a ∧ p'.held a = p.held a)
    (hcreated : p'.created = p.created) (hdestroyed : p'.destroyed = p.destroyed)
    (record : ∀ i, (p'.kernel.sched.tasks i).Alive → (p'.stage i).Records (p'.space i))
    (leaving : ∀ i, p'.duty i = .leaving → p'.stage i = .outside) (loads : p'.Loads) :
    p'.Accounted where
  sound := sound
  owns := by
    have hlive : p'.Live = p.Live := by
      funext s
      simp only [Live, hcreated, hdestroyed]
    rw [hlive]
    refine h.owns.transfer id (fun _ _ _ _ heq => heq) fun a ha => ?_
    obtain ⟨hpresent, heq⟩ := hholds a ha.1 ha.2
    exact ⟨⟨heq ▸ ha.1, hpresent⟩, heq⟩
  count s := by
    rw [hcreated, hdestroyed]
    exact h.count s
  record := record
  leaving := leaving
  loads := loads

/-- The page directory in use has not been destroyed. -/
theorem live_cr3 (h : p.Accounted) : p.kernel.sched.cr3 = 0 ∨ p.Live p.kernel.sched.cr3 := by
  by_cases hzero : p.kernel.sched.cr3 = 0
  · exact .inl hzero
  · right
    rcases h.loads with hcr3 | hcr3 | ⟨halive, hcr3⟩
    · exact absurd hcr3 hzero
    · have hin : Holder.record p.current ∈ p.Holds := ⟨fun heq => hzero (hcr3.trans heq), trivial⟩
      rw [hcr3]
      exact h.owns.used _ hin
    · have hinHand : (p.stage p.current).inHand = p.kernel.sched.cr3 := by
        rw [hcr3] at hzero ⊢
        cases hstage : p.stage p.current <;> rw [hstage] at hzero <;>
          first
            | rfl
            | exact absurd rfl hzero
      have hin : Holder.image p.current ∈ p.Holds := ⟨fun heq => hzero (hinHand ▸ heq), halive⟩
      exact hinHand ▸ h.owns.used _ hin

/-! ## Steps of the kernel -/

/-- A step that neither creates nor kills a task. -/
theorem kernel (h : p.Accounted) {e : KernelEvent} (henabled : p.kernel.Enabled e)
    (hspawn : ∀ waitable, e ≠ .call (.spawn waitable)) (hkill : ∀ i, e ≠ .call (.terminate i))
    (hexit : e = .call .exit → p.stage p.current = .outside) :
    (p.withKernel (p.kernel.after e)).Accounted := by
  have hstep : KernelStep p.kernel e (p.kernel.after e) := ⟨henabled, rfl⟩
  have hchange := Kernel.change h.sound hstep
  have hsettled := Kernel.settled_step (k := p.kernel) hspawn hkill
  have halive : ∀ i, ((p.kernel.after e).sched.tasks i).Alive → (p.kernel.sched.tasks i).Alive :=
    fun i hi => ((hchange i).alive hi).resolve_right fun hnew => hspawn _ hnew.choose_spec.1
  have hspace : ∀ i, (p.withKernel (p.kernel.after e)).space i = p.space i := fun i =>
    (hsettled.home i).addressSpace
  refine h.of_same (h.sound.step hstep) (fun a ha hpresent => ?_) rfl rfl (fun i hi => ?_)
    h.leaving ?_
  · cases a with
    | record i => exact ⟨trivial, hspace i⟩
    | image i => exact ⟨halive i hpresent, rfl⟩
    | kill i => exact ⟨halive i hpresent, rfl⟩
  · rw [hspace]
    exact h.record i (halive i hi)
  · rcases hsettled.cr3 with ⟨hcurrent, hcr3⟩ | hload
    · have hsame : (p.withKernel (p.kernel.after e)).current = p.current := hcurrent
      unfold Loads
      rw [hsame, hspace, show (p.withKernel (p.kernel.after e)).kernel.sched.cr3 =
        p.kernel.sched.cr3 from hcr3]
      rcases h.loads with hzero | hrecord | ⟨hcurrent, huse⟩
      · exact .inl hzero
      · exact .inr (.inl hrecord)
      · by_cases he : e = .call .exit
        · rw [hexit he] at huse
          exact .inl huse
        · refine .inr (.inr ⟨((hchange p.current).alive_iff ?_ hspawn).2 hcurrent, huse⟩)
          rintro (hends | ⟨hends, -⟩)
          · exact hkill _ hends
          · exact he hends
    · exact .inr (.inl hload)

theorem after_spawn_sched (k : Kernel) (waitable : Bool) :
    (k.after (.call (.spawn waitable))).sched = (k.sched.spawnInner waitable).2 := by
  simp only [Kernel.after, Kernel.afterCall]
  split <;> rename_i heq <;> rw [heq]
  rfl

/-- A new task holds no space, and nor does its slot any longer. -/
theorem spawn (h : p.Accounted) (stage : ImageStage) {waitable : Bool} {child : ℕ} (hidle : p.Idle)
    (hindex : (p.kernel.sched.spawnInner waitable).1 = some child) (hstage : stage.inHand = 0)
    (hrecords : stage.Records 0) :
    ((p.withKernel (p.kernel.after (.call (.spawn waitable)))).arrive child stage).Accounted := by
  have henabled : p.kernel.Enabled (.call (.spawn waitable)) := ⟨hidle.1, by rintro ⟨⟩⟩
  have hsched := after_spawn_sched p.kernel waitable
  have htasks := Sched.spawnInner_tasks h.sound.sched.beyond waitable
  have hothers : ∀ i ≠ child, (p.kernel.after (.call (.spawn waitable))).sched.tasks i =
      p.kernel.sched.tasks i := fun i hi => by
    rw [hsched]
    rcases htasks i with ⟨hsame, -⟩ | ⟨-, hnew, -⟩
    · exact hsame
    · exact absurd (Option.some.inj (hnew.symm.trans hindex)) hi
  have hspace : ∀ i, ((p.withKernel (p.kernel.after (.call (.spawn waitable)))).arrive child
      stage).space i = if i = child then 0 else p.space i := fun i => by
    simp only [Process.space, Process.arrive, Process.withKernel]
    split_ifs with hi
    · rw [hi, hsched]
      exact (Sched.spawnInner_home hindex).1
    · rw [hothers i hi]
  have hstages : ∀ i, ((p.withKernel (p.kernel.after (.call (.spawn waitable)))).arrive child
      stage).stage i = if i = child then stage else p.stage i := fun i => Function.update_apply ..
  have hduties : ∀ i, ((p.withKernel (p.kernel.after (.call (.spawn waitable)))).arrive child
      stage).duty i = if i = child then .none else p.duty i := fun i => Function.update_apply ..
  have hunused : (p.kernel.sched.tasks child).state = .unused := by
    rcases htasks child with ⟨-, hne⟩ | ⟨hunused, -⟩
    · exact absurd hindex hne
    · exact hunused
  have hne : p.current ≠ child := fun heq => by
    have halive := idle_alive h.sound hidle.1
    rw [heq] at halive
    exact halive.1 hunused
  have hcurrent : (p.kernel.after (.call (.spawn waitable))).sched.current = p.current := by
    rw [hsched]
    exact Sched.spawnInner_current ..
  refine h.of_same (h.sound.step ⟨henabled, rfl⟩) (fun a ha hpresent => ?_) rfl rfl (fun i hi => ?_)
    (fun i hi => ?_) ?_
  · cases a with
    | record i =>
      simp only [held, hspace] at ha ⊢
      split_ifs at ha ⊢
      · exact absurd rfl ha
      · exact ⟨trivial, rfl⟩
    | image i =>
      simp only [held, hstages] at ha ⊢
      split_ifs at ha ⊢ with hi
      · exact absurd hstage ha
      · refine ⟨?_, rfl⟩
        have halive : ((p.kernel.after (.call (.spawn waitable))).sched.tasks i).Alive := hpresent
        rwa [hothers i hi] at halive
    | kill i =>
      simp only [held, hduties] at ha ⊢
      split_ifs at ha ⊢ with hi
      · exact absurd rfl ha
      · refine ⟨?_, rfl⟩
        have halive : ((p.kernel.after (.call (.spawn waitable))).sched.tasks i).Alive := hpresent
        rwa [hothers i hi] at halive
  · rw [hstages, hspace]
    split_ifs with hchild
    · exact hrecords
    · have halive : ((p.kernel.after (.call (.spawn waitable))).sched.tasks i).Alive := hi
      rw [hothers i hchild] at halive
      exact h.record i halive
  · rw [hduties] at hi
    rw [hstages]
    split_ifs at hi ⊢
    exact h.leaving i hi
  · unfold Loads
    have hsame : ((p.withKernel (p.kernel.after (.call (.spawn waitable)))).arrive child
      stage).current = p.current := hcurrent
    have hcr3 : ((p.withKernel (p.kernel.after (.call (.spawn waitable)))).arrive child
        stage).kernel.sched.cr3 = p.kernel.sched.cr3 := by
      simp only [Process.arrive, Process.withKernel, hsched]
      exact Sched.spawnInner_cr3 ..
    rw [hsame, hcr3, hspace, if_neg hne, hstages, if_neg hne]
    refine h.loads.imp id (Or.imp id (And.imp_left fun halive => ?_))
    simp only [Process.arrive, Process.withKernel]
    rwa [hothers _ hne]

/-- No new task. -/
theorem spawn_none (h : p.Accounted) {waitable : Bool} (hidle : p.Idle)
    (hindex : (p.kernel.sched.spawnInner waitable).1 = none) :
    (p.withKernel (p.kernel.after (.call (.spawn waitable)))).Accounted := by
  have henabled : p.kernel.Enabled (.call (.spawn waitable)) := ⟨hidle.1, by rintro ⟨⟩⟩
  have hsched := after_spawn_sched p.kernel waitable
  have htasks : (p.kernel.after (.call (.spawn waitable))).sched.tasks = p.kernel.sched.tasks := by
    rw [hsched]
    funext i
    rcases Sched.spawnInner_tasks h.sound.sched.beyond waitable i with ⟨hsame, -⟩ | ⟨-, hnew, -⟩
    · exact hsame
    · cases hnew.symm.trans hindex
  have hspace : ∀ i, (p.withKernel (p.kernel.after (.call (.spawn waitable)))).space
    i = p.space i :=
    fun i => by
      simp only [Process.space, Process.withKernel, htasks]
  have hcurrent : (p.withKernel (p.kernel.after (.call (.spawn waitable)))).current =
    p.current := by
    simp only [Process.current, Process.withKernel, hsched]
    exact Sched.spawnInner_current ..
  refine h.of_same (h.sound.step ⟨henabled, rfl⟩) (fun a ha hpresent => ?_) rfl rfl (fun i hi => ?_)
    h.leaving ?_
  · cases a with
    | record i => exact ⟨trivial, hspace i⟩
    | image i => exact ⟨by simpa only [Present, Process.withKernel, htasks] using hpresent, rfl⟩
    | kill i => exact ⟨by simpa only [Present, Process.withKernel, htasks] using hpresent, rfl⟩
  · rw [hspace]
    refine h.record i ?_
    simpa only [Process.withKernel, htasks] using hi
  · have hcr3 : (p.withKernel (p.kernel.after (.call (.spawn waitable)))).kernel.sched.cr3 =
        p.kernel.sched.cr3 := by
      simp only [Process.withKernel, hsched]
      exact Sched.spawnInner_cr3 ..
    have hloads := h.loads
    unfold Loads at hloads ⊢
    rw [hcurrent, hcr3, hspace]
    simpa only [Process.withKernel, htasks] using hloads

/-! ## Steps of the code that runs a program -/

/-- The current task gets to another stage, with the same space in hand or none. -/
theorem setStage (h : p.Accounted)
    (hinHand : stage.inHand = 0 ∨ stage.inHand = (p.stage p.current).inHand)
    (hrecords : stage.Records (p.space p.current)) (hduty : p.duty p.current = .none)
    (huse : (p.stage p.current).inUse = 0) : (p.setStage stage).Accounted := by
  refine h.of_same h.sound (fun a ha hpresent => ?_) rfl rfl (fun i hi => ?_) (fun i hi => ?_) ?_
  · cases a with
    | record i => exact ⟨trivial, rfl⟩
    | image i =>
      refine ⟨hpresent, ?_⟩
      simp only [held, setStage_stage] at ha ⊢
      split_ifs at ha ⊢ with hcurrent
      · rw [hinHand.resolve_left ha, hcurrent]
      · rfl
    | kill i => exact ⟨hpresent, rfl⟩
  · rw [setStage_stage]
    split_ifs with hcurrent
    · exact hcurrent ▸ hrecords
    · exact h.record i hi
  · have hi : p.duty i = .leaving := hi
    rw [setStage_stage]
    split_ifs with hcurrent
    · rw [hcurrent, hduty] at hi
      cases hi
    · exact h.leaving i hi
  · rcases h.loads with hzero | hrecord | ⟨-, hcr3⟩
    · exact .inl hzero
    · exact .inr (.inl hrecord)
    · exact .inl (hcr3.trans huse)

/-- The same with a switch to another page directory. -/
theorem load (h : p.Accounted) (stage : ImageStage)
    (halive : (p.kernel.sched.tasks p.current).Alive)
    (hinHand : stage.inHand = (p.stage p.current).inHand)
    (hrecords : stage.Records (p.space p.current)) (hduty : p.duty p.current = .none) {space : ℕ}
    (huse : space = 0 ∨ space = stage.inUse) : ((p.setStage stage).switchTo space).Accounted := by
  refine h.of_same (sound_switchTo h.sound space) (fun a _ hpresent => ?_) rfl rfl (fun i hi => ?_)
    (fun i hi => ?_) ?_
  · cases a with
    | record i => exact ⟨trivial, rfl⟩
    | image i =>
      refine ⟨hpresent, ?_⟩
      refine (congrArg ImageStage.inHand (setStage_stage p stage i)).trans ?_
      split_ifs with hcurrent
      · rw [hinHand, hcurrent]
        rfl
      · rfl
    | kill i => exact ⟨hpresent, rfl⟩
  · have hstage : ((p.setStage stage).switchTo space).stage i = _ := setStage_stage p stage i
    rw [hstage]
    split_ifs with hcurrent
    · exact hcurrent ▸ hrecords
    · exact h.record i hi
  · have hi : p.duty i = .leaving := hi
    have hstage : ((p.setStage stage).switchTo space).stage i = _ := setStage_stage p stage i
    rw [hstage]
    split_ifs with hcurrent
    · rw [hcurrent, hduty] at hi
      cases hi
    · exact h.leaving i hi
  · rcases huse with hzero | huse
    · exact .inl hzero
    · refine .inr (.inr ⟨halive, huse.trans ?_⟩)
      refine congrArg ImageStage.inUse (Eq.symm ?_)
      exact (setStage_stage p stage p.current).trans (if_pos rfl)

/-- The current task goes on with a call that ends a task. -/
theorem setDuty (h : p.Accounted)
    (hinHand : duty.inHand = 0 ∨ duty.inHand = (p.duty p.current).inHand)
    (hleaving : duty = .leaving → p.stage p.current = .outside) : (p.setDuty duty).Accounted := by
  refine h.of_same h.sound (fun a ha hpresent => ?_) rfl rfl h.record (fun i hi => ?_) h.loads
  · cases a with
    | record i => exact ⟨trivial, rfl⟩
    | image i => exact ⟨hpresent, rfl⟩
    | kill i =>
      refine ⟨hpresent, ?_⟩
      simp only [held, setDuty_duty] at ha ⊢
      split_ifs at ha ⊢ with hcurrent
      · rw [hinHand.resolve_left ha, hcurrent]
      · rfl
  · rw [setDuty_duty] at hi
    split_ifs at hi with hcurrent
    · exact hcurrent ▸ hleaving hi
    · exact h.leaving i hi

/-- `create_user_space` gives the task a space. -/
theorem create (h : p.Accounted) (halive : (p.kernel.sched.tasks p.current).Alive) {space : ℕ}
    (hstage : p.stage p.current = .outside) (hfresh : p.Fresh (some space))
    (hduty : p.duty p.current = .none) :
    ((p.setStage (.created space)).create space).Accounted := by
  have hlive := fun s => live_create (p.setStage (.created space)) space s hfresh.2
  have hnotLive : ¬ p.Live space := fun hlt => Nat.ne_of_gt hlt hfresh.2
  have hstages : ∀ i, ((p.setStage (.created space)).create space).stage i = _ :=
    setStage_stage p (.created space)
  have hrecord := h.record p.current halive
  rw [hstage] at hrecord
  refine ⟨h.sound, ?_, fun s => ?_, fun i hi => ?_, fun i hi => ?_, ?_⟩
  · have hown : Owns (insert (Holder.image p.current) p.Holds)
        ((p.setStage (.created space)).create space).held
        ((p.setStage (.created space)).create space).Live := by
      refine h.owns.acquire (r := space) hnotLive ?_ (fun a ha => ?_) hlive
      · exact congrArg ImageStage.inHand ((hstages p.current).trans (if_pos rfl))
      · cases a with
        | record i => rfl
        | image i =>
          have hi : i ≠ p.current := by
            rintro rfl
            refine ha.1 ?_
            simp only [held, hstage]
            rfl
          exact congrArg ImageStage.inHand ((hstages i).trans (if_neg hi))
        | kill i => rfl
    refine hown.mono fun a ha => ?_
    cases a with
    | record i => exact Set.mem_insert_of_mem _ ha
    | image i =>
      by_cases hi : i = p.current
      · rw [hi]
        exact Set.mem_insert _ _
      · refine Set.mem_insert_of_mem _ ⟨fun hzero => ha.1 ?_, ha.2⟩
        exact (congrArg ImageStage.inHand ((hstages i).trans (if_neg hi))).trans hzero
    | kill i => exact Set.mem_insert_of_mem _ ha
  · have hcount := h.count s
    have hfresh := hfresh.2
    simp only [Process.create, Process.setStage, Function.update_apply]
    split_ifs with hs
    · subst hs
      omega
    · exact hcount
  · rw [hstages]
    split_ifs with hcurrent
    · exact hcurrent ▸ hrecord
    · exact h.record i hi
  · have hi : p.duty i = .leaving := hi
    rw [hstages]
    split_ifs with hcurrent
    · rw [hcurrent, hduty] at hi
      cases hi
    · exact h.leaving i hi
  · rcases h.loads with hzero | hrecord | ⟨-, hcr3⟩
    · exact .inl hzero
    · exact .inr (.inl hrecord)
    · rw [hstage] at hcr3
      exact .inl hcr3

/-- The task table and the current task's local variable exchange their spaces, one of which is `0`.
So does the page directory in use stay known. -/
theorem exchange (h : p.Accounted) (stage : ImageStage)
    (halive : (p.kernel.sched.tasks p.current).Alive) {space : ℕ}
    (hstage : stage.inHand = p.space p.current) (hspace : space = (p.stage p.current).inHand)
    (hrecords : stage.Records space) (hduty : p.duty p.current = .none)
    (huse : p.space p.current = stage.inUse ∨ p.space p.current = 0)
    (huse' : (p.stage p.current).inUse = space ∨ (p.stage p.current).inUse = 0) :
    ((p.setStage stage).setSpace p.current space).Accounted := by
  have hstages : ∀ i, ((p.setStage stage).setSpace p.current space).stage i = _ :=
    setStage_stage p stage
  have hspaces : ∀ i, ((p.setStage stage).setSpace p.current space).space i = _ :=
    setSpace_space (p.setStage stage) space p.current
  have halives : ∀ i, (((p.setStage stage).setSpace p.current space).kernel.sched.tasks i).Alive ↔
      (p.kernel.sched.tasks i).Alive := setSpace_alive (p.setStage stage) space p.current
  refine ⟨sound_setSpace (p := p.setStage stage) h.sound _ _, ?_, h.count, fun i hi => ?_,
    fun i hi => ?_, ?_⟩
  · refine h.owns.transfer (Equiv.swap (.record p.current) (.image p.current))
      (Equiv.injective _).injOn fun a ha => ?_
    have hvalue : ((p.setStage stage).setSpace p.current space).held a =
        p.held (Equiv.swap (.record p.current) (.image p.current) a) := by
      cases a with
      | record i =>
        refine (hspaces i).trans ?_
        split_ifs with hi
        · rw [hi, Equiv.swap_apply_left]
          exact hspace
        · rw [Equiv.swap_apply_of_ne_of_ne (by simpa using hi) (by rintro ⟨⟩)]
          rfl
      | image i =>
        refine (congrArg ImageStage.inHand (hstages i)).trans ?_
        split_ifs with hi
        · rw [hi, Equiv.swap_apply_right]
          exact hstage
        · rw [Equiv.swap_apply_of_ne_of_ne (by rintro ⟨⟩) (by simpa using hi)]
          rfl
      | kill i =>
        rw [Equiv.swap_apply_of_ne_of_ne (by rintro ⟨⟩) (by rintro ⟨⟩)]
        rfl
    refine ⟨⟨fun hzero => ha.1 (hvalue.trans hzero), ?_⟩, hvalue⟩
    have hpresent := ha.2
    cases a with
    | record i =>
      by_cases hi : i = p.current
      · rw [hi, Equiv.swap_apply_left]
        exact halive
      · rw [Equiv.swap_apply_of_ne_of_ne (by simpa using hi) (by rintro ⟨⟩)]
        trivial
    | image i =>
      by_cases hi : i = p.current
      · rw [hi, Equiv.swap_apply_right]
        trivial
      · rw [Equiv.swap_apply_of_ne_of_ne (by rintro ⟨⟩) (by simpa using hi)]
        exact (halives i).1 hpresent
    | kill i =>
      rw [Equiv.swap_apply_of_ne_of_ne (by rintro ⟨⟩) (by rintro ⟨⟩)]
      exact (halives i).1 hpresent
  · rw [hstages, hspaces]
    split_ifs
    · exact hrecords
    · exact h.record i ((halives i).1 hi)
  · have hi : p.duty i = .leaving := hi
    rw [hstages]
    split_ifs with hcurrent
    · rw [hcurrent, hduty] at hi
      cases hi
    · exact h.leaving i hi
  · have hcurrent : ((p.setStage stage).setSpace p.current space).current = p.current := rfl
    have hcr3 : ((p.setStage stage).setSpace p.current space).kernel.sched.cr3 =
        p.kernel.sched.cr3 := rfl
    unfold Loads
    rw [hcurrent, hcr3, hspaces, if_pos rfl, hstages, if_pos rfl, halives]
    rcases h.loads with hzero | hrecord | ⟨-, hinUse⟩
    · exact .inl hzero
    · rcases huse with heq | hzero
      · exact .inr (.inr ⟨halive, hrecord.trans heq⟩)
      · exact .inl (hrecord.trans hzero)
    · rcases huse' with heq | hzero
      · exact .inr (.inl (hinUse.trans heq))
      · exact .inl (hinUse.trans hzero)

/-- `destroy_user_space`, of a space that was held in one place and is so no longer. -/
theorem destroy (h : p.Accounted) {a : Holder} (ha : a ∈ p.Holds) {space : ℕ}
    (hspace : p.held a = space) (h' : p'.Accounted) (hcreated : p'.created = p.created)
    (hdestroyed : p'.destroyed = p.destroyed)
    (hholds : ∀ b ∈ p'.Holds, b ∈ p.Holds ∧ b ≠ a ∧ p'.held b = p.held b) :
    (p'.destroy space).Accounted := by
  have hlive' : p'.Live = p.Live := by
    funext s
    simp only [Live, hcreated, hdestroyed]
  have hlive : p.Live space := hspace ▸ h.owns.used a ha
  have hne : space ≠ 0 := hspace ▸ ha.1
  have hrelease : Owns (p.Holds \ {a}) p.held (p'.destroy space).Live := by
    refine h.owns.release ha fun s => ?_
    rw [live_destroy p' space s hne (h'.count space).2, hlive', hspace]
  rw [destroy_of_ne p' hne] at hrelease ⊢
  refine ⟨h'.sound, ?_, fun s => ?_, h'.record, h'.leaving, h'.loads⟩
  · refine hrelease.transfer id (fun _ _ _ _ heq => heq) fun b hb => ?_
    obtain ⟨hin, hne, heq⟩ := hholds b hb
    exact ⟨⟨hin, hne⟩, heq⟩
  · have hcount := h'.count s
    simp only [Function.update_apply]
    split_ifs with hs
    · subst hs
      have hlt : p'.Live s := hlive' ▸ hlive
      unfold Live at hlt
      omega
    · exact hcount

/-- The first part of `terminate` takes the victim's space out of the task table. -/
theorem kill (h : p.Accounted) (hidle : p.Idle) (victim : ℕ) : (p.kill victim).Accounted := by
  unfold Process.kill
  split
  · exact h
  · rename_i space s hkill
    obtain ⟨hidle', hne, hold, hspace, hcurrent, -, hothers, hdead⟩ := Sched.terminate_some hkill
    obtain ⟨-, hcr3, hzero, -⟩ := Sched.terminate_home hkill
    have hkernel : p.kernel.after (.call (.terminate victim)) = p.kernel.withSched s := by
      simp only [Kernel.after, Kernel.afterCall, hkill]
    have henabled : p.kernel.Enabled (.call (.terminate victim)) := ⟨hidle.1, by rintro ⟨⟩⟩
    have hsound : (p.kernel.withSched s).Sound := hkernel ▸ h.sound.step ⟨henabled, rfl⟩
    rw [hkernel]
    have hsame : (p.withKernel (p.kernel.withSched s)).current = p.current := hcurrent
    have hduties : ∀ i, ((p.withKernel (p.kernel.withSched s)).setDuty (.windows victim space)).duty
        i = if i = p.current then .windows victim space else p.duty i := fun i => by
      rw [setDuty_duty, hsame]
      rfl
    have hspaces : ∀ i ≠ victim, ((p.withKernel (p.kernel.withSched s)).setDuty
        (.windows victim space)).space i = p.space i := fun i hi =>
      congrArg Task.addressSpace (hothers i hi)
    have halives : ∀ i, (s.tasks i).Alive → i ≠ victim ∧ (p.kernel.sched.tasks i).Alive :=
      fun i hi => by
        have hvictim : i ≠ victim := by
          rintro rfl
          exact hdead hi
        rw [hothers i hvictim] at hi
        exact ⟨hvictim, hi⟩
    refine ⟨hsound, ?_, h.count, fun i hi => ?_, fun i hi => ?_, ?_⟩
    · refine h.owns.move (a := .record victim) (b := .kill p.current) (fun hb => ?_)
        fun c hc hcb => ?_
      · have hvalue : ((p.withKernel (p.kernel.withSched s)).setDuty (.windows victim space)).held
            (.kill p.current) = p.held (.record victim) := by
          simp only [held, hduties, if_pos]
          exact hspace
        exact ⟨⟨fun heq => hb.1 (hvalue.trans heq), trivial⟩, hvalue⟩
      · cases c with
        | record i =>
          have hi : i ≠ victim := by
            rintro rfl
            exact hc.1 hzero
          have hvalue : ((p.withKernel (p.kernel.withSched s)).setDuty (.windows victim space)).held
            (.record i) = p.held (.record i) := hspaces i hi
          exact ⟨⟨fun heq => hc.1 (hvalue.trans heq), trivial⟩, by simpa using hi, hvalue⟩
        | image i => exact ⟨⟨hc.1, (halives i hc.2).2⟩, by rintro ⟨⟩, rfl⟩
        | kill i =>
          have hi : i ≠ p.current := by
            rintro rfl
            exact hcb rfl
          have hvalue : ((p.withKernel (p.kernel.withSched s)).setDuty (.windows victim space)).held
              (.kill i) = p.held (.kill i) := by
            simp only [held, hduties, if_neg hi]
          exact ⟨⟨fun heq => hc.1 (hvalue.trans heq), (halives i hc.2).2⟩, by rintro ⟨⟩, hvalue⟩
    · obtain ⟨hvictim, halive⟩ := halives i hi
      rw [hspaces i hvictim]
      exact h.record i halive
    · rw [hduties] at hi
      split_ifs at hi
      exact h.leaving i hi
    · unfold Loads
      have hnew : ((p.withKernel (p.kernel.withSched s)).setDuty (.windows victim space)).current =
          p.current := hsame
      rw [hnew, hspaces p.current (Ne.symm hne)]
      refine (show p.kernel.sched.cr3 = s.cr3 from hcr3.symm) ▸ h.loads.imp id (Or.imp id ?_)
      refine And.imp_left fun halive => ?_
      exact (congrArg Task.Alive (hothers p.current (Ne.symm hne))).mpr halive

/-- A call that creates a space and destroys it again. -/
theorem recount (h : p.Accounted) {space : ℕ} (hne : space ≠ 0) :
    ((p.create space).destroy space).Accounted := by
  rw [destroy_of_ne _ hne]
  refine ⟨h.sound, ⟨fun a ha => ?_, h.owns.inj⟩, fun s => ?_, h.record, h.leaving, h.loads⟩
  · have hlive := h.owns.used a ha
    unfold Live at hlive ⊢
    simp only [Process.create, Function.update_apply]
    split_ifs with hs
    · rw [← hs]
      exact Nat.succ_lt_succ hlive
    · exact hlive
  · have hcount := h.count s
    simp only [Process.create, Function.update_apply]
    split_ifs with hs
    · subst hs
      omega
    · exact hcount

/-- `fork` gives its new space to the child. -/
theorem give (h : p.Accounted) {child space : ℕ} (hfresh : p.Fresh (some space))
    (hzero : p.space child = 0) (hstage : p.stage child = .forked) (hne : p.current ≠ child) :
    ((p.create space).setSpace child space).Accounted := by
  have hlive := fun s => live_create p space s hfresh.2
  have hspaces : ∀ i, ((p.create space).setSpace child space).space i = _ :=
    setSpace_space (p.create space) space child
  have halives : ∀ i, (((p.create space).setSpace child space).kernel.sched.tasks i).Alive ↔
      (p.kernel.sched.tasks i).Alive := setSpace_alive (p.create space) space child
  refine ⟨sound_setSpace (p := p.create space) h.sound _ _, ?_, fun s => ?_, fun i hi => ?_,
    h.leaving, ?_⟩
  · have hown : Owns (insert (Holder.record child) p.Holds)
        ((p.create space).setSpace child space).held
        ((p.create space).setSpace child space).Live := by
      refine h.owns.acquire (r := space) (fun hlt => Nat.ne_of_gt hlt hfresh.2)
        ((hspaces child).trans (if_pos rfl)) (fun a ha => ?_) hlive
      cases a with
      | record i =>
        refine (hspaces i).trans (if_neg ?_)
        rintro rfl
        exact ha.1 hzero
      | image i => rfl
      | kill i => rfl
    refine hown.mono fun a ha => ?_
    have hpresent := ha.2
    cases a with
    | record i =>
      by_cases hi : i = child
      · rw [hi]
        exact Set.mem_insert _ _
      · refine Set.mem_insert_of_mem _ ⟨fun heq => ha.1 ?_, trivial⟩
        exact ((hspaces i).trans (if_neg hi)).trans heq
    | image i => exact Set.mem_insert_of_mem _ ⟨ha.1, (halives i).1 hpresent⟩
    | kill i => exact Set.mem_insert_of_mem _ ⟨ha.1, (halives i).1 hpresent⟩
  · have hcount := h.count s
    have hfresh := hfresh.2
    simp only [Process.setSpace, Process.withKernel, Process.create, Function.update_apply]
    split_ifs with hs
    · subst hs
      omega
    · exact hcount
  · rw [hspaces]
    split_ifs with hchild
    · have hforked : ((p.create space).setSpace child space).stage i = .forked := hchild ▸ hstage
      rw [hforked]
      exact trivial
    · exact h.record i ((halives i).1 hi)
  · have hcurrent : ((p.create space).setSpace child space).current = p.current := rfl
    have hcr3 : ((p.create space).setSpace child space).kernel.sched.cr3 = p.kernel.sched.cr3 := rfl
    have hloads := h.loads
    unfold Loads at hloads ⊢
    rw [hcurrent, hcr3, hspaces, if_neg hne, halives]
    exact hloads

theorem fork (h : p.Accounted) (hidle : p.Idle) {space : Option ℕ} (hfresh : p.Fresh space) :
    (p.fork space).Accounted := by
  unfold Process.fork
  split_ifs
  · exact h
  · cases space with
    | none => exact h
    | some space =>
      cases hindex : (p.kernel.sched.spawnInner true).1 with
      | none => exact (h.spawn_none hidle hindex).recount hfresh.1
      | some child =>
        have hchild := h.spawn .forked hidle hindex rfl trivial
        refine hchild.give hfresh ?_ (Function.update_self ..) ?_
        · have hsched := after_spawn_sched p.kernel true
          simp only [Process.space, Process.arrive, Process.withKernel, hsched]
          exact (Sched.spawnInner_home hindex).1
        · rintro hcurrent
          have halive := idle_alive h.sound hidle.1
          have hsched : (p.kernel.after (.call (.spawn true))).sched.current = p.current := by
            rw [after_spawn_sched]
            exact Sched.spawnInner_current ..
          have heq : p.current = child := hsched.symm.trans hcurrent
          rcases Sched.spawnInner_tasks h.sound.sched.beyond true child with ⟨-, hne⟩ | ⟨hunused, -⟩
          · exact hne hindex
          · exact halive.1 (heq ▸ hunused)

/-- The next statement of `run_image`, `child_task` or `app_task`. -/
theorem goOn (h : p.Accounted) (halive : (p.kernel.sched.tasks p.current).Alive)
    (hduty : p.duty p.current = .none) : p.goOn.Accounted := by
  have hrecord := h.record p.current halive
  unfold Process.goOn
  cases hstage : p.stage p.current with
  | created space =>
    rw [hstage] at hrecord
    exact h.load (.loaded space) halive (by rw [hstage]; rfl) hrecord hduty (.inr rfl)
  | loaded space =>
    rw [hstage] at hrecord
    have hzero : p.space p.current = 0 := hrecord
    exact h.exchange (.running (some space)) halive hzero.symm (by rw [hstage]; rfl) rfl
      hduty (.inr hzero) (.inl (by rw [hstage]; rfl))
  | ended space child =>
    rw [hstage] at hrecord
    have hspace : p.space p.current = space := hrecord
    exact h.exchange (.cleared space child) halive hspace.symm (by rw [hstage]; rfl) rfl hduty
      (.inl hspace)
      (.inr (by rw [hstage]; rfl))
  | cleared space child =>
    rw [hstage] at hrecord
    exact h.load (.unloaded space child) halive (by rw [hstage]; rfl) hrecord hduty (.inl rfl)
  | unloaded space child =>
    rw [hstage] at hrecord
    have hzero : p.space p.current = 0 := hrecord
    have hdone : (p.setStage (if child then .outside else .returned)).Accounted := by
      refine h.setStage (.inl ?_) ?_ hduty (by rw [hstage]; rfl)
      · cases child <;> rfl
      · cases child <;> exact hzero
    by_cases hne : space = 0
    · rw [hne]
      exact hdone
    · have hheld : p.held (.image p.current) = space := congrArg ImageStage.inHand hstage
      have hin : Holder.image p.current ∈ p.Holds := ⟨hheld ▸ hne, halive⟩
      refine h.destroy hin hheld hdone rfl rfl fun b hb => ?_
      cases b with
      | record i => exact ⟨hb, by rintro ⟨⟩, rfl⟩
      | image i =>
        have hstages := setStage_stage p (if child then .outside else .returned) i
        by_cases hi : i = p.current
        · rw [if_pos hi] at hstages
          refine absurd ((congrArg ImageStage.inHand hstages).trans ?_) hb.1
          cases child <;> rfl
        · rw [if_neg hi] at hstages
          have hvalue := congrArg ImageStage.inHand hstages
          refine ⟨⟨fun hzero => hb.1 (hvalue.trans hzero), hb.2⟩, by simpa using hi, hvalue⟩
      | kill i => exact ⟨hb, by rintro ⟨⟩, rfl⟩
  | returned =>
    rw [hstage] at hrecord
    exact h.setStage (.inl rfl) hrecord hduty (by rw [hstage]; rfl)
  | _ => exact h

theorem go (h : p.Accounted) (hfree : p.kernel.point p.current = .free)
    (henabled : p.duty p.current = .leaving → p.current ≠ idleTask) : p.go.Accounted := by
  have halive := idle_alive h.sound hfree
  unfold Process.go
  cases hduty : p.duty p.current with
  | none => exact h.goOn halive hduty
  | windows victim space => exact h.setDuty (.inr (by rw [hduty]; rfl)) (by rintro ⟨⟩)
  | files victim space => exact h.setDuty (.inr (by rw [hduty]; rfl)) (by rintro ⟨⟩)
  | memory victim space =>
    have hdone : (p.setDuty .none).Accounted := h.setDuty (.inl rfl) (by rintro ⟨⟩)
    simp only
    split_ifs with hzero
    · exact hdone
    · have hheld : p.held (.kill p.current) = space := congrArg Duty.inHand hduty
      have hin : Holder.kill p.current ∈ p.Holds := ⟨hheld ▸ hzero, halive⟩
      refine h.destroy hin hheld hdone rfl rfl fun b hb => ?_
      cases b with
      | record i => exact ⟨hb, by rintro ⟨⟩, rfl⟩
      | image i => exact ⟨hb, by rintro ⟨⟩, rfl⟩
      | kill i =>
        have hduties := setDuty_duty p .none i
        by_cases hi : i = p.current
        · rw [if_pos hi] at hduties
          exact absurd (congrArg Duty.inHand hduties) hb.1
        · rw [if_neg hi] at hduties
          have hvalue := congrArg Duty.inHand hduties
          exact ⟨⟨fun hzero => hb.1 (hvalue.trans hzero), hb.2⟩, by simpa using hi, hvalue⟩
  | leaving =>
    exact h.kernel ⟨hfree, fun _ => henabled hduty⟩ (by rintro _ ⟨⟩) (by rintro _ ⟨⟩)
      fun _ => h.leaving _ hduty

theorem stop (h : p.Accounted) (hidle : p.Idle) : p.stop.Accounted := by
  have hrecord := h.record p.current (idle_alive h.sound hidle.1)
  unfold Process.stop
  cases hstage : p.stage p.current with
  | running space =>
    rw [hstage] at hrecord
    cases space with
    | none => exact h.setStage (.inl rfl) hrecord hidle.2 (by rw [hstage]; rfl)
    | some space => exact h.setStage (.inl rfl) hrecord hidle.2 (by rw [hstage]; rfl)
  | forked =>
    simp only
    split_ifs with hzero
    · exact h.setStage (.inl rfl) hzero hidle.2 (by rw [hstage]; rfl)
    · exact h.setStage (.inl rfl) rfl hidle.2 (by rw [hstage]; rfl)
  | _ => exact h

theorem step (h : p.Accounted) (hstep : ProcessStep p e p') : p'.Accounted := by
  obtain ⟨henabled, rfl⟩ := hstep
  cases e with
  | kernel e =>
    cases e with
    | call c =>
      obtain ⟨hidle, hplain⟩ := henabled
      have hcall : ∀ c, c ≠ .exit → p.kernel.Enabled (.call c) := fun c hc =>
        ⟨hidle.1, fun heq => absurd heq hc⟩
      have hquiet : p.kernel.Enabled (.call c) → (∀ waitable, c ≠ .spawn waitable) →
          (p.withKernel (p.kernel.after (.call c))).Accounted := fun henabled hspawn => by
        refine h.kernel henabled (fun waitable heq => ?_) (fun i heq => ?_) fun heq => ?_
        · exact hspawn waitable (KernelEvent.call.inj heq)
        · rw [KernelEvent.call.inj heq] at hplain
          exact hplain.elim
        · rw [KernelEvent.call.inj heq] at hplain
          exact hplain.elim
      cases c with
      | spawn waitable =>
        cases waitable with
        | true => exact hplain.elim
        | false =>
          cases hindex : (p.kernel.sched.spawnInner false).1 with
          | none =>
            simp only [Process.after, spawned, hindex]
            exact h.spawn_none hidle hindex
          | some child =>
            simp only [Process.after, spawned, hindex]
            exact h.spawn .outside hidle hindex rfl rfl
      | exit => exact hplain.elim
      | terminate index => exact hplain.elim
      | _ => exact hquiet (hcall _ (by rintro ⟨⟩)) (by rintro _ ⟨⟩)
    | _ => exact h.kernel henabled (by rintro _ ⟨⟩) (by rintro _ ⟨⟩) (by rintro ⟨⟩)
  | create space =>
    obtain ⟨hidle, hstage, hfresh⟩ := henabled
    have halive := idle_alive h.sound hidle.1
    cases space with
    | none =>
      have hrecord := h.record p.current halive
      rw [hstage] at hrecord
      exact h.setStage (.inl rfl) hrecord hidle.2 (by rw [hstage]; rfl)
    | some space => exact h.create halive hstage hfresh hidle.2
  | go => exact h.go henabled.1 henabled.2
  | stop => exact h.stop henabled
  | fork space => exact h.fork henabled.1 henabled.2.2
  | kill victim => exact h.kill henabled victim
  | leave => exact h.setDuty (.inl rfl) fun _ => henabled.2.1

end Accounted

theorem accounted_boot : boot.Accounted where
  sound := Kernel.sound_boot
  owns := by
    refine ⟨fun a ha => absurd ?_ ha.1, fun a ha => absurd ?_ ha.1⟩ <;> cases a with
    | record i => exact boot_space i
    | image i => rfl
    | kill i => rfl
  count := fun _ => ⟨Nat.le_refl 0, Nat.zero_le 1⟩
  record := fun i _ => boot_space i
  leaving := by rintro i ⟨⟩
  loads := .inl rfl

theorem accounted_run (h : Run ProcessStep boot es p) : p.Accounted :=
  h.invariant (I := Accounted) (fun _ _ _ h hstep => h.step hstep) accounted_boot

end Process

/-- **Lifetime.** In every state of a run from the boot on, the address spaces recorded for tasks
are distinct and have been created and not destroyed, no space has been destroyed more often than it
has been created, and the page directory in use, which every switch of tasks loads, is the kernel's
or that of a space that has not been destroyed. -/
theorem address_spaces_owned {p : Process} {es : List ProcessEvent}
    (hrun : Run ProcessStep Process.boot es p) :
    (∀ i j, p.space i ≠ 0 → p.space i = p.space j → i = j) ∧
    (∀ i, p.space i ≠ 0 → p.Live (p.space i)) ∧
    (∀ space, p.destroyed space ≤ p.created space ∧ p.created space ≤ p.destroyed space + 1) ∧
    (p.kernel.sched.cr3 = 0 ∨ p.Live p.kernel.sched.cr3) := by
  have h := Process.accounted_run hrun
  have hrecord : ∀ i, p.space i ≠ 0 → Holder.record i ∈ p.Holds := fun i hi => ⟨hi, trivial⟩
  refine ⟨fun i j hi heq => ?_, fun i hi => h.owns.used _ (hrecord i hi), h.count, h.live_cr3⟩
  have hj : p.space j ≠ 0 := heq ▸ hi
  exact Holder.record.inj (h.owns.inj (hrecord i hi) (hrecord j hj) heq)

/-- Task 1 runs a program and forks task 2, whose program ends. -/
theorem address_spaces_owned_fork :
    let p := [ProcessEvent.kernel (.call (.spawn false)), .kernel (.call .yield),
      .create (some 0x1000000), .go, .go, .fork (some 0x1001000), .kernel (.call .yield),
      .stop, .go, .go, .go].foldl Process.after Process.boot
    p.current = 2 ∧ p.space 1 = 0x1000000 ∧ p.Live (p.space 1) ∧ p.destroyed 0x1001000 = 1 := by
  intro p
  have hrun : Run ProcessStep Process.boot _ p := Run.of_plays (by decide +kernel)
  have hspace : p.space 1 = 0x1000000 := by decide +kernel
  exact ⟨by decide +kernel, hspace, (address_spaces_owned hrun).2.1 1 (by rw [hspace]; decide),
    by decide +kernel⟩

end Tcmk
