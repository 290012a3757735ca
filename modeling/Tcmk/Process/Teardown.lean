import Tcmk.Fd.Counting
import Tcmk.Process.Lifetime
import Tcmk.Wm.Window

/-!
# What a kill takes away (`terminate` of `scheduler.rs`)

A kill hands the slot of its victim back first, and closes the windows, closes the descriptors and
destroys the address space only then. The windows and the descriptors are found by the number of the
slot. As long as no new task is put in the slot before the kill has closed them, they are those of
the victim, and a new task finds nothing of the old one (`kill_exact`).
-/

namespace Tcmk

open Lib

/-- The windows, descriptors and address space of a task. -/
structure Holdings where
  windows : ℕ → Bool
  files : ℕ → Option FileDescriptor
  space : ℕ

def Holdings.nothing : Holdings := ⟨fun _ => false, fun _ => none, 0⟩

/-- A call of `terminate`. -/
structure Kill where
  victim : ℕ
  /-- what the victim has when the call is made -/
  had : Holdings
  /-- what the call has closed and destroyed -/
  released : Holdings

/-- The window is one of the task. -/
def Desktop.ownedBy (s : Desktop) (task w : ℕ) : Bool :=
  match s.windows[w]? with
  | some window => window.used && !window.system && window.owner == task
  | none => false

/-- The tasks with their programs, descriptors and windows. -/
structure Estate where
  process : Process
  files : FdState
  desktop : Desktop
  /-- the call of `terminate` that a task is in, or was in last -/
  call : ℕ → Kill
  /-- The call that has killed the last task in the slot has not closed everything. -/
  owed : ℕ → Bool
  /-- the calls that have returned -/
  log : List Kill

inductive EstateEvent
  | process (e : ProcessEvent)
  | file (c : FileCall)
  | window (width height : ℕ) (system : Bool)

/-- A call of `terminate` has closed what the victim had, as far as it has come. -/
def Kill.Matches (k : Kill) : Duty → Prop
  | .files _ _ => k.released.windows = k.had.windows
  | .memory _ space => k.released.windows = k.had.windows ∧ k.released.files = k.had.files ∧
      space = k.had.space
  | .none | .windows _ _ | .leaving => True

namespace Estate

def boot : Estate where
  process := Process.boot
  files := FdState.initial
  desktop := Desktop.boot
  call := fun _ => ⟨0, Holdings.nothing, Holdings.nothing⟩
  owed := fun _ => false
  log := []

def current (s : Estate) : ℕ := s.process.current

def holdings (s : Estate) (task : ℕ) : Holdings :=
  ⟨s.desktop.ownedBy task, s.files.get task, s.process.space task⟩

def withProcess (s : Estate) (p : Process) : Estate := { s with process := p }

/-- The current task's call of `terminate` has come further. -/
def setCall (s : Estate) (call : Kill) : Estate :=
  { s with call := Function.update s.call s.current call }

def setOwed (s : Estate) (slot : ℕ) (owed : Bool) : Estate :=
  { s with owed := Function.update s.owed slot owed }

/-- `wm::close_owned_by`. -/
def closeWindows (s : Estate) (task : ℕ) : Estate :=
  { s with desktop := s.desktop.closeOwnedBy task }

/-- `fd::close_all`. -/
def closeFiles (s : Estate) (task : ℕ) : Estate := { s with files := s.files.closeAll task }

/-- What the next statement of the current task does to windows and descriptors. -/
def goes (s : Estate) : Estate :=
  let call := s.call s.current
  match s.process.duty s.current with
  | .windows victim _ =>
    (s.closeWindows victim).setCall
      { call with released := { call.released with windows := s.desktop.ownedBy victim } }
  | .files victim _ =>
    ((s.closeFiles victim).setCall
      { call with released := { call.released with files := s.files.get victim } }).setOwed victim
        false
  | .memory _ space =>
    { s with log := { call with released := { call.released with space := space } } :: s.log }
  | .leaving => s
  | .none => if s.process.stage s.current = .returned then s.closeWindows s.current else s

/-- What a step does to windows and descriptors. -/
def tends (s : Estate) : ProcessEvent → Estate
  | .go => s.goes
  | .stop => if s.process.stage s.current = .forked then s.closeWindows s.current else s
  | .fork space =>
    match s.process.spawned (.fork space) with
    | none => s
    | some child => { s with files := s.files.cloneInto s.current child }
  | .kill victim =>
    match s.process.kernel.sched.terminate victim with
    | none => s
    | some _ => (s.setCall ⟨victim, s.holdings victim, Holdings.nothing⟩).setOwed victim true
  | .leave => s.closeFiles s.current
  | .kernel _ => s
  | .create _ => s

def after (wordBits : ℕ) (s : Estate) : EstateEvent → Estate
  | .process e => (s.tends e).withProcess (s.process.after e)
  | .file c => { s with files := s.files.call s.current c }
  | .window width height system =>
    { s with desktop := (s.desktop.create wordBits s.current (s.process.space s.current)
        width height system).2 }

/-- Only programs have windows that are not the system's. -/
def Enabled (s : Estate) : EstateEvent → Prop
  | .process e => s.process.Enabled e
  | .file _ => s.process.Idle
  | .window _ _ system =>
    s.process.Idle ∧ (system = false → (s.process.stage s.current).InProgram)

instance (s : Estate) (e : EstateEvent) : Decidable (s.Enabled e) :=
  match e with
  | .process e => inferInstanceAs (Decidable (s.process.Enabled e))
  | .file _ => inferInstanceAs (Decidable s.process.Idle)
  | .window _ _ _ => inferInstanceAs (Decidable (_ ∧ _))

/-- No new task is put in a slot whose last task has been killed but still has something open. -/
def Careful (s : Estate) : EstateEvent → Prop
  | .process e => ∀ slot ∈ s.process.spawned e, s.owed slot = false
  | _ => True

instance (s : Estate) (e : EstateEvent) : Decidable (s.Careful e) :=
  match e with
  | .process _ => inferInstanceAs (Decidable (∀ slot ∈ _, _))
  | .file _ | .window _ _ _ => instDecidableTrue

/-- What holds if the kills are exact. -/
structure Exact (s : Estate) : Prop where
  /-- A call that has returned has released what its victim had. -/
  returned : ∀ k ∈ s.log, k.released = k.had
  /-- So has one that is being made, as far as it has come. -/
  underway : ∀ i, (s.process.kernel.sched.tasks i).Alive → (s.call i).Matches (s.process.duty i)
  /-- A slot that is free for a new task has neither windows nor descriptors. -/
  fresh : ∀ i, ¬ (s.process.kernel.sched.tasks i).Alive → s.owed i = false →
    (∀ w, s.desktop.ownedBy i w = false) ∧ ∀ fd, s.files.get i fd = none

end Estate

/-- One step. -/
def EstateStep (wordBits : ℕ) (s : Estate) (e : EstateEvent) (s' : Estate) : Prop :=
  s.Enabled e ∧ s' = s.after wordBits e

/-- A step that puts no new task in the slot of a victim that still has something open. -/
def CarefulEstateStep (wordBits : ℕ) (s : Estate) (e : EstateEvent) (s' : Estate) : Prop :=
  (s.Enabled e ∧ s.Careful e) ∧ s' = s.after wordBits e

/-! ## Windows and descriptors of others -/

theorem Desktop.ownedBy_closeOwnedBy (s : Desktop) (i j w : ℕ) :
    (s.closeOwnedBy i).ownedBy j w = if j = i then false else s.ownedBy j w := by
  simp only [ownedBy, closeOwnedBy, List.getElem?_map]
  cases s.windows[w]? with
  | none => simp
  | some window =>
    simp only [Option.map_some]
    by_cases hj : j = i
    · subst hj
      cases hused : window.used <;> cases hsystem : window.system <;>
        by_cases howner : window.owner = j <;> simp [hused, hsystem, howner]
    · by_cases howner : window.owner = i
      · have hne : window.owner ≠ j := fun heq => hj (heq.symm.trans howner)
        cases hused : window.used <;> cases hsystem : window.system <;>
          simp [hused, hsystem, howner, hj, Ne.symm hj]
      · simp [howner, hj]

/-- A new window takes the slot of no other. -/
theorem Desktop.ownedBy_place (s : Desktop) (window : Window) {i : ℕ}
    (h : i ≠ window.owner ∨ window.system = true) (w : ℕ) :
    (s.place s.freeSlot window).2.ownedBy i w = s.ownedBy i w := by
  have hother : (window.used && !window.system && window.owner == i) = false := by
    rcases h with howner | hsystem
    · simp [Ne.symm howner]
    · simp [hsystem]
  cases hslot : s.freeSlot with
  | some index =>
    have hfree := List.findIdx?_eq_some_iff_getElem.1 hslot
    obtain ⟨hlt, hunused, -⟩ := hfree
    simp only [place, ownedBy, List.getElem?_set]
    by_cases hw : index = w
    · subst hw
      simp only [if_true, hlt, hother, List.getElem?_eq_getElem hlt]
      have hunused : s.windows[index].used = false := by simpa using hunused
      simp [hunused]
    · simp only [if_neg hw]
  | none =>
    simp only [place, ownedBy]
    rcases Nat.lt_trichotomy w s.windows.length with hw | hw | hw
    · rw [List.getElem?_append_left hw]
    · subst hw
      rw [List.getElem?_append_right (Nat.le_refl _), List.getElem?_eq_none (Nat.le_refl _)]
      simp [hother]
    · rw [List.getElem?_eq_none (Nat.le_of_lt hw), List.getElem?_eq_none]
      rw [List.length_append]
      exact hw

theorem Desktop.ownedBy_create (wordBits : ℕ) (s : Desktop) (owner space width height : ℕ)
    (system : Bool) {i : ℕ} (h : i ≠ owner ∨ system = true) (w : ℕ) :
    (s.create wordBits owner space width height system).2.ownedBy i w = s.ownedBy i w := by
  have hsame : ∀ t : Desktop, t.windows = s.windows → t.ownedBy i w = s.ownedBy i w :=
    fun t ht => by
    simp only [ownedBy, ht]
  have hplace : ∀ (t : Desktop) (window : Window), t.windows = s.windows →
      window.owner = owner → window.system = system →
      (t.place s.freeSlot window).2.ownedBy i w = s.ownedBy i w := fun t window ht ho hs => by
    have hslot : s.freeSlot = t.freeSlot := by simp only [freeSlot, ht]
    rw [hslot, ownedBy_place t window (by rwa [ho, hs]) w, hsame t ht]
  have hmap : ∀ (t : Desktop) (space vaddr : ℕ) (block : Block),
      (t.mapUserFrames space vaddr block).2.windows = t.windows := fun t space vaddr block => by
    unfold mapUserFrames
    split_ifs <;> rfl
  have hkmalloc : ∀ size align, (s.kmalloc size align).2.windows = s.windows := fun size align => by
    unfold kmalloc
    split <;> rfl
  unfold create
  by_cases hzero : width = 0 ∨ height = 0
  · rw [if_pos hzero]
  · rw [if_neg hzero]
    simp only
    by_cases hfull : s.freeSlot = none ∧ s.windows.length ≥ maxWindows
    · rw [if_pos hfull]
    · rw [if_neg hfull]
      have hwindows := hkmalloc (width * height * 4 % 2 ^ wordBits) pageSize
      cases halloc : s.kmalloc (width * height * 4 % 2 ^ wordBits) pageSize with
      | mk block t =>
        rw [halloc] at hwindows
        cases block with
        | none => exact hsame t hwindows
        | some block =>
          simp only
          split_ifs
          · exact hsame t hwindows
          · have hmapped := hmap t space (windowMapBase + t.ownedWindowCount owner * windowMapSlot)
              block
            split <;> rename_i heq <;> rw [heq] at hmapped
            · exact hsame _ (hmapped.trans hwindows)
            · exact hplace _ _ (hmapped.trans hwindows) rfl rfl
          · exact hplace (t.protectUserRange block) _ (by
              unfold protectUserRange
              split_ifs <;> exact hwindows) rfl rfl
          · exact hplace t _ hwindows rfl rfl

namespace FdState

variable {s : FdState} {task fd : ℕ}

theorem get_of_tables {t : FdState} (h : t.tables task = s.tables task) :
    t.get task fd = s.get task fd := by
  simp only [get, h]

theorem get_of_closed (h : s.Closed task) : s.get task fd = none := by
  unfold get
  split_ifs with hfd hused
  · rfl
  · cases hused.symm.trans (h fd (Nat.lt_of_not_le hfd))
  · rfl

theorem cloneInto_tables (s : FdState) (parent : ℕ) {child t : ℕ} (ht : t ≠ child) :
    (s.cloneInto parent child).tables t = s.tables t := by
  unfold cloneInto
  split_ifs
  · rfl
  · refine List.foldlRecOn (motive := fun s' : FdState => s'.tables t = s.tables t) _ _ rfl
      fun s' hs' i _ => ?_
    have hput : (s'.put child i (s'.tables parent i)).tables t = s.tables t :=
      (Function.update_of_ne ht _ _).trans hs'
    simp only
    split_ifs
    · exact hput
    · exact hput

theorem closeAll_tables (s : FdState) {t : ℕ} (ht : t ≠ task) :
    (s.closeAll task).tables t = s.tables t := by
  unfold closeAll
  split_ifs
  · rfl
  · refine List.foldlRecOn (motive := fun s' : FdState => s'.tables t = s.tables t) _ _ rfl
      fun s' hs' i _ => ?_
    simp only
    split_ifs
    · exact hs'
    · exact (Function.update_of_ne ht _ _).trans hs'

theorem closeAll_closed (s : FdState) (htask : task < maxTasks) :
    (s.closeAll task).Closed task := by
  unfold closeAll
  rw [if_neg (Nat.not_le.2 htask)]
  have hloop : ∀ n, ∀ i < n, (((List.range n).foldl (fun s i =>
      let entry := s.tables task i
      if !entry.used then s else (s.release entry).put task i .empty) s).tables task i).used =
        false := by
    intro n
    induction n with
    | zero => exact fun i hi => absurd hi (Nat.not_lt_zero i)
    | succ n ih =>
      intro i hi
      rw [List.range_succ, List.foldl_append]
      simp only [List.foldl_cons, List.foldl_nil]
      generalize (List.range n).foldl _ s = s' at ih
      rcases Nat.lt_succ_iff_lt_or_eq.1 hi with hi | rfl
      · split_ifs
        · exact ih i hi
        · rw [put_tables, if_neg fun heq => Nat.ne_of_lt hi heq.2]
          exact ih i hi
      · split_ifs with hunused
        · simpa using hunused
        · rw [put_tables, if_pos ⟨rfl, rfl⟩]
          rfl
  exact hloop maxFds

end FdState

/-! ## The invariant -/

/-- A task at this stage has no windows. -/
def ImageStage.Windowless : ImageStage → Prop
  | .outside | .created _ | .loaded _ => True
  | .ended _ child | .cleared _ child | .unloaded _ child => child = true
  | .running _ | .forked | .returned => False

theorem ImageStage.InProgram.not_windowless {stage : ImageStage} (h : stage.InProgram) :
    ¬ stage.Windowless := by
  cases stage with
  | running space => exact id
  | forked => exact id
  | _ => exact h.elim

/-- The task that a call of `terminate` has ended, and whose windows or descriptors it closes. -/
def Duty.victim : Duty → Option ℕ
  | .windows victim _ | .files victim _ => .some victim
  | .none | .memory _ _ | .leaving => .none

namespace Kernel

variable {k : Kernel} {waitable : Bool}

theorem tasks_spawn_none (h : k.Sound) (hindex : (k.sched.spawnInner waitable).1 = none) (i : ℕ) :
    (k.after (.call (.spawn waitable))).sched.tasks i = k.sched.tasks i := by
  rw [Process.Accounted.after_spawn_sched]
  rcases Sched.spawnInner_tasks h.sched.beyond waitable i with ⟨hsame, -⟩ | ⟨-, hnew, -⟩
  · exact hsame
  · cases hnew.symm.trans hindex

theorem tasks_spawn (h : k.Sound) {child : ℕ}
    (hindex : (k.sched.spawnInner waitable).1 = some child) :
    ¬ (k.sched.tasks child).Alive ∧
      ((k.after (.call (.spawn waitable))).sched.tasks child).Alive ∧
      ∀ i ≠ child, (k.after (.call (.spawn waitable))).sched.tasks i = k.sched.tasks i := by
  rw [Process.Accounted.after_spawn_sched]
  have htasks := Sched.spawnInner_tasks h.sched.beyond waitable
  obtain ⟨hunused, -, hready, -⟩ := (htasks child).resolve_left fun hno => hno.2 hindex
  refine ⟨fun halive => halive.1 hunused, ⟨?_, ?_⟩, fun i hi => ?_⟩
  · rw [hready]
    rintro ⟨⟩
  · rw [hready]
    rintro ⟨⟩
  · rcases htasks i with ⟨hsame, -⟩ | ⟨-, hnew, -⟩
    · exact hsame
    · exact absurd (Option.some.inj (hnew.symm.trans hindex)) hi

end Kernel

namespace Estate

variable {s s' : Estate} {wordBits : ℕ} {e : EstateEvent} {es : List EstateEvent}

@[simp] theorem withProcess_process (s : Estate) (p : Process) : (s.withProcess p).process = p :=
  rfl

@[simp] theorem withProcess_call (s : Estate) (p : Process) : (s.withProcess p).call = s.call := rfl

def Alive (s : Estate) (i : ℕ) : Prop := (s.process.kernel.sched.tasks i).Alive

/-- No window is one of the task. -/
def NoWindows (s : Estate) (i : ℕ) : Prop := ∀ w, s.desktop.ownedBy i w = false

def NoFiles (s : Estate) (i : ℕ) : Prop := ∀ fd, s.files.get i fd = none

/-- How far a call of `terminate` has come, and what is left of its victim's. -/
def Due (s : Estate) (call : Kill) : Duty → Prop
  | .windows victim space => call.had = ⟨s.desktop.ownedBy victim, s.files.get victim, space⟩
  | .files victim space => call.released.windows = call.had.windows ∧ s.NoWindows victim ∧
      call.had.files = s.files.get victim ∧ space = call.had.space
  | .memory _ space => call.released.windows = call.had.windows ∧
      call.released.files = call.had.files ∧ space = call.had.space
  | .none | .leaving => True

structure Tended (s : Estate) : Prop where
  accounted : s.process.Accounted
  /-- Slots that are free for a new task are empty. -/
  fresh : ∀ i, ¬ s.Alive i → s.owed i = false → s.NoWindows i ∧ s.NoFiles i
  owed : ∀ i, s.owed i = true → ¬ s.Alive i ∧ i < maxTasks
  windows : ∀ i, s.Alive i → (s.process.stage i).Windowless → s.NoWindows i
  files : ∀ i, s.Alive i → s.process.duty i = .leaving → s.NoFiles i
  due : ∀ i, s.Alive i → s.Due (s.call i) (s.process.duty i)
  /-- A victim's slot is owed by one call. -/
  victim : ∀ i, s.Alive i → ∀ v, (s.process.duty i).victim = some v →
    s.owed v = true ∧ ∀ j, s.Alive j → (s.process.duty j).victim = some v → j = i
  log : ∀ k ∈ s.log, k.released = k.had

/-- What is left of the victim's depends on nothing else. -/
theorem Due.congr {call : Kill} {duty : Duty} (h : s.Due call duty)
    (hsame : ∀ v, duty.victim = some v →
      s'.desktop.ownedBy v = s.desktop.ownedBy v ∧ s'.files.get v = s.files.get v) :
    s'.Due call duty := by
  cases duty with
  | windows v space =>
    obtain ⟨hwindows, hfiles⟩ := hsame v rfl
    simp only [Due, hwindows, hfiles]
    exact h
  | files v space =>
    obtain ⟨hwindows, hfiles⟩ := hsame v rfl
    simp only [Due, NoWindows, hwindows, hfiles]
    exact h
  | memory v space => exact h
  | none => trivial
  | leaving => trivial

namespace Tended

/-- No kill is made or comes further, and no task begins or ends. Only one task, if any, opens or
closes something. -/
theorem of_own (h : s.Tended) {c : ℕ} (hc : s.owed c = false) (haccounted : s'.process.Accounted)
    (halive : ∀ i, s'.Alive i ↔ s.Alive i) (hcall : s'.call = s.call) (howed : s'.owed = s.owed)
    (hlog : ∀ k ∈ s'.log, k.released = k.had)
    (hothers : ∀ i ≠ c, s'.desktop.ownedBy i = s.desktop.ownedBy i ∧
      s'.files.get i = s.files.get i ∧ s'.process.duty i = s.process.duty i ∧
      ((s'.process.stage i).Windowless → (s.process.stage i).Windowless))
    (hduty : s'.process.duty c = s.process.duty c ∨
      s'.process.duty c = .leaving ∨ s'.process.duty c = .none)
    (hdead : ¬ s.Alive c → s'.NoWindows c ∧ s'.NoFiles c)
    (hwindows : (s'.process.stage c).Windowless → s'.NoWindows c)
    (hfiles : s'.process.duty c = .leaving → s'.NoFiles c) : s'.Tended := by
  have hvictims : ∀ i v, (s'.process.duty i).victim = some v → (s.process.duty i).victim = some v :=
    fun i v hv => by
      by_cases hi : i = c
      · subst hi
        rcases hduty with heq | heq | heq <;> rw [heq] at hv
        · exact hv
        · cases hv
        · cases hv
      · rwa [(hothers i hi).2.2.1] at hv
  refine ⟨haccounted, fun i hi ho => ?_, fun i hi => ?_, fun i hi hstage => ?_,
    fun i hi hleave => ?_, fun i hi => ?_, fun i hi v hv => ?_, hlog⟩
  · rw [howed] at ho
    rw [halive] at hi
    by_cases hic : i = c
    · subst hic
      exact hdead hi
    · obtain ⟨hw, hf, -⟩ := hothers i hic
      have hold := h.fresh i hi ho
      simp only [NoWindows, NoFiles, hw, hf]
      exact hold
  · rw [howed] at hi
    rw [halive]
    exact h.owed i hi
  · rw [halive] at hi
    by_cases hic : i = c
    · subst hic
      exact hwindows hstage
    · obtain ⟨hw, -, -, hs⟩ := hothers i hic
      simp only [NoWindows, hw]
      exact h.windows i hi (hs hstage)
  · rw [halive] at hi
    by_cases hic : i = c
    · subst hic
      exact hfiles hleave
    · obtain ⟨-, hf, hd, -⟩ := hothers i hic
      rw [hd] at hleave
      simp only [NoFiles, hf]
      exact h.files i hi hleave
  · rw [halive] at hi
    have hdue : s'.Due (s.call i) (s.process.duty i) := by
      refine (h.due i hi).congr fun v hv => ?_
      have hne : v ≠ c := by
        rintro rfl
        cases hc.symm.trans (h.victim i hi v hv).1
      exact ⟨(hothers v hne).1, (hothers v hne).2.1⟩
    rw [hcall]
    by_cases hic : i = c
    · subst hic
      rcases hduty with heq | heq | heq <;> rw [heq]
      · exact hdue
      · trivial
      · trivial
    · rw [(hothers i hic).2.2.1]
      exact hdue
  · rw [halive] at hi
    obtain ⟨ho, hunique⟩ := h.victim i hi v (hvictims i v hv)
    rw [howed]
    exact ⟨ho, fun j hj hjv => hunique j ((halive j).1 hj) (hvictims j v hjv)⟩

/-- Nothing is opened or closed at all. -/
theorem of_same (h : s.Tended) (haccounted : s'.process.Accounted)
    (halive : ∀ i, s'.Alive i ↔ s.Alive i) (hcall : s'.call = s.call) (howed : s'.owed = s.owed)
    (hlog : s'.log = s.log) (hdesktop : s'.desktop = s.desktop) (hfiles : s'.files = s.files)
    (hduty : s'.process.duty = s.process.duty)
    (hstage : ∀ i, s.Alive i → (s'.process.stage i).Windowless → (s.process.stage i).Windowless) :
    s'.Tended := by
  refine ⟨haccounted, fun i hi ho => ?_, fun i hi => ?_, fun i hi hw => ?_, fun i hi hleave => ?_,
    fun i hi => ?_, fun i hi v hv => ?_, fun k hk => ?_⟩
  · rw [howed] at ho
    simp only [NoWindows, NoFiles, hdesktop, hfiles]
    exact h.fresh i ((not_congr (halive i)).1 hi) ho
  · rw [howed] at hi
    exact ⟨fun ha => (h.owed i hi).1 ((halive i).1 ha), (h.owed i hi).2⟩
  · simp only [NoWindows, hdesktop]
    exact h.windows i ((halive i).1 hi) (hstage i ((halive i).1 hi) hw)
  · rw [hduty] at hleave
    simp only [NoFiles, hfiles]
    exact h.files i ((halive i).1 hi) hleave
  · rw [hcall, hduty]
    exact (h.due i ((halive i).1 hi)).congr fun v _ => by rw [hdesktop, hfiles]; exact ⟨rfl, rfl⟩
  · rw [hduty] at hv
    obtain ⟨ho, hunique⟩ := h.victim i ((halive i).1 hi) v hv
    rw [howed]
    refine ⟨ho, fun j hj hjv => hunique j ((halive j).1 hj) ?_⟩
    rwa [hduty] at hjv
  · rw [hlog] at hk
    exact h.log k hk

/-- A new task comes into an empty slot. -/
theorem arrive (h : s.Tended) {child : ℕ} (haccounted : s'.process.Accounted)
    (hdead : ¬ s.Alive child) (ho : s.owed child = false) (hchild : s'.Alive child)
    (halive : ∀ i ≠ child, (s'.Alive i ↔ s.Alive i)) (hcall : s'.call = s.call)
    (howed : s'.owed = s.owed) (hlog : s'.log = s.log) (hdesktop : s'.desktop = s.desktop)
    (hfiles : ∀ i ≠ child, s'.files.get i = s.files.get i)
    (hduty : ∀ i ≠ child, s'.process.duty i = s.process.duty i)
    (hstage : ∀ i ≠ child, s'.process.stage i = s.process.stage i)
    (hnew : s'.process.duty child = .none) : s'.Tended := by
  refine ⟨haccounted, fun i hi hoi => ?_, fun i hi => ?_, fun i hi hw => ?_, fun i hi hleave => ?_,
    fun i hi => ?_, fun i hi v hv => ?_, fun k hk => ?_⟩
  · have hne : i ≠ child := by
      rintro rfl
      exact hi hchild
    rw [howed] at hoi
    simp only [NoWindows, NoFiles, hdesktop, hfiles i hne]
    exact h.fresh i ((not_congr (halive i hne)).1 hi) hoi
  · rw [howed] at hi
    have hne : i ≠ child := by
      rintro rfl
      cases ho.symm.trans hi
    exact ⟨fun ha => (h.owed i hi).1 ((halive i hne).1 ha), (h.owed i hi).2⟩
  · simp only [NoWindows, hdesktop]
    by_cases hne : i = child
    · subst hne
      exact (h.fresh i hdead ho).1
    · rw [hstage i hne] at hw
      exact h.windows i ((halive i hne).1 hi) hw
  · have hne : i ≠ child := by
      rintro rfl
      cases hnew.symm.trans hleave
    rw [hduty i hne] at hleave
    simp only [NoFiles, hfiles i hne]
    exact h.files i ((halive i hne).1 hi) hleave
  · by_cases hne : i = child
    · subst hne
      rw [hnew]
      trivial
    · have hold := (halive i hne).1 hi
      rw [hcall, hduty i hne]
      refine (h.due i hold).congr fun v hv => ?_
      have hv : v ≠ child := by
        rintro rfl
        cases ho.symm.trans (h.victim i hold v hv).1
      exact ⟨by rw [hdesktop], hfiles v hv⟩
  · have hne : i ≠ child := by
      rintro rfl
      rw [hnew] at hv
      cases hv
    rw [hduty i hne] at hv
    obtain ⟨hov, hunique⟩ := h.victim i ((halive i hne).1 hi) v hv
    rw [howed]
    refine ⟨hov, fun j hj hjv => ?_⟩
    have hnej : j ≠ child := by
      rintro rfl
      rw [hnew] at hjv
      cases hjv
    rw [hduty j hnej] at hjv
    exact hunique j ((halive j hnej).1 hj) hjv
  · rw [hlog] at hk
    exact h.log k hk

/-- The current task is alive and no victim of an unfinished kill. -/
theorem current (h : s.Tended) (hfree : s.process.kernel.point s.current = .free) :
    s.Alive s.current ∧ s.owed s.current = false := by
  have halive := Process.idle_alive h.accounted.sound hfree
  refine ⟨halive, ?_⟩
  by_contra howed
  exact (h.owed s.current (Bool.of_not_eq_false howed)).1 halive

/-- A kernel step that neither begins nor ends a task. -/
theorem kernel (h : s.Tended) {e : KernelEvent}
    (haccounted : (s.process.withKernel (s.process.kernel.after e)).Accounted)
    (henabled : s.process.kernel.Enabled e) (hends : ∀ i, ¬ s.process.kernel.Ends e i)
    (hspawn : ∀ waitable, e ≠ .call (.spawn waitable)) :
    (s.withProcess (s.process.withKernel (s.process.kernel.after e))).Tended := by
  have hchange := Kernel.change h.accounted.sound (e := e) ⟨henabled, rfl⟩
  exact h.of_same haccounted (fun i => (hchange i).alive_iff (hends i) hspawn) rfl rfl rfl rfl rfl
    rfl fun _ _ hw => hw

/-- A new task that has no descriptors of its own yet. -/
theorem spawn (h : s.Tended)
    (hcareful : s.Careful (.process (.kernel (.call (.spawn false)))))
    (haccounted : (s.process.after (.kernel (.call (.spawn false)))).Accounted) :
    (s.withProcess (s.process.after (.kernel (.call (.spawn false))))).Tended := by
  cases hindex : (s.process.kernel.sched.spawnInner false).1 with
  | none =>
    have hafter : s.process.after (.kernel (.call (.spawn false))) =
        s.process.withKernel (s.process.kernel.after (.call (.spawn false))) := by
      simp only [Process.after, Process.spawned, hindex]
    have hsame := Kernel.tasks_spawn_none h.accounted.sound hindex
    rw [hafter] at haccounted ⊢
    refine h.of_same haccounted (fun i => ?_) rfl rfl rfl rfl rfl rfl fun _ _ hw => hw
    simp only [Alive, withProcess, Process.withKernel, hsame]
  | some child =>
    have hafter : s.process.after (.kernel (.call (.spawn false))) =
        (s.process.withKernel (s.process.kernel.after (.call (.spawn false)))).arrive child
          .outside := by
      simp only [Process.after, Process.spawned, hindex]
    obtain ⟨hdead, hchild, hothers⟩ := Kernel.tasks_spawn h.accounted.sound hindex
    rw [hafter] at haccounted ⊢
    refine @arrive _ _ h child haccounted hdead (hcareful child hindex) hchild (fun i hi => ?_)
      rfl rfl rfl rfl (fun _ _ => rfl) (fun i hi => Function.update_of_ne hi _ _)
      (fun i hi => Function.update_of_ne hi _ _) (Function.update_self ..)
    simp only [Alive, withProcess, Process.arrive, Process.withKernel, hothers i hi]

/-- The child of a fork has the descriptors of its parent. -/
theorem fork (h : s.Tended) {space : Option ℕ} (hcareful : s.Careful (.process (.fork space)))
    (haccounted : (s.process.fork space).Accounted) :
    (s.after wordBits (.process (.fork space))).Tended := by
  have hcurrent : s.current = s.process.current := rfl
  simp only [after, tends, Process.after]
  by_cases hzero : s.process.space s.process.current = 0
  · have hfork : s.process.fork space = s.process := by
      unfold Process.fork
      rw [if_pos hzero]
    have hspawned : s.process.spawned (.fork space) = none := by
      cases space with
      | none => rfl
      | some space => exact if_pos hzero
    rw [hspawned, hfork]
    exact h
  · cases space with
    | none =>
      have hfork : s.process.fork none = s.process := by
        unfold Process.fork
        rw [if_neg hzero]
      rw [hfork]
      exact h
    | some space =>
      have hspawned : s.process.spawned (.fork (some space)) =
          (s.process.kernel.sched.spawnInner true).1 := if_neg hzero
      cases hindex : (s.process.kernel.sched.spawnInner true).1 with
      | none =>
        have hfork : s.process.fork (some space) = ((s.process.create space).withKernel
            (s.process.kernel.after (.call (.spawn true)))).destroy space := by
          simp only [Process.fork, if_neg hzero, hindex]
        have hsame := Kernel.tasks_spawn_none h.accounted.sound hindex
        have hdestroy : ∀ p : Process, (p.destroy space).stage = p.stage ∧
            (p.destroy space).duty = p.duty ∧ (p.destroy space).kernel = p.kernel := fun p => by
          unfold Process.destroy
          split_ifs <;> exact ⟨rfl, rfl, rfl⟩
        obtain ⟨hs, hd, hk⟩ := hdestroy ((s.process.create space).withKernel
            (s.process.kernel.after (.call (.spawn true))))
        rw [hspawned, hindex]
        rw [hfork] at haccounted ⊢
        refine h.of_same haccounted (fun i => ?_) rfl rfl rfl rfl rfl hd fun i _ hw => ?_
        · unfold Alive
          rw [withProcess_process, hk]
          simp only [Process.withKernel, hsame]
        · rwa [withProcess_process, hs] at hw
      | some child =>
        have hfork : s.process.fork (some space) = (((s.process.create space).withKernel
            (s.process.kernel.after (.call (.spawn true)))).arrive child .forked).setSpace child
              space := by
          simp only [Process.fork, if_neg hzero, hindex]
        obtain ⟨hdead, hchild, hothers⟩ := Kernel.tasks_spawn h.accounted.sound hindex
        have howed : s.owed child = false := hcareful child (hspawned.trans hindex)
        rw [hspawned, hindex]
        rw [hfork] at haccounted ⊢
        refine @arrive _ _ h child haccounted hdead howed ?_ (fun i hi => ?_) rfl rfl rfl rfl
          (fun i hi => ?_) (fun i hi => Function.update_of_ne hi _ _)
          (fun i hi => Function.update_of_ne hi _ _) (Function.update_self ..)
        · exact (Process.setSpace_alive ..).2 hchild
        · refine (Process.setSpace_alive ..).trans ?_
          simp only [Process.arrive, Process.withKernel, hothers i hi]
          exact Iff.rfl
        · funext fd
          exact FdState.get_of_tables (s.files.cloneInto_tables s.current hi)

/-- The victim of a call of `terminate` is not alive from then on, and its slot is owed. -/
theorem ends (h : s.Tended) {victim space : ℕ} (haccounted : s'.process.Accounted)
    (hold : s.Alive victim) (hlt : victim < maxTasks) (ho : s.owed victim = false)
    (halives : ∀ i, s'.Alive i ↔ i ≠ victim ∧ s.Alive i)
    (hduties : ∀ i, s'.process.duty i =
      if i = s.current then .windows victim space else s.process.duty i)
    (hstages : s'.process.stage = s.process.stage) (hspace : space = s.process.space victim)
    (howed : ∀ i, s'.owed i = if i = victim then true else s.owed i)
    (hcall : ∀ i, s'.call i =
      if i = s.current then ⟨victim, s.holdings victim, Holdings.nothing⟩ else s.call i)
    (hlog : s'.log = s.log) (hdesktop : s'.desktop = s.desktop) (hfiles : s'.files = s.files) :
    s'.Tended := by
  have hvictims : ∀ i, s.Alive i → ∀ v, (s'.process.duty i).victim = some v →
      i = s.current ∧ v = victim ∨ i ≠ s.current ∧ (s.process.duty i).victim = some v ∧
      v ≠ victim :=
    fun i hi v hv => by
      rw [hduties] at hv
      split_ifs at hv with hic
      · exact .inl ⟨hic, (Option.some.inj hv).symm⟩
      · refine .inr ⟨hic, hv, ?_⟩
        rintro rfl
        cases ho.symm.trans (h.victim i hi v hv).1
  have hsame : ∀ i, s'.desktop.ownedBy i = s.desktop.ownedBy i ∧ s'.files.get i = s.files.get i :=
    fun i => by rw [hdesktop, hfiles]; exact ⟨rfl, rfl⟩
  refine ⟨haccounted, fun i hi hoi => ?_, fun i hi => ?_, fun i hi hw => ?_, fun i hi hl => ?_,
    fun i hi => ?_, fun i hi v hv => ?_, fun k hk => ?_⟩
  · rw [howed] at hoi
    split_ifs at hoi with hiv
    simp only [NoWindows, NoFiles, (hsame i).1, (hsame i).2]
    exact h.fresh i (fun ha => hi ((halives i).2 ⟨hiv, ha⟩)) hoi
  · rw [howed] at hi
    split_ifs at hi with hiv
    · rw [hiv]
      exact ⟨fun ha => ((halives victim).1 ha).1 rfl, hlt⟩
    · exact ⟨fun ha => (h.owed i hi).1 ((halives i).1 ha).2, (h.owed i hi).2⟩
  · rw [hstages] at hw
    simp only [NoWindows, (hsame i).1]
    exact h.windows i ((halives i).1 hi).2 hw
  · rw [hduties] at hl
    split_ifs at hl
    simp only [NoFiles, (hsame i).2]
    exact h.files i ((halives i).1 hi).2 hl
  · rw [hduties, hcall]
    by_cases hic : i = s.current
    · simp only [if_pos hic, Due, (hsame victim).1, (hsame victim).2, hspace, holdings]
    · rw [if_neg hic, if_neg hic]
      exact (h.due i ((halives i).1 hi).2).congr fun v _ => hsame v
  · have hi := ((halives i).1 hi).2
    rw [howed]
    rcases hvictims i hi v hv with ⟨hic, hvv⟩ | ⟨-, hvo, hvv⟩
    · refine ⟨if_pos hvv, fun j hj hjv => ?_⟩
      rcases hvictims j ((halives j).1 hj).2 v hjv with ⟨hjc, -⟩ | ⟨-, -, hjv⟩
      · rw [hic, hjc]
      · exact absurd hvv hjv
    · obtain ⟨hov, hunique⟩ := h.victim i hi v hvo
      refine ⟨(if_neg hvv).trans hov, fun j hj hjv => ?_⟩
      rcases hvictims j ((halives j).1 hj).2 v hjv with ⟨-, hjv⟩ | ⟨-, hjv, -⟩
      · exact absurd hjv hvv
      · exact hunique j ((halives j).1 hj).2 hjv
  · rw [hlog] at hk
    exact h.log k hk

/-- A call of `terminate` begins. -/
theorem kill (h : s.Tended) (hidle : s.process.Idle) (victim : ℕ) :
    (s.after wordBits (.process (.kill victim))).Tended := by
  have haccounted := h.accounted.kill hidle victim
  obtain ⟨hc, hco⟩ := h.current hidle.1
  have hcurrent : s.current = s.process.current := rfl
  simp only [after, tends, Process.after]
  cases hkill : s.process.kernel.sched.terminate victim with
  | none =>
    have hsame : s.process.kill victim = s.process := by
      unfold Process.kill
      rw [hkill]
    rw [hsame]
    exact h
  | some result =>
    obtain ⟨space, t⟩ := result
    obtain ⟨-, hne, hold, hspace, hsame, -, hothers, hdead⟩ := Sched.terminate_some hkill
    have hkernel : s.process.kernel.after (.call (.terminate victim)) =
        s.process.kernel.withSched t := by
      simp only [Kernel.after, Kernel.afterCall, hkill]
    have hafter : s.process.kill victim =
        (s.process.withKernel (s.process.kernel.withSched t)).setDuty (.windows victim space) := by
      simp only [Process.kill, hkill, hkernel]
    have hduties : ∀ i, (s.process.kill victim).duty i =
        if i = s.current then .windows victim space else s.process.duty i := fun i => by
      rw [hafter, Process.setDuty_duty]
      have hnow : (s.process.withKernel (s.process.kernel.withSched t)).current = s.current := hsame
      rw [hnow]
      rfl
    have halives : ∀ i, ((s.process.kill victim).kernel.sched.tasks i).Alive ↔
        i ≠ victim ∧ s.Alive i := fun i => by
      have htasks : (s.process.kill victim).kernel.sched.tasks i = t.tasks i := by
        rw [hafter]
        rfl
      rw [htasks]
      by_cases hi : i = victim
      · subst hi
        exact iff_of_false hdead fun hboth => hboth.1 rfl
      · rw [hothers i hi]
        exact (and_iff_right hi).symm
    have hstages : (s.process.kill victim).stage = s.process.stage := by
      rw [hafter]
      rfl
    have hlt : victim < maxTasks :=
      Nat.lt_of_lt_of_le (h.accounted.sound.sched.lt_of_used hold.1)
        h.accounted.sound.sched.count_le
    have howed : s.owed victim = false := by
      by_contra howed
      exact (h.owed victim (Bool.of_not_eq_false howed)).1 hold
    exact h.ends haccounted hold hlt howed halives hduties hstages hspace
      (fun i => Function.update_apply ..) (fun i => Function.update_apply ..) rfl rfl rfl

/-- A call of `terminate` comes further, and closes something of its victim. -/
theorem progress (h : s.Tended) {c v : ℕ} (hc : s.Alive c)
    (hv : (s.process.duty c).victim = some v) (haccounted : s'.process.Accounted)
    (halive : ∀ i, s'.Alive i ↔ s.Alive i) (hcall : ∀ i ≠ c, s'.call i = s.call i)
    (howed : s'.owed = s.owed) (hlog : s'.log = s.log)
    (hothers : ∀ i ≠ v, s'.desktop.ownedBy i = s.desktop.ownedBy i ∧
      s'.files.get i = s.files.get i)
    (hduty : ∀ i ≠ c, s'.process.duty i = s.process.duty i)
    (hv' : (s'.process.duty c).victim = some v) (hstage : s'.process.stage = s.process.stage)
    (hdue : s'.Due (s'.call c) (s'.process.duty c)) : s'.Tended := by
  obtain ⟨hov, hunique⟩ := h.victim c hc v hv
  have hne : ∀ i, s.Alive i → i ≠ v := fun i hi heq => (h.owed v hov).1 (heq ▸ hi)
  have hleave : s'.process.duty c ≠ .leaving := fun heq => by
    rw [heq] at hv'
    cases hv'
  refine ⟨haccounted, fun i hi ho => ?_, fun i hi => ?_, fun i hi hw => ?_, fun i hi hl => ?_,
    fun i hi => ?_, fun i hi w hw => ?_, fun k hk => ?_⟩
  · rw [howed] at ho
    have hiv : i ≠ v := by
      rintro rfl
      cases ho.symm.trans hov
    simp only [NoWindows, NoFiles, (hothers i hiv).1, (hothers i hiv).2]
    exact h.fresh i ((not_congr (halive i)).1 hi) ho
  · rw [howed] at hi
    exact ⟨fun ha => (h.owed i hi).1 ((halive i).1 ha), (h.owed i hi).2⟩
  · have hi := (halive i).1 hi
    rw [hstage] at hw
    simp only [NoWindows, (hothers i (hne i hi)).1]
    exact h.windows i hi hw
  · have hi := (halive i).1 hi
    have hic : i ≠ c := by
      rintro rfl
      exact hleave hl
    rw [hduty i hic] at hl
    simp only [NoFiles, (hothers i (hne i hi)).2]
    exact h.files i hi hl
  · have hi := (halive i).1 hi
    by_cases hic : i = c
    · subst hic
      exact hdue
    · rw [hcall i hic, hduty i hic]
      refine (h.due i hi).congr fun w hw => hothers w ?_
      rintro rfl
      exact hic (hunique i hi hw)
  · have hold : ∀ j, s'.Alive j → ∀ w, (s'.process.duty j).victim = some w →
        s.Alive j ∧ (s.process.duty j).victim = some w := fun j hj w hw => by
      refine ⟨(halive j).1 hj, ?_⟩
      by_cases hjc : j = c
      · subst hjc
        rw [hv, ← hv', hw]
      · rwa [hduty j hjc] at hw
    obtain ⟨hi, hw⟩ := hold i hi w hw
    obtain ⟨how, hone⟩ := h.victim i hi w hw
    rw [howed]
    refine ⟨how, fun j hj hjw => ?_⟩
    obtain ⟨hj, hjw⟩ := hold j hj w hjw
    exact hone j hj hjw
  · rw [hlog] at hk
    exact h.log k hk

/-- A call of `terminate` has closed the last descriptor of its victim. -/
theorem closed (h : s.Tended) {c v : ℕ} (hc : s.Alive c)
    (hv : (s.process.duty c).victim = some v) (haccounted : s'.process.Accounted)
    (halive : ∀ i, s'.Alive i ↔ s.Alive i) (hcall : ∀ i ≠ c, s'.call i = s.call i)
    (howed : ∀ i, s'.owed i = if i = v then false else s.owed i) (hlog : s'.log = s.log)
    (hdesktop : s'.desktop = s.desktop) (hothers : ∀ i ≠ v, s'.files.get i = s.files.get i)
    (hduty : ∀ i ≠ c, s'.process.duty i = s.process.duty i)
    (hv' : (s'.process.duty c).victim = none) (hleave : s'.process.duty c ≠ .leaving)
    (hstage : s'.process.stage = s.process.stage) (hdue : s'.Due (s'.call c) (s'.process.duty c))
    (hwindows : s.NoWindows v) (hfiles : s'.NoFiles v) : s'.Tended := by
  obtain ⟨hov, hunique⟩ := h.victim c hc v hv
  have hne : ∀ i, s.Alive i → i ≠ v := fun i hi heq => (h.owed v hov).1 (heq ▸ hi)
  refine ⟨haccounted, fun i hi ho => ?_, fun i hi => ?_, fun i hi hw => ?_, fun i hi hl => ?_,
    fun i hi => ?_, fun i hi w hw => ?_, fun k hk => ?_⟩
  · rw [howed] at ho
    by_cases hiv : i = v
    · subst hiv
      simp only [NoWindows, hdesktop]
      exact ⟨hwindows, hfiles⟩
    · rw [if_neg hiv] at ho
      simp only [NoWindows, NoFiles, hdesktop, hothers i hiv]
      exact h.fresh i ((not_congr (halive i)).1 hi) ho
  · rw [howed] at hi
    split_ifs at hi
    exact ⟨fun ha => (h.owed i hi).1 ((halive i).1 ha), (h.owed i hi).2⟩
  · rw [hstage] at hw
    simp only [NoWindows, hdesktop]
    exact h.windows i ((halive i).1 hi) hw
  · have hi := (halive i).1 hi
    have hic : i ≠ c := by
      rintro rfl
      exact hleave hl
    rw [hduty i hic] at hl
    simp only [NoFiles, hothers i (hne i hi)]
    exact h.files i hi hl
  · have hi := (halive i).1 hi
    by_cases hic : i = c
    · subst hic
      exact hdue
    · rw [hcall i hic, hduty i hic]
      refine (h.due i hi).congr fun w hw => ⟨by rw [hdesktop], hothers w ?_⟩
      rintro rfl
      exact hic (hunique i hi hw)
  · have hold : ∀ j, s'.Alive j → ∀ w, (s'.process.duty j).victim = some w →
        s.Alive j ∧ (s.process.duty j).victim = some w ∧ j ≠ c := fun j hj w hw => by
      have hjc : j ≠ c := by
        rintro rfl
        cases hv'.symm.trans hw
      rw [hduty j hjc] at hw
      exact ⟨(halive j).1 hj, hw, hjc⟩
    obtain ⟨hi, hw, hic⟩ := hold i hi w hw
    obtain ⟨how, hone⟩ := h.victim i hi w hw
    have hwv : w ≠ v := by
      rintro rfl
      exact hic (hunique i hi hw)
    rw [howed, if_neg hwv]
    refine ⟨how, fun j hj hjw => ?_⟩
    obtain ⟨hj, hjw, -⟩ := hold j hj w hjw
    exact hone j hj hjw
  · rw [hlog] at hk
    exact h.log k hk

/-- A call of `terminate` returns. -/
theorem returns (h : s.Tended) (hfree : s.process.kernel.point s.current = .free) {v space : ℕ}
    (hduty : s.process.duty s.current = .memory v space) (haccounted : s.process.go.Accounted) :
    (s.after wordBits (.process .go)).Tended := by
  obtain ⟨hc, hco⟩ := h.current hfree
  have hdue := h.due s.current hc
  rw [hduty] at hdue
  obtain ⟨hwindows, hfiles, hspace⟩ := hdue
  have hgo : s.process.go = (if space = 0 then s.process.setDuty .none
      else (s.process.setDuty .none).destroy space) := by
    simp only [Process.go, show s.process.duty s.process.current = .memory v space from hduty]
  have hkernel : s.process.go.kernel = s.process.kernel ∧ s.process.go.stage = s.process.stage ∧
      s.process.go.duty = (s.process.setDuty .none).duty := by
    rw [hgo]
    unfold Process.destroy
    split_ifs <;> exact ⟨rfl, rfl, rfl⟩
  have hduties : ∀ i, s.process.go.duty i = if i = s.current then .none else s.process.duty i :=
    fun i => by
      rw [hkernel.2.2]
      exact Process.setDuty_duty ..
  simp only [after, tends, goes, hduty, Process.after]
  refine h.of_own (c := s.current) hco haccounted (fun i => ?_) rfl rfl (fun k hk => ?_)
    (fun i hi => ⟨rfl, rfl, (hduties i).trans (if_neg hi), fun hw => ?_⟩)
    (.inr (.inr ((hduties _).trans (if_pos rfl)))) (fun hdead => absurd hc hdead) (fun hw => ?_)
    fun hl => ?_
  · unfold Alive
    rw [withProcess_process, hkernel.1]
  · rcases List.mem_cons.1 hk with rfl | hk
    · simp only [hwindows, hfiles, hspace]
    · exact h.log k hk
  · rwa [withProcess_process, hkernel.2.1] at hw
  · rw [withProcess_process, hkernel.2.1] at hw
    exact h.windows _ hc hw
  · cases ((hduties s.current).trans (if_pos rfl)).symm.trans hl

/-- A task that has closed everything ends itself. -/
theorem exit (h : s.Tended) (hfree : s.process.kernel.point s.current = .free)
    (hidle : s.current ≠ idleTask) (hduty : s.process.duty s.current = .leaving)
    (haccounted : (s.process.withKernel (s.process.kernel.after (.call .exit))).Accounted) :
    (s.withProcess (s.process.withKernel (s.process.kernel.after (.call .exit)))).Tended := by
  obtain ⟨hc, hco⟩ := h.current hfree
  have hs := h.accounted.sound.sched
  have hstep : KernelStep s.process.kernel (.call .exit) (s.process.kernel.after (.call .exit)) :=
    ⟨⟨hfree, fun _ => hidle⟩, rfl⟩
  have hchange := Kernel.change h.accounted.sound hstep
  have hothers : ∀ i ≠ s.current,
      (((s.process.kernel.after (.call .exit)).sched.tasks i).Alive ↔ s.Alive i) := fun i hi => by
    refine (hchange i).alive_iff ?_ (by rintro _ ⟨⟩)
    rintro (he | ⟨-, he⟩)
    · cases he
    · exact hi he
  have hself : ¬ ((s.process.kernel.after (.call .exit)).sched.tasks s.current).Alive :=
    fun ha => by
    rcases Sched.terminateCurrent_self hs.beyond hs.current_lt with ⟨-, hended, -⟩ | ⟨hunused, -⟩
    · exact ha.2 hended
    · exact ha.1 hunused
  have hback : ∀ i, ((s.process.kernel.after (.call .exit)).sched.tasks i).Alive → s.Alive i :=
    fun i hi => by
      by_cases hic : i = s.current
      · exact absurd (hic ▸ hi) hself
      · exact (hothers i hic).1 hi
  refine ⟨haccounted, fun i hi ho => ?_, fun i hi =>
    ⟨fun ha => (h.owed i hi).1 (hback i ha), (h.owed i hi).2⟩,
    fun i hi => h.windows i (hback i hi), fun i hi => h.files i (hback i hi),
    fun i hi => h.due i (hback i hi), fun i hi v hv => ?_, h.log⟩
  · by_cases hic : i = s.current
    · subst hic
      have hstage : s.process.stage s.current = .outside := h.accounted.leaving _ hduty
      refine ⟨h.windows _ hc ?_, h.files _ hc hduty⟩
      rw [hstage]
      trivial
    · exact h.fresh i ((not_congr (hothers i hic)).1 hi) ho
  · obtain ⟨hov, hunique⟩ := h.victim i (hback i hi) v hv
    exact ⟨hov, fun j hj => hunique j (hback j hj)⟩

/-- `wm::close_owned_by` of the current task, as it gets to another stage. -/
theorem closeWindows (h : s.Tended) (hfree : s.process.kernel.point s.current = .free) {p : Process}
    (haccounted : p.Accounted) (hkernel : p.kernel = s.process.kernel)
    (hduty : p.duty = s.process.duty) (hstage : ∀ i ≠ s.current, p.stage i = s.process.stage i) :
    ((s.closeWindows s.current).withProcess p).Tended := by
  obtain ⟨hc, hco⟩ := h.current hfree
  have hwindows : ∀ i w, (s.desktop.closeOwnedBy s.current).ownedBy i w =
      if i = s.current then false else s.desktop.ownedBy i w := fun i w =>
    s.desktop.ownedBy_closeOwnedBy s.current i w
  have hnone : ∀ w, (s.desktop.closeOwnedBy s.current).ownedBy s.current w = false := fun w => by
    rw [hwindows, if_pos rfl]
  refine h.of_own hco haccounted (fun i => ?_) rfl rfl h.log (fun i hi => ⟨?_, rfl, ?_, ?_⟩)
    (.inl ?_) (fun hdead => absurd hc hdead) (fun _ => hnone) fun hl => ?_
  · unfold Alive
    rw [withProcess_process, hkernel]
  · funext w
    exact (hwindows i w).trans (if_neg hi)
  · exact congrFun hduty i
  · intro hw
    rwa [withProcess_process, hstage i hi] at hw
  · exact congrFun hduty s.current
  · have hl : p.duty s.current = .leaving := hl
    rw [hduty] at hl
    exact h.files s.current hc hl

theorem stop (h : s.Tended) (hidle : s.process.Idle) (haccounted : s.process.stop.Accounted) :
    (s.after wordBits (.process .stop)).Tended := by
  have hkernel : s.process.stop.kernel = s.process.kernel ∧
      s.process.stop.duty = s.process.duty ∧
      ∀ i ≠ s.current, s.process.stop.stage i = s.process.stage i := by
    have hset : ∀ stage, (s.process.setStage stage).kernel = s.process.kernel ∧
        (s.process.setStage stage).duty = s.process.duty ∧
        ∀ i ≠ s.current, (s.process.setStage stage).stage i = s.process.stage i := fun stage =>
      ⟨rfl, rfl, fun i hi => Function.update_of_ne hi _ _⟩
    unfold Process.stop
    split
    · exact hset _
    · exact hset _
    · split_ifs <;> exact hset _
    · exact ⟨rfl, rfl, fun _ _ => rfl⟩
  obtain ⟨hk, hd, hs⟩ := hkernel
  simp only [after, tends, Process.after]
  split_ifs with hstage
  · exact h.closeWindows hidle.1 haccounted hk hd hs
  · refine h.of_same haccounted (fun i => ?_) rfl rfl rfl rfl rfl hd fun i _ hw => ?_
    · unfold Alive
      rw [withProcess_process, hk]
    · have hw : (s.process.stop.stage i).Windowless := hw
      by_cases hi : i = s.current
      · subst hi
        have hcurrent : s.current = s.process.current := rfl
        have hsame : ∀ stage, (s.process.setStage stage).stage s.current = stage := fun stage =>
          Function.update_self ..
        unfold Process.stop at hw
        rw [← hcurrent] at hw
        split at hw
        · rw [hsame] at hw
          cases hw
        · rw [hsame] at hw
          cases hw
        · rename_i heq
          exact absurd heq hstage
        · exact hw
      · rwa [hs i hi] at hw

/-- Apart from `app_task`'s, no statement closes windows. -/
theorem goOn (h : s.Tended) (haccounted : s.process.goOn.Accounted)
    (hreturned : s.process.stage s.current ≠ .returned) :
    (s.withProcess s.process.goOn).Tended := by
  have hcurrent : s.current = s.process.current := rfl
  have hset : ∀ stage i, i ≠ s.current → (s.process.setStage stage).stage i = s.process.stage i :=
    fun stage i hi => Function.update_of_ne hi _ _
  have hself : ∀ stage, (s.process.setStage stage).stage s.current = stage := fun stage =>
    Function.update_self ..
  have hstep : ∀ (stage : ImageStage), s.process.goOn.stage = (s.process.setStage stage).stage →
      s.process.goOn.duty = s.process.duty →
      (∀ i, (s.process.goOn.kernel.sched.tasks i).Alive ↔ s.Alive i) →
      (stage.Windowless → (s.process.stage s.current).Windowless) →
      (s.withProcess s.process.goOn).Tended := by
    intro stage hstage hduty halive hkeep
    refine h.of_same haccounted halive rfl rfl rfl rfl rfl hduty fun i _ hw => ?_
    have hw : (s.process.goOn.stage i).Windowless := hw
    rw [hstage] at hw
    by_cases hi : i = s.current
    · rw [hi, hself] at hw
      rw [hi]
      exact hkeep hw
    · rwa [hset _ i hi] at hw
  cases hstage : s.process.stage s.current with
  | created space =>
    have hgoOn : s.process.goOn = (s.process.setStage (.loaded space)).switchTo space := by
      simp only [Process.goOn, ← hcurrent, hstage]
    rw [hstage] at hstep
    exact hstep (.loaded space) (by rw [hgoOn]; rfl) (by rw [hgoOn]; rfl)
      (fun _ => by rw [hgoOn]; exact Iff.rfl) fun _ => trivial
  | loaded space =>
    have hgoOn : s.process.goOn = (s.process.setStage (.running (some space))).setSpace
        s.process.current space := by
      simp only [Process.goOn, ← hcurrent, hstage]
    rw [hstage] at hstep
    exact hstep (.running (some space)) (by rw [hgoOn]; rfl) (by rw [hgoOn]; rfl)
      (fun i => by rw [hgoOn]; exact Process.setSpace_alive ..) fun hw => hw.elim
  | ended space child =>
    have hgoOn : s.process.goOn = (s.process.setStage (.cleared space child)).setSpace
        s.process.current 0 := by
      simp only [Process.goOn, ← hcurrent, hstage]
    rw [hstage] at hstep
    exact hstep (.cleared space child) (by rw [hgoOn]; rfl) (by rw [hgoOn]; rfl)
      (fun i => by rw [hgoOn]; exact Process.setSpace_alive ..) id
  | cleared space child =>
    have hgoOn : s.process.goOn = (s.process.setStage (.unloaded space child)).switchTo 0 := by
      simp only [Process.goOn, ← hcurrent, hstage]
    rw [hstage] at hstep
    exact hstep (.unloaded space child) (by rw [hgoOn]; rfl) (by rw [hgoOn]; rfl)
      (fun _ => by rw [hgoOn]; exact Iff.rfl) id
  | unloaded space child =>
    have hgoOn : s.process.goOn = (s.process.setStage
        (if child then .outside else .returned)).destroy space := by
      simp only [Process.goOn, ← hcurrent, hstage]
    have hdestroy : ∀ p : Process, (p.destroy space).stage = p.stage ∧
        (p.destroy space).duty = p.duty ∧ (p.destroy space).kernel = p.kernel := fun p => by
      unfold Process.destroy
      split_ifs <;> exact ⟨rfl, rfl, rfl⟩
    rw [hstage] at hstep
    obtain ⟨hs, hd, hk⟩ := hdestroy (s.process.setStage (if child then .outside else .returned))
    refine hstep (if child then .outside else .returned) (by rw [hgoOn, hs])
      (by rw [hgoOn, hd]; rfl) (fun i => ?_) fun hw => ?_
    · rw [hgoOn, hk]
      exact Iff.rfl
    · cases child with
      | true => rfl
      | false => exact hw.elim
  | returned => exact absurd hstage hreturned
  | _ =>
    have hgoOn : s.process.goOn = s.process := by
      simp only [Process.goOn, ← hcurrent, hstage]
    rw [hgoOn]
    exact h

theorem go (h : s.Tended) (hfree : s.process.kernel.point s.current = .free)
    (hidle : s.process.duty s.current = .leaving → s.current ≠ idleTask)
    (haccounted : s.process.go.Accounted) : (s.after wordBits (.process .go)).Tended := by
  obtain ⟨hc, hco⟩ := h.current hfree
  have hcurrent : s.current = s.process.current := rfl
  have hdue := h.due s.current hc
  have hset : ∀ duty i, (s.process.setDuty duty).duty i =
      if i = s.current then duty else s.process.duty i := fun duty i => Process.setDuty_duty ..
  have hother : ∀ (t : Estate) (k : Kill), t.current = s.current → t.call = s.call →
      ∀ i ≠ s.current, (t.setCall k).call i = s.call i := fun t k ht hcall i hi => by
    rw [← hcall]
    exact Function.update_of_ne (ht ▸ hi) _ _
  have hself : ∀ (t : Estate) (k : Kill), t.current = s.current →
      (t.setCall k).call s.current = k := fun t k ht => by
    rw [← ht]
    exact Function.update_self ..
  cases hduty : s.process.duty s.current with
  | windows v space =>
    rw [hduty] at hdue
    have hgo : s.process.go = s.process.setDuty (.files v space) := by
      simp only [Process.go, ← hcurrent, hduty]
    have hwindows : ∀ i w, (s.desktop.closeOwnedBy v).ownedBy i w =
        if i = v then false else s.desktop.ownedBy i w := fun i w =>
      s.desktop.ownedBy_closeOwnedBy v i w
    have hhad : (s.call s.current).had = ⟨s.desktop.ownedBy v, s.files.get v, space⟩ := hdue
    rw [hgo] at haccounted
    simp only [after, tends, goes, hduty, Process.after, hgo]
    refine h.progress hc (v := v) (by rw [hduty]; rfl) haccounted (fun _ => Iff.rfl)
      (hother _ _ rfl rfl) rfl rfl (fun i hi => ⟨?_, rfl⟩)
      (fun i hi => (hset _ i).trans (if_neg hi)) ?_ rfl ?_
    · funext w
      exact (hwindows i w).trans (if_neg hi)
    · rw [withProcess_process, hset, if_pos rfl]
      rfl
    · rw [withProcess_call, withProcess_process, hset, if_pos rfl, hself (s.closeWindows v) _ rfl]
      simp only [Due, hhad]
      exact ⟨trivial, fun w => (hwindows v w).trans (if_pos rfl), rfl, trivial⟩
  | files v space =>
    rw [hduty] at hdue
    obtain ⟨hclosed, hnone, hhad, hspace⟩ := hdue
    have hgo : s.process.go = s.process.setDuty (.memory v space) := by
      simp only [Process.go, ← hcurrent, hduty]
    have hv : v < maxTasks := (h.owed v (h.victim _ hc v (by rw [hduty]; rfl)).1).2
    rw [hgo] at haccounted
    simp only [after, tends, goes, hduty, Process.after, hgo]
    refine h.closed hc (v := v) (by rw [hduty]; rfl) haccounted (fun _ => Iff.rfl)
      (hother _ _ rfl rfl) (fun i => Function.update_apply ..) rfl rfl (fun i hi => ?_)
      (fun i hi => (hset _ i).trans (if_neg hi)) ?_ ?_ rfl ?_ hnone fun fd => ?_
    · funext fd
      exact FdState.get_of_tables (s.files.closeAll_tables hi)
    · rw [withProcess_process, hset, if_pos rfl]
      rfl
    · rw [withProcess_process, hset, if_pos rfl]
      rintro ⟨⟩
    · have hcall := hself (s.closeFiles v) { s.call s.current with
        released := { (s.call s.current).released with files := s.files.get v } } rfl
      rw [withProcess_call, withProcess_process, hset, if_pos rfl]
      simp only [setOwed, hcall]
      exact ⟨hclosed, hhad.symm, hspace⟩
    · exact FdState.get_of_closed (s.files.closeAll_closed hv)
  | memory v space => exact h.returns hfree hduty haccounted
  | leaving =>
    have hgo : s.process.go = s.process.withKernel (s.process.kernel.after (.call .exit)) := by
      simp only [Process.go, ← hcurrent, hduty]
    rw [hgo] at haccounted
    simp only [after, tends, goes, hduty, Process.after, hgo]
    exact h.exit hfree (hidle hduty) hduty haccounted
  | none =>
    have hgo : s.process.go = s.process.goOn := by
      simp only [Process.go, ← hcurrent, hduty]
    rw [hgo] at haccounted
    simp only [after, tends, goes, hduty, Process.after, hgo]
    split_ifs with hreturned
    · have hgoOn : s.process.goOn = s.process.setStage .outside := by
        simp only [Process.goOn, ← hcurrent, hreturned]
      rw [hgoOn] at haccounted ⊢
      exact h.closeWindows hfree haccounted rfl rfl fun i hi => Function.update_of_ne hi _ _
    · exact h.goOn haccounted hreturned

/-- `terminate_current` closes the descriptors of its task first. -/
theorem leave (h : s.Tended) (hidle : s.process.Idle)
    (haccounted : (s.process.setDuty .leaving).Accounted) :
    (s.after wordBits (.process .leave)).Tended := by
  obtain ⟨hc, hco⟩ := h.current hidle.1
  have hs := h.accounted.sound.sched
  have hlt : s.current < maxTasks := Nat.lt_of_lt_of_le hs.current_lt hs.count_le
  have hduties : ∀ i, (s.process.setDuty .leaving).duty i =
      if i = s.current then .leaving else s.process.duty i := fun i => Process.setDuty_duty ..
  refine h.of_own (c := s.current) hco haccounted (fun _ => Iff.rfl) rfl rfl h.log
    (fun i hi => ⟨rfl, ?_, (hduties i).trans (if_neg hi), id⟩)
    (.inr (.inl ((hduties _).trans (if_pos rfl))))
    (fun hdead => absurd hc hdead) (h.windows _ hc) fun _ fd => ?_
  · funext fd
    exact FdState.get_of_tables (s.files.closeAll_tables hi)
  · exact FdState.get_of_closed (s.files.closeAll_closed hlt)

theorem file (h : s.Tended) (hidle : s.process.Idle) (c : FileCall) :
    (s.after wordBits (.file c)).Tended := by
  obtain ⟨hc, hco⟩ := h.current hidle.1
  refine h.of_own (c := s.current) hco h.accounted (fun _ => Iff.rfl) rfl rfl h.log
    (fun i hi => ⟨rfl, ?_, rfl, id⟩) (.inl rfl) (fun hdead => absurd hc hdead) (h.windows _ hc)
    fun hleave => ?_
  · funext fd
    exact FdState.get_of_tables (s.files.call_tables s.current c hi)
  · cases hidle.2.symm.trans hleave

theorem window (h : s.Tended) (hidle : s.process.Idle) (width height : ℕ) {system : Bool}
    (hprogram : system = false → (s.process.stage s.current).InProgram) :
    (s.after wordBits (.window width height system)).Tended := by
  obtain ⟨hc, hco⟩ := h.current hidle.1
  refine h.of_own (c := s.current) hco h.accounted (fun _ => Iff.rfl) rfl rfl h.log
    (fun i hi => ⟨?_, rfl, rfl, id⟩) (.inl rfl) (fun hdead => absurd hc hdead) (fun hw w => ?_)
    fun hleave => ?_
  · funext w
    exact s.desktop.ownedBy_create wordBits _ _ _ _ _ (.inl hi) w
  · have hw : (s.process.stage s.current).Windowless := hw
    cases system with
    | true =>
      exact (s.desktop.ownedBy_create wordBits _ _ _ _ _ (.inr rfl) w).trans (h.windows _ hc hw w)
    | false =>
      exact absurd hw (hprogram rfl).not_windowless
  · cases hidle.2.symm.trans hleave

theorem step (h : s.Tended) (hstep : CarefulEstateStep wordBits s e s') : s'.Tended := by
  obtain ⟨⟨henabled, hcareful⟩, rfl⟩ := hstep
  cases e with
  | file c => exact h.file henabled c
  | window width height system => exact h.window henabled.1 width height henabled.2
  | process e =>
    have haccounted := h.accounted.step (e := e) ⟨henabled, rfl⟩
    cases e with
    | go => exact h.go henabled.1 henabled.2 haccounted
    | stop => exact h.stop henabled haccounted
    | fork space => exact h.fork hcareful haccounted
    | kill victim => exact h.kill henabled victim
    | leave => exact h.leave henabled.1 haccounted
    | create space =>
      obtain ⟨-, hstage, -⟩ := henabled
      have hkeep : ∀ stage i, ((s.process.setStage stage).stage i).Windowless →
          (s.process.stage i).Windowless := fun stage i hw => by
        rw [Process.setStage_stage] at hw
        split_ifs at hw with hi
        · rw [hi, hstage]
          trivial
        · exact hw
      cases space with
      | none =>
        exact h.of_same haccounted (fun _ => Iff.rfl) rfl rfl rfl rfl rfl rfl fun i _ => hkeep _ i
      | some space =>
        exact h.of_same haccounted (fun _ => Iff.rfl) rfl rfl rfl rfl rfl rfl fun i _ => hkeep _ i
    | kernel e =>
      cases e with
      | call c =>
        obtain ⟨hidle, hplain⟩ := henabled
        cases c with
        | spawn waitable =>
          cases waitable with
          | true => exact hplain.elim
          | false => exact h.spawn hcareful haccounted
        | exit => exact hplain.elim
        | terminate index => exact hplain.elim
        | _ =>
          exact h.kernel haccounted ⟨hidle.1, by rintro ⟨⟩⟩
            (fun i hends => by simp [Kernel.Ends] at hends)
            (by rintro _ ⟨⟩)
      | _ =>
        exact h.kernel haccounted henabled (fun i hends => by simp [Kernel.Ends] at hends)
          (by rintro _ ⟨⟩)

end Tended

theorem tended_boot : boot.Tended where
  accounted := Process.accounted_boot
  fresh := fun _ _ _ => ⟨fun _ => rfl, fun fd => by
    refine FdState.get_of_closed fun _ _ => rfl⟩
  owed := by rintro i ⟨⟩
  windows := fun _ _ _ _ => rfl
  files := by rintro i - ⟨⟩
  due := fun _ _ => trivial
  victim := by rintro i - v ⟨⟩
  log := fun k hk => absurd hk List.not_mem_nil

theorem tended_run (h : Run (CarefulEstateStep wordBits) boot es s) : s.Tended :=
  h.invariant (I := Tended) (fun _ _ _ h hstep => h.step hstep) tended_boot

theorem Due.matches {call : Kill} {duty : Duty} (h : s.Due call duty) : call.Matches duty := by
  cases duty with
  | files v space => exact h.1
  | memory v space => exact h
  | _ => trivial

end Estate

/-- **Exact kills.** If no new task is put in the slot of a victim before its windows and
descriptors are closed, then in every state of a run from the boot on the calls of `terminate` have
closed and destroyed what their victims had, and nothing else, and a slot that is free for a new
task has nothing open. -/
theorem kill_exact {wordBits : ℕ} {s : Estate} {es : List EstateEvent}
    (hrun : Run (CarefulEstateStep wordBits) Estate.boot es s) : s.Exact where
  returned := (Estate.tended_run hrun).log
  underway := fun i hi => ((Estate.tended_run hrun).due i hi).matches
  fresh := (Estate.tended_run hrun).fresh

/-- Task 1 kills task 2, which runs a program with a pipe, and the slot is used again. -/
theorem kill_exact_pipe :
    let s := [EstateEvent.process (.kernel (.call (.spawn false))),
      .process (.kernel (.call (.spawn false))), .process (.kernel (.call .yield)),
      .process (.kernel (.call .yield)), .process (.create none), .file .createPipe,
      .process (.kernel (.call .yield)), .process (.kill 2), .process .go, .process .go,
      .process .go, .process (.kernel (.call (.spawn false)))].foldl (Estate.after 32) Estate.boot
    s.log.map Kill.victim = [2] ∧ ∀ k ∈ s.log, k.released = k.had := by
  intro s
  have hrun : Run (CarefulEstateStep 32) Estate.boot _ s := Run.of_plays (by decide +kernel)
  exact ⟨by decide +kernel, (kill_exact hrun).returned⟩

/-- Task 1 is preempted in its call of `terminate`. The slot of task 2 is given to a new task, and
when task 1 goes on it closes the pipe of the new task. -/
theorem kill_not_exact :
    ¬ ∀ (es : List EstateEvent) (s : Estate), Run (EstateStep 32) Estate.boot es s → s.Exact := by
  intro hall
  have hexact := hall ([.process (.kernel (.call (.spawn false))),
    .process (.kernel (.call (.spawn false))), .process (.kernel (.call (.spawn false))),
    .process (.kernel (.call .yield)), .process (.kill 2), .process (.kernel .tick),
    .process (.kernel .tick), .process (.kernel .preempt),
    .process (.kernel (.call (.spawn false))),
    .process (.kernel (.call .yield)), .process (.create none), .file .createPipe,
    .process (.kernel (.call .yield)), .process (.kernel (.call .yield)),
    .process (.kernel (.call .yield)), .process (.kernel (.call .yield)), .process .go,
    .process .go, .process .go]) _ (Run.of_plays (by decide +kernel))
  have hfiles := fun k hk => congrFun (congrArg Holdings.files (hexact.returned k hk)) 3
  revert hfiles
  decide +kernel

end Tcmk
