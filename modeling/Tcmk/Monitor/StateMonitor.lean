import Tcmk.Monitor.Ipc

/-!
# The state monitor

The monitor reads the heartbeat of Level-0a and the tick counter. A heartbeat that has not changed
for `deadThresholdTicks` makes it announce that Level-0a is dead; the next change makes it announce
the recovery. Stalls are differences of the 32-bit tick counter. The counters of the monitor are `0`
at boot, so boot counts as an observation of heartbeat `0` at tick `0`.

**What the observations say** (`Stretch`). The last heartbeat seen, when it was first seen, and the
stalls measured since. It is read off the observations alone, and `Tracks` connects it with the
monitor.

**The defect.** `LAST_STALL` is cleared before its value is handed to `level0a_recovered`, so every
recovery is announced with a stall of `0` (`recovered_zero`).

Main results: `trace_truthful_iff`, `trace_not_truthful`.
-/

namespace Tcmk

open Lib

def deadThresholdTicks : UInt32 := 300

def busyThresholdTicks : UInt32 := deadThresholdTicks / 2

inductive Level0aHealth
  | healthy
  | busy
  | dead
  deriving DecidableEq, Repr

/-- What the monitor announces. -/
inductive Notification
  /-- `level0a_dead` -/
  | dead
  /-- `level0a_recovered` -/
  | recovered (stalledTicks : UInt32)
  /-- `report_health` -/
  | busy
  deriving DecidableEq, Repr

/-- The message that an announcement posts. -/
def Notification.message (tick : UInt32) : Notification → Message
  | .dead => ⟨.healthChange, 0, 2, 0, tick, "Level-0a olu -- Co-Service devraldi"⟩
  | .recovered stalledTicks =>
    ⟨.healthChange, 0, 0, stalledTicks.toNat, tick, "Level-0a toparlandi -- normal moda donuldu"⟩
  | .busy => ⟨.healthChange, 0, 1, 0, tick, "Level-0a mesgul -- nabiz gecikiyor"⟩

structure StateMonitor where
  lastHeartbeat : UInt32
  lastBeatTick : UInt32
  fallbackActive : Bool
  lastReported : UInt32
  deadEvents : UInt32
  recoveries : UInt32
  lastStall : UInt32

/-- What one turn of the idle loop reads in the shared area. -/
structure Observation where
  heartbeat : UInt32
  now : UInt32
  deriving DecidableEq, Repr

namespace StateMonitor

def initial : StateMonitor := ⟨0, 0, false, 0, 0, 0, 0⟩

def health (s : StateMonitor) : Level0aHealth :=
  if s.fallbackActive then .dead
  else if s.lastStall > busyThresholdTicks then .busy
  else .healthy

def reportHealth (s : StateMonitor) : List Notification × StateMonitor :=
  let state : UInt32 := match s.health with
    | .healthy => 0
    | .busy => 1
    | .dead => 2
  if s.lastReported = state then ([], s)
  else (if state = 1 then [.busy] else [], { s with lastReported := state })

/-- One turn but for `report_health`. -/
def observe (s : StateMonitor) (o : Observation) : List Notification × StateMonitor :=
  if o.heartbeat ≠ s.lastHeartbeat then
    let s := { s with lastHeartbeat := o.heartbeat, lastBeatTick := o.now, lastStall := 0 }
    if s.fallbackActive then
      ([.recovered s.lastStall], { s with fallbackActive := false, recoveries := s.recoveries + 1 })
    else ([], s)
  else
    let stalled := o.now - s.lastBeatTick
    let s := { s with lastStall := stalled }
    if deadThresholdTicks ≤ stalled ∧ s.fallbackActive = false then
      ([.dead], { s with fallbackActive := true, deadEvents := s.deadEvents + 1 })
    else ([], s)

/-- One turn, and the announcements that it makes. -/
def tick (s : StateMonitor) (o : Observation) : List Notification × StateMonitor :=
  ((s.observe o).1 ++ (s.observe o).2.reportHealth.1, (s.observe o).2.reportHealth.2)

end StateMonitor

/-! ## What the observations say -/

/-- The time since the heartbeat was last seen to change. -/
structure Stretch where
  /-- the heartbeat -/
  heartbeat : UInt32
  /-- the tick at which it was first seen -/
  since : UInt32
  /-- how long it had stood still at each later observation -/
  stalls : List UInt32

namespace Stretch

def boot : Stretch := ⟨0, 0, []⟩

def observe (st : Stretch) (o : Observation) : Stretch :=
  if o.heartbeat ≠ st.heartbeat then ⟨o.heartbeat, o.now, []⟩
  else { st with stalls := st.stalls ++ [o.now - st.since] }

/-- The stretch that some observations end with. -/
def after (obs : List Observation) : Stretch := obs.foldl observe boot

theorem after_concat (obs : List Observation) (o : Observation) :
    after (obs ++ [o]) = (after obs).observe o := by
  rw [after, List.foldl_concat, after]

/-- The heartbeat has been seen to stand still for the threshold. -/
def Dead (st : Stretch) : Prop := ∃ stall ∈ st.stalls, deadThresholdTicks ≤ stall

end Stretch

/-- Dead and recovered alternate; `dead` says which of the two came last. -/
def Alternates : (dead : Bool) → List Notification → Prop
  | _, [] => True
  | dead, .busy :: ns => Alternates dead ns
  | false, .dead :: ns => Alternates true ns
  | true, .recovered _ :: ns => Alternates false ns
  | _, _ :: _ => False

/-- The announcements at an observation, after the observations `pre`. -/
def noticesAt (pre : List Observation) (o : Observation) : List Notification :=
  ((runs StateMonitor.tick .initial pre).2.tick o).1

/-- What the announcements over a list of observations should be. -/
structure Truthful (obs : List Observation) : Prop where
  alternates : Alternates false (runs StateMonitor.tick .initial obs).1.flatten
  dead : ∀ pre o post, obs = pre ++ o :: post →
    (.dead ∈ noticesAt pre o ↔ o.heartbeat = (Stretch.after pre).heartbeat ∧
      deadThresholdTicks ≤ o.now - (Stretch.after pre).since ∧ ¬ (Stretch.after pre).Dead)
  recovered : ∀ pre o post, obs = pre ++ o :: post → ∀ stalledTicks,
    .recovered stalledTicks ∈ noticesAt pre o → (Stretch.after pre).stalls.getLast? =
    some stalledTicks

/-! ## One turn -/

namespace StateMonitor

variable {s : StateMonitor} {o : Observation}

theorem reportHealth_notices : ∀ n ∈ s.reportHealth.1, n = .busy := by
  unfold reportHealth
  intro n hn
  dsimp only at hn
  split_ifs at hn <;> simp_all

theorem reportHealth_state :
    s.reportHealth.2 = { s with lastReported := s.reportHealth.2.lastReported } := by
  unfold reportHealth
  dsimp only
  split_ifs <;> rfl

/-- A changed heartbeat ends the fallback, and `LAST_STALL` is `0` by the time it is announced. -/
theorem tick_changed (h : o.heartbeat ≠ s.lastHeartbeat) :
    ∃ more, (∀ n ∈ more, n = .busy) ∧
      (s.tick o).1 = (if s.fallbackActive then [.recovered 0] else []) ++ more ∧
      (s.tick o).2.lastHeartbeat = o.heartbeat ∧ (s.tick o).2.lastBeatTick = o.now ∧
      (s.tick o).2.fallbackActive = false ∧ (s.tick o).2.lastStall = 0 := by
  refine ⟨(s.observe o).2.reportHealth.1, reportHealth_notices, ?_⟩
  rw [tick, reportHealth_state]
  unfold observe
  cases hactive : s.fallbackActive <;> simp [h]

/-- A silent heartbeat is announced as dead once the threshold is reached. -/
theorem tick_silent (h : o.heartbeat = s.lastHeartbeat) :
    ∃ more, (∀ n ∈ more, n = .busy) ∧
      (s.tick o).1 = (if deadThresholdTicks ≤ o.now - s.lastBeatTick ∧ s.fallbackActive =
        false then [.dead]
        else []) ++ more ∧
      (s.tick o).2.lastHeartbeat = s.lastHeartbeat ∧ (s.tick o).2.lastBeatTick = s.lastBeatTick ∧
      ((s.tick o).2.fallbackActive = true ↔
        s.fallbackActive = true ∨ deadThresholdTicks ≤ o.now - s.lastBeatTick) ∧
      (s.tick o).2.lastStall = o.now - s.lastBeatTick := by
  refine ⟨(s.observe o).2.reportHealth.1, reportHealth_notices, ?_⟩
  rw [tick, reportHealth_state]
  unfold observe
  by_cases hlong : deadThresholdTicks ≤ o.now - s.lastBeatTick <;>
    cases s.fallbackActive <;> simp [h, hlong]

/-- The monitor's variables say what the observations say. -/
structure Tracks (s : StateMonitor) (st : Stretch) : Prop where
  heartbeat : s.lastHeartbeat = st.heartbeat
  since : s.lastBeatTick = st.since
  active : s.fallbackActive = true ↔ st.Dead
  stall : s.lastStall = st.stalls.getLast?.getD 0

theorem Tracks.tick {st : Stretch} (h : s.Tracks st) (o : Observation) :
    (s.tick o).2.Tracks (st.observe o) := by
  by_cases hchanged : o.heartbeat = s.lastHeartbeat
  · obtain ⟨-, -, -, hheartbeat, hsince, hactive, hstall⟩ := tick_silent hchanged
    rw [h.heartbeat] at hchanged
    rw [Stretch.observe, if_neg (not_not.2 hchanged)]
    refine ⟨hheartbeat.trans h.heartbeat, hsince.trans h.since, ?_, ?_⟩
    · rw [hactive, h.active, h.since]
      simp only [Stretch.Dead, List.mem_append, List.mem_singleton, or_and_right, exists_or,
        exists_eq_left]
    · rw [hstall, h.since, List.getLast?_concat, Option.getD_some]
  · obtain ⟨-, -, -, hheartbeat, hsince, hactive, hstall⟩ := tick_changed hchanged
    rw [h.heartbeat] at hchanged
    rw [Stretch.observe, if_pos hchanged]
    refine ⟨hheartbeat, hsince, ?_, hstall⟩
    rw [hactive]
    simp [Stretch.Dead]

theorem tracks (obs : List Observation) :
    (runs StateMonitor.tick .initial obs).2.Tracks (Stretch.after obs) := by
  induction obs using List.reverseRecOn with
  | nil => exact ⟨rfl, rfl, by simp [Stretch.Dead, Stretch.after, Stretch.boot, initial], rfl⟩
  | append_singleton obs o ih =>
    rw [runs_concat_snd, Stretch.after_concat]
    exact ih.tick o

end StateMonitor

/-! ## Runs -/

theorem alternates_busy {more : List Notification} (h : ∀ n ∈ more, n = .busy) (dead : Bool)
    (rest : List Notification) : Alternates dead (more ++ rest) ↔ Alternates dead rest := by
  induction more with
  | nil => rfl
  | cons n more ih =>
    rw [List.forall_mem_cons] at h
    obtain ⟨rfl, hmore⟩ := h
    rw [List.cons_append]
    cases dead <;> exact ih hmore

/-- The announcements alternate, whatever the observations are. -/
theorem alternates_runs (s : StateMonitor) (obs : List Observation) :
    Alternates s.fallbackActive (runs StateMonitor.tick s obs).1.flatten := by
  induction obs generalizing s with
  | nil => cases s.fallbackActive <;> trivial
  | cons o obs ih =>
    have hrest := ih (s.tick o).2
    rw [runs, List.flatten_cons]
    by_cases hchanged : o.heartbeat = s.lastHeartbeat
    · obtain ⟨more, hbusy, hnotices, -, -, hactive, -⟩ := StateMonitor.tick_silent hchanged
      rw [hnotices, List.append_assoc]
      by_cases hdies : deadThresholdTicks ≤ o.now - s.lastBeatTick ∧ s.fallbackActive = false
      · rw [if_pos hdies, hdies.2]
        rw [hactive.2 (.inr hdies.1)] at hrest
        exact (alternates_busy hbusy true _).2 hrest
      · have hsame : (s.tick o).2.fallbackActive = s.fallbackActive := by
          rw [Bool.eq_iff_iff, hactive, or_iff_left_iff_imp]
          intro hlong
          by_contra hidle
          exact hdies ⟨hlong, Bool.eq_false_iff.2 hidle⟩
        rw [if_neg hdies, List.nil_append, alternates_busy hbusy, ← hsame]
        exact hrest
    · obtain ⟨more, hbusy, hnotices, -, -, hactive, -⟩ := StateMonitor.tick_changed hchanged
      rw [hactive] at hrest
      rw [hnotices, List.append_assoc]
      cases s.fallbackActive with
      | true => exact (alternates_busy hbusy false _).2 hrest
      | false => exact (alternates_busy hbusy false _).2 hrest

variable {pre : List Observation} {o : Observation}

theorem dead_mem_iff : .dead ∈ noticesAt pre o ↔ o.heartbeat = (Stretch.after pre).heartbeat ∧
    deadThresholdTicks ≤ o.now - (Stretch.after pre).since ∧ ¬ (Stretch.after pre).Dead := by
  obtain ⟨hheartbeat, hsince, hactive, -⟩ := StateMonitor.tracks pre
  rw [noticesAt, ← hheartbeat, ← hsince, ← hactive, Bool.not_eq_true]
  generalize (runs StateMonitor.tick .initial pre).2 = s
  by_cases hchanged : o.heartbeat = s.lastHeartbeat
  · obtain ⟨more, hbusy, hnotices, -⟩ := StateMonitor.tick_silent hchanged
    rw [hnotices, List.mem_append]
    have hmore : .dead ∉ more := fun h => by simpa using hbusy _ h
    split_ifs with hdies
    · simp [hchanged, hdies]
    · simp [hchanged, hdies, hmore]
  · obtain ⟨more, hbusy, hnotices, -⟩ := StateMonitor.tick_changed hchanged
    rw [hnotices, List.mem_append]
    have hmore : .dead ∉ more := fun h => by simpa using hbusy _ h
    split_ifs <;> simp [hchanged, hmore]

/-- A recovery is announced when the heartbeat of a dead stretch changes, and always with `0`. -/
theorem recovered_zero {stalledTicks : UInt32} : .recovered stalledTicks ∈ noticesAt pre o ↔
    o.heartbeat ≠ (Stretch.after pre).heartbeat ∧ (Stretch.after pre).Dead ∧ stalledTicks = 0 := by
  obtain ⟨hheartbeat, -, hactive, -⟩ := StateMonitor.tracks pre
  rw [noticesAt, ← hheartbeat, ← hactive]
  generalize (runs StateMonitor.tick .initial pre).2 = s
  by_cases hchanged : o.heartbeat = s.lastHeartbeat
  · obtain ⟨more, hbusy, hnotices, -⟩ := StateMonitor.tick_silent hchanged
    rw [hnotices, List.mem_append]
    have hmore : .recovered stalledTicks ∉ more := fun h => by simpa using hbusy _ h
    split_ifs <;> simp [hchanged, hmore]
  · obtain ⟨more, hbusy, hnotices, -⟩ := StateMonitor.tick_changed hchanged
    rw [hnotices, List.mem_append]
    have hmore : .recovered stalledTicks ∉ more := fun h => by simpa using hbusy _ h
    split_ifs with hfallback <;> simp [hchanged, hmore, hfallback]

/-- So the message posted at a recovery reports a stall of no ticks. -/
theorem message_recovered {stalledTicks : UInt32} (h : .recovered stalledTicks ∈ noticesAt pre o)
    (tick : UInt32) : ((Notification.recovered stalledTicks).message tick).b = 0 := by
  obtain ⟨-, -, rfl⟩ := recovered_zero.1 h
  rfl

/-- **The announcements are truthful exactly if no recovery has a stall to report.** Over every list
of observations, dead and recovered alternate and dead is announced when it should be. Each recovery
carries the stall measured last exactly if, whenever the heartbeat of a dead stretch changes, that
stall was `0`: the tick counter had come round to the tick of the last change. -/
theorem trace_truthful_iff (obs : List Observation) :
    Truthful obs ↔ ∀ pre o post, obs = pre ++ o :: post →
      o.heartbeat ≠ (Stretch.after pre).heartbeat → (Stretch.after pre).Dead →
        (Stretch.after pre).stalls.getLast? = some 0 := by
  constructor
  · intro h pre o post hobs hchanged hdead
    exact h.recovered pre o post hobs 0 (recovered_zero.2 ⟨hchanged, hdead, rfl⟩)
  · intro h
    refine ⟨alternates_runs .initial obs, fun _ _ _ _ => dead_mem_iff,
      fun pre o post hobs n hn => ?_⟩
    obtain ⟨hchanged, hdead, rfl⟩ := recovered_zero.1 hn
    exact h pre o post hobs hchanged hdead

/-- The heartbeat stands still for 300 ticks and then returns. -/
theorem trace_not_truthful : ¬ ∀ obs, Truthful obs := by
  intro h
  have hstall := (trace_truthful_iff [⟨0, 300⟩, ⟨1, 301⟩]).1 (h _) [⟨0, 300⟩] ⟨1, 301⟩ [] rfl
    (by decide) ⟨300, by decide, by decide⟩
  exact absurd hstall (by decide)

end Tcmk
