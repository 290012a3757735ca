import Tcmk.Lib.Machine
import Tcmk.Monitor.Ipc
import Tcmk.Sched.Scheduler

/-!
# The load balancer

Every system call and exception is counted, for its channel and for its task. A timer tick that
finds the window `windowTicks` old rolls it over: the counts become the published rates and start
again. A task over its quota is throttled, and the first such call of a window may be reported. Both
functions run with interrupts off, so they are one step each.

**What the events say** (`CallWindow`). The calls since the last rollover, and how many rollovers
there have been. It is read off the events alone, and `Meters` connects it with the balancer.

Main result: `calls_metered`, for every sequence of events with fewer than `2 ^ 32` calls in a
window.
-/

namespace Tcmk

open Lib

/-! ## The balancer -/

inductive Channel
  | posixFile
  | posixMem
  | gui
  | nt
  | exception
  deriving DecidableEq, Repr

/-- `WINDOW_TICKS`. -/
def windowTicks : UInt32 := 100

/-- `TASK_QUOTA`. -/
def taskQuota : UInt32 := 4000

/-- `CHANNEL_SATURATION`. -/
def channelSaturation : UInt32 := 8000

/-- `REPORT_EVERY`. -/
def reportEvery : UInt32 := 5

structure LoadBalancer where
  total : Channel → UInt32
  window : Channel → UInt32
  rate : Channel → UInt32
  peak : Channel → UInt32
  taskTotal : ℕ → UInt32
  taskWindow : ℕ → UInt32
  taskRate : ℕ → UInt32
  taskThrottles : ℕ → UInt32
  taskLastReport : ℕ → UInt32
  windowStart : UInt32
  windowsRolled : UInt32
  throttles : UInt32
  saturated : Channel → Bool
  busiestTask : ℕ

inductive Verdict
  | pass
  | throttle
  deriving DecidableEq, Repr

/-- The message that tells of a task over its quota. -/
structure OverloadReport where
  task : ℕ
  inWindow : UInt32
  hits : UInt32
  deriving DecidableEq, Repr

def OverloadReport.message (r : OverloadReport) (tick : UInt32) : Message :=
  ⟨.throttled, r.task, r.inWindow.toNat, r.hits.toNat, tick,
    "gorev cagri kotasini asti, CPU birakmaya zorlandi"⟩

namespace LoadBalancer

def initial : LoadBalancer where
  total := fun _ => 0
  window := fun _ => 0
  rate := fun _ => 0
  peak := fun _ => 0
  taskTotal := fun _ => 0
  taskWindow := fun _ => 0
  taskRate := fun _ => 0
  taskThrottles := fun _ => 0
  taskLastReport := fun _ => 0
  windowStart := 0
  windowsRolled := 0
  throttles := 0
  saturated := fun _ => false
  busiestTask := 0

/-- `fetch_add(1)` on an array of counters. -/
def bump {ι : Type} [DecidableEq ι] (count : ι → UInt32) (i : ι) : ι → UInt32 :=
  Function.update count i (count i + 1)

/-- The end of `note_call`, for a call over the quota: the first one of a window may be reported. -/
def throttle (s : LoadBalancer) (task : ℕ) : Option OverloadReport × LoadBalancer :=
  let inWindow := s.taskWindow task
  let s := { s with
    throttles := s.throttles + 1
    taskThrottles := bump s.taskThrottles task }
  if inWindow = taskQuota + 1 then
    let last := s.taskLastReport task
    if last = 0 ∨ s.windowsRolled - last ≥ reportEvery then
      (some ⟨task, inWindow, s.taskThrottles task⟩,
        { s with taskLastReport := Function.update s.taskLastReport task (max s.windowsRolled 1) })
    else (none, s)
  else (none, s)

def noteCall (s : LoadBalancer) (channel : Channel) (task : ℕ) :
    (Verdict × Option OverloadReport) × LoadBalancer :=
  let s := { s with total := bump s.total channel, window := bump s.window channel }
  if task ≥ maxTasks then ((.pass, none), s)
  else
    let s := { s with
      taskTotal := bump s.taskTotal task
      taskWindow := bump s.taskWindow task }
    if s.taskWindow task ≤ taskQuota then ((.pass, none), s)
    else ((.throttle, (s.throttle task).1), (s.throttle task).2)

/-- The first task with the largest count. -/
def busiest (count : ℕ → UInt32) : ℕ × UInt32 :=
  (List.range maxTasks).foldl (fun best t => if count t > best.2 then (t, count t) else best) (0, 0)

def onTick (s : LoadBalancer) (ticks : UInt32) : LoadBalancer :=
  if ticks - s.windowStart < windowTicks then s
  else
    { s with
      windowStart := ticks
      windowsRolled := s.windowsRolled + 1
      window := fun _ => 0
      rate := s.window
      peak := fun channel => max (s.peak channel) (s.window channel)
      saturated := fun channel => s.window channel ≥ channelSaturation
      taskWindow := fun t => if t < maxTasks then 0 else s.taskWindow t
      taskRate := fun t => if t < maxTasks then s.taskWindow t else s.taskRate t
      busiestTask := (busiest s.taskWindow).1 }

end LoadBalancer

/-! ## Events -/

inductive LoadEvent
  | call (channel : Channel) (task : ℕ)
  | tick (ticks : UInt32)

/-- The verdict on a call, and the report that it caused. -/
def LoadBalancer.event (s : LoadBalancer) :
    LoadEvent → Option (Verdict × Option OverloadReport) × LoadBalancer
  | .call channel task => (some (s.noteCall channel task).1, (s.noteCall channel task).2)
  | .tick ticks => (none, s.onTick ticks)

/-- The calls since the last rollover. -/
structure CallWindow where
  /-- the tick of the last rollover -/
  start : UInt32
  /-- the number of rollovers -/
  rolled : ℕ
  calls : List (Channel × ℕ)

namespace CallWindow

def boot : CallWindow := ⟨0, 0, []⟩

/-- A tick rolls the window over when it is old enough. -/
def Rolls (w : CallWindow) (ticks : UInt32) : Prop := windowTicks ≤ ticks - w.start

instance (w : CallWindow) (ticks : UInt32) : Decidable (w.Rolls ticks) :=
  inferInstanceAs (Decidable (_ ≤ _))

def observe (w : CallWindow) : LoadEvent → CallWindow
  | .call channel task => { w with calls := w.calls ++ [(channel, task)] }
  | .tick ticks => if w.Rolls ticks then ⟨ticks, w.rolled + 1, []⟩ else w

/-- The window that some events end with. -/
def after (es : List LoadEvent) : CallWindow := es.foldl observe boot

theorem after_concat (es : List LoadEvent) (e : LoadEvent) :
    after (es ++ [e]) = (after es).observe e := by
  rw [after, List.foldl_concat, after]

def taskCalls (w : CallWindow) (task : ℕ) : ℕ := w.calls.countP fun c => c.2 = task

def channelCalls (w : CallWindow) (channel : Channel) : ℕ := w.calls.countP fun c => c.1 = channel

end CallWindow

/-- The balancer after some events. -/
def balancerAfter (es : List LoadEvent) : LoadBalancer := (runs LoadBalancer.event .initial es).2

/-- What the balancer should do over a list of events. -/
structure Metered (es : List LoadEvent) : Prop where
  verdict : ∀ pre channel task post, es = pre ++ .call channel task :: post → task < maxTasks →
    (((balancerAfter pre).noteCall channel task).1.1 = .pass ↔
      (CallWindow.after pre).taskCalls task < taskQuota.toNat)
  rates : ∀ pre ticks post, es = pre ++ .tick ticks :: post → (CallWindow.after pre).Rolls ticks →
    (∀ channel, ((balancerAfter (pre ++ [.tick ticks])).rate channel).toNat =
      (CallWindow.after pre).channelCalls channel) ∧
    ∀ task < maxTasks, ((balancerAfter (pre ++ [.tick ticks])).taskRate task).toNat =
      (CallWindow.after pre).taskCalls task
  reports : ∀ pre channel mid channel' task post r r',
    es = pre ++ .call channel task :: mid ++ .call channel' task :: post →
    ((balancerAfter pre).noteCall channel task).1.2 = some r →
    ((balancerAfter (pre ++ .call channel task :: mid)).noteCall channel' task).1.2 = some r' →
    (CallWindow.after pre).rolled + reportEvery.toNat ≤
      (CallWindow.after (pre ++ .call channel task :: mid)).rolled

/-! ## One event -/

namespace LoadBalancer

variable {s : LoadBalancer} {channel : Channel} {task : ℕ}

theorem bump_apply {ι : Type} [DecidableEq ι] (count : ι → UInt32) (i j : ι) :
    bump count i j = if j = i then count j + 1 else count j := by
  rw [bump, Function.update_apply]
  split_ifs with h
  · rw [h]
  · rfl

theorem throttle_state : (s.throttle task).2 = { s with
    throttles := (s.throttle task).2.throttles
    taskThrottles := (s.throttle task).2.taskThrottles
    taskLastReport := (s.throttle task).2.taskLastReport } := by
  unfold throttle
  dsimp only
  split_ifs <;> rfl

/-- A report is made at the first call over the quota, if the last one is long enough ago. -/
theorem throttle_report {r : OverloadReport} (h : (s.throttle task).1 = some r) :
    s.taskWindow task = taskQuota + 1 ∧
      (s.taskLastReport task = 0 ∨ s.windowsRolled - s.taskLastReport task ≥ reportEvery) ∧
      (s.throttle task).2.taskLastReport =
        Function.update s.taskLastReport task (max s.windowsRolled 1) := by
  unfold throttle at h ⊢
  dsimp only at h ⊢
  split_ifs at h ⊢ with hfirst hago
  exact ⟨hfirst, hago, rfl⟩

theorem throttle_quiet (h : (s.throttle task).1 = none) :
    (s.throttle task).2.taskLastReport = s.taskLastReport := by
  unfold throttle at h ⊢
  dsimp only at h ⊢
  split_ifs at h ⊢ <;> rfl

theorem noteCall_window : (s.noteCall channel task).2.window = bump s.window channel := by
  unfold noteCall
  dsimp only
  split_ifs
  · rfl
  · rfl
  · rw [throttle_state]

theorem noteCall_taskWindow (t : ℕ) (ht : t < maxTasks) :
    (s.noteCall channel task).2.taskWindow t = if t = task then s.taskWindow t + 1
    else s.taskWindow t := by
  unfold noteCall
  dsimp only
  by_cases hout : task ≥ maxTasks
  · rw [if_pos hout, if_neg (by omega)]
  · rw [if_neg hout, ← bump_apply]
    split_ifs
    · rfl
    · rw [throttle_state]

theorem noteCall_windowStart : (s.noteCall channel task).2.windowStart = s.windowStart := by
  unfold noteCall
  dsimp only
  split_ifs
  · rfl
  · rfl
  · rw [throttle_state]

theorem noteCall_windowsRolled : (s.noteCall channel task).2.windowsRolled = s.windowsRolled := by
  unfold noteCall
  dsimp only
  split_ifs
  · rfl
  · rfl
  · rw [throttle_state]

theorem noteCall_pass (h : task < maxTasks) :
    (s.noteCall channel task).1.1 = .pass ↔ s.taskWindow task + 1 ≤ taskQuota := by
  have hcount : bump s.taskWindow task task = s.taskWindow task + 1 := by
    rw [bump_apply, if_pos rfl]
  unfold noteCall
  dsimp only
  rw [if_neg (Nat.not_le.2 h), ← hcount]
  split_ifs with hquota <;> simp [hquota]

theorem noteCall_report {r : OverloadReport} (h : (s.noteCall channel task).1.2 = some r) :
    task < maxTasks ∧ s.taskWindow task + 1 = taskQuota + 1 ∧
      (s.taskLastReport task = 0 ∨ s.windowsRolled - s.taskLastReport task ≥ reportEvery) ∧
      (s.noteCall channel task).2.taskLastReport =
        Function.update s.taskLastReport task (max s.windowsRolled 1) := by
  unfold noteCall at h ⊢
  dsimp only at h ⊢
  split_ifs at h ⊢ with hout hquota
  obtain ⟨hfirst, hago, hlast⟩ := throttle_report h
  dsimp only at hfirst
  rw [bump_apply, if_pos rfl] at hfirst
  exact ⟨Nat.not_le.1 hout, hfirst, hago, hlast⟩

theorem noteCall_quiet (h : (s.noteCall channel task).1.2 = none) :
    (s.noteCall channel task).2.taskLastReport = s.taskLastReport := by
  unfold noteCall at h ⊢
  dsimp only at h ⊢
  split_ifs at h ⊢ with hout hquota
  · rfl
  · rfl
  · exact throttle_quiet h

end LoadBalancer

/-! ## The counts -/

namespace CallWindow

variable {w : CallWindow} {channel : Channel} {task : ℕ}

theorem taskCalls_call (t : ℕ) : (w.observe (.call channel task)).taskCalls t =
    w.taskCalls t + if task = t then 1 else 0 := by
  simp [observe, taskCalls, List.countP_append, List.countP_singleton]

theorem channelCalls_call (c : Channel) : (w.observe (.call channel task)).channelCalls c =
    w.channelCalls c + if channel = c then 1 else 0 := by
  simp [observe, channelCalls, List.countP_append, List.countP_singleton]

theorem taskCalls_le : w.taskCalls task ≤ w.calls.length := List.countP_le_length

theorem channelCalls_le : w.channelCalls channel ≤ w.calls.length := List.countP_le_length

/-- Every call is in one window. -/
theorem length_calls_le (es : List LoadEvent) : (after es).calls.length ≤ es.length := by
  induction es using List.reverseRecOn with
  | nil => exact Nat.le_refl _
  | append_singleton es e ih =>
    rw [after_concat, List.length_append, List.length_singleton]
    cases e with
    | call channel task =>
      simp only [observe, List.length_append, List.length_singleton]
      omega
    | tick ticks =>
      simp only [observe]
      split_ifs
      · exact Nat.zero_le _
      · omega

end CallWindow

/-- The balancer's counters count the calls of the window. -/
structure Meters (s : LoadBalancer) (w : CallWindow) : Prop where
  window : ∀ channel, s.window channel = UInt32.ofNat (w.channelCalls channel)
  taskWindow : ∀ t < maxTasks, s.taskWindow t = UInt32.ofNat (w.taskCalls t)
  start : s.windowStart = w.start
  rolled : s.windowsRolled = UInt32.ofNat w.rolled

theorem Meters.onTick_rolls {s : LoadBalancer} {w : CallWindow} (h : Meters s w) {ticks : UInt32}
    (hrolls : w.Rolls ticks) : s.onTick ticks = { s with
      windowStart := ticks
      windowsRolled := s.windowsRolled + 1
      window := fun _ => 0
      rate := s.window
      peak := fun channel => max (s.peak channel) (s.window channel)
      saturated := fun channel => s.window channel ≥ channelSaturation
      taskWindow := fun t => if t < maxTasks then 0 else s.taskWindow t
      taskRate := fun t => if t < maxTasks then s.taskWindow t else s.taskRate t
      busiestTask := (LoadBalancer.busiest s.taskWindow).1 } := by
  refine if_neg ?_
  rw [h.start]
  exact UInt32.not_lt.2 hrolls

theorem Meters.onTick_stays {s : LoadBalancer} {w : CallWindow} (h : Meters s w) {ticks : UInt32}
    (hstays : ¬ w.Rolls ticks) : s.onTick ticks = s := by
  refine if_pos ?_
  rw [h.start]
  exact UInt32.not_le.1 hstays

theorem Meters.event {s : LoadBalancer} {w : CallWindow} (h : Meters s w) (e : LoadEvent) :
    Meters (s.event e).2 (w.observe e) := by
  cases e with
  | call channel task =>
    refine ⟨fun c => ?_, fun t ht => ?_, ?_, ?_⟩
    · rw [CallWindow.channelCalls_call]
      simp only [LoadBalancer.event]
      rw [LoadBalancer.noteCall_window, LoadBalancer.bump_apply, h.window c]
      by_cases hc : c = channel
      · rw [if_pos hc, if_pos hc.symm, ofNat_succ]
      · rw [if_neg hc, if_neg (Ne.symm hc), Nat.add_zero]
    · rw [CallWindow.taskCalls_call]
      simp only [LoadBalancer.event]
      rw [LoadBalancer.noteCall_taskWindow t ht, h.taskWindow t ht]
      by_cases htask : t = task
      · rw [if_pos htask, if_pos htask.symm, ofNat_succ]
      · rw [if_neg htask, if_neg (Ne.symm htask), Nat.add_zero]
    · exact LoadBalancer.noteCall_windowStart.trans h.start
    · exact LoadBalancer.noteCall_windowsRolled.trans h.rolled
  | tick ticks =>
    simp only [LoadBalancer.event, CallWindow.observe]
    by_cases hrolls : w.Rolls ticks
    · rw [h.onTick_rolls hrolls, if_pos hrolls]
      exact ⟨fun _ => rfl, fun t ht => if_pos ht, rfl, by rw [ofNat_succ, h.rolled]⟩
    · rw [h.onTick_stays hrolls, if_neg hrolls]
      exact h

theorem meters (es : List LoadEvent) : Meters (balancerAfter es) (CallWindow.after es) := by
  induction es using List.reverseRecOn with
  | nil => exact ⟨fun _ => rfl, fun _ _ => rfl, rfl, rfl⟩
  | append_singleton es e ih =>
    rw [balancerAfter, runs_concat_snd, CallWindow.after_concat]
    exact ih.event e

/-! ## Reports -/

/-- The last report on the task was made in a window `reported` or later, and if that was this one
the task is over its quota. A window number `0` is kept as `1`. -/
def Reported (s : LoadBalancer) (w : CallWindow) (task reported : ℕ) : Prop :=
  ∃ last, reported ≤ last ∧ last ≤ w.rolled ∧
    s.taskLastReport task = max (UInt32.ofNat last) 1 ∧
    (last = w.rolled → taskQuota.toNat < w.taskCalls task)

/-- The test that `note_call` makes fails for less than `reportEvery` windows. -/
theorem not_ago {rolled last : ℕ} (hle : last < rolled)
    (hsoon : rolled < last + reportEvery.toNat) :
    ¬ (max (UInt32.ofNat last) 1 = 0 ∨
      UInt32.ofNat rolled - max (UInt32.ofNat last) 1 ≥ reportEvery) := by
  have hmax : (max (UInt32.ofNat last) 1).toNat = max (last % 2 ^ 32) 1 := by
    rw [UInt32.toNat_max]
    rfl
  have hfive : reportEvery.toNat = 5 := rfl
  rintro (hzero | hago)
  · have := congrArg UInt32.toNat hzero
    rw [hmax] at this
    simp at this
  · rw [ge_iff_le, UInt32.le_iff_toNat_le, UInt32.toNat_sub, hmax, UInt32.toNat_ofNat'] at hago
    omega

variable {s : LoadBalancer} {w : CallWindow} {task reported : ℕ} {channel : Channel}

/-- The counter of a task tells how many calls it has made, as long as it does not wrap. -/
theorem Meters.toNat_taskWindow (h : Meters s w) (ht : task < maxTasks)
    (hcalls : w.calls.length < 2 ^ 32) : (s.taskWindow task).toNat = w.taskCalls task := by
  have hle : w.taskCalls task ≤ w.calls.length := CallWindow.taskCalls_le
  rw [h.taskWindow task ht, UInt32.toNat_ofNat', Nat.mod_eq_of_lt (by omega)]

/-- Once a report is made, `Reported` holds from then on, and the next report keeps its distance. -/
theorem Meters.reports (h : Meters s w)
    (hcalls : (w.observe (.call channel task)).calls.length < 2 ^ 32)
    {r : OverloadReport} (hr : (s.noteCall channel task).1.2 = some r) :
    Reported (s.noteCall channel task).2 (w.observe (.call channel task)) task w.rolled := by
  obtain ⟨ht, hfirst, -, hlast⟩ := LoadBalancer.noteCall_report hr
  refine ⟨w.rolled, Nat.le_refl _, Nat.le_refl _, ?_, fun _ => ?_⟩
  · rw [hlast, Function.update_self, h.rolled]
  · have hcount := (h.event (.call channel task)).toNat_taskWindow ht hcalls
    rw [← hcount]
    simp only [LoadBalancer.event]
    rw [LoadBalancer.noteCall_taskWindow task ht, if_pos rfl, hfirst]
    decide

theorem Reported.apart (h : Reported s w task reported) (hs : Meters s w)
    (hcalls : w.calls.length < 2 ^ 32) {r : OverloadReport}
    (hr : (s.noteCall channel task).1.2 = some r) : reported + reportEvery.toNat ≤ w.rolled := by
  obtain ⟨last, hfrom, hto, hlast, hover⟩ := h
  obtain ⟨ht, hfirst, hago, -⟩ := LoadBalancer.noteCall_report hr
  have hquota : w.taskCalls task = taskQuota.toNat := by
    rw [← hs.toNat_taskWindow ht hcalls, add_right_cancel hfirst]
  have hne : last ≠ w.rolled := fun heq => absurd (hover heq) (by omega)
  by_contra hsoon
  rw [hlast, hs.rolled] at hago
  exact not_ago (lt_of_le_of_ne hto hne) (by omega) hago

/-- A call of another task leaves the report alone, and a call of this one counts up. -/
theorem Reported.event (h : Reported s w task reported) (hs : Meters s w) (e : LoadEvent)
    (hcalls : (w.observe e).calls.length < 2 ^ 32) :
    Reported (s.event e).2 (w.observe e) task reported := by
  cases e with
  | tick ticks =>
    obtain ⟨last, hfrom, hto, hlast, hover⟩ := h
    simp only [LoadBalancer.event, CallWindow.observe]
    by_cases hrolls : w.Rolls ticks
    · rw [hs.onTick_rolls hrolls, if_pos hrolls]
      exact ⟨last, hfrom, Nat.le_succ_of_le hto, hlast, fun heq =>
        absurd heq (by dsimp only; omega)⟩
    · rw [hs.onTick_stays hrolls, if_neg hrolls]
      exact ⟨last, hfrom, hto, hlast, hover⟩
  | call channel caller =>
    by_cases hreport : caller = task ∧ (s.noteCall channel caller).1.2 ≠ none
    · obtain ⟨rfl, hsome⟩ := hreport
      obtain ⟨r, hr⟩ := Option.ne_none_iff_exists'.1 hsome
      obtain ⟨last, hfrom', hto', hlast', hover'⟩ := hs.reports hcalls hr
      obtain ⟨_, hfrom, hto, -, -⟩ := h
      exact ⟨last, Nat.le_trans (Nat.le_trans hfrom hto) hfrom', hto', hlast', hover'⟩
    · have hsame : (s.noteCall channel caller).2.taskLastReport task = s.taskLastReport task := by
        cases hr : (s.noteCall channel caller).1.2 with
        | none => rw [LoadBalancer.noteCall_quiet hr]
        | some r =>
          have hne : task ≠ caller := fun heq => hreport ⟨heq.symm, by rw [hr]; simp⟩
          rw [(LoadBalancer.noteCall_report hr).2.2.2, Function.update_of_ne hne]
      obtain ⟨last, hfrom, hto, hlast, hover⟩ := h
      refine ⟨last, hfrom, hto, hsame.trans hlast, fun heq => Nat.lt_of_lt_of_le (hover heq) ?_⟩
      rw [CallWindow.taskCalls_call]
      exact Nat.le_add_right ..

theorem Reported.run {es mid : List LoadEvent}
    (h : Reported (balancerAfter es) (CallWindow.after es) task reported)
    (hcalls : ∀ pre, pre <+: es ++ mid → (CallWindow.after pre).calls.length < 2 ^ 32) :
    Reported (balancerAfter (es ++ mid)) (CallWindow.after (es ++ mid)) task reported := by
  induction mid using List.reverseRecOn with
  | nil => rwa [List.append_nil]
  | append_singleton mid e ih =>
    rw [← List.append_assoc] at hcalls ⊢
    have hpre := ih fun pre hpre => hcalls pre (hpre.trans (List.prefix_append ..))
    have hall := hcalls _ List.prefix_rfl
    rw [CallWindow.after_concat] at hall ⊢
    rw [balancerAfter, runs_concat_snd]
    exact hpre.event (meters _) e hall

/-! ## Runs -/

/-- **The load balancer meters the calls.** For every sequence of calls and ticks with fewer than
`2 ^ 32` calls in a window: the first `taskQuota` calls of a task in a window pass and the others
are throttled, a rollover publishes the numbers of calls since the one before, and two reports on
one task are at least `reportEvery` windows apart. -/
theorem calls_metered {es : List LoadEvent}
    (hcalls : ∀ pre, pre <+: es → (CallWindow.after pre).calls.length < 2 ^ 32) : Metered es := by
  refine ⟨fun pre channel task post hes ht => ?_, fun pre ticks post hes hrolls => ?_,
    fun pre channel mid channel' task post r r' hes hr hr' => ?_⟩
  · have hpre := hcalls pre ⟨_, hes.symm⟩
    have hcall := hcalls (pre ++ [.call channel task]) ⟨post, by
      rw [hes]
      simp⟩
    have hlen : (CallWindow.after pre).taskCalls task ≤ (CallWindow.after pre).calls.length :=
      CallWindow.taskCalls_le
    have hquota : taskQuota.toNat = 4000 := rfl
    rw [CallWindow.after_concat] at hcall
    simp only [CallWindow.observe, List.length_append, List.length_singleton] at hcall
    rw [LoadBalancer.noteCall_pass ht, UInt32.le_iff_toNat_le, UInt32.toNat_add,
      (meters pre).toNat_taskWindow ht hpre, UInt32.toNat_one, Nat.mod_eq_of_lt (by omega)]
    exact Nat.succ_le_iff
  · have hpre := hcalls pre ⟨_, hes.symm⟩
    rw [balancerAfter, runs_concat_snd]
    simp only [LoadBalancer.event]
    rw [← balancerAfter, (meters pre).onTick_rolls hrolls]
    refine ⟨fun channel => ?_, fun task ht => ?_⟩
    · have hlen : (CallWindow.after pre).channelCalls channel ≤
        (CallWindow.after pre).calls.length :=
        CallWindow.channelCalls_le
      dsimp only
      rw [(meters pre).window, UInt32.toNat_ofNat', Nat.mod_eq_of_lt (by omega)]
    · dsimp only
      rw [if_pos ht, (meters pre).toNat_taskWindow ht hpre]
  · have hparts : es = (pre ++ [.call channel task]) ++ mid ++ .call channel' task :: post := by
      rw [hes]
      simp
    have hfirst := hcalls (pre ++ [.call channel task]) ⟨mid ++ .call channel' task :: post, by
      rw [hparts]
      simp⟩
    rw [List.append_cons] at hr' ⊢
    have hstart : Reported (balancerAfter (pre ++ [.call channel task]))
        (CallWindow.after (pre ++ [.call channel task])) task (CallWindow.after pre).rolled := by
      rw [CallWindow.after_concat] at hfirst ⊢
      rw [balancerAfter, runs_concat_snd]
      exact (meters pre).reports hfirst hr
    have hwindows : ∀ pre', pre' <+: (pre ++ [.call channel task]) ++ mid →
        (CallWindow.after pre').calls.length < 2 ^ 32 := fun pre' hpre' =>
      hcalls pre' (hpre'.trans ⟨_, hparts.symm⟩)
    exact (hstart.run hwindows).apart (meters _) (hcalls _ ⟨_, hparts.symm⟩) hr'

/-- As many calls of task 1 in a window as it may make, and some more. -/
def guiCalls (n : ℕ) : List LoadEvent := List.replicate n (.call .gui 1)

/-- The state while it is within its quota. -/
theorem guiCalls_within {n : ℕ} (hn : n ≤ 4000) :
    (balancerAfter (guiCalls n)).taskWindow 1 = UInt32.ofNat n ∧
      (balancerAfter (guiCalls n)).taskThrottles 1 = 0 ∧
      (balancerAfter (guiCalls n)).taskLastReport 1 = 0 := by
  induction n with
  | zero => exact ⟨rfl, rfl, rfl⟩
  | succ n ih =>
    obtain ⟨hwindow, hthrottles, hlast⟩ := ih (by omega)
    have hcount : LoadBalancer.bump (balancerAfter (guiCalls n)).taskWindow 1 1 =
        UInt32.ofNat (n + 1) := by
      rw [LoadBalancer.bump_apply, if_pos rfl, hwindow, ofNat_succ]
    have hquota : UInt32.ofNat (n + 1) ≤ taskQuota := by
      rw [UInt32.le_iff_toNat_le, UInt32.toNat_ofNat', Nat.mod_eq_of_lt (by omega)]
      exact hn
    have hnext : balancerAfter (guiCalls (n + 1)) =
        ((balancerAfter (guiCalls n)).noteCall .gui 1).2 := by
      rw [guiCalls, List.replicate_succ', balancerAfter, runs_concat_snd]
      rfl
    rw [hnext]
    unfold LoadBalancer.noteCall
    dsimp only
    rw [if_neg (by decide), if_pos (by rwa [hcount])]
    exact ⟨hcount, hthrottles, hlast⟩

/-- The first call beyond the quota is throttled and reported. -/
theorem guiCalls_over {n : ℕ} (hn : n = 4000) :
    ((balancerAfter (guiCalls n)).noteCall .gui 1).1 = (.throttle, some ⟨1, 4001, 1⟩) := by
  obtain ⟨hwindow, hthrottles, hlast⟩ := guiCalls_within hn.le
  generalize balancerAfter (guiCalls n) = s at hwindow hthrottles hlast ⊢
  have hcount : LoadBalancer.bump s.taskWindow 1 1 = 4001 := by
    rw [LoadBalancer.bump_apply, if_pos rfl, hwindow, hn]
    decide
  have hhits : LoadBalancer.bump s.taskThrottles 1 1 = 1 := by
    rw [LoadBalancer.bump_apply, if_pos rfl, hthrottles]
    decide
  unfold LoadBalancer.noteCall LoadBalancer.throttle
  dsimp only
  rw [if_neg (by decide), if_neg (by rw [hcount]; decide), if_pos (by rw [hcount]; decide),
    if_pos (.inl hlast), hcount, hhits]

/-- A task makes one call too many, which is throttled and reported, and the window ends. -/
theorem calls_metered_overQuota : ∃ es, Metered (es ++ [.call .gui 1, .tick 100]) ∧
    ((balancerAfter es).noteCall .gui 1).1 = (.throttle, some ⟨1, 4001, 1⟩) := by
  have hlength : ∀ n (es : List LoadEvent), (guiCalls n ++ es).length = n + es.length :=
    fun n es => by rw [guiCalls, List.length_append, List.length_replicate]
  have hmetered : ∀ n < 2 ^ 31, Metered (guiCalls n ++ [.call .gui 1, .tick 100]) := fun n hn =>
    calls_metered fun _ hpre => Nat.lt_of_le_of_lt (CallWindow.length_calls_le _)
      (Nat.lt_of_le_of_lt hpre.length_le (by
        rw [hlength, List.length_cons, List.length_singleton]
        omega))
  exact ⟨guiCalls 4000, hmetered 4000 (by decide), guiCalls_over rfl⟩

end Tcmk
