import Tcmk.Lib.Mask
import Tcmk.Shell.Numbers
import Tcmk.Syscall.Contexts

/-!
# Signals (`signal.rs`)

`raise` marks a signal as pending. When its target returns from a system call, `deliver_pending`
takes the lowest pending signal that is not ignored, and either ends the program or saves the
context of the program and turns it to the handler. `sigreturn` puts the saved context back. There
is one place to save a context for each task, so nothing is delivered while a handler runs.

The kernel is that of `Sched/Machine.lean`, and its steps come between the steps of the signals in
any order. `raise` looks at its target before it marks the signal, and a kernel task can lose the
processor in between; `post` is the mark alone, whatever has become of the target.
-/

namespace Tcmk

open Lib

/-- `SIG_DFL`. -/
def sigDfl : ℕ := 0

/-- `SIG_IGN`. -/
def sigIgn : ℕ := 1

structure Disposition where
  handler : ℕ
  restorer : ℕ
  deriving DecidableEq

/-- `Disposition::DEFAULT`. -/
def Disposition.default : Disposition := ⟨sigDfl, 0⟩

inductive SignalError
  | invalidSignal
  | noSuchTask
  | uncatchable
  deriving DecidableEq

/-- The tables of `signal.rs`, and which tasks run a program in Ring 3. -/
structure Signalling (Context : Type) extends Signals where
  dispositions : ℕ → ℕ → Disposition
  saved : ℕ → Context
  inHandler : ℕ → Bool
  delivered : ℕ
  inUserMode : ℕ → Bool

/-- How a system call ends. -/
inductive Outcome (Frame : Type)
  /-- Ring 3 goes on with this frame -/
  | returns (frame : Frame)
  /-- Ring 3 goes on in the handler of a signal -/
  | handles (signo : ℕ) (frame : Frame)
  /-- `exit_current_task(128 + signo)` -/
  | exits (signo : ℕ)
  deriving DecidableEq

/-- What the loop of `deliver_pending` finds. -/
inductive Found
  | nothing
  | default (signo : ℕ)
  | handler (signo : ℕ) (d : Disposition)

namespace Signalling

variable {Frame Context : Type}

/-- The tables before the first task. -/
def boot (zero : Context) : Signalling Context where
  kernel := Kernel.boot
  pending := fun _ => 0
  sent := 0
  dispositions := fun _ _ => .default
  saved := fun _ => zero
  inHandler := fun _ => false
  delivered := 0
  inUserMode := fun _ => false

/-- `current_id`. -/
def current (s : Signalling Context) : ℕ := s.kernel.sched.current

/-- `PENDING[target].fetch_or(1 << signo)`. -/
def post (s : Signalling Context) (target signo : ℕ) : Signalling Context :=
  { s with pending := Function.update s.pending target (s.pending target ||| maskOf signo) }

/-- `set_handler` for the current task. -/
def setHandler (s : Signalling Context) (accessible : ℕ → Bool) (signo : UInt32) (d : Disposition) :
    Except SignalError ℕ × Signalling Context :=
  if ¬(1 ≤ signo ∧ signo ≤ maxSignal) then (.error .invalidSignal, s)
  else if signo = sigkill then (.error .uncatchable, s)
  else if s.current ≥ maxTasks then (.error .noSuchTask, s)
  else if d.handler ≠ sigDfl ∧ d.handler ≠ sigIgn ∧
    ¬(accessible d.handler ∧ accessible d.restorer) then
    (.error .invalidSignal, s)
  else
    (.ok (s.dispositions s.current signo.toNat).handler, { s with
      dispositions := Function.update s.dispositions s.current
        (Function.update (s.dispositions s.current) signo.toNat d) })

/-- `clone_into`. -/
def cloneInto (s : Signalling Context) (child : ℕ) : Signalling Context :=
  if child ≥ maxTasks ∨ s.current ≥ maxTasks then s
  else
    { s with
      dispositions := Function.update s.dispositions child (s.dispositions s.current)
      inHandler := Function.update s.inHandler child false
      pending := Function.update s.pending child 0 }

/-- `reset`. -/
def reset (s : Signalling Context) (task : ℕ) : Signalling Context :=
  if task ≥ maxTasks then s
  else
    { s with
      dispositions := Function.update s.dispositions task fun _ => .default
      inHandler := Function.update s.inHandler task false
      pending := Function.update s.pending task 0 }

/-- The loop of `deliver_pending`: what it finds in a mask, and what it leaves of it. A mask has 32
bits, and each round clears one. -/
def search (dispositions : ℕ → Disposition) : ℕ → UInt32 → Found × UInt32
  | 0, mask => (.nothing, mask)
  | rounds + 1, mask =>
    if mask = 0 then (.nothing, mask)
    else
      let signo := trailingZeros mask
      let mask := mask &&& ~~~maskOf signo
      if (dispositions signo).handler = sigIgn then search dispositions rounds mask
      -- `default_terminates` is true of every signal.
      else if (dispositions signo).handler = sigDfl then (.default signo, mask)
      else (.handler signo (dispositions signo), mask)

section Delivery

variable (R : Registers Frame Context)

/-- `deliver_pending` at the end of a system call of the current task: the outcome, the program's
memory, and the tables. -/
def deliverPending (s : Signalling Context) (accessible : ℕ → Bool) (mem : ℕ → UInt8)
    (frame : Frame) : Outcome Frame × (ℕ → UInt8) × Signalling Context :=
  let task := s.current
  if ¬s.inUserMode task ∨ task ≥ maxTasks ∨ s.inHandler task then (.returns frame, mem, s)
  else
    let (found, mask) := search (s.dispositions task) 32 (s.pending task)
    let s := { s with pending := Function.update s.pending task mask }
    match found with
    | .nothing => (.returns frame, mem, s)
    | .default signo =>
      (.exits signo, mem, { s with
        delivered := s.delivered + 1
        kernel := s.kernel.after (.call (.setExitCode (128 + UInt32.ofNat signo))) })
    | .handler signo d =>
      let context := R.userContext frame
      let s := { s with saved := Function.update s.saved task context }
      match R.buildSignalFrame accessible mem context signo d.handler d.restorer with
      | none =>
        (.exits signo, mem, { s with
          kernel := s.kernel.after (.call (.setExitCode (128 + UInt32.ofNat signo))) })
      | some (mem, context) =>
        (.handles signo (R.setUserContext frame context), mem, { s with
          inHandler := Function.update s.inHandler task true
          delivered := s.delivered + 1 })

/-- `sigreturn`: the frame, if the current task is in a handler. -/
def sigreturn (s : Signalling Context) (frame : Frame) : Option Frame × Signalling Context :=
  let task := s.current
  if task ≥ maxTasks ∨ ¬s.inHandler task then (none, s)
  else
    (some (R.setUserContext frame (s.saved task)),
      { s with inHandler := Function.update s.inHandler task false })

end Delivery

end Signalling

/-! ## Runs -/

/-- A step, with what it answers. -/
inductive SignalEvent (Frame : Type)
  | kernel (e : KernelEvent)
  | raise (target : ℕ) (signo : UInt32) (raised : Raised)
  /-- the end of a `raise` -/
  | post (target signo : ℕ)
  /-- `set_current_in_user_mode` -/
  | userMode (on : Bool)
  /-- `set_handler`, by the system call of the task -/
  | signal (task : ℕ) (accessible : ℕ → Bool) (signo : UInt32) (d : Disposition)
  | clone (parent child : ℕ)
  | reset (task : ℕ)
  /-- `deliver_pending` -/
  | deliver (task : ℕ) (accessible : ℕ → Bool) (mem : ℕ → UInt8) (frame : Frame)
      (outcome : Outcome Frame)
  | sigreturn (task : ℕ) (frame : Frame) (result : Option Frame)

namespace Signalling

variable {Frame Context : Type} (R : Registers Frame Context)

def Enabled (s : Signalling Context) : SignalEvent Frame → Prop
  | .kernel e => s.kernel.Enabled e
  | .raise target signo raised => raised = (s.toSignals.raise target signo).1
  | .post target signo =>
    target < maxTasks ∧ 1 ≤ signo ∧ signo ≤ maxSignal.toNat ∧ signo ≠ sigkill.toNat
  | .userMode _ => True
  | .signal task _ _ _ | .clone task _ | .reset task => task = s.current
  | .deliver task accessible mem frame outcome =>
    task = s.current ∧ s.inUserMode task = true ∧
      outcome = (s.deliverPending R accessible mem frame).1
  | .sigreturn task frame result => task = s.current ∧ result = (s.sigreturn R frame).1

def after (s : Signalling Context) : SignalEvent Frame → Signalling Context
  | .kernel e => { s with kernel := s.kernel.after e }
  | .raise target signo _ => { s with toSignals := (s.toSignals.raise target signo).2 }
  | .post target signo => s.post target signo
  | .userMode on => { s with inUserMode := Function.update s.inUserMode s.current on }
  | .signal _ accessible signo d => (s.setHandler accessible signo d).2
  | .clone _ child => s.cloneInto child
  | .reset task => s.reset task
  | .deliver _ accessible mem frame _ => (s.deliverPending R accessible mem frame).2.2
  | .sigreturn _ frame _ => (s.sigreturn R frame).2

instance [DecidableEq Frame] (s : Signalling Context) (e : SignalEvent Frame) :
    Decidable (s.Enabled R e) := by
  cases e <;> unfold Enabled <;> infer_instance

/-- The signals that wait for a task. -/
def waiting (s : Signalling Context) (t : ℕ) : Finset ℕ := maskBits (s.pending t)

/-- Those that its dispositions do not ignore. -/
def heard (s : Signalling Context) (t : ℕ) : Finset ℕ :=
  (s.waiting t).filter fun signo => (s.dispositions t signo).handler ≠ sigIgn

/-- The context that the handler of a task has interrupted. -/
def interrupted (s : Signalling Context) (t : ℕ) : Option Context :=
  if s.inHandler t then some (s.saved t) else none

end Signalling

/-- One step. -/
def SignalStep {Frame Context : Type} (R : Registers Frame Context) (s : Signalling Context)
    (e : SignalEvent Frame) (s' : Signalling Context) : Prop :=
  s.Enabled R e ∧ s' = s.after R e

namespace Signalling

variable {Frame Context : Type} {R : Registers Frame Context} {s s' : Signalling Context}
  {e : SignalEvent Frame} {t signo : ℕ} {dispositions : ℕ → Disposition} {mask : UInt32}

/-! ## What `deliver_pending` does -/

/-- The lowest signal of a mask that is not ignored, and the signals above it. -/
inductive Finds (dispositions : ℕ → Disposition) (mask : UInt32) : Found × UInt32 → Prop
  | nothing (hnone : ∀ i ∈ maskBits mask, (dispositions i).handler = sigIgn) :
    Finds dispositions mask (.nothing, 0)
  | found (signo : ℕ) (f : Found) (rest : UInt32) (hmem : signo ∈ maskBits mask)
      (hheard : (dispositions signo).handler ≠ sigIgn)
      (hleast : ∀ i ∈ maskBits mask, i < signo → (dispositions i).handler = sigIgn)
      (hrest : maskBits rest = (maskBits mask).filter (signo < ·))
      (hf : f = if (dispositions signo).handler = sigDfl then .default signo
        else .handler signo (dispositions signo)) :
    Finds dispositions mask (f, rest)

theorem search_finds {rounds : ℕ} (h : (maskBits mask).card ≤ rounds) :
    Finds dispositions mask (search dispositions rounds mask) := by
  induction rounds generalizing mask with
  | zero =>
    have hempty : maskBits mask = ∅ := Finset.card_eq_zero.1 (Nat.le_zero.1 h)
    have hzero : mask = 0 := by
      by_contra hne
      exact (maskBits_nonempty hne).ne_empty hempty
    rw [search, hzero]
    exact .nothing (by simp)
  | succ rounds ih =>
    rw [search]
    dsimp only
    split_ifs with hzero hignored hdefault
    · rw [hzero]
      exact .nothing (by simp)
    · -- The lowest signal is ignored: what is found in the others is found in all.
      obtain ⟨hmem, hlow⟩ := isLeast_trailingZeros hzero
      rw [Finset.mem_coe] at hmem
      have hclear := maskBits_clear_lowest hzero
      have hcard : (maskBits (mask &&& ~~~maskOf (trailingZeros mask))).card ≤ rounds := by
        rw [hclear, Finset.card_erase_of_mem hmem]
        omega
      have hfound := ih hcard
      generalize search dispositions rounds (mask &&& ~~~maskOf (trailingZeros mask)) = r at hfound
      cases hfound with
      | nothing hnone =>
        refine .nothing fun i hi => ?_
        by_cases hi' : i = trailingZeros mask
        · rw [hi']
          exact hignored
        · exact hnone i (hclear ▸ Finset.mem_erase.2 ⟨hi', hi⟩)
      | found signo f rest hmem' hheard hleast hrest hf =>
        rw [hclear] at hmem' hleast hrest
        have habove : trailingZeros mask < signo :=
          lt_of_le_of_ne (hlow (Finset.mem_coe.2 (Finset.mem_of_mem_erase hmem')))
            (Finset.ne_of_mem_erase hmem').symm
        refine .found signo f rest (Finset.mem_of_mem_erase hmem') hheard (fun i hi hlt => ?_) ?_ hf
        · by_cases hi' : i = trailingZeros mask
          · rw [hi']
            exact hignored
          · exact hleast i (Finset.mem_erase.2 ⟨hi', hi⟩) hlt
        · rw [hrest]
          ext i
          simp only [Finset.mem_filter, Finset.mem_erase]
          constructor
          · exact fun hi => ⟨hi.1.2, hi.2⟩
          · exact fun hi => ⟨⟨(habove.trans hi.2).ne', hi.1⟩, hi.2⟩
    all_goals
      obtain ⟨hmem, hlow⟩ := isLeast_trailingZeros hzero
      rw [Finset.mem_coe] at hmem
      refine .found (trailingZeros mask) _ _ hmem hignored (fun i hi hlt => ?_) ?_ ?_
      · exact absurd (hlow (Finset.mem_coe.2 hi)) (not_le.2 hlt)
      · rw [maskBits_clear_lowest hzero]
        ext i
        simp only [Finset.mem_filter, Finset.mem_erase]
        constructor
        · exact fun hi => ⟨hi.2, lt_of_le_of_ne (hlow (Finset.mem_coe.2 hi.2)) (Ne.symm hi.1)⟩
        · exact fun hi => ⟨hi.2.ne', hi.1⟩
      · simp [hdefault]

theorem card_maskBits : (maskBits mask).card ≤ 32 :=
  (Finset.card_filter_le _ _).trans (Finset.card_range 32).le

/-- What `deliver_pending` does for a task in Ring 3. -/
inductive Delivers (R : Registers Frame Context) (s : Signalling Context) (accessible : ℕ → Bool)
    (mem : ℕ → UInt8) (frame : Frame) : Outcome Frame → Signalling Context → Prop
  | busy (hbusy : s.inHandler s.current = true) : Delivers R s accessible mem frame
    (.returns frame) s
  | nothing (hfree : s.inHandler s.current = false) (hnone : s.heard s.current = ∅) :
    Delivers R s accessible mem frame (.returns frame)
      { s with pending := Function.update s.pending s.current 0 }
  | exits (signo : ℕ) (s' : Signalling Context) (hfree : s.inHandler s.current = false)
      (hleast : IsLeast (s.heard s.current : Set ℕ) signo)
      (hwaiting : s'.waiting =
        Function.update s.waiting s.current ((s.waiting s.current).filter (signo < ·)))
      (hdispositions : s'.dispositions = s.dispositions) (hhandler : s'.inHandler = s.inHandler)
      (hsaved : ∀ i ≠ s.current, s'.saved i = s.saved i) :
    Delivers R s accessible mem frame (.exits signo) s'
  | handles (signo : ℕ) (mem' : ℕ → UInt8) (context : Context) (s' : Signalling Context)
      (hfree : s.inHandler s.current = false)
      (hleast : IsLeast (s.heard s.current : Set ℕ) signo)
      (hframe : R.buildSignalFrame accessible mem (R.userContext frame) signo
        (s.dispositions s.current signo).handler (s.dispositions s.current signo).restorer =
          some (mem', context))
      (hwaiting : s'.waiting =
        Function.update s.waiting s.current ((s.waiting s.current).filter (signo < ·)))
      (hdispositions : s'.dispositions = s.dispositions)
      (hhandler : s'.inHandler = Function.update s.inHandler s.current true)
      (hsaved : s'.saved = Function.update s.saved s.current (R.userContext frame)) :
    Delivers R s accessible mem frame (.handles signo (R.setUserContext frame context)) s'

theorem waiting_update (s : Signalling Context) (i : ℕ) (rest : UInt32) :
    ({ s with pending := Function.update s.pending i rest } : Signalling Context).waiting =
      Function.update s.waiting i (maskBits rest) := by
  funext j
  simp only [waiting, Function.update_apply]
  split_ifs <;> rfl

theorem deliverPending_delivers (accessible : ℕ → Bool) (mem : ℕ → UInt8) (frame : Frame)
    (huser : s.inUserMode s.current = true) (hmax : s.current < maxTasks) :
    Delivers R s accessible mem frame (s.deliverPending R accessible mem frame).1
      (s.deliverPending R accessible mem frame).2.2 := by
  unfold deliverPending
  dsimp only
  split_ifs with hnot
  · rcases hnot with hnot | hnot | hbusy
    · exact absurd huser hnot
    · exact absurd hmax (not_lt.2 hnot)
    · exact .busy hbusy
  have hfree : s.inHandler s.current = false := Bool.eq_false_iff.2 fun h => hnot (.inr (.inr h))
  have hsearch : Finds (s.dispositions s.current) (s.pending s.current) _ :=
    search_finds card_maskBits
  generalize search (s.dispositions s.current) 32 (s.pending s.current) = r at hsearch
  cases hsearch with
  | nothing hnone =>
    refine .nothing hfree ?_
    exact Finset.filter_eq_empty_iff.2 fun i hi => not_not.2 (hnone i hi)
  | found signo f rest hmem hheard hleast hrest hf =>
    have hheard' : IsLeast (s.heard s.current : Set ℕ) signo := by
      refine ⟨Finset.mem_coe.2 (Finset.mem_filter.2 ⟨hmem, hheard⟩), fun i hi => ?_⟩
      obtain ⟨hi, hnot'⟩ := Finset.mem_filter.1 (Finset.mem_coe.1 hi)
      by_contra hlt
      exact hnot' (hleast i hi (not_le.1 hlt))
    have hwaiting := (waiting_update s s.current rest).trans
      (congrArg (Function.update s.waiting s.current) hrest)
    by_cases hdefault : (s.dispositions s.current signo).handler = sigDfl
    · rw [if_pos hdefault] at hf
      subst hf
      exact .exits signo _ hfree hheard' hwaiting rfl rfl fun _ _ => rfl
    · rw [if_neg hdefault] at hf
      subst hf
      dsimp only
      split
      · exact .exits signo _ hfree hheard' hwaiting rfl rfl fun i hi => Function.update_of_ne hi ..
      next mem' context hframe =>
        exact .handles signo mem' context _ hfree hheard' hframe hwaiting rfl rfl rfl

end Signalling

/-! ## What a step does to a task -/

namespace SignalEvent

variable {Frame Context : Type}

/-- The task and the signal that becomes pending for it. -/
def posted : SignalEvent Frame → Option (ℕ × ℕ)
  | .raise target signo raised =>
    if raised = .delivered ∧ signo ≠ sigkill then some (target, signo.toNat) else none
  | .post target signo => some (target, signo)
  | _ => none

/-- The task and the signal that is delivered to it. -/
def delivered : SignalEvent Frame → Option (ℕ × ℕ)
  | .deliver task _ _ _ (.handles signo _) | .deliver task _ _ _ (.exits signo) =>
    some (task, signo)
  | _ => none

/-- A program starts with no signals. -/
def clears (t : ℕ) : SignalEvent Frame → Bool
  | .clone parent child => parent < maxTasks && child == t
  | .reset task => task == t
  | _ => false

/-- The context that the task's program leaves for a handler, or `none` if it goes back to the one
that it has left. -/
def interrupts (R : Registers Frame Context) (t : ℕ) : SignalEvent Frame → Option (Option Context)
  | .deliver task _ _ frame (.handles _ _) =>
    if task = t then some (some (R.userContext frame)) else none
  | .sigreturn task _ (some _) => if task = t then some none else none
  | .clone parent child => if parent < maxTasks ∧ child = t then some none else none
  | .reset task => if task = t then some none else none
  | _ => none

end SignalEvent

namespace Signals

/-- What `raise` leaves in the mask of its target, by the way it takes. -/
theorem raise_pending (g : Signals) (target : ℕ) (signo : UInt32) :
    (g.raise target signo).2.pending =
        (if (g.raise target signo).1 = .delivered ∧ signo ≠ sigkill then
          Function.update g.pending target (g.pending target ||| maskOf signo.toNat)
        else g.pending) ∧
      ((g.raise target signo).1 = .delivered → signo.toNat < 32) := by
  have hmask : maskOf signo.toNat = 1 <<< signo := by rw [maskOf, UInt32.ofNat_toNat]
  rw [hmask]
  unfold raise
  by_cases hvalid : 1 ≤ signo ∧ signo ≤ maxSignal
  · rw [if_neg (not_not.2 hvalid)]
    have hlt : signo.toNat < 32 := lt_of_le_of_lt (UInt32.le_iff_toNat_le.1 hvalid.2) (by decide)
    by_cases hmax : target ≥ maxTasks
    · simp [hmax]
    by_cases hused : (g.kernel.sched.tasks target).state = .unused ∨
        (g.kernel.sched.tasks target).state = .terminated
    · simp [hmax, hused]
    rw [if_neg hmax, if_neg hused]
    dsimp only
    by_cases hkill : signo = sigkill
    · rw [if_pos hkill]
      by_cases hself : target = g.kernel.sched.current
      · rw [if_pos hself]
        simp [exitCurrentTask]
      · rw [if_neg hself]
        cases g.kernel.sched.terminate target <;> simp [hkill, sigkill]
    · rw [if_neg hkill]
      simp [hkill, hlt]
  · rw [if_pos hvalid]
    simp

end Signals

namespace Signalling

variable {Frame Context : Type} {R : Registers Frame Context} {s s' : Signalling Context}
  {e : SignalEvent Frame} {t signo : ℕ}

theorem waiting_post (hsigno : signo < 32) (i : ℕ) :
    maskBits (Function.update s.pending i (s.pending i ||| maskOf signo) t) =
      if t = i then insert signo (s.waiting t) else s.waiting t := by
  rw [Function.update_apply]
  split_ifs with hi
  · rw [hi, maskBits_or hsigno]
    rfl
  · rfl

/-- What becomes of the signals that wait for a task. -/
inductive Waits (R : Registers Frame Context) (t : ℕ) (s : Signalling Context)
    (e : SignalEvent Frame) (w : Finset ℕ) : Prop
  | same (hw : w = s.waiting t) (hclears : e.clears t = false)
      (hposted : ∀ n, e.posted ≠ some (t, n))
      (hdelivered : ∀ n, e.delivered ≠ some (t, n))
      (hbusy : ∀ accessible mem frame outcome, e = .deliver t accessible mem frame outcome →
        s.inHandler t = true)
  | posted (signo : ℕ) (hw : w = insert signo (s.waiting t)) (hclears : e.clears t = false)
      (hposted : e.posted = some (t, signo)) (hdelivered : e.delivered = none)
      (hbusy : ∀ accessible mem frame outcome, e ≠ .deliver t accessible mem frame outcome)
  | cleared (hw : w = ∅) (hclears : e.clears t = true) (hposted : e.posted = none)
      (hdelivered : e.delivered = none)
  | emptied (hw : w = ∅) (hnone : s.heard t = ∅) (hposted : e.posted = none)
      (hdelivered : e.delivered = none)
  | delivered (signo : ℕ) (hw : w = (s.waiting t).filter (signo < ·))
      (hleast : IsLeast (s.heard t : Set ℕ) signo) (hclears : e.clears t = false)
      (hposted : e.posted = none) (hdelivered : e.delivered = some (t, signo))

theorem waits_after (henabled : s.Enabled R e) (ht : t < maxTasks) :
    Waits R t s e ((s.after R e).waiting t) := by
  cases e with
  | kernel e =>
    exact .same rfl rfl (by simp [SignalEvent.posted]) (by simp [SignalEvent.delivered]) (by simp)
  | userMode on =>
    exact .same rfl rfl (by simp [SignalEvent.posted]) (by simp [SignalEvent.delivered]) (by simp)
  | raise target signo raised =>
    obtain rfl : raised = (s.toSignals.raise target signo).1 := henabled
    obtain ⟨hpending, hlt⟩ := s.toSignals.raise_pending target signo
    have hw : (s.after R (.raise target signo (s.toSignals.raise target signo).1)).waiting t =
      maskBits ((s.toSignals.raise target signo).2.pending t) := rfl
    by_cases hmark : (s.toSignals.raise target signo).1 = .delivered ∧ signo ≠ sigkill
    · rw [if_pos hmark] at hpending
      rw [hpending, waiting_post (hlt hmark.1)] at hw
      split_ifs at hw with htarget
      · refine .posted signo.toNat hw rfl ?_ rfl (by simp)
        rw [SignalEvent.posted, if_pos hmark, htarget]
      · refine .same hw rfl (fun n => ?_) (by simp [SignalEvent.delivered]) (by simp)
        rw [SignalEvent.posted, if_pos hmark]
        simp [Ne.symm htarget]
    · rw [if_neg hmark] at hpending
      rw [hpending] at hw
      refine .same hw rfl (fun n => ?_) (by simp [SignalEvent.delivered]) (by simp)
      rw [SignalEvent.posted, if_neg hmark]
      simp
  | post target signo =>
    obtain ⟨-, -, hle, -⟩ := henabled
    have hw : (s.after R (.post target signo)).waiting t = _ :=
      waiting_post (lt_of_le_of_lt hle (by decide)) target
    split_ifs at hw with htarget
    · exact .posted signo hw rfl (by rw [SignalEvent.posted, htarget]) rfl (by simp)
    · exact .same hw rfl (by simp [SignalEvent.posted, Ne.symm htarget])
        (by simp [SignalEvent.delivered]) (by simp)
  | signal task accessible signo d =>
    refine .same ?_ rfl (by simp [SignalEvent.posted]) (by simp [SignalEvent.delivered]) (by simp)
    simp only [after, setHandler]
    split_ifs <;> rfl
  | clone parent child =>
    obtain rfl : parent = s.current := henabled
    simp only [after, cloneInto]
    by_cases hcleared : s.current < maxTasks ∧ child = t
    · obtain ⟨hparent, rfl⟩ := hcleared
      rw [if_neg (by omega)]
      refine .cleared ?_ (by simp [SignalEvent.clears, hparent]) rfl rfl
      simp only [waiting, Function.update_self, maskBits_zero]
    · refine .same ?_ (by simpa [SignalEvent.clears] using hcleared) (by simp [SignalEvent.posted])
        (by simp [SignalEvent.delivered]) (by simp)
      split_ifs with hout
      · rfl
      · simp only [waiting]
        rw [Function.update_of_ne fun h => hcleared ⟨by omega, h.symm⟩]
  | reset task =>
    simp only [after, reset]
    by_cases hcleared : task = t
    · rw [hcleared, if_neg (by omega)]
      refine .cleared ?_ (by simp [SignalEvent.clears]) rfl rfl
      simp only [waiting, Function.update_self, maskBits_zero]
    · refine .same ?_ (by simpa [SignalEvent.clears] using hcleared) (by simp [SignalEvent.posted])
        (by simp [SignalEvent.delivered]) (by simp)
      split_ifs with hout
      · rfl
      · simp only [waiting]
        rw [Function.update_of_ne fun h => hcleared h.symm]
  | sigreturn task frame result =>
    refine .same ?_ rfl (by simp [SignalEvent.posted]) (by simp [SignalEvent.delivered]) (by simp)
    simp only [after, sigreturn]
    split_ifs <;> rfl
  | deliver task accessible mem frame outcome =>
    obtain ⟨rfl, huser, rfl⟩ := henabled
    simp only [after]
    by_cases hmax : s.current < maxTasks
    · have hdelivers := deliverPending_delivers (R := R) accessible mem frame huser hmax
      by_cases hcurrent : s.current = t
      · subst hcurrent
        generalize (s.deliverPending R accessible mem frame).1 = outcome at hdelivers ⊢
        generalize (s.deliverPending R accessible mem frame).2.2 = s' at hdelivers ⊢
        cases hdelivers with
        | busy hbusy =>
          exact .same rfl rfl (by simp [SignalEvent.posted]) (by simp [SignalEvent.delivered])
            fun _ _ _ _ _ => hbusy
        | nothing hfree hnone =>
          refine .emptied ?_ hnone rfl rfl
          simp only [waiting, Function.update_self, maskBits_zero]
        | exits signo _ hfree hleast hwaiting =>
          exact .delivered signo (by rw [hwaiting, Function.update_self]) hleast rfl rfl rfl
        | handles signo mem' context _ hfree hleast hframe hwaiting =>
          exact .delivered signo (by rw [hwaiting, Function.update_self]) hleast rfl rfl rfl
      · have hne : ∀ n, (SignalEvent.deliver s.current accessible mem frame
            (s.deliverPending R accessible mem frame).1).delivered ≠ some (t, n) := by
          intro n
          cases (s.deliverPending R accessible mem frame).1 <;>
            simp [SignalEvent.delivered, hcurrent]
        refine .same ?_ rfl (by simp [SignalEvent.posted]) hne (by simp [hcurrent])
        generalize (s.deliverPending R accessible mem frame).1 = outcome at hdelivers
        generalize (s.deliverPending R accessible mem frame).2.2 = s' at hdelivers ⊢
        cases hdelivers with
        | busy hbusy => rfl
        | nothing hfree hnone => rw [waiting_update, Function.update_of_ne (Ne.symm hcurrent)]
        | exits signo _ hfree hleast hwaiting =>
          rw [hwaiting, Function.update_of_ne (Ne.symm hcurrent)]
        | handles signo mem' context _ hfree hleast hframe hwaiting =>
          rw [hwaiting, Function.update_of_ne (Ne.symm hcurrent)]
    · have hreturns : s.deliverPending R accessible mem frame = (.returns frame, mem, s) := by
        unfold deliverPending
        exact if_pos (.inr (.inl (not_lt.1 hmax)))
      rw [hreturns]
      refine .same rfl rfl (by simp [SignalEvent.posted]) (by simp [SignalEvent.delivered]) ?_
      intro accessible' mem' frame' outcome' heq
      exact absurd (by simpa using (SignalEvent.deliver.inj heq).1) fun h : s.current = t =>
        hmax (h ▸ ht)

end Signalling

end Tcmk
