import Tcmk.Lib.Latest
import Tcmk.Process.Signals

/-!
# Signals over whole runs

Whatever the tasks raise, handle and do in between, and in whatever order they are scheduled:

* a `sigreturn` goes back to the context that the last delivery to the task has interrupted, and is
  refused if there is none (`sigreturn_resumes`);
* a signal is delivered once for each time it is raised, at most (`delivered_once`);
* a signal that waits for a task is overtaken only by lower ones (`delivered_in_turn`).
-/

namespace Tcmk

open Lib

namespace SignalEvent

variable {Frame : Type}

/-- The task ignores the signal from now on. -/
def ignores (t signo : ℕ) : SignalEvent Frame → Bool
  | .signal task _ n d => task == t && n.toNat == signo && d.handler == sigIgn
  | _ => false

/-- A signal below `signo` becomes pending for the task. -/
def postedBelow (t signo : ℕ) (e : SignalEvent Frame) : Bool :=
  match e.posted with
  | some (target, n) => target == t && decide (n < signo)
  | none => false

/-- The task returns from a system call. -/
def returning (t : ℕ) : SignalEvent Frame → Bool
  | .deliver task _ _ _ _ => task == t
  | _ => false

/-- The task's handler has returned, or there is none any more. -/
def leaves (t : ℕ) : SignalEvent Frame → Bool
  | .sigreturn task _ (some _) => task == t
  | e => e.clears t

end SignalEvent

namespace Signalling

variable {Frame Context : Type} {R : Registers Frame Context} {s s' : Signalling Context}
  {e : SignalEvent Frame} {es : List (SignalEvent Frame)} {t signo : ℕ}

/-! ## The interrupted context -/

/-- The program of one task is in no handler any more. -/
theorem interrupted_of_left {i : ℕ} (hhandler : s'.inHandler = Function.update s.inHandler i false)
    (hsaved : s'.saved = s.saved) : s'.interrupted t = if t = i then none else s.interrupted t := by
  unfold interrupted
  rw [hhandler, hsaved, Function.update_apply]
  split_ifs <;> simp_all

/-- A delivery to another task. -/
theorem interrupted_deliver_of_ne {accessible : ℕ → Bool} {mem : ℕ → UInt8} {frame : Frame}
    (huser : s.inUserMode s.current = true) (hne : t ≠ s.current) :
    (s.deliverPending R accessible mem frame).2.2.interrupted t = s.interrupted t := by
  by_cases hmax : s.current < maxTasks
  · have hdelivers := deliverPending_delivers (R := R) accessible mem frame huser hmax
    generalize (s.deliverPending R accessible mem frame).1 = outcome at hdelivers
    generalize (s.deliverPending R accessible mem frame).2.2 = s' at hdelivers ⊢
    unfold interrupted
    cases hdelivers with
    | busy => rfl
    | nothing => rfl
    | exits signo _ _ _ _ _ hhandler hsaved => rw [hhandler, hsaved t hne]
    | handles signo mem' context _ _ _ _ _ _ hhandler hsaved =>
      rw [hhandler, hsaved, Function.update_of_ne hne, Function.update_of_ne hne]
  · have hreturns : s.deliverPending R accessible mem frame = (.returns frame, mem, s) := by
      unfold deliverPending
      exact if_pos (.inr (.inl (not_lt.1 hmax)))
    rw [hreturns]

/-- The context that a task has left for a handler is what the events say. -/
theorem interrupted_after (ht : t < maxTasks) (hstep : SignalStep R s e s') :
    (e.interrupts R t).getD (s.interrupted t) = s'.interrupted t := by
  obtain ⟨henabled, rfl⟩ := hstep
  cases e with
  | kernel e => rfl
  | raise target signo raised => rfl
  | post target signo => rfl
  | userMode on => rfl
  | signal task accessible signo d =>
    simp only [SignalEvent.interrupts, Option.getD_none, after, setHandler]
    split_ifs <;> rfl
  | clone parent child =>
    obtain rfl : parent = s.current := henabled
    simp only [SignalEvent.interrupts, after, cloneInto]
    by_cases hchild : s.current < maxTasks ∧ child = t
    · obtain ⟨hparent, rfl⟩ := hchild
      rw [if_pos ⟨hparent, rfl⟩, if_neg (by omega)]
      exact Eq.symm (Eq.trans (interrupted_of_left (s := s) rfl rfl) (if_pos rfl))
    · rw [if_neg hchild]
      split_ifs with hout
      · rfl
      · have hne : t ≠ child := fun h => hchild ⟨by omega, h.symm⟩
        exact Eq.symm (Eq.trans (interrupted_of_left (s := s) rfl rfl) (if_neg hne))
  | reset task =>
    simp only [SignalEvent.interrupts, after, reset]
    by_cases htask : task = t
    · rw [if_pos htask, htask, if_neg (by omega)]
      exact Eq.symm (Eq.trans (interrupted_of_left (s := s) rfl rfl) (if_pos rfl))
    · rw [if_neg htask]
      split_ifs with hout
      · rfl
      · exact Eq.symm (Eq.trans (interrupted_of_left (s := s) rfl rfl) (if_neg (Ne.symm htask)))
  | sigreturn task frame result =>
    obtain ⟨rfl, rfl⟩ := henabled
    simp only [after, sigreturn]
    by_cases hnot : s.current ≥ maxTasks ∨ ¬s.inHandler s.current
    · rw [if_pos hnot]
      rfl
    · rw [if_neg hnot]
      simp only [SignalEvent.interrupts]
      split_ifs with htask
      · rw [htask]
        exact Eq.symm (Eq.trans (interrupted_of_left (s := s) rfl rfl) (if_pos rfl))
      · exact Eq.symm (Eq.trans (interrupted_of_left (s := s) rfl rfl) (if_neg (Ne.symm htask)))
  | deliver task accessible mem frame outcome =>
    obtain ⟨rfl, huser, rfl⟩ := henabled
    simp only [after]
    by_cases htask : s.current = t
    · subst htask
      have hdelivers := deliverPending_delivers (R := R) accessible mem frame huser ht
      generalize (s.deliverPending R accessible mem frame).1 = outcome at hdelivers ⊢
      generalize (s.deliverPending R accessible mem frame).2.2 = s' at hdelivers ⊢
      unfold interrupted
      cases hdelivers with
      | busy => rfl
      | nothing => rfl
      | exits signo _ hfree _ _ _ hhandler hsaved =>
        rw [hhandler, hfree]
        rfl
      | handles signo mem' context _ _ _ _ _ _ hhandler hsaved =>
        rw [hhandler, hsaved, Function.update_self, Function.update_self]
        simp [SignalEvent.interrupts]
    · rw [interrupted_deliver_of_ne huser (Ne.symm htask)]
      cases (s.deliverPending R accessible mem frame).1 <;> simp [SignalEvent.interrupts, htask]

/-- What `sigreturn` answers. -/
theorem sigreturn_eq (frame : Frame) (hmax : s.current < maxTasks) :
    (s.sigreturn R frame).1 = (s.interrupted s.current).map (R.setUserContext frame) := by
  unfold sigreturn interrupted
  dsimp only
  by_cases hhandler : s.inHandler s.current = true
  · rw [if_neg (by simp [hhandler, hmax]), if_pos hhandler]
    rfl
  · rw [if_pos (.inr hhandler), if_neg hhandler]
    rfl

/-- A handler's context is a copy of a frame. -/
theorem interrupts_eq_some {c : Context} (h : e.interrupts R t = some (some c)) :
    ∃ accessible mem frame signo frame',
    e = .deliver t accessible mem frame (.handles signo frame') ∧
      c = R.userContext frame := by
  cases e with
  | deliver task accessible mem frame outcome =>
    cases outcome with
    | handles signo frame' =>
      simp only [SignalEvent.interrupts] at h
      split_ifs at h with htask
      rw [htask]
      exact ⟨accessible, mem, frame, signo, frame', rfl, (Option.some.inj (Option.some.inj h)).symm⟩
    | _ => cases h
  | sigreturn task frame result =>
    cases result with
    | none => cases h
    | some frame' =>
      simp only [SignalEvent.interrupts] at h
      split_ifs at h
      cases Option.some.inj h
  | clone parent child =>
    simp only [SignalEvent.interrupts] at h
    split_ifs at h
    cases Option.some.inj h
  | reset task =>
    simp only [SignalEvent.interrupts] at h
    split_ifs at h
    cases Option.some.inj h
  | _ => cases h

/-- An event that does not interrupt leaves alone what is interrupted, or ends it. -/
theorem interrupts_eq_none_iff : e.interrupts R t = none ↔
    e.leaves t = false ∧ ∀ accessible mem frame signo frame',
      e ≠ .deliver t accessible mem frame (.handles signo frame') := by
  cases e with
  | deliver task accessible mem frame outcome =>
    cases outcome with
    | handles signo frame' =>
      simp only [SignalEvent.interrupts, SignalEvent.leaves, SignalEvent.clears, true_and,
        ite_eq_right_iff, reduceCtorEq, imp_false]
      constructor
      · intro htask _ _ _ _ _ heq
        exact htask (SignalEvent.deliver.inj heq).1
      · intro h htask
        exact h accessible mem frame signo frame' (by rw [htask])
    | _ => simp [SignalEvent.interrupts, SignalEvent.leaves, SignalEvent.clears]
  | sigreturn task frame result =>
    cases result <;> simp [SignalEvent.interrupts, SignalEvent.leaves, SignalEvent.clears]
  | clone parent child => simp [SignalEvent.interrupts, SignalEvent.leaves, SignalEvent.clears]
  | reset task => simp [SignalEvent.interrupts, SignalEvent.leaves, SignalEvent.clears]
  | _ => simp [SignalEvent.interrupts, SignalEvent.leaves, SignalEvent.clears]

/-- **A handler returns to where it came from.** Let any tasks have raised, handled and delivered
signals, forked and started programs. If a task then calls `sigreturn`, it goes on with a context
`c` exactly if `c` is what the last delivery to it has interrupted, and no `sigreturn` of it, no new
program and no other delivery has come since. -/
theorem sigreturn_resumes {arch : Arch} {zero : arch.Context} {es : List (SignalEvent arch.Frame)}
    {s s' : Signalling arch.Context} {t : ℕ} {frame : arch.Frame} {result : Option arch.Frame}
    (ht : t < maxTasks) (hrun : Run (SignalStep arch.registers) (boot zero) es s)
    (hstep : SignalStep arch.registers s (.sigreturn t frame result) s') (c : arch.Context) :
    result.map arch.registers.userContext = some c ↔
      ∃ es₁ accessible mem frame₀ signo frame₁ es₂,
        es = es₁ ++ .deliver t accessible mem frame₀ (.handles signo frame₁) :: es₂ ∧
          c = arch.registers.userContext frame₀ ∧
          ∀ e ∈ es₂, e.leaves t = false ∧ ∀ accessible mem frame signo frame',
            e ≠ .deliver t accessible mem frame (.handles signo frame') := by
  have hlatest : latest (SignalEvent.interrupts arch.registers t) none es = s.interrupted t :=
    hrun.latest (v := fun u => u.interrupted t) fun _ _ _ hst => interrupted_after ht hst
  obtain ⟨⟨rfl, hresult⟩, -⟩ := hstep
  -- What is written back is a copy of a frame, so it is what the frame then holds.
  have hanswer : result.map arch.registers.userContext = some c ↔
    s.interrupted s.current = some c := by
    rw [hresult, sigreturn_eq frame ht, Option.map_map]
    cases hinterrupted : s.interrupted s.current with
    | none => simp
    | some saved =>
      have hwritten := latest_eq_iff.1 (hlatest.trans hinterrupted)
      obtain ⟨-, e, -, -, he, -⟩ | ⟨-, habsurd⟩ := hwritten
      · obtain ⟨-, -, frame₀, -, -, -, rfl⟩ := interrupts_eq_some he
        rw [Option.map_some, Function.comp_apply, arch.registers.userContext_set]
      · cases habsurd
  rw [hanswer, ← hlatest, latest_eq_iff]
  constructor
  · intro h
    obtain ⟨es₁, e, es₂, rfl, he, hnone⟩ | ⟨-, habsurd⟩ := h
    · obtain ⟨accessible, mem, frame₀, signo, frame₁, rfl, rfl⟩ := interrupts_eq_some he
      exact ⟨es₁, accessible, mem, frame₀, signo, frame₁, es₂, rfl, rfl,
        fun e' he' => interrupts_eq_none_iff.1 (hnone e' he')⟩
    · cases habsurd
  · intro h
    obtain ⟨es₁, accessible, mem, frame₀, signo, frame₁, es₂, rfl, rfl, hnone⟩ := h
    refine .inl ⟨es₁, _, es₂, rfl, ?_, fun e' he' => interrupts_eq_none_iff.2 (hnone e' he')⟩
    simp [SignalEvent.interrupts]

/-- The pages of a small program. -/
def smallPages (a : ℕ) : Bool := 0xC00000 ≤ a && a < 0xC10000

/-- A program that has called `kill` for itself. -/
def callerFrame : I386.SyscallFrame :=
  ⟨1, 2, 3, 0, 4, 5, 6, 0, 0xC00100, 0x1B, 0x202, 0xC08000, 0x23⟩

/-- The handler is entered. -/
def enteredFrame : I386.SyscallFrame := { callerFrame with eip := 0xC00200, esp := 0xC07FEC }

/-- It has returned to its restorer, which has called `sigreturn`. -/
def restorerFrame : I386.SyscallFrame :=
  ⟨9, 9, 9, 0, 9, 9, 9, 119, 0xC00300, 0x1B, 0x202, 0xC07FF0, 0x23⟩

def emptyContext : I386.UserContext := ⟨0, 0, 0, 0, 0, 0, 0, 0, 0, 0⟩

/-- The program registers a handler, and is interrupted once. -/
def interruptedOnce : List (SignalEvent (Arch.Frame .i386)) :=
  [.kernel (.call (.spawn false)), .kernel (.call .yield), .userMode true,
    .signal 1 smallPages 10 ⟨0xC00200, 0xC00300⟩, .raise 1 10 .delivered,
    .deliver 1 smallPages (fun _ => 0) callerFrame (.handles 10 enteredFrame)]

/-- The tables while the handler runs. -/
def inHandlerOnce : Signalling (Arch.Context .i386) :=
  interruptedOnce.foldl (after Arch.i386.registers) (boot emptyContext)

theorem run_interruptedOnce : Run (SignalStep Arch.i386.registers)
    (boot emptyContext) interruptedOnce inHandlerOnce :=
  Run.of_plays (by decide +kernel : Plays (Enabled Arch.i386.registers) (after Arch.i386.registers)
    (boot emptyContext) interruptedOnce)

theorem sigreturn_resumes_once : ∃ es₁ accessible mem frame₀ signo frame₁ es₂,
    interruptedOnce = es₁ ++ .deliver 1 accessible mem frame₀ (.handles signo frame₁) :: es₂ ∧
      callerFrame.userContext = Arch.i386.registers.userContext frame₀ ∧
      ∀ e ∈ es₂, e.leaves 1 = false ∧ ∀ accessible mem frame signo frame',
        e ≠ .deliver 1 accessible mem frame (.handles signo frame') :=
  (@sigreturn_resumes .i386 emptyContext interruptedOnce inHandlerOnce _ 1 restorerFrame
    (some callerFrame)
    (by decide) run_interruptedOnce ⟨by decide +kernel, rfl⟩ callerFrame.userContext).1 rfl

/-! ## Signals that wait -/

/-- Is the signal waiting for the task? -/
def isWaiting (s : Signalling Context) (t signo : ℕ) : ℕ := if signo ∈ s.waiting t then 1 else 0

/-- A delivery takes a signal that waits, and only a `raise` brings one. -/
theorem isWaiting_after (signo : ℕ) (ht : t < maxTasks) (hstep : SignalStep R s e s') :
    (if e.delivered = some (t, signo) then 1 else 0) + s'.isWaiting t signo ≤
      (if e.posted = some (t, signo) then 1 else 0) + s.isWaiting t signo := by
  obtain ⟨henabled, rfl⟩ := hstep
  have hwaits := waits_after henabled ht
  unfold isWaiting
  generalize (s.after R e).waiting t = w at hwaits
  cases hwaits with
  | same hw _ hposted hdelivered _ => simp [hw, hposted, hdelivered]
  | posted n hw _ hposted hdelivered _ =>
    rw [hposted, hdelivered, hw]
    by_cases hn : n = signo
    · subst hn
      simp
    · simp [hn, Ne.symm hn]
  | cleared hw _ hposted hdelivered => simp [hw, hposted, hdelivered]
  | emptied hw _ hposted hdelivered => simp [hw, hposted, hdelivered]
  | delivered n hw hleast _ hposted hdelivered =>
    rw [hposted, hdelivered, hw]
    by_cases hn : n = signo
    · subst hn
      have hmem : n ∈ s.waiting t := (Finset.mem_filter.1 (Finset.mem_coe.1 hleast.1)).1
      simp [hmem]
    · simp only [Option.some.injEq, Prod.mk.injEq, hn, and_false, if_false, reduceCtorEq, zero_add,
        Finset.mem_filter]
      split_ifs <;> simp_all

/-- Only a signal that can be handled becomes pending. -/
theorem posted_catchable (hstep : SignalStep R s e s') (h : e.posted = some (t, signo)) :
    1 ≤ signo ∧ signo ≤ maxSignal.toNat ∧ signo ≠ sigkill.toNat := by
  obtain ⟨henabled, -⟩ := hstep
  cases e with
  | post target n =>
    obtain ⟨-, rfl⟩ := Prod.mk.inj (Option.some.inj h)
    exact henabled.2
  | raise target n raised =>
    simp only [SignalEvent.posted] at h
    split_ifs at h with hmark
    obtain ⟨-, rfl⟩ := Prod.mk.inj (Option.some.inj h)
    obtain rfl : raised = (s.toSignals.raise target n).1 := henabled
    have hvalid : 1 ≤ n ∧ n ≤ maxSignal := by
      by_contra hnot
      unfold Signals.raise at hmark
      rw [if_pos hnot] at hmark
      cases hmark.1
    exact ⟨UInt32.le_iff_toNat_le.1 hvalid.1, UInt32.le_iff_toNat_le.1 hvalid.2,
      fun heq => hmark.2 (UInt32.toNat_inj.1 heq)⟩
  | _ => cases h

/-- **No signal is delivered twice.** Since the kernel has started, a signal has been delivered to a
task or waits for it at most as often as it has been raised for it. SIGKILL is never delivered. -/
theorem delivered_once {arch : Arch} {zero : arch.Context} {es : List (SignalEvent arch.Frame)}
    {s : Signalling arch.Context} {t : ℕ} (ht : t < maxTasks)
    (hrun : Run (SignalStep arch.registers) (boot zero) es s) (signo : ℕ) :
    (es.countP fun e => e.delivered = some (t, signo)) + (if signo ∈ s.waiting t then 1 else 0) ≤
        (es.countP fun e => e.posted = some (t, signo)) ∧
      ((∃ e ∈ es, e.delivered = some (t, signo)) →
        1 ≤ signo ∧ signo ≤ maxSignal.toNat ∧ signo ≠ sigkill.toNat) := by
  have hcount := hrun.countP_le (v := fun u => u.isWaiting t signo)
    (p := fun e => e.delivered = some (t, signo)) (q := fun e => e.posted = some (t, signo))
    fun u e u' hst => by simpa using isWaiting_after signo ht hst
  have hle : (es.countP fun e => e.delivered = some (t, signo)) + (if signo ∈ s.waiting t then 1
    else 0) ≤
      es.countP fun e => e.posted = some (t, signo) := by
    simpa [isWaiting, boot, waiting] using hcount
  refine ⟨hle, fun hdelivered => ?_⟩
  obtain ⟨e, he, hdelivered⟩ := hdelivered
  have hpos : 0 < es.countP fun e => e.delivered = some (t, signo) :=
    List.countP_pos_iff.2 ⟨e, he, decide_eq_true hdelivered⟩
  obtain ⟨e', he', hposted⟩ :=
    List.countP_pos_iff.1 (hpos.trans_le ((Nat.le_add_right _ _).trans hle))
  obtain ⟨es₁, es₂, rfl⟩ := List.append_of_mem he'
  obtain ⟨u, -, hrest⟩ := hrun.split
  cases hrest with
  | cons hst _ => exact posted_catchable hst (of_decide_eq_true hposted)

theorem delivered_once_interrupted :
    (interruptedOnce.countP fun e => e.delivered = some (1, 10)) +
        (if 10 ∈ inHandlerOnce.waiting 1 then 1 else 0) ≤
        (interruptedOnce.countP fun e => e.posted = some (1, 10)) ∧
      ((∃ e ∈ interruptedOnce, e.delivered = some (1, 10)) →
        1 ≤ 10 ∧ 10 ≤ maxSignal.toNat ∧ 10 ≠ sigkill.toNat) :=
  @delivered_once .i386 emptyContext interruptedOnce inHandlerOnce 1 (by decide)
    run_interruptedOnce 10

/-! ## Signals in their turn -/

/-- How often the task returns to Ring 3 outside of a handler. -/
def chances (R : Registers Frame Context) (t : ℕ) :
    Signalling Context → List (SignalEvent Frame) → ℕ
  | _, [] => 0
  | s, e :: es =>
    (if e.returning t ∧ s.inHandler t = false then 1 else 0) + chances R t (s.after R e) es

/-- The signals below `signo` that wait for the task. -/
def ahead (s : Signalling Context) (t signo : ℕ) : ℕ := ((s.waiting t).filter (· < signo)).card

/-- `set_handler` changes the disposition of one signal of the current task, or none. -/
theorem setHandler_dispositions (accessible : ℕ → Bool) (n : UInt32) (d : Disposition) :
    (s.setHandler accessible n d).2.dispositions = s.dispositions ∨
      (s.setHandler accessible n d).2.dispositions =
        Function.update s.dispositions s.current
          (Function.update (s.dispositions s.current) n.toNat d) := by
  unfold setHandler
  split_ifs <;> simp

/-- The task does not ignore a signal that it has not begun to ignore. -/
theorem heard_after (hstep : SignalStep R s e s') (hclears : e.clears t = false)
    (hignores : e.ignores t signo = false) (hheard : (s.dispositions t signo).handler ≠ sigIgn) :
    (s'.dispositions t signo).handler ≠ sigIgn := by
  obtain ⟨henabled, rfl⟩ := hstep
  cases e with
  | signal task accessible n d =>
    obtain rfl : task = s.current := henabled
    simp only [after]
    rcases s.setHandler_dispositions accessible n d with hsame | hset
    · rw [hsame]
      exact hheard
    · rw [hset, Function.update_apply]
      split_ifs with htask
      · rw [Function.update_apply]
        split_ifs with hn
        · simpa [SignalEvent.ignores, ← htask, hn] using hignores
        · rw [← htask]
          exact hheard
      · exact hheard
  | clone parent child =>
    obtain rfl : parent = s.current := henabled
    simp only [after, cloneInto]
    split_ifs with hout
    · exact hheard
    · have hne : t ≠ child := fun heq => by
        rw [SignalEvent.clears, heq] at hclears
        simp at hclears
        omega
      simp only
      rw [Function.update_of_ne hne]
      exact hheard
  | reset task =>
    simp only [after, reset]
    split_ifs with hout
    · exact hheard
    · have hne : t ≠ task := fun heq => by
        rw [SignalEvent.clears, heq] at hclears
        simp at hclears
      simp only
      rw [Function.update_of_ne hne]
      exact hheard
  | sigreturn task frame result =>
    simp only [after, sigreturn]
    split_ifs <;> exact hheard
  | deliver task accessible mem frame outcome =>
    obtain ⟨rfl, huser, rfl⟩ := henabled
    have hkept : (s.deliverPending R accessible mem frame).2.2.dispositions = s.dispositions := by
      by_cases hmax : s.current < maxTasks
      · have hdelivers := deliverPending_delivers (R := R) accessible mem frame huser hmax
        generalize (s.deliverPending R accessible mem frame).1 = outcome at hdelivers
        generalize (s.deliverPending R accessible mem frame).2.2 = s' at hdelivers ⊢
        cases hdelivers with
        | busy => rfl
        | nothing => rfl
        | exits _ _ _ _ _ hdispositions => exact hdispositions
        | handles _ _ _ _ _ _ _ _ hdispositions => exact hdispositions
      · unfold deliverPending
        dsimp only
        rw [if_pos (.inr (.inl (not_lt.1 hmax)))]
    simp only [after]
    rw [hkept]
    exact hheard
  | _ => exact hheard

/-- A return outside of a handler delivers the signal or one that is ahead of it. -/
theorem ahead_after (ht : t < maxTasks) (hstep : SignalStep R s e s') (hclears : e.clears t = false)
    (hheard : (s.dispositions t signo).handler ≠ sigIgn) (hwaiting : signo ∈ s.waiting t)
    (hnot : e.delivered ≠ some (t, signo)) :
    signo ∈ s'.waiting t ∧
      (if e.returning t ∧ s.inHandler t = false then 1 else 0) + s'.ahead t signo ≤
        (if e.postedBelow t signo then 1 else 0) + s.ahead t signo := by
  obtain ⟨henabled, rfl⟩ := hstep
  have hwaits := waits_after henabled ht
  have hmem : signo ∈ s.heard t := Finset.mem_filter.2 ⟨hwaiting, hheard⟩
  unfold ahead
  generalize (s.after R e).waiting t = w at hwaits
  cases hwaits with
  | same hw _ hposted hdelivered hbusy =>
    subst hw
    have hreturning : ¬(e.returning t ∧ s.inHandler t = false) := fun h => by
      cases e with
      | deliver task accessible mem frame outcome =>
        have htask : task = t := by simpa [SignalEvent.returning] using h.1
        rw [hbusy accessible mem frame outcome (by rw [htask])] at h
        cases h.2
      | _ => cases h.1
    rw [if_neg hreturning]
    exact ⟨hwaiting, by omega⟩
  | posted n hw _ hposted hdelivered hbusy =>
    have hreturning : ¬(e.returning t ∧ s.inHandler t = false) := fun h => by
      cases e with
      | deliver task accessible mem frame outcome =>
        have htask : task = t := by simpa [SignalEvent.returning] using h.1
        exact hbusy accessible mem frame outcome (by rw [htask])
      | _ => cases h.1
    rw [if_neg hreturning, hw, Finset.filter_insert, SignalEvent.postedBelow, hposted]
    refine ⟨Finset.mem_insert_of_mem hwaiting, ?_⟩
    simp only [beq_self_eq_true, Bool.true_and, decide_eq_true_eq]
    split_ifs
    · have := Finset.card_insert_le n ((s.waiting t).filter (· < signo))
      omega
    · omega
  | cleared _ hcleared => rw [hclears] at hcleared; cases hcleared
  | emptied _ hnone =>
    rw [hnone] at hmem
    exact absurd hmem (Finset.notMem_empty _)
  | delivered n hw hleast _ hposted hdelivered =>
    have hlt : n < signo := by
      refine lt_of_le_of_ne (hleast.2 (Finset.mem_coe.2 hmem)) fun heq => hnot ?_
      rw [hdelivered, heq]
    have hn : n ∈ (s.waiting t).filter (· < signo) :=
      Finset.mem_filter.2 ⟨(Finset.mem_filter.1 (Finset.mem_coe.1 hleast.1)).1, hlt⟩
    have hfewer : (w.filter (· < signo)).card < ((s.waiting t).filter (· < signo)).card := by
      apply Finset.card_lt_card
      rw [hw]
      refine ⟨Finset.filter_subset_filter _ (Finset.filter_subset _ _), fun h => ?_⟩
      exact lt_irrefl n (Finset.mem_filter.1 (Finset.mem_filter.1 (h hn)).1).2
    rw [hw] at hfewer ⊢
    refine ⟨Finset.mem_filter.2 ⟨hwaiting, hlt⟩, ?_⟩
    split_ifs <;> omega

/-- **Signals come in their turn.** A signal waits for a task that does not ignore it, and the task
starts no new program. If the task then returns to Ring 3 outside of a handler more often than there
are lower signals that wait, or are raised meanwhile, the signal has been delivered. -/
theorem delivered_in_turn {arch : Arch} {es : List (SignalEvent arch.Frame)}
    {s s' : Signalling arch.Context} {t signo : ℕ} (ht : t < maxTasks)
    (hrun : Run (SignalStep arch.registers) s es s') (hwaiting : signo ∈ s.waiting t)
    (hheard : (s.dispositions t signo).handler ≠ sigIgn)
    (hkept : ∀ e ∈ es, e.clears t = false ∧ e.ignores t signo = false)
    (hchances : ((s.waiting t).filter (· < signo)).card +
      es.countP (SignalEvent.postedBelow t signo) <
      chances arch.registers t s es) :
    ∃ e ∈ es, e.delivered = some (t, signo) := by
  by_contra hnot
  have hnever : ∀ e ∈ es, e.delivered ≠ some (t, signo) := fun e he h => hnot ⟨e, he, h⟩
  have hbound : chances arch.registers t s es + s'.ahead t signo ≤
      es.countP (SignalEvent.postedBelow t signo) + s.ahead t signo := by
    clear hchances hnot
    induction hrun with
    | nil s => simp [chances]
    | cons hst _ ih =>
      rw [List.forall_mem_cons] at hkept hnever
      obtain ⟨hwaiting', hahead⟩ := ahead_after ht hst hkept.1.1 hheard hwaiting hnever.1
      have hheard' := heard_after hst hkept.1.1 hkept.1.2 hheard
      have hrest := ih hwaiting' hheard' hkept.2 hnever.2
      rw [chances, List.countP_cons, ← hst.2]
      omega
  unfold ahead at hbound
  omega

/-- The tables when the program is about to be interrupted. -/
def aboutToDeliver : Signalling (Arch.Context .i386) :=
  (interruptedOnce.take 5).foldl (after Arch.i386.registers) (boot emptyContext)

theorem run_aboutToDeliver :
    Run (SignalStep Arch.i386.registers) aboutToDeliver (interruptedOnce.drop 5)
      ((interruptedOnce.drop 5).foldl (after Arch.i386.registers) aboutToDeliver) :=
  Run.of_plays (by decide +kernel : Plays (Enabled Arch.i386.registers) (after Arch.i386.registers)
    aboutToDeliver (interruptedOnce.drop 5))

theorem delivered_in_turn_first : ∃ e ∈ interruptedOnce.drop 5, e.delivered = some (1, 10) :=
  delivered_in_turn (by decide) run_aboutToDeliver (by decide +kernel) (by decide +kernel)
    (by decide +kernel) (by decide +kernel)

/-! ## The handler -/

end Signalling

end Tcmk
