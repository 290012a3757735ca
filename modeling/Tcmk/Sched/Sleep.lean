import Tcmk.Sched.IoWait

/-!
# Sleeping

`sleep_ticks` blocks its task until a tick, and `wake_expired` compares that tick with the counter
modulo `2 ^ 32`. A sleeping task stays as it is in every step that makes no selection, and in
every selection before its tick; the first selection from then on wakes it (`sleep_deadline`).
-/

namespace Tcmk

open Lib

/-- The comparison of two ticks, by the number of ticks between them. -/
theorem reached_iff (now d : UInt32) (n : ℕ) :
    reached (now + UInt32.ofNat n) (now + d) ↔
      (n + (2 ^ 32 - d.toNat)) % 2 ^ 32 < 2 ^ 31 := by
  have hd := d.toNat_lt
  unfold reached
  rw [UInt32.lt_iff_toNat_lt, show now + UInt32.ofNat n - (now + d) = UInt32.ofNat n - d by grind,
    UInt32.toNat_sub, UInt32.toNat_ofNat', show (0x80000000 : UInt32).toNat = 2 ^ 31 from rfl]
  omega

theorem not_reached {now d : UInt32} {n : ℕ} (hd : d < 0x80000000) (hn : n < d.toNat) :
    ¬ reached (now + UInt32.ofNat n) (now + d) := by
  have hd' : d.toNat < 2 ^ 31 := UInt32.lt_iff_toNat_lt.1 hd
  rw [reached_iff]
  omega

theorem reached_of_le {now d : UInt32} {n : ℕ} (hle : d.toNat ≤ n) (hlt : n < d.toNat + 2 ^ 31) :
    reached (now + UInt32.ofNat n) (now + d) := by
  have hd := d.toNat_lt
  rw [reached_iff]
  omega

/-- A task here gives up the processor when it goes on. -/
def Point.Leaves : Point → Prop
  | .sleepYield _ | .ioYield _ | .childYield _ | .halted => True
  | _ => False

/-- The task is blocked until the tick `wake`. -/
def Task.Naps (t : Task) (wake : UInt32) : Prop := t.state = .blocked ∧ t.wakeTick = wake

namespace Sched

variable {s : Sched} {i : ℕ} {w : UInt32}

/-! ### Selections -/

theorem refillCredits_naps : (s.refillCredits.tasks i).Naps w ↔ (s.tasks i).Naps w := by
  rw [refillCredits_tasks]
  split_ifs <;> exact Iff.rfl

theorem wakeExpired_naps (h : (s.tasks i).Naps w) (hearly : ¬ reached s.ticks w) :
    (s.wakeExpired.tasks i).Naps w := by
  rw [wakeExpired_tasks]
  split_ifs
  · simpa only [wake, h.1, h.2, if_neg hearly] using h
  · exact h

theorem wakeExpired_due (h : (s.tasks i).Naps w) (hdue : reached s.ticks w)
    (hlt : i < s.taskCount) : (s.wakeExpired.tasks i).state = .ready := by
  rw [wakeExpired_tasks, if_pos hlt]
  simp only [wake, h.1, h.2, if_pos hdue]

/-- After its wake pass a selection changes no task but the two that it switches between. -/
theorem pickNext_cases (s : Sched) (c : ℕ) :
    (s.pickNext c).2 = s.wakeExpired ∨ (s.pickNext c).2 = s.wakeExpired.refillCredits := by
  unfold pickNext
  simp only
  split
  · exact .inl rfl
  · split <;> exact .inr rfl

theorem pickNext_naps (c : ℕ) (h : (s.tasks i).Naps w) (hearly : ¬ reached s.ticks w) :
    ((s.pickNext c).2.tasks i).Naps w := by
  have hwoken := wakeExpired_naps h hearly
  rcases pickNext_cases s c with heq | heq <;> rw [heq]
  · exact hwoken
  · exact refillCredits_naps.2 hwoken

theorem pickNext_due (c : ℕ) (h : (s.tasks i).Naps w) (hdue : reached s.ticks w)
    (hlt : i < s.taskCount) : ((s.pickNext c).2.tasks i).state = .ready := by
  have hwoken := wakeExpired_due h hdue hlt
  rcases pickNext_cases s c with heq | heq <;> rw [heq]
  · exact hwoken
  · rw [refillCredits_state, hwoken]

/-- A selection before the wake tick leaves the task asleep. -/
theorem Sound.yieldNow_naps (hs : s.Sound) (h : (s.tasks i).Naps w)
    (hearly : ¬ reached s.ticks w) : (s.yieldNow.tasks i).Naps w := by
  obtain ⟨u, rfl, hcases⟩ := s.yieldNow_cases
  have hs' : ({ s with needResched := false } : Sched).Sound :=
    hs.of_moves rfl rfl fun _ => .same rfl rfl
  have hpicked := pickNext_naps (s := { s with needResched := false }) s.current h hearly
  rcases hcases with ⟨-, heq⟩ | ⟨hne, heq⟩ <;> rw [heq]
  · exact hpicked
  · have hready := hs'.picked_ready hne
    refine ⟨?_, (switchTo_field Task.wakeTick (fun _ _ => rfl) (fun _ _ => rfl) ..).trans hpicked.2⟩
    rw [switchTo_state _ _ (by rwa [pickNext_current]), if_neg, if_neg, hpicked.1]
    · rintro ⟨-, hrunning⟩
      cases hpicked.1.symm.trans hrunning
    · rintro rfl
      cases hpicked.1.symm.trans hready

/-- A selection from the wake tick on wakes it. -/
theorem Sound.yieldNow_due (hs : s.Sound) (h : (s.tasks i).Naps w) (hdue : reached s.ticks w) :
    (s.yieldNow.tasks i).Runnable := by
  have hlt := hs.lt_of_used (i := i) (by rw [h.1]; nofun)
  obtain ⟨u, rfl, hcases⟩ := s.yieldNow_cases
  have hready := pickNext_due (s := { s with needResched := false }) s.current h hdue hlt
  rcases hcases with ⟨-, heq⟩ | ⟨hne, heq⟩ <;> rw [heq]
  · exact .inl hready
  · unfold Task.Runnable
    rw [switchTo_state _ _ (by rwa [pickNext_current])]
    split_ifs
    · exact .inr rfl
    · exact .inl rfl
    · exact .inl hready

/-- A selection leaves a task runnable. -/
theorem yieldNow_runnable (h : (s.tasks i).Runnable) :
    (s.yieldNow.tasks i).Runnable := by
  have hwoken : (s.wakeExpired.tasks i).state = (s.tasks i).state := by
    rw [wakeExpired_tasks]
    split_ifs
    · rcases h with hstate | hstate <;> simp only [wake, hstate]
    · rfl
  have hpicked : ∀ c, ((({ s with needResched := false } : Sched).pickNext c).2.tasks i).state =
      (s.tasks i).state := fun c => by
    rcases pickNext_cases { s with needResched := false } c with heq | heq <;> rw [heq]
    · exact hwoken
    · exact (refillCredits_state ..).trans hwoken
  obtain ⟨u, rfl, hcases⟩ := s.yieldNow_cases
  rcases hcases with ⟨-, heq⟩ | ⟨hne, heq⟩ <;> rw [heq]
  · unfold Task.Runnable
    rwa [hpicked]
  · unfold Task.Runnable
    rw [switchTo_state _ _ (by rwa [pickNext_current])]
    split_ifs
    · exact .inr rfl
    · exact .inl rfl
    · rwa [hpicked]

/-! ### The tick counter -/

theorem switchTo_ticks (s : Sched) (next : ℕ) : (s.switchTo next).ticks = s.ticks := by
  unfold switchTo setState
  simp only
  split_ifs <;> rfl

theorem yieldNow_ticks (s : Sched) : s.yieldNow.ticks = s.ticks := by
  have hpick : ∀ (t : Sched) (c : ℕ), (t.pickNext c).2.ticks = t.ticks := fun t c => by
    rcases pickNext_cases t c with heq | heq <;> rw [heq] <;> rfl
  obtain ⟨u, rfl, hcases⟩ := s.yieldNow_cases
  rcases hcases with ⟨-, heq⟩ | ⟨-, heq⟩ <;> rw [heq]
  · rw [hpick]
  · rw [switchTo_ticks, hpick]

theorem preemptFromTimer_ticks (s : Sched) : s.preemptFromTimer.ticks = s.ticks := by
  unfold Sched.preemptFromTimer
  split_ifs <;> first
    | rfl
    | exact yieldNow_ticks _

theorem onTimerTick_ticks (s : Sched) : s.onTimerTick.ticks = s.ticks + 1 := by
  unfold Sched.onTimerTick
  simp only
  split_ifs <;> rfl

theorem spawnInner_ticks (s : Sched) (waitable : Bool) :
    (s.spawnInner waitable).2.ticks = s.ticks := by
  have hfill : ∀ (t : Sched) (i : ℕ), (t.fillSlot i waitable).2.ticks = t.ticks := fun t i => by
    unfold fillSlot
    split <;> rfl
  unfold spawnInner
  split
  · exact hfill s _
  · split_ifs
    · rfl
    · exact hfill _ _

theorem terminateCurrent_ticks (s : Sched) : s.terminateCurrent.ticks = s.ticks := by
  unfold Sched.terminateCurrent
  simp only [reapOrphans_eq, reapedBelow]
  split_ifs <;> rfl

theorem waits_ticks {pid : Option ℕ} {nohang : Bool} {r : Wait} {t : Sched}
    (h : Waits s pid nohang r t) : t.ticks = s.ticks := by
  cases h <;> rfl

theorem terminate_ticks {t : Sched} {index space : ℕ} (h : s.terminate index = some (space, t)) :
    t.ticks = s.ticks := by
  unfold Sched.terminate at h
  simp only at h
  split_ifs at h <;> obtain ⟨-, rfl⟩ := Prod.mk.inj (Option.some.inj h) <;> rfl

end Sched

namespace Kernel

variable {k k' u : Kernel} {e : KernelEvent} {es : List KernelEvent} {i : ℕ} {w d : UInt32}

/-- What a selection does to the scheduler. -/
theorem Selects.sched (h : k.Selects e) :
    ∃ n, (k.after e).sched = ({ k.sched with preemptions := n } : Sched).yieldNow := by
  cases e with
  | preempt =>
    obtain ⟨hcount, hlock, hresched⟩ := h
    refine ⟨k.sched.preemptions + 1, ?_⟩
    simp only [after, withSched, Sched.preemptFromTimer, if_neg (Nat.not_lt.2 hcount), hlock,
      hresched, ne_eq, not_true_eq_false, Bool.not_true, Bool.false_eq_true, if_false]
  | call c =>
    refine ⟨k.sched.preemptions, ?_⟩
    cases c with
    | yield => rfl
    | sleep ticks =>
      have h : k.sched.current = idleTask ∨ ticks = 0 := h
      simp only [after, afterCall]
      rw [if_pos h]
      rfl
    | _ => exact h.elim
  | proceed ready =>
    refine ⟨k.sched.preemptions, ?_⟩
    simp only [after, afterProceed]
    cases hpoint : k.point k.sched.current with
    | sleepYield wake => rfl
    | ioYield deadline => rfl
    | childYield child => rfl
    | halted => rfl
    | _ =>
      simp only [Selects, hpoint] at h
  | _ => exact h.elim

theorem ticks_step (hstep : KernelStep k e k') :
    k'.sched.ticks = if e = .tick then k.sched.ticks + 1 else k.sched.ticks := by
  obtain ⟨-, rfl⟩ := hstep
  cases e with
  | tick => exact Sched.onTimerTick_ticks _
  | preempt => exact Sched.preemptFromTimer_ticks _
  | diskIrq => rfl
  | call c =>
    rw [if_neg (by rintro ⟨⟩)]
    cases c with
    | spawn waitable =>
      have hspawn := Sched.spawnInner_ticks k.sched waitable
      simp only [after, afterCall]
      split <;> rename_i heq <;> rw [heq] at hspawn <;> exact hspawn
    | yield => exact Sched.yieldNow_ticks _
    | sleep ticks =>
      simp only [after, afterCall]
      split_ifs
      · exact Sched.yieldNow_ticks _
      · rfl
    | waitForIo timeout =>
      simp only [after, afterCall]
      split_ifs <;> rfl
    | waitpid pid nohang =>
      have hwaits := k.sched.waits_waitpid pid nohang
      generalize hr : k.sched.waitpid pid nohang = r at hwaits
      obtain ⟨w, s⟩ := r
      have hticks := Sched.waits_ticks hwaits
      simp only [after, afterCall, hr]
      cases hwaits <;> exact hticks
    | setNice index value =>
      simp only [after, afterCall, withSched]
      rcases k.sched.setNice_getD index value with heq | heq
      · rw [heq]
      · rw [heq]
        rfl
    | setExitCode code => rfl
    | terminate index =>
      simp only [after, afterCall]
      split
      · rename_i heq
        exact Sched.terminate_ticks heq
      · rfl
    | exit => exact Sched.terminateCurrent_ticks _
  | proceed ready =>
    rw [if_neg (by rintro ⟨⟩)]
    simp only [after, afterProceed]
    split <;> (try split_ifs) <;> first
      | rfl
      | exact Sched.yieldNow_ticks _

theorem ticks_run (hrun : Run KernelStep k es u) :
    u.sched.ticks = k.sched.ticks + UInt32.ofNat (es.count .tick) := by
  induction hrun with
  | nil k => simp
  | @cons k m u e es hstep _ ih =>
    rw [ih, ticks_step hstep, List.count_cons]
    split_ifs with htick hbeq hbeq
    · rw [UInt32.ofNat_add, add_assoc, add_comm (UInt32.ofNat _)]
      rfl
    · exact absurd (beq_iff_eq.2 htick) hbeq
    · exact absurd (beq_iff_eq.1 hbeq) htick
    · rfl

/-! ### The sleep -/

/-- Task `i` sleeps in `sleep_ticks`. -/
structure Sleeping (i : ℕ) (w : UInt32) (k : Kernel) : Prop where
  naps : (k.sched.tasks i).Naps w
  point : k.point i = .sleepYield w ∨ k.point i = .sleepCheck w ∧ k.sched.current ≠ i

theorem Sleeping.not_free (h : Sleeping i w k) : k.point i ≠ .free := by
  rcases h.point with hp | ⟨hp, -⟩ <;> rw [hp] <;> nofun

/-- All that a sleeping task does is to give up the processor. -/
theorem Sleeping.acts (h : Sleeping i w k) (henabled : k.Enabled e) (hacts : k.Acts i e) :
    k.Selects e ∧ k.after e = k.enter (.sleepCheck w) k.sched.yieldNow := by
  cases e with
  | tick => exact hacts.elim
  | preempt => exact hacts.elim
  | diskIrq => exact hacts.elim
  | call c => exact absurd (hacts ▸ henabled.1) h.not_free
  | proceed ready =>
    have hcurrent : k.sched.current = i := hacts
    have hp := h.point.resolve_right fun hp => hp.2 hcurrent
    simp only [Selects, after, afterProceed, hcurrent, hp, true_and]

/-- A step that makes no selection leaves the sleeping tasks as they are. -/
theorem naps_step (hk : k.Sound) (hstep : KernelStep k e k') (h : (k.sched.tasks i).Naps w)
    (hselects : ¬ k.Selects e) (hacts : ¬ k.Acts i e) (hkill : e ≠ .call (.terminate i)) :
    (k'.sched.tasks i).Naps w := by
  have hstate := h.1
  have hothers : ∀ {f : Task → Task}, k.sched.current ≠ i →
      (Function.update k.sched.tasks k.sched.current (f (k.sched.tasks k.sched.current)) i).Naps
      w :=
    fun hne => by rwa [Function.update_of_ne hne.symm]
  have hreleased : ∀ child, (k.sched.tasks child).state = .terminated →
      ((k.sched.releaseSlot child).tasks i).Naps w := fun child hended => by
    rw [Sched.releaseSlot_tasks, if_neg]
    · exact h
    · rintro rfl
      cases hstate.symm.trans hended
  obtain ⟨-, rfl⟩ := hstep
  cases e with
  | tick =>
    exact ⟨(Sched.onTimerTick_field Task.state (fun _ _ => rfl) (fun _ _ => rfl) ..).trans hstate,
      (Sched.onTimerTick_field Task.wakeTick (fun _ _ => rfl) (fun _ _ => rfl) ..).trans h.2⟩
  | preempt =>
    simp only [after, withSched, Sched.preemptFromTimer]
    split_ifs with hcount hlock hresched
    · exact h
    · exact h
    · exact h
    · exact absurd ⟨Nat.not_lt.1 hcount, Classical.not_not.1 hlock, by simpa using hresched⟩
        hselects
  | diskIrq =>
    simp only [after, withSched, Sched.wakeIoWaiters_tasks]
    rw [if_neg]
    · exact h
    · rintro ⟨-, hwaits⟩
      cases hstate.symm.trans hwaits
  | call c =>
    have hne : k.sched.current ≠ i := hacts
    cases c with
    | spawn waitable =>
      have hspawn := Sched.spawnInner_tasks hk.sched.beyond waitable i
      have hkept : ((k.sched.spawnInner waitable).2.tasks i).Naps w := by
        rcases hspawn with ⟨heq, -⟩ | ⟨hold, -⟩
        · rwa [heq]
        · cases hstate.symm.trans hold
      simp only [after, afterCall]
      split <;> rename_i heq <;> rw [heq] at hkept <;> exact hkept
    | yield => exact absurd trivial hselects
    | sleep ticks =>
      simp only [after, afterCall]
      split_ifs with hyields
      · exact absurd hyields hselects
      · exact hothers (f := fun t => { t with
          wakeTick := k.sched.ticks + ticks, state := .blocked }) hne
    | waitForIo timeout =>
      simp only [after, afterCall]
      split_ifs <;> exact h
    | waitpid pid nohang =>
      have hwaits := k.sched.waits_waitpid pid nohang
      have hkept : ∀ {r : Sched.Wait} {s : Sched}, Sched.Waits k.sched pid nohang r s →
          (s.tasks i).Naps w := fun hw => by
        cases hw with
        | noChild => exact h
        | notYet => exact h
        | peek => exact h
        | collect _ hended => exact hreleased _ hended
        | @block child => exact hothers (f := fun t => { t with
            waitFor := child + 1, state := .waiting }) hne
      generalize hr : k.sched.waitpid pid nohang = r at hwaits
      obtain ⟨r, s⟩ := r
      have hs := hkept hwaits
      simp only [after, afterCall, hr]
      cases hwaits <;> exact hs
    | setNice index value =>
      simp only [after, afterCall, withSched]
      rcases k.sched.setNice_getD index value with heq | heq <;> rw [heq]
      · exact h
      · rw [Sched.modifyTask_tasks]
        split_ifs with hi
        · exact ⟨hi ▸ hstate, hi ▸ h.2⟩
        · exact h
    | setExitCode code => exact hothers (f := fun t => { t with exitCode := code }) hne
    | terminate index =>
      simp only [after, afterCall]
      split
      · rename_i heq
        obtain ⟨-, -, -, -, -, -, htasks, -⟩ := Sched.terminate_some heq
        simp only [withSched, htasks i fun hi => hkill (hi ▸ rfl)]
        exact h
      · exact h
    | exit =>
      simp only [after, afterCall, enter]
      rcases Sched.terminateCurrent_tasks hk.sched.beyond hk.sched.current_lt hne.symm with
        heq | ⟨hended, -⟩
      · rwa [heq]
      · cases hstate.symm.trans hended
  | proceed ready =>
    have hne : k.sched.current ≠ i := hacts
    simp only [after, afterProceed]
    cases hpoint : k.point k.sched.current with
    | free => exact h
    | awake => exact hothers (f := fun t => { t with state := .running }) hne
    | sleepCheck wake =>
      simp only
      split_ifs <;> exact h
    | ioArm deadline =>
      simp only
      split_ifs
      · exact h
      · exact hothers (f := fun t => { t with state := .ioWait }) hne
    | ioCheck deadline =>
      simp only
      split_ifs <;> exact h
    | childCheck child =>
      simp only
      split_ifs with hended
      · exact hreleased child hended
      · exact h
    | _ => exact absurd (by simp only [Selects, hpoint]) hselects

/-- A step before the wake tick, or without a selection, leaves the task asleep. -/
theorem Sleeping.step (h : Sleeping i w k) (hk : k.Sound) (hstep : KernelStep k e k')
    (hearly : k.Selects e → ¬ reached k.sched.ticks w) (hkill : e ≠ .call (.terminate i)) :
    Sleeping i w k' := by
  have hnaps : (k'.sched.tasks i).Naps w := by
    by_cases hselects : k.Selects e
    · obtain ⟨n, hsched⟩ := hselects.sched
      have hk' : ({ k.sched with preemptions := n } : Sched).Sound :=
        hk.sched.of_moves rfl rfl fun _ => .same rfl rfl
      rw [hstep.2, hsched]
      exact hk'.yieldNow_naps h.naps (hearly hselects)
    · exact naps_step hk hstep h.naps hselects (fun hacts => hselects (h.acts hstep.1 hacts).1)
        hkill
  refine ⟨hnaps, ?_⟩
  by_cases hacts : k.Acts i e
  · -- The selection takes another task, since this one is not ready.
    have hcurrent := hacts.current
    obtain ⟨henabled, rfl⟩ := hstep
    obtain ⟨-, hafter⟩ := h.acts henabled hacts
    rw [hafter] at hnaps ⊢
    have hnaps : (k.sched.yieldNow.tasks i).Naps w := hnaps
    refine .inr ⟨hcurrent ▸ enter_self k _ _, fun heq => ?_⟩
    have heq : k.sched.yieldNow.current = i := heq
    rcases yieldNow_current hk.sched with ⟨-, hready⟩ | hrunning
    · rw [hcurrent, hnaps.1] at hready
      cases hready
    · rw [heq, hnaps.1] at hrunning
      cases hrunning
  · have hpoint := point_step hk hstep (by rw [h.naps.1]; rintro ⟨⟩) hacts
    rw [hpoint]
    refine h.point.imp id fun hp => ⟨hp.1, fun heq => ?_⟩
    rcases current_step hk hstep with hcurrent | hrunning
    · exact hp.2 (hcurrent.symm.trans heq)
    · rw [heq, hnaps.1] at hrunning
      cases hrunning

/-- No selection of a run through `es` comes `n` ticks or more after its start. -/
def NoneFrom (k : Kernel) (es : List KernelEvent) (n : ℕ) : Prop :=
  ∀ fs e gs v, es = fs ++ e :: gs → Run KernelStep k fs v → v.Selects e → fs.count .tick < n

theorem NoneFrom.of_count {n : ℕ} (h : es.count .tick < n) : k.NoneFrom es n := by
  rintro fs e gs v rfl - -
  refine Nat.lt_of_le_of_lt ?_ h
  rw [List.count_append]
  exact Nat.le_add_right ..

theorem Sleeping.run (h : Sleeping i (k.sched.ticks + d) k) (hk : k.Sound) (hd : d < 0x80000000)
    (hrun : Run KernelStep k es u) (hkill : .call (.terminate i) ∉ es)
    (hnone : k.NoneFrom es d.toNat) : Sleeping i (k.sched.ticks + d) u := by
  induction es using List.reverseRecOn generalizing u with
  | nil =>
    cases hrun
    exact h
  | append_singleton es e ih =>
    obtain ⟨v, hes, hlast⟩ := hrun.split
    have hv := ih hes (fun hmem => hkill (List.mem_append_left _ hmem)) fun fs e' gs w heq =>
      hnone fs e' (gs ++ [e]) w (by rw [heq]; simp)
    have hsound : v.Sound := hes.invariant (fun _ _ _ hk hstep => hk.step hstep) hk
    cases hlast with
    | cons hstep hnil =>
      cases hnil
      refine hv.step hsound hstep (fun hselects => ?_) fun he => hkill (by simp [he])
      rw [ticks_run hes]
      exact not_reached hd (hnone es e [] v rfl hes hselects)

/-- The first selection at the wake tick, or in the half range after it. -/
theorem Sleeping.woken (h : Sleeping i w k) (hk : k.Sound) (hstep : KernelStep k e k')
    (hselects : k.Selects e) (hdue : reached k.sched.ticks w) : (k'.sched.tasks i).Runnable := by
  obtain ⟨n, hsched⟩ := hselects.sched
  have hk' : ({ k.sched with preemptions := n } : Sched).Sound :=
    hk.sched.of_moves rfl rfl fun _ => .same rfl rfl
  rw [hstep.2, hsched]
  exact hk'.yieldNow_due h.naps hdue

theorem sleeping_sleep (hd : d ≠ 0) (hidle : k.sched.current ≠ idleTask) :
    Sleeping k.sched.current (k.sched.ticks + d) (k.after (.call (.sleep d))) := by
  have hafter : k.after (.call (.sleep d)) = k.enter (.sleepYield (k.sched.ticks + d))
      (k.sched.fallAsleep (k.sched.ticks + d)) := by
    simp only [after, afterCall]
    rw [if_neg (not_or.2 ⟨hidle, hd⟩)]
  rw [hafter]
  refine ⟨?_, .inl (enter_self ..)⟩
  simp only [enter, Sched.fallAsleep, Sched.modifyTask_self, Task.Naps, and_self]

/-! ### The current task -/

theorem selects_proceed {ready : Bool} :
    k.Selects (.proceed ready) ↔ (k.point k.sched.current).Leaves := Iff.rfl

/-- The current task can run, unless it is about to give up the processor. -/
def CanGoOn (k : Kernel) : Prop :=
  k.Selects (.proceed false) ∨ (k.sched.tasks k.sched.current).Runnable

theorem CanGoOn.of_free (h : k.CanGoOn) (hfree : k.point k.sched.current = .free) :
    (k.sched.tasks k.sched.current).Runnable := by
  refine h.resolve_left fun hselects => ?_
  simp only [Selects, hfree] at hselects

/-- The current task gets to a place where it gives up the processor. -/
theorem canGoOn_leaves {p : Point} {s : Sched} (hp : p.Leaves)
    (hcurrent : s.current = k.sched.current) : (k.enter p s).CanGoOn := by
  refine .inl (selects_proceed.2 ?_)
  rwa [show (k.enter p s).sched.current = k.sched.current from hcurrent, enter_self]

theorem canGoOn_selects (hk : k.Sound) (hselects : k.Selects e) : (k.after e).CanGoOn := by
  obtain ⟨n, hsched⟩ := hselects.sched
  have hk' : ({ k.sched with preemptions := n } : Sched).Sound :=
    hk.sched.of_moves rfl rfl fun _ => .same rfl rfl
  refine .inr ?_
  rw [hsched]
  rcases yieldNow_current hk' with ⟨hcurrent, hready⟩ | hrunning
  · rw [hcurrent]
    exact .inl hready
  · exact .inr hrunning

theorem CanGoOn.call {c : TaskCall} (hk : k.Sound)
    (hrunnable : (k.sched.tasks k.sched.current).Runnable) (hselects : ¬ k.Selects (.call c)) :
    (k.after (.call c)).CanGoOn := by
  have hended : ∀ child, (k.sched.tasks child).state = .terminated →
      ((k.sched.releaseSlot child).tasks k.sched.current).Runnable := fun child hended => by
    rw [Sched.releaseSlot_tasks, if_neg]
    · exact hrunnable
    · rintro rfl
      rcases hrunnable with hstate | hstate <;> cases hstate.symm.trans hended
  cases c with
  | yield => exact absurd trivial hselects
  | spawn waitable =>
    have hcurrent := Sched.spawnInner_current k.sched waitable
    have hkept : ((k.sched.spawnInner waitable).2.tasks k.sched.current).Runnable := by
      rcases Sched.spawnInner_tasks hk.sched.beyond waitable k.sched.current with
        ⟨heq, -⟩ | ⟨hold, -⟩
      · rwa [heq]
      · rcases hrunnable with hstate | hstate <;> cases hstate.symm.trans hold
    rw [← hcurrent] at hkept
    simp only [after, afterCall]
    split <;> rename_i heq <;> rw [heq] at hkept <;> exact .inr hkept
  | sleep ticks =>
    have hsleeps : ¬ (k.sched.current = idleTask ∨ ticks = 0) := hselects
    simp only [after, afterCall]
    rw [if_neg hsleeps]
    exact canGoOn_leaves trivial rfl
  | waitForIo timeout =>
    simp only [after, afterCall]
    split_ifs <;> exact .inr hrunnable
  | waitpid pid nohang =>
    have hwaits := k.sched.waits_waitpid pid nohang
    generalize hr : k.sched.waitpid pid nohang = r at hwaits
    obtain ⟨w, s⟩ := r
    simp only [after, afterCall, hr]
    cases hwaits with
    | noChild => exact .inr hrunnable
    | notYet => exact .inr hrunnable
    | peek => exact .inr hrunnable
    | collect _ hstate => exact .inr (hended _ hstate)
    | block => exact canGoOn_leaves trivial rfl
  | setNice index value =>
    refine .inr ?_
    simp only [after, afterCall, withSched]
    rcases k.sched.setNice_getD index value with heq | heq <;> rw [heq]
    · exact hrunnable
    · unfold Task.Runnable
      rwa [Sched.modifyTask_field k.sched index _ (fun t => { t with
        nice := Sched.clampNice value }) Task.state fun _ => rfl]
  | setExitCode code =>
    refine .inr ?_
    simp only [after, afterCall, withSched, Sched.modifyTask_current, Sched.modifyTask_self]
    exact hrunnable
  | terminate index =>
    simp only [after, afterCall]
    split
    · rename_i heq
      obtain ⟨-, hne, -, -, hcurrent, -, htasks, -⟩ := Sched.terminate_some heq
      refine .inr ?_
      simp only [withSched, hcurrent, htasks _ hne.symm]
      exact hrunnable
    · exact .inr hrunnable
  | exit => exact canGoOn_leaves trivial (Sched.terminateCurrent_current _)

theorem CanGoOn.step (h : k.CanGoOn) (hk : k.Sound) (hstep : KernelStep k e k') : k'.CanGoOn := by
  obtain ⟨henabled, rfl⟩ := hstep
  by_cases hselects : k.Selects e
  · exact canGoOn_selects hk hselects
  cases e with
  | tick =>
    have hcurrent := Sched.onTimerTick_current k.sched
    have hstate := Sched.onTimerTick_field Task.state (fun _ _ => rfl) (fun _ _ => rfl) k.sched
    refine h.imp (fun hselects => ?_) fun hrunnable => ?_
    · rw [selects_proceed] at hselects ⊢
      rwa [after, withSched, hcurrent]
    · unfold Task.Runnable
      rwa [after, withSched, hcurrent, hstate]
  | preempt =>
    simp only [after, withSched, Sched.preemptFromTimer]
    split_ifs with hcount hlock hresched
    · exact h
    · exact h
    · exact h
    · exact absurd ⟨Nat.not_lt.1 hcount, Classical.not_not.1 hlock, by simpa using hresched⟩
        hselects
  | diskIrq =>
    refine h.imp id fun hrunnable => ?_
    simp only [after, withSched]
    have heq := k.sched.wakeIoWaiters_tasks k.sched.current
    split_ifs at heq
    · exact .inl (by rw [show k.sched.wakeIoWaiters.current = k.sched.current from rfl, heq])
    · rwa [show k.sched.wakeIoWaiters.current = k.sched.current from rfl, heq]
  | call c => exact .call hk (h.of_free henabled.1) hselects
  | proceed ready =>
    have hrunnable := h.resolve_left hselects
    simp only [after, afterProceed]
    cases hpoint : k.point k.sched.current with
    | free => exact h
    | awake =>
      refine .inr (.inr ?_)
      simp only [enter, Sched.setState, Sched.modifyTask_current, Sched.modifyTask_self]
    | ioArm deadline =>
      cases ready with
      | true => exact .inr hrunnable
      | false => exact canGoOn_leaves trivial rfl
    | sleepCheck wake =>
      simp only
      split_ifs <;> exact .inr hrunnable
    | ioCheck deadline =>
      simp only
      split_ifs <;> exact .inr hrunnable
    | childCheck child =>
      simp only
      split_ifs with hended
      · refine .inr ?_
        simp only [enter, Sched.collect]
        rw [show (k.sched.releaseSlot child).current = k.sched.current from rfl,
          Sched.releaseSlot_tasks, if_neg]
        · exact hrunnable
        · rintro rfl
          rcases hrunnable with hstate | hstate <;> cases hstate.symm.trans hended
      · exact .inr hrunnable
    | _ => exact absurd (by simp only [Selects, hpoint]) hselects

theorem canGoOn_boot : boot.CanGoOn := by
  have hrunning : (boot.sched.tasks boot.sched.current).Runnable := .inr (by decide)
  exact .inr hrunning

theorem canGoOn_run (hrun : Run KernelStep boot es k) : k.CanGoOn := by
  have hall : k.CanGoOn ∧ k.Sound := hrun.invariant (I := fun k => k.CanGoOn ∧ k.Sound)
    (fun _ _ _ h hstep => ⟨h.1.step h.2 hstep, h.2.step hstep⟩) ⟨canGoOn_boot, sound_boot⟩
  exact hall.1

end Kernel

/-- **Sleep.** A task other than the idle task calls `sleep_ticks` with `d` below half the range of
the counter. Until `d` ticks have come it is blocked, whatever else happens, unless it is killed.
As long as no selection has come since then it stays so, and the first selection, if it comes
within half the range, makes it runnable. With `d = 0` the selection is the call's own. -/
theorem sleep_deadline {k u : Kernel} {es₀ es : List KernelEvent} {d : UInt32}
    (hboot : Run KernelStep Kernel.boot es₀ k) (henabled : k.Enabled (.call (.sleep d)))
    (hidle : k.sched.current ≠ idleTask) (hd : d < 0x80000000)
    (hrun : Run KernelStep (k.after (.call (.sleep d))) es u)
    (hkill : .call (.terminate k.sched.current) ∉ es) :
    (d = 0 → ((k.after (.call (.sleep d))).sched.tasks k.sched.current).Runnable) ∧
      (es.count .tick < d.toNat → (u.sched.tasks k.sched.current).state = .blocked) ∧
      (d ≠ 0 → (k.after (.call (.sleep d))).NoneFrom es d.toNat →
        (u.sched.tasks k.sched.current).state = .blocked ∧
        ∀ e u', u.Selects e → KernelStep u e u' → d.toNat ≤ es.count .tick →
          es.count .tick < d.toNat + 2 ^ 31 → (u'.sched.tasks k.sched.current).Runnable) := by
  have hk := Kernel.sound_run hboot
  have hcall : KernelStep k (.call (.sleep d)) (k.after (.call (.sleep d))) := ⟨henabled, rfl⟩
  have hticks : (k.after (.call (.sleep d))).sched.ticks = k.sched.ticks :=
    (Kernel.ticks_step hcall).trans (if_neg (by rintro ⟨⟩))
  have hsleeping : d ≠ 0 → (k.after (.call (.sleep d))).NoneFrom es d.toNat →
      Kernel.Sleeping k.sched.current (k.sched.ticks + d) u := fun hne hnone => by
    have hstart := Kernel.sleeping_sleep hne hidle
    rw [← hticks] at hstart ⊢
    exact hstart.run (hk.step hcall) hd hrun hkill hnone
  refine ⟨?_, fun hcount => ?_, fun hne hnone => ⟨(hsleeping hne hnone).naps.1, ?_⟩⟩
  · rintro rfl
    have hafter : (k.after (.call (.sleep 0))).sched = k.sched.yieldNow := by
      simp only [Kernel.after, Kernel.afterCall, or_true, if_true]
      rfl
    rw [hafter]
    exact Sched.yieldNow_runnable ((Kernel.canGoOn_run hboot).of_free henabled.1)
  · have hne : d ≠ 0 := by
      rintro rfl
      exact absurd hcount (Nat.not_lt_zero _)
    exact (hsleeping hne (.of_count hcount)).naps.1
  · intro e u' hselects hstep hle hlt
    have hu : u.Sound := hrun.invariant (fun _ _ _ hk hstep => hk.step hstep) (hk.step hcall)
    refine (hsleeping hne hnone).woken hu hstep hselects ?_
    rw [Kernel.ticks_run hrun, hticks]
    exact reached_of_le hle hlt

/-- Task 1 sleeps for two ticks while the idle task runs. -/
theorem sleep_deadline_twoTicks :
    let k := (Kernel.boot.after (.call (.spawn true))).after (.call .yield)
    let u := (((k.after (.call (.sleep 2))).after (.proceed false)).after .tick).after .tick
    ((u.after (.call .yield)).sched.tasks 1).Runnable := by
  intro k u
  have hboot : Run KernelStep Kernel.boot [.call (.spawn true), .call .yield] k :=
    .cons ⟨by decide, rfl⟩ (.cons ⟨by decide +kernel, rfl⟩ (.nil _))
  have hrun : Run KernelStep (k.after (.call (.sleep 2))) [.proceed false, .tick, .tick] u :=
    .cons ⟨by decide +kernel, rfl⟩ (.cons ⟨trivial, rfl⟩ (.cons ⟨trivial, rfl⟩ (.nil _)))
  have hnone : (k.after (.call (.sleep 2))).NoneFrom [.proceed false, .tick, .tick] 2 := by
    -- A tick is no selection.
    intro fs e gs v heq _ hselects
    rcases fs with _ | ⟨a, _ | ⟨b, fs⟩⟩
    · decide
    · obtain ⟨-, rfl, -⟩ := by simpa using heq
      exact hselects.elim
    · obtain ⟨-, -, heq⟩ := by simpa using heq
      rcases fs with _ | ⟨c, fs⟩
      · obtain ⟨rfl, -⟩ := by simpa using heq
        exact hselects.elim
      · simp at heq
  have hcurrent : k.sched.current = 1 := by decide +kernel
  have hall := sleep_deadline (d := 2) hboot (by decide +kernel) (by decide +kernel)
    (by decide) hrun
    (by decide +kernel)
  have hwoken := (hall.2.2 (by decide) hnone).2 (.call .yield) _ trivial
    ⟨by decide +kernel, rfl⟩ (by decide) (by decide)
  rwa [hcurrent] at hwoken

/-- The idle task is not put to sleep: it is ready before its tick. -/
theorem idle_not_asleep : ¬ ∀ (es₀ es : List KernelEvent) (k u : Kernel) (d : UInt32),
    Run KernelStep Kernel.boot es₀ k → k.Enabled (.call (.sleep d)) → d < 0x80000000 →
    Run KernelStep (k.after (.call (.sleep d))) es u → .call (.terminate k.sched.current) ∉ es →
    es.count .tick < d.toNat → ¬ (u.sched.tasks k.sched.current).Runnable := by
  intro hall
  refine hall [.call (.spawn true)] [] (Kernel.boot.after (.call (.spawn true))) _ 5
    (.cons ⟨by decide, rfl⟩ (.nil _)) (by decide) (by decide) (.nil _) (by decide) (by decide) ?_
  exact .inl (by decide +kernel)

end Tcmk
