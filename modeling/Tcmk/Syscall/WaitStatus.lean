import Tcmk.Process.ExitStatus
import Tcmk.Syscall.Frame

/-!
# The status word of `waitpid`

`SYS_WAITPID` collects the child, and `store_status` writes the status word after that. If the
program has given a bad pointer, the call returns `-EFAULT`, and the child is gone. Only a call with
a pid and `WNOHANG`, which never releases a slot, keeps it. So a call that fails keeps every child
exactly if the pointer is good, or the call is such a one, or there is no child to collect
(`waitpid_keeps_iff`).
-/

namespace Tcmk

open Lib Errno

/-- `store_status`: nothing for an address that the program may not use, else the word that is
written. -/
def storeStatusAt (arch : Arch) (accessible : ℕ → Bool) (ptr : ℕ) (code : UInt32) :
    Option (Option UInt32) :=
  if ptr = 0 then some none
  else if !accessible ptr || !accessible ((ptr + 3) % 2 ^ arch.wordBits) then none
  else some (some (storeStatus code))

/-- The pointer is null, or the program may use the word there. -/
def GoodPointer (arch : Arch) (accessible : ℕ → Bool) (ptr : ℕ) : Prop :=
  ptr = 0 ∨ accessible ptr = true ∧ accessible ((ptr + 3) % 2 ^ arch.wordBits) = true

instance (arch : Arch) (accessible : ℕ → Bool) (ptr : ℕ) :
    Decidable (GoodPointer arch accessible ptr) :=
  inferInstanceAs (Decidable (_ ∨ _))

section Store

variable {arch : Arch} {accessible : ℕ → Bool} {ptr : ℕ} {code : UInt32}

theorem storeStatusAt_good (h : GoodPointer arch accessible ptr) :
    storeStatusAt arch accessible ptr code =
    some (if ptr = 0 then none else some (storeStatus code)) := by
  unfold storeStatusAt
  by_cases hnull : ptr = 0
  · rw [if_pos hnull, if_pos hnull]
  · obtain ⟨hfirst, hlast⟩ := h.resolve_left hnull
    rw [if_neg hnull, if_neg (by simp [hfirst, hlast]), if_neg hnull]

theorem storeStatusAt_bad (h : ¬GoodPointer arch accessible ptr) :
    storeStatusAt arch accessible ptr code = none := by
  obtain ⟨hnull, hbad⟩ := not_or.1 h
  unfold storeStatusAt
  rw [if_neg hnull, if_pos]
  cases hfirst : accessible ptr with
  | false => rfl
  | true =>
    cases hlast : accessible ((ptr + 3) % 2 ^ arch.wordBits) with
    | false => rfl
    | true => exact absurd ⟨hfirst, hlast⟩ hbad

end Store

/-- What a `waitpid` returns, with the word that it has written. -/
inductive WaitReply
  | error (errno : ℤ)
  | notYet
  | collected (child : ℕ) (status : Option UInt32)
  deriving DecidableEq

/-- The end of `SYS_WAITPID` for a child that has been collected. -/
def WaitReply.deliver (arch : Arch) (accessible : ℕ → Bool) (ptr child : ℕ) (code : UInt32) :
    WaitReply :=
  match storeStatusAt arch accessible ptr code with
  | some status => .collected child status
  | none => .error efault

/-! ## Calls with a pointer -/

/-- The kernel, and the pointer of the `waitpid` that each task is in. -/
structure Waiters where
  kernel : Kernel
  ptr : ℕ → ℕ

/-- A step of the kernel. A `waitpid` has its pointer, and a step that may end one says which
addresses the program may use at that time. -/
inductive WaiterEvent
  | waitpid (pid : Option ℕ) (nohang : Bool) (ptr : ℕ) (accessible : ℕ → Bool)
  | proceed (ready : Bool) (accessible : ℕ → Bool)
  | other (e : KernelEvent)

namespace Waiters

def boot : Waiters := ⟨Kernel.boot, fun _ => 0⟩

def current (w : Waiters) : ℕ := w.kernel.sched.current

def tasks (w : Waiters) : ℕ → Task := w.kernel.sched.tasks

def kernelEvent : WaiterEvent → KernelEvent
  | .waitpid pid nohang _ _ => .call (.waitpid pid nohang)
  | .proceed ready _ => .proceed ready
  | .other e => e

def after (w : Waiters) (e : WaiterEvent) : Waiters where
  kernel := w.kernel.after (kernelEvent e)
  ptr :=
    match e with
    | .waitpid _ _ ptr _ => Function.update w.ptr w.current ptr
    | _ => w.ptr

/-- The idle task makes no system calls. -/
def Allowed (w : Waiters) : WaiterEvent → Prop
  | .waitpid .. => w.current ≠ idleTask
  | .other (.call (.waitpid ..)) | .other (.proceed _) => False
  | _ => True

def Enabled (w : Waiters) (e : WaiterEvent) : Prop := w.kernel.Enabled (kernelEvent e) ∧ w.Allowed e

instance (w : Waiters) (e : WaiterEvent) : Decidable (w.Enabled e) := by
  unfold Enabled Allowed
  split <;> infer_instance

/-- What a `waitpid` that ends in this step returns. -/
def reply (arch : Arch) (w : Waiters) : WaiterEvent → Option WaitReply
  | .waitpid pid nohang ptr accessible =>
    match (w.kernel.sched.waitpid pid nohang).1 with
    | .noChild => some (.error echild)
    | .notYet => some .notYet
    | .collected child code => some (.deliver arch accessible ptr child code)
    | .blocked _ => none
  | .proceed ready accessible =>
    (w.kernel.collected (.proceed ready)).map fun r =>
      .deliver arch accessible (w.ptr w.current) r.1 r.2
  | .other _ => none

end Waiters

def WaiterStep (w : Waiters) (e : WaiterEvent) (w' : Waiters) : Prop := w.Enabled e ∧ w' = w.after e

namespace Waiters

variable {arch : Arch} {w w' : Waiters} {e : WaiterEvent} {es : List WaiterEvent} {i : ℕ}
  {code : UInt32}

/-- The child's slot is kept, and as long as it is, a `waitpid` with a good pointer returns its
status. -/
def Collectable (arch : Arch) (w : Waiters) (i : ℕ) (code : UInt32) : Prop :=
  (w.tasks i).state = .terminated ∧
    ∀ es w', Run (fun u e v => WaiterStep u e v ∧ (v.tasks i).state = .terminated) w es w' →
      ∀ nohang ptr accessible, w'.Enabled (.waitpid (some i) nohang ptr accessible) →
        GoodPointer arch accessible ptr →
          w'.reply arch (.waitpid (some i) nohang ptr accessible) =
            some (.collected i (if ptr = 0 then none else some (storeStatus code)))

/-- A call that returns an error keeps the children that have ended. -/
def Keeps (arch : Arch) (w : Waiters) (e : WaiterEvent) : Prop :=
  ∀ errno, w.reply arch e = some (.error errno) →
    ∀ i, (w.tasks i).state = .terminated → Collectable arch (w.after e) i (w.tasks i).exitCode

/-- A child that the call asks for has ended. -/
def HasEnded (w : Waiters) : Option ℕ → Prop
  | none => ∃ i, (w.tasks i).parent = w.current ∧ (w.tasks i).state = .terminated
  | some child => (w.tasks child).state = .terminated

/-- The pointer is good, or the call releases no slot. -/
def Careful (arch : Arch) (w : Waiters) : WaiterEvent → Prop
  | .waitpid pid nohang ptr accessible =>
    GoodPointer arch accessible ptr ∨ pid.isSome ∧ nohang = true ∨ ¬w.HasEnded pid
  | .proceed _ accessible =>
    GoodPointer arch accessible (w.ptr w.current) ∨
      ∀ child, w.kernel.point w.current = .childCheck child → (w.tasks child).state ≠ .terminated
  | .other _ => True

theorem sound_run (h : Run WaiterStep boot es w) : w.kernel.Sound :=
  h.invariant (I := fun w => w.kernel.Sound)
    (fun _ _ _ hs hstep => hs.step ⟨hstep.1.1, congrArg Waiters.kernel hstep.2⟩) Kernel.sound_boot

theorem current_alive (hs : w.kernel.Sound) (hfree : w.kernel.point w.current = .free) :
    (w.tasks w.current).Alive :=
  hs.alive.resolve_left (by
    rw [show w.kernel.point w.kernel.sched.current = .free from hfree]
    rintro ⟨⟩)

/-- A child that has ended is found by its number. -/
theorem waitpid_pid (hs : w.kernel.Sound) (hfree : w.kernel.point w.current = .free)
    (hidle : w.current ≠ idleTask) (hended : (w.tasks i).state = .terminated) (nohang : Bool) :
    w.kernel.sched.waitpid (some i) nohang =
      (.collected i (w.tasks i).exitCode, if nohang then w.kernel.sched
        else w.kernel.sched.releaseSlot i) := by
  have hlt : i < w.kernel.sched.taskCount := hs.sched.lt_of_used (by
    rw [show (w.kernel.sched.tasks i).state = .terminated from hended]
    rintro ⟨⟩)
  have hne : i ≠ w.current := by
    rintro rfl
    exact (current_alive hs hfree).2 hended
  have hstate : (w.kernel.sched.tasks i).state = .terminated := hended
  unfold Sched.waitpid Sched.waitForTask
  dsimp only
  rw [if_neg (Nat.not_le.2 hlt)]
  cases nohang with
  | true =>
    rw [if_pos rfl, if_pos rfl, if_neg (not_not.2 hstate)]
    rfl
  | false =>
    have hbad : ¬(i ≥ w.kernel.sched.taskCount ∨ i = w.kernel.sched.current ∨
        w.kernel.sched.current = idleTask) := by
      rintro (h | h | h)
      · exact Nat.not_le.2 hlt h
      · exact hne h
      · exact hidle h
    rw [if_neg Bool.false_ne_true, if_neg Bool.false_ne_true, if_neg hbad,
      if_neg (by rw [hstate]; rintro ⟨⟩), if_pos hstate]
    rfl

theorem collectable_of_ended (hs : w.kernel.Sound) (hended : (w.tasks i).state = .terminated) :
    Collectable arch w i (w.tasks i).exitCode := by
  refine ⟨hended, fun es w' hrun nohang ptr accessible henabled hgood => ?_⟩
  obtain ⟨hs', hended', hcode⟩ : w'.kernel.Sound ∧ (w'.tasks i).state = .terminated ∧
      (w'.tasks i).exitCode = (w.tasks i).exitCode := by
    refine hrun.invariant (I := fun v => v.kernel.Sound ∧ (v.tasks i).state = .terminated ∧
      (v.tasks i).exitCode = (w.tasks i).exitCode) ?_ ⟨hs, hended, rfl⟩
    rintro u e v ⟨hu, hstate, hcode⟩ ⟨hstep, hstate'⟩
    have hkernel : KernelStep u.kernel (kernelEvent e) v.kernel :=
      ⟨hstep.1.1, congrArg Waiters.kernel hstep.2⟩
    exact ⟨hu.step hkernel, hstate', (Kernel.exitCode_step hu hkernel hstate).trans hcode⟩
  have hwait := waitpid_pid hs' henabled.1.1 henabled.2 hended' nohang
  unfold reply
  dsimp only
  rw [hwait]
  dsimp only
  rw [WaitReply.deliver, storeStatusAt_good hgood, hcode]

/-- A call that leaves the tasks as they are keeps all children. -/
theorem keeps_of_same (hs : (w.after e).kernel.Sound) (h : (w.after e).tasks = w.tasks) :
    Keeps arch w e := fun _ _ i hended => by
  rw [← h] at hended ⊢
  exact collectable_of_ended hs hended

theorem not_keeps_of_released {errno : ℤ} (hreply : w.reply arch e = some (.error errno))
    (hended : (w.tasks i).state = .terminated)
    (hgone : (w.after e).tasks i = Sched.released (w.tasks i)) : ¬Keeps arch w e := fun h => by
  have hkept := (h errno hreply i hended).1
  rw [hgone] at hkept
  cases hkept

/-- A call that may release a slot collects a child that has ended, if there is one. -/
theorem waitpid_collects {pid : Option ℕ} {nohang : Bool} (hs : w.kernel.Sound)
    (hfree : w.kernel.point w.current = .free) (hidle : w.current ≠ idleTask)
    (hended : w.HasEnded pid) (hpeek : ¬(pid.isSome ∧ nohang = true)) :
    ∃ child, (w.tasks child).state = .terminated ∧
      w.kernel.sched.waitpid pid nohang =
        (.collected child (w.tasks child).exitCode, w.kernel.sched.releaseSlot child) := by
  cases pid with
  | some child =>
    have hfalse : nohang = false := Bool.eq_false_iff.2 fun h => hpeek ⟨rfl, h⟩
    have hwait := waitpid_pid hs hfree hidle hended nohang
    rw [hfalse] at hwait ⊢
    exact ⟨child, hended, hwait⟩
  | none =>
    obtain ⟨i, hparent, hstate⟩ := hended
    have hlt : i < w.kernel.sched.taskCount := hs.sched.lt_of_used (by
      rw [show (w.kernel.sched.tasks i).state = .terminated from hstate]
      rintro ⟨⟩)
    have hne : i ≠ w.current := by
      rintro rfl
      exact (current_alive hs hfree).2 hstate
    have hfound : ∀ p : TaskState → Bool, p .terminated = true →
        (w.kernel.sched.findChild w.current p).isSome := fun p hp => by
      refine List.find?_isSome.2 ⟨i, List.mem_range.2 hlt, ?_⟩
      rw [show (w.kernel.sched.tasks i).state = .terminated from hstate, hp, Bool.and_true]
      exact decide_eq_true ⟨hne, hparent⟩
    obtain ⟨child, hchild⟩ := Option.isSome_iff_exists.1 (hfound (· == .terminated) rfl)
    have hchild' : w.kernel.sched.findChild w.kernel.sched.current (· == .terminated) =
      some child := hchild
    refine ⟨child, eq_of_beq (Sched.findChild_some hchild).2.2.2, ?_⟩
    unfold Sched.waitpid Sched.hasChildren Sched.reapFinishedChild Sched.waitForAny
    dsimp only
    rw [show (w.kernel.sched.findChild w.kernel.sched.current (· != .unused)).isSome = true from
      hfound (· != .unused) rfl, hchild', if_neg (by simp)]
    cases nohang <;> rfl

/-- `WNOHANG` with a pid changes nothing. -/
theorem waitpid_peek (s : Sched) (child : ℕ) : (s.waitpid (some child) true).2 = s := by
  unfold Sched.waitpid
  dsimp only
  rw [if_pos (rfl : true = true)]
  split_ifs <;> rfl

theorem after_waitpid {pid : Option ℕ} {nohang : Bool} (ptr : ℕ) (accessible : ℕ → Bool) :
    (w.after (.waitpid pid nohang ptr accessible)).kernel.sched =
    (w.kernel.sched.waitpid pid nohang).2 := by
  change (w.kernel.afterCall (.waitpid pid nohang)).sched = _
  unfold Kernel.afterCall
  dsimp only
  split <;> rename_i heq <;> rw [heq] <;> rfl

theorem waitpid_keeps {pid : Option ℕ} {nohang : Bool} {ptr : ℕ} {accessible : ℕ → Bool}
    (hs : w.kernel.Sound) (henabled : w.Enabled (.waitpid pid nohang ptr accessible)) :
    Keeps arch w (.waitpid pid nohang ptr accessible) ↔
    w.Careful arch (.waitpid pid nohang ptr accessible) := by
  have hs' : (w.after (.waitpid pid nohang ptr accessible)).kernel.Sound :=
    hs.step ⟨henabled.1, rfl⟩
  have hfree : w.kernel.point w.current = .free := henabled.1.1
  by_cases hcollects : w.HasEnded pid ∧ ¬(pid.isSome ∧ nohang = true)
  · obtain ⟨child, hended, hwait⟩ := waitpid_collects hs hfree henabled.2 hcollects.1 hcollects.2
    have hreply : w.reply arch (.waitpid pid nohang ptr accessible) =
        some (.deliver arch accessible ptr child (w.tasks child).exitCode) := by
      unfold reply
      dsimp only
      rw [hwait]
    by_cases hgood : GoodPointer arch accessible ptr
    · refine iff_of_true (fun errno herror => ?_) (.inl hgood)
      rw [hreply, WaitReply.deliver, storeStatusAt_good hgood] at herror
      cases herror
    · rw [WaitReply.deliver, storeStatusAt_bad hgood] at hreply
      refine iff_of_false (not_keeps_of_released hreply hended ?_) ?_
      · rw [tasks, after_waitpid, hwait]
        exact (Sched.releaseSlot_tasks ..).trans (if_pos rfl)
      · rintro (h | h | h)
        · exact hgood h
        · exact hcollects.2 h
        · exact h hcollects.1
  · have hcareful : w.Careful arch (.waitpid pid nohang ptr accessible) := by
      by_cases hpeek : pid.isSome ∧ nohang = true
      · exact .inr (.inl hpeek)
      · exact .inr (.inr fun hended => hcollects ⟨hended, hpeek⟩)
    refine iff_of_true ?_ hcareful
    have hsched : (w.after (.waitpid pid nohang ptr accessible)).kernel.sched =
      (w.kernel.sched.waitpid pid nohang).2 :=
      after_waitpid ptr accessible
    have hwaits := w.kernel.sched.waits_waitpid pid nohang
    generalize hwait : w.kernel.sched.waitpid pid nohang = r at hwaits hsched
    obtain ⟨wait, s⟩ := r
    have hsame : s = w.kernel.sched → Keeps arch w (.waitpid pid nohang ptr accessible) :=
      fun heq =>
      keeps_of_same hs' (congrArg Sched.tasks (hsched.trans heq))
    cases hwaits with
    | noChild => exact hsame rfl
    | notYet => exact hsame rfl
    | peek => exact hsame rfl
    | @collect child hwho hended =>
      by_cases hpeek : pid.isSome ∧ nohang = true
      · obtain ⟨child', rfl⟩ := Option.isSome_iff_exists.1 hpeek.1
        have hsecond := waitpid_peek w.kernel.sched child'
        rw [← hpeek.2, hwait] at hsecond
        exact hsame hsecond
      · refine absurd ⟨?_, hpeek⟩ hcollects
        rcases hwho with ⟨rfl, hparent⟩ | rfl
        · exact ⟨child, hparent, hended⟩
        · exact hended
    | block =>
      intro errno herror
      unfold reply at herror
      dsimp only at herror
      rw [hwait] at herror
      cases herror

theorem proceed_keeps {ready : Bool} {accessible : ℕ → Bool} :
    Keeps arch w (.proceed ready accessible) ↔ w.Careful arch (.proceed ready accessible) := by
  by_cases hcollects : ∃ child, w.kernel.point w.current = .childCheck child ∧
      (w.tasks child).state = .terminated
  · obtain ⟨child, hpoint, hended⟩ := hcollects
    have hpoint' : w.kernel.point w.kernel.sched.current = .childCheck child := hpoint
    have hended' : (w.kernel.sched.tasks child).state = .terminated := hended
    have hreply : w.reply arch (.proceed ready accessible) =
        some (.deliver arch accessible (w.ptr w.current) child (w.tasks child).exitCode) := by
      unfold reply Kernel.collected
      dsimp only
      rw [hpoint']
      dsimp only
      rw [if_pos hended']
      rfl
    by_cases hgood : GoodPointer arch accessible (w.ptr w.current)
    · refine iff_of_true (fun errno herror => ?_) (.inl hgood)
      rw [hreply, WaitReply.deliver, storeStatusAt_good hgood] at herror
      cases herror
    · rw [WaitReply.deliver, storeStatusAt_bad hgood] at hreply
      refine iff_of_false (not_keeps_of_released hreply hended ?_) ?_
      · change (w.kernel.afterProceed ready).sched.tasks child = _
        unfold Kernel.afterProceed
        dsimp only
        rw [hpoint']
        dsimp only
        rw [if_pos hended']
        exact (Sched.releaseSlot_tasks ..).trans (if_pos rfl)
      · rintro (h | h)
        · exact hgood h
        · exact h child hpoint hended
  · refine iff_of_true (fun errno herror => ?_)
      (.inr fun child hpoint hended => hcollects ⟨child, hpoint, hended⟩)
    have hnone : w.kernel.collected (.proceed ready) = none := by
      unfold Kernel.collected
      dsimp only
      split
      · rename_i child hpoint
        exact if_neg fun hended => hcollects ⟨child, hpoint, hended⟩
      · rfl
    unfold reply at herror
    dsimp only at herror
    rw [hnone] at herror
    cases herror

end Waiters

/-- A `waitpid` that returns an error keeps the children that have ended, exactly if its pointer is
good, or it is one that releases no slot, or no child that it asks for has ended. -/
theorem waitpid_keeps_iff {arch : Arch} {es : List WaiterEvent} {w : Waiters} {e : WaiterEvent}
    (h : Run WaiterStep Waiters.boot es w) (henabled : w.Enabled e) :
    w.Keeps arch e ↔ w.Careful arch e := by
  have hs := Waiters.sound_run h
  cases e with
  | waitpid pid nohang ptr accessible => exact Waiters.waitpid_keeps hs henabled
  | proceed ready accessible => exact Waiters.proceed_keeps
  | other e => exact iff_of_true (fun errno herror => by cases herror) trivial

/-- Task 1 has a child, which has ended. -/
def childEnded : List WaiterEvent :=
  [.other (.call (.spawn false)), .other (.call .yield), .other (.call (.spawn true)),
    .other (.call .yield), .other (.call (.setExitCode 3)), .other (.call .exit),
    .proceed false fun _ => false]

theorem waitpid_keeps_null : (childEnded.foldl Waiters.after Waiters.boot).Keeps .i386
    (.waitpid none false 0 fun _ => false) :=
  (waitpid_keeps_iff (Run.of_plays (by decide +kernel)) (by decide +kernel)).2 (.inl (.inl rfl))

/-- A waiting `waitpid` with a bad pointer loses the status. -/
theorem waitpid_loses_status :
    ¬∀ (arch : Arch) (es : List WaiterEvent) (w : Waiters) (e : WaiterEvent),
    Run WaiterStep Waiters.boot es w → w.Enabled e → w.Keeps arch e := by
  intro hall
  have hkeeps := hall .i386 childEnded (childEnded.foldl Waiters.after Waiters.boot)
    (.waitpid (some 2) false 8 fun _ => false) (Run.of_plays (by decide +kernel))
    (by decide +kernel)
  have hkept := (hkeeps efault (by decide +kernel) 2 (by decide +kernel)).1
  exact absurd hkept (by decide +kernel)

end Tcmk
