import Tcmk.Fd.Table
import Tcmk.Syscall.Frame

/-!
# The Co-Service (`fallback.rs`)

While Level-0a does not respond, `handle_syscall` gives a call to `emulate_syscall` and not to
`posix::dispatch`. It knows a few numbers, and these are the same on both architectures: those of
i386. There a call is served as `dispatch` takes it, but for a `write` to a descriptor that is not
the console. On x86_64 the number of `exit` is that of `write`, and the number of `write` is that of
no call (`fallback_agrees_iff`).
-/

namespace Tcmk

open Errno

/-- What a call does, with the object it does it to. -/
inductive Effect
  | print (buf len : ℕ)
  /-- a write to the file or the pipe of a descriptor -/
  | send (entry : FileDescriptor) (buf len : ℕ)
  | exit (code : ℕ)
  | yield
  /-- a question about a window or the mouse -/
  | query (call : PosixCall) (arg : ℕ)
  | other (call : PosixCall) (arg1 arg2 arg3 : ℕ)
  deriving DecidableEq

/-- `FD_STDOUT`. -/
def fdStdout : ℕ := 1

/-- `FD_STDERR`. -/
def fdStderr : ℕ := 2

/-- `errno_of`. -/
def errnoOf : KernelError → ℤ
  | .badFileDescriptor => -ebadf
  | .fault => -efault
  | .notFound => -enoent
  | .tooManyOpenFiles => -emfile
  | .notSupported => -einval

/-- Where `kernel_api::write` writes: the table comes first. -/
def writeEffect (s : FdState) (task fd buf len : ℕ) : Except KernelError Effect :=
  if buf = 0 then .error .fault
  else
    match s.get task fd with
    | some entry =>
      match entry.kind with
      | .pipeRead => .error .badFileDescriptor
      | .pipeWrite | .file => .ok (.send entry buf len)
    | none =>
      if fd = fdStdout ∨ fd = fdStderr then .ok (.print buf len) else .error .badFileDescriptor

/-- What a call of the task does, or the error that it returns at once. -/
def PosixCall.effect (s : FdState) (task : ℕ) (f : SyscallFrame) : PosixCall → Except ℤ Effect
  | .write => (writeEffect s task (f.arg1 % 2 ^ 32) f.arg2 f.arg3).mapError errnoOf
  | .exit => .ok (.exit (f.arg1 % 2 ^ 32))
  | .yield | .winFlush => .ok .yield
  | .winSize => .ok (.query .winSize f.arg1)
  | .winPos => .ok (.query .winPos f.arg1)
  | .winPollKey => .ok (.query .winPollKey f.arg1)
  | .mouseState => .ok (.query .mouseState 0)
  | call => .ok (.other call f.arg1 f.arg2 f.arg3)

/-- What `posix::dispatch` takes a frame of the task for. -/
def posixEffect (arch : Arch) (s : FdState) (task : ℕ) (f : SyscallFrame) : Except ℤ Effect :=
  match PosixCall.ofNumber arch f.number with
  | none => .error (-enosys)
  | some call => call.effect s task f

theorem posixEffect_of {arch : Arch} {s : FdState} {task : ℕ} {f : SyscallFrame} {call : PosixCall}
    (h : PosixCall.ofNumber arch f.number = some call) : posixEffect arch s task f =
    call.effect s task f := by
  rw [posixEffect, h]

/-! ## The emulation -/

/-- What `emulate_syscall` does with a frame. -/
inductive Emulated
  | refused (result : ℤ)
  | served (effect : Effect) (result : ℤ)
  /-- It reports that all is well, and does nothing. -/
  | acknowledged (effect : Effect) (result : ℤ)
  deriving DecidableEq

namespace Fallback

def sysExit : ℕ := 1

def sysWrite : ℕ := 4

def sysWinSize : ℕ := 0x502

def sysWinFlush : ℕ := 0x503

def sysWinPollKey : ℕ := 0x504

def sysMouseState : ℕ := 0x505

def sysYield : ℕ := 0x506

def sysWinPos : ℕ := 0x507

end Fallback

open Fallback

/-- `emulate_syscall`. -/
def emulateSyscall (f : SyscallFrame) : Emulated :=
  if f.number = sysWrite then
    if f.arg2 = 0 then .refused (-enosys)
    else .served (.print f.arg2 f.arg3) ((f.arg3 : ℤ).bmod (2 ^ 32))
  else if f.number = sysExit then .acknowledged (.exit (f.arg1 % 2 ^ 32)) 0
  else if f.number = sysYield ∨ f.number = sysWinFlush then .served .yield 0
  else if f.number = sysWinPollKey then .acknowledged (.query .winPollKey f.arg1) 0
  else if f.number = sysMouseState then .acknowledged (.query .mouseState 0) 0
  else if f.number = sysWinSize then .acknowledged (.query .winSize f.arg1) 0
  else if f.number = sysWinPos then .acknowledged (.query .winPos f.arg1) 0
  else .refused (-enosys)

/-- The emulation refuses a frame, or takes it for what it does there. -/
def Emulated.Agrees (e : Emulated) (posix : Except ℤ Effect) : Prop :=
  match e with
  | .refused result => result < 0
  | .served effect _ | .acknowledged effect _ => posix = .ok effect

/-- The emulation refuses the frame, or takes it for what `dispatch` does. -/
def FallbackAgrees (arch : Arch) (s : FdState) (task : ℕ) (f : SyscallFrame) : Prop :=
  (emulateSyscall f).Agrees (posixEffect arch s task f)

/-- The descriptor is an output of the task that has not been redirected. -/
def Console (s : FdState) (task fd : ℕ) : Prop :=
  s.get task fd = none ∧ (fd = fdStdout ∨ fd = fdStderr)

instance (s : FdState) (task fd : ℕ) : Decidable (Console s task fd) :=
  inferInstanceAs (Decidable (_ ∧ _))

theorem writeEffect_eq_print {s : FdState} {task fd buf len : ℕ} (h : buf ≠ 0) :
    writeEffect s task fd buf len = .ok (.print buf len) ↔ Console s task fd := by
  unfold writeEffect Console
  rw [if_neg h]
  cases s.get task fd with
  | none =>
    dsimp only
    by_cases hfd : fd = fdStdout ∨ fd = fdStderr
    · rw [if_pos hfd]
      exact iff_of_true rfl ⟨rfl, hfd⟩
    · rw [if_neg hfd]
      exact iff_of_false (fun h => by cases h) fun h => hfd h.2
  | some entry =>
    dsimp only
    refine iff_of_false (fun h => ?_) fun h => by cases h.1
    split at h <;> cases h

/-- A write never ends the task. -/
theorem writeEffect_ne_exit {s : FdState} {task fd buf len code : ℕ} :
    writeEffect s task fd buf len ≠ .ok (.exit code) := by
  unfold writeEffect
  by_cases hbuf : buf = 0
  · rw [if_pos hbuf]
    exact fun h => by cases h
  · rw [if_neg hbuf]
    cases s.get task fd with
    | none =>
      dsimp only
      split_ifs <;> exact fun h => by cases h
    | some entry =>
      dsimp only
      split <;> exact fun h => by cases h

/-- The frames for which the emulation is right. -/
def FallbackServes (arch : Arch) (s : FdState) (task : ℕ) (f : SyscallFrame) : Prop :=
  match arch with
  | .i386 => f.number = sysWrite → f.arg2 ≠ 0 → Console s task (f.arg1 % 2 ^ 32)
  | .x86_64 => f.number ≠ sysExit ∧ (f.number = sysWrite → f.arg2 = 0)

section Numbers

variable {arch : Arch} {s : FdState} {task : ℕ} {f : SyscallFrame}

theorem effect_write {e : Effect} : PosixCall.write.effect s task f = .ok e ↔
    writeEffect s task (f.arg1 % 2 ^ 32) f.arg2 f.arg3 = .ok e := by
  rw [PosixCall.effect]
  cases writeEffect s task (f.arg1 % 2 ^ 32) f.arg2 f.arg3 with
  | error err => exact iff_of_false (fun heq => by cases heq) fun heq => by cases heq
  | ok e' => exact ⟨fun heq => by cases heq; rfl, fun heq => by cases heq; rfl⟩

theorem agrees_write (h : f.number = sysWrite) :
    FallbackAgrees arch s task f ↔
    (f.arg2 ≠ 0 → posixEffect arch s task f = .ok (.print f.arg2 f.arg3)) := by
  unfold FallbackAgrees emulateSyscall
  rw [if_pos h]
  by_cases hbuf : f.arg2 = 0
  · rw [if_pos hbuf]
    exact iff_of_true (show -enosys < 0 by decide) (absurd hbuf)
  · rw [if_neg hbuf]
    exact ⟨fun heq _ => heq, fun heq => heq hbuf⟩

theorem agrees_exit (h : f.number = sysExit) :
    FallbackAgrees arch s task f ↔ posixEffect arch s task f = .ok (.exit (f.arg1 % 2 ^ 32)) := by
  have hne : f.number ≠ sysWrite := by
    rw [h]
    decide
  unfold FallbackAgrees emulateSyscall
  rw [if_neg hne, if_pos h]
  exact Iff.rfl

/-- The numbers of the windows are the same on both architectures. -/
theorem agrees_other (hwrite : f.number ≠ sysWrite) (hexit : f.number ≠ sysExit) :
    FallbackAgrees arch s task f := by
  have hnumber : ∀ c : PosixCall, c.number arch = f.number → PosixCall.ofNumber arch f.number =
    some c :=
    fun c => PosixCall.ofNumber_eq_some.2
  unfold FallbackAgrees emulateSyscall
  rw [if_neg hwrite, if_neg hexit]
  split_ifs with hyield hkey hmouse hsize hpos
  · rcases hyield with h | h
    · exact posixEffect_of (hnumber .yield (h ▸ rfl))
    · exact posixEffect_of (hnumber .winFlush (h ▸ rfl))
  · exact posixEffect_of (hnumber .winPollKey (hkey ▸ rfl))
  · exact posixEffect_of (hnumber .mouseState (hmouse ▸ rfl))
  · exact posixEffect_of (hnumber .winSize (hsize ▸ rfl))
  · exact posixEffect_of (hnumber .winPos (hpos ▸ rfl))
  · exact show -enosys < 0 by decide

/-- The Co-Service takes a frame for what it is, or refuses it, exactly if it is one of
`FallbackServes`. -/
theorem fallback_agrees_iff (arch : Arch) (s : FdState) (task : ℕ) (f : SyscallFrame) :
    FallbackAgrees arch s task f ↔ FallbackServes arch s task f := by
  by_cases hwrite : f.number = sysWrite
  · have hne : f.number ≠ sysExit := by
      rw [hwrite]
      decide
    rw [agrees_write hwrite]
    cases arch with
    | i386 =>
      have hcall : PosixCall.ofNumber .i386 f.number = some .write :=
        PosixCall.ofNumber_eq_some.2 hwrite.symm
      rw [posixEffect_of hcall]
      exact ⟨fun h _ hbuf => (writeEffect_eq_print hbuf).1 (effect_write.1 (h hbuf)),
        fun h hbuf => effect_write.2 ((writeEffect_eq_print hbuf).2 (h hwrite hbuf))⟩
    | x86_64 =>
      have hcall : PosixCall.ofNumber .x86_64 f.number = none := by
        rw [hwrite]
        decide
      unfold posixEffect
      rw [hcall]
      refine ⟨fun h => ⟨hne, fun _ => ?_⟩, fun h hbuf => absurd (h.2 hwrite) hbuf⟩
      by_contra hbuf
      cases h hbuf
  by_cases hexit : f.number = sysExit
  · rw [agrees_exit hexit]
    cases arch with
    | i386 =>
      have hcall : PosixCall.ofNumber .i386 f.number = some .exit :=
        PosixCall.ofNumber_eq_some.2 hexit.symm
      exact iff_of_true (posixEffect_of hcall) fun h => by
        rw [hexit] at h
        cases h
    | x86_64 =>
      have hcall : PosixCall.ofNumber .x86_64 f.number = some .write :=
        PosixCall.ofNumber_eq_some.2 hexit.symm
      rw [posixEffect_of hcall]
      exact iff_of_false (fun h => writeEffect_ne_exit (effect_write.1 h)) fun h => h.1 hexit
  · refine iff_of_true (agrees_other hwrite hexit) ?_
    cases arch with
    | i386 => exact fun h => absurd h hwrite
    | x86_64 => exact ⟨hexit, fun h => absurd h hwrite⟩

end Numbers

/-- A program on x86_64 that writes is told that its exit has been ignored. -/
theorem fallback_takes_write_for_exit :
    ¬∀ (arch : Arch) (s : FdState) (task : ℕ) (f : SyscallFrame),
    f.Fits arch → FallbackAgrees arch s task f := by
  intro hall
  have heq : posixEffect .x86_64 .initial 1 ⟨1, 1, 0x400000, 5⟩ = .ok (.exit 1) :=
    hall .x86_64 .initial 1 ⟨1, 1, 0x400000, 5⟩ (by decide)
  exact absurd heq (by decide)

end Tcmk
