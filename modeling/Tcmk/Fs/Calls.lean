import Tcmk.Lib.Run
import Tcmk.Fs.Tcmkfs

/-!
# Sequences of file system calls

A run makes one call after the other. Each event says which call was made, the time of the
real-time clock, and the reply; a call that panics has no reply, and no call follows it.
-/

namespace Tcmk

open Lib

/-- A call of TCMKFS. -/
inductive FsCall
  | create (path : List UInt8)
  | mkdir (path : List UInt8)
  | rmdir (path : List UInt8)
  | remove (index : ℕ)
  | read (index offset room : ℕ)
  | write (index offset : ℕ) (data : List UInt8)
  | writeAll (name data : List UInt8)
  | sync
  deriving DecidableEq

/-- The arguments are values of the source's types. -/
def FsCall.WellTyped (arch : Arch) : FsCall → Prop
  | .write _ offset data => arch.IsUsize offset ∧ arch.IsSliceLen data.length
  | .writeAll _ data => arch.IsSliceLen data.length
  | _ => True

instance (arch : Arch) (call : FsCall) : Decidable (call.WellTyped arch) := by
  cases call <;> unfold FsCall.WellTyped <;>
    first | infer_instance | exact inferInstanceAs (Decidable (_ < _ ∧ _ < _)) |
      exact inferInstanceAs (Decidable (_ < _))

/-- The value of a call. -/
inductive FsReply
  | done
  | index (i : ℕ)
  | count (n : ℕ)
  | bytes (l : List UInt8)
  deriving DecidableEq

def FsCall.exec (arch : Arch) : FsCall → FsProg FsReply
  | .create path => Fs.create path >>= fun i => pure (.index i)
  | .mkdir path => Fs.mkdir path >>= fun i => pure (.index i)
  | .rmdir path => Fs.rmdir path >>= fun _ => pure .done
  | .remove index => Fs.remove index >>= fun _ => pure .done
  | .read index offset room => Fs.read index offset room >>= fun l => pure (.bytes l)
  | .write index offset data => Fs.write arch index offset data >>= fun n => pure (.count n)
  | .writeAll name data => Fs.writeAll arch name data >>= fun n => pure (.count n)
  | .sync => Fs.sync >>= fun _ => pure .done

/-- A call, the time it sees, and its reply. -/
structure FsEvent where
  call : FsCall
  unixTime : UInt32
  reply : Except Stop FsReply
  deriving DecidableEq

/-- The call returns its reply. -/
def FsStep (arch : Arch) (s : Fs) (e : FsEvent) (t : Fs) : Prop :=
  e.reply ≠ .error .panic ∧
    (e.call.exec arch).run { s with unixTime := e.unixTime } = (e.reply, t)

/-- What holds of every call that returns holds of a step. -/
theorem FsStep.of_post {arch : Arch} {s t : Fs} {e : FsEvent} {Q : FsReply → Fs → Prop}
    {E : FsError → Fs → Prop} (hstep : FsStep arch s e t)
    (h : Prog.Post (e.call.exec arch) { s with unixTime := e.unixTime } Q
      fun stop t => ∀ err, stop = .err err → E err t) :
    (∃ r, e.reply = .ok r ∧ Q r t) ∨ ∃ err, e.reply = .error (.err err) ∧ E err t := by
  obtain ⟨hpanic, hrun⟩ := hstep
  cases hr : e.reply with
  | ok r => exact .inl ⟨r, rfl, h.of_ok (hr ▸ hrun)⟩
  | error stop =>
    cases stop with
    | err err => exact .inr ⟨err, rfl, h.of_error (hr ▸ hrun) err rfl⟩
    | panic => exact absurd hr hpanic

/-! ## Executing a list of calls -/

/-- The events of a list of calls, all at the clock's present time, and the state they lead to. -/
def execCalls (arch : Arch) : List FsCall → Fs → List FsEvent × Fs
  | [], s => ([], s)
  | call :: calls, s =>
    let result := (call.exec arch).run s
    let rest := execCalls arch calls result.2
    (⟨call, s.unixTime, result.1⟩ :: rest.1, rest.2)

theorem run_execCalls {arch : Arch} {calls : List FsCall} {s : Fs}
    (h : ∀ e ∈ (execCalls arch calls s).1, e.reply ≠ .error .panic) :
    Run (FsStep arch) s (execCalls arch calls s).1 (execCalls arch calls s).2 := by
  induction calls generalizing s with
  | nil => exact .nil s
  | cons call calls ih =>
    exact .cons ⟨h _ (List.mem_cons_self ..), rfl⟩
      (ih fun e he => h e (List.mem_cons_of_mem _ he))

/-- A kernel with an empty disk of 8192 sectors and one partition on it. -/
def blankFs : Fs where
  inodes _ := Inode.empty
  bitmap _ := 0
  scratch _ := 0
  mounted := false
  partLba := 0
  totalBlocks := 0
  freeBlocks := 0
  disk := ⟨true, 8192, fun _ _ => 0, fun _ _ => none, 0, []⟩
  partition := some (64, 8000)
  unixTime := 0

/-- The same kernel after `format`. -/
def formattedFs : Fs := ((Fs.format []).run blankFs).2

theorem format_blankFs : (Fs.format []).run blankFs = (.ok (), formattedFs) :=
  Prog.run_eq_of_fst (by decide +kernel)

example : formattedFs.mounted = true ∧ formattedFs.resolve Fs.homeDir = some 1 := by decide +kernel

end Tcmk
