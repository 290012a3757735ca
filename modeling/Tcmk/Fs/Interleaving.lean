import Tcmk.Fs.Calls
import Tcmk.Fs.Lockstep
import Tcmk.Fs.Contents

/-!
# Calls of several tasks

A task in a disk command may have to wait; then another task runs, which may be in the middle of
a call of its own. The model runs one slice of one call at a time, up to its next wait, in any
order (`TaskStep`). The calls that have returned are logged in the order of their returns.

`serializable`: if no `write` runs together with another call, the calls one after the other, in
the order of the log, return what is logged and leave the same files. Reads may run together.
-/

namespace Tcmk

open Lib

/-- A call that a task is waiting in: the time that it sees, and what is left of it. -/
structure Pending where
  call : FsCall
  time : UInt32
  rest : Prog Fs Stop FsReply

/-- The tasks' calls on the file system. -/
structure Tasks (ι : Type) where
  fs : Fs
  pending : ι → Option Pending
  log : List (ι × FsEvent)

/-- No task is in a call. -/
def Tasks.idle (ι : Type) (s : Fs) : Tasks ι := ⟨s, fun _ => none, []⟩

inductive TaskEvent (ι : Type)
  | start (i : ι) (call : FsCall) (time : UInt32)
  | resume (i : ι)

namespace FsCall

/-- `read` and `write`, the calls of this module. -/
def IsRead : FsCall → Prop
  | .read .. => True
  | _ => False

def IsWrite : FsCall → Prop
  | .write .. => True
  | _ => False

end FsCall

section Step

variable {ι : Type} [DecidableEq ι]

/-- One slice of a task's call. -/
def Tasks.slice (s : Tasks ι) (i : ι) (p : Pending) : Tasks ι :=
  match p.rest.resume { s.fs with unixTime := p.time } with
  | (.done r, fs) =>
    { fs := fs, pending := Function.update s.pending i none
      log := s.log ++ [(i, ⟨p.call, p.time, r⟩)] }
  | (rest, fs) => { s with
      fs := fs, pending := Function.update s.pending i (some { p with rest := rest }) }

/-- A task enters a call, or goes on with it. -/
inductive TaskStep (arch : Arch) : Tasks ι → TaskEvent ι → Tasks ι → Prop
  | start {s : Tasks ι} {i : ι} {call : FsCall} {time : UInt32} (hidle : s.pending i = none)
      (hcall : call.IsRead ∨ call.IsWrite) :
      TaskStep arch s (.start i call time) (s.slice i ⟨call, time, call.exec arch⟩)
  | resume {s : Tasks ι} {i : ι} {p : Pending} (hpending : s.pending i = some p) :
      TaskStep arch s (.resume i) (s.slice i p)

/-- A write starts when no call is in progress, a read when only reads are. -/
def Exclusive (s : Tasks ι) : TaskEvent ι → Prop
  | .start _ call _ => ∀ i p, s.pending i = some p → call.IsRead ∧ p.call.IsRead
  | .resume _ => True

/-- A step that meets a condition on the state before it. -/
def TaskStepIf (arch : Arch) (cond : Tasks ι → TaskEvent ι → Prop) (s : Tasks ι)
    (e : TaskEvent ι) (t : Tasks ι) : Prop :=
  TaskStep arch s e t ∧ cond s e

end Step

/-- A call that runs alone and returns its reply. -/
def CallStep (arch : Arch) (s : Fs) (e : FsEvent) (t : Fs) : Prop :=
  (e.call.exec arch).run { s with unixTime := e.unixTime } = (e.reply, t)

namespace Fs

variable {time : UInt32} {s t u : Fs}

/-- The same tables and bytes on the disk, whatever the clocks show. -/
def Agree (s t : Fs) : Prop :=
  ∀ time, Alike time { s with unixTime := time } { t with unixTime := time }

theorem Agree.trans (h : Agree s t) (h' : Agree t u) : Agree s u :=
  fun time => (h time).trans (h' time)

theorem Agree.symm (h : Agree s t) : Agree t s := fun time => (h time).symm

theorem Alike.agree (h : Alike time s t) : Agree s t := by
  intro time'
  obtain ⟨hinodes, hbitmap, hmounted, hlba, htotal, hfree, hpart, -⟩ := h.tables
  exact ⟨rfl, ⟨hinodes, hbitmap, hmounted, hlba, htotal, hfree, hpart, rfl⟩, h.device, h.steady,
    h.sectors⟩

theorem Agree.refl (h : s.disk.Steady) : Agree s s := (Alike.refl rfl h).agree

/-! ## Reads -/

/-- What is left of a read: in any kernel of the class `C`, and with other programs that keep to
it, it ends with the reply `r`. -/
def Reads (C : Fs → Prop) (r : Except Stop FsReply) (x : FsProg FsReply) (s : Fs) : Prop :=
  Prog.Rely C (fun s s' => C s → C s') x s fun r' s' => r' = r ∧ C s'

theorem exec_read_tracks (arch : Arch) {call : FsCall} (hcall : call.IsRead) (h : Alike time s t) :
    Prog.Tracks (fun s => Alike time s t) (fun s s' => Alike time s t → Alike time s' t)
      (call.exec arch) s (call.exec arch) t
      (fun a s' b t' => a = b ∧ KeptAlike time t s' t') (KeptAlike time t) := by
  cases call with
  | read index offset room =>
    refine .bind ((read_tracks index offset room h).mono (fun a s' b t' hab => ?_) fun _ _ h => h)
    exact .pure ⟨congrArg _ hab.1, hab.2⟩
  | _ => exact hcall.elim

theorem exec_reads (arch : Arch) {call : FsCall} (hcall : call.IsRead) (h : Alike time s t) :
    Reads (Alike time · t) ((call.exec arch).run t).1 (call.exec arch) s := by
  refine Prog.Rely.mono (exec_read_tracks arch hcall h) fun r s' hr => ?_
  unfold Prog.Match at hr
  split at hr
  · rename_i b t' hrun
    obtain ⟨a, ha, rfl, hkept⟩ := hr
    rw [hrun]
    exact ⟨ha, hkept.1.trans hkept.2.symm⟩
  · rename_i e t' hrun
    rw [hrun]
    exact ⟨hr.1, hr.2.1.trans hr.2.2.symm⟩

/-- A read that runs alone. -/
theorem exec_read_alone (arch : Arch) {call : FsCall} (hcall : call.IsRead) (h : Alike time s t) :
    ((call.exec arch).run s).1 = ((call.exec arch).run t).1 ∧
      Alike time t ((call.exec arch).run t).2 := by
  have htracks : Prog.Tracks (fun s => Alike time s t) Eq (call.exec arch) s (call.exec arch) t
      (fun a s' b t' => a = b ∧ KeptAlike time t s' t') (KeptAlike time t) :=
    Prog.Rely.weaken (exec_read_tracks arch hcall h) fun s s' heq hs => heq ▸ hs
  obtain ⟨hreply, hkept⟩ := htracks.of_eq
  exact ⟨hreply, hkept.2⟩

/-- A write that runs alone. -/
theorem exec_write_inStep (arch : Arch) {call : FsCall} (hcall : call.IsWrite)
    (h : Alike time s t) : InStep time (call.exec arch) s (call.exec arch) t (Alike time) := by
  cases call with
  | write index offset data =>
    exact (write_inStep arch index offset data h).bind fun _ _ _ h => inStep_pure h
  | _ => exact hcall.elim

end Fs

/-! ## The invariant -/

section Invariant

variable {ι : Type} [DecidableEq ι] {arch : Arch} {s₀ t : Fs} {s s' : Tasks ι} {i : ι} {p : Pending}

theorem slice_done {r : Except Stop FsReply} {fs : Fs}
    (h : p.rest.resume { s.fs with unixTime := p.time } = (.done r, fs)) :
    s.slice i p = { fs := fs, pending := Function.update s.pending i none
                    log := s.log ++ [(i, ⟨p.call, p.time, r⟩)] } := by
  rw [Tasks.slice, h]

theorem slice_rest {rest : Prog Fs Stop FsReply} {fs : Fs}
    (h : p.rest.resume { s.fs with unixTime := p.time } = (rest, fs))
    (hrest : ∀ r, rest ≠ .done r) :
    s.slice i p = { s with
      fs := fs, pending := Function.update s.pending i (some { p with rest := rest }) } := by
  rw [Tasks.slice, h]
  cases rest with
  | done r => exact absurd rfl (hrest r)
  | act f k => rfl
  | pause k => rfl

/-- What is left of a call in progress ends like the whole call started in `t`. -/
def Reading (arch : Arch) (t : Fs) (p : Pending) : Prop :=
  p.call.IsRead ∧ ∀ s, Fs.Alike p.time s { t with unixTime := p.time } →
    Fs.Reads (Fs.Alike p.time · { t with unixTime := p.time })
      ((p.call.exec arch).run { t with unixTime := p.time }).1 p.rest s

/-- The kernel is that after the logged calls, up to the reads in progress. -/
structure Quiet (arch : Arch) (t : Fs) (s : Tasks ι) : Prop where
  agree : Fs.Agree s.fs t
  reading : ∀ i p, s.pending i = some p → Reading arch t p

/-- A write is in progress, and nothing else; it will end like the whole call started in `t`. -/
structure Writing (arch : Arch) (t : Fs) (s : Tasks ι) (i : ι) (p : Pending) : Prop where
  others : ∀ j ≠ i, s.pending j = none
  write : p.call.IsWrite
  rest : Prog.Rely (fun s => s.unixTime = p.time) Eq p.rest { s.fs with unixTime := p.time }
    fun r u => r = ((p.call.exec arch).run { t with unixTime := p.time }).1 ∧
      Fs.Alike p.time u ((p.call.exec arch).run { t with unixTime := p.time }).2

/-- The calls logged, one after the other, lead from `s₀` to a kernel like the present one. -/
def Serial (arch : Arch) (s₀ : Fs) (s : Tasks ι) : Prop :=
  ∃ t, Run (CallStep arch) s₀ (s.log.map Prod.snd) t ∧
    (Quiet arch t s ∨ ∃ i p, s.pending i = some p ∧ Writing arch t s i p)

omit [DecidableEq ι] in
/-- One more call in the log. -/
theorem run_log (hrun : Run (CallStep arch) s₀ (s.log.map Prod.snd) t) (i : ι) (call : FsCall)
    (time : UInt32) :
    Run (CallStep arch) s₀ ((s.log ++ [(i, (⟨call, time,
      ((call.exec arch).run { t with unixTime := time }).1⟩ : FsEvent))]).map Prod.snd)
      ((call.exec arch).run { t with unixTime := time }).2 := by
  rw [List.map_append]
  exact hrun.append (.cons rfl (.nil _))

/-- Reads go on in the same way when the kernel is replaced by one that agrees with it. -/
theorem Reading.congr {t' : Fs} (h : Reading arch t p) (ht : Fs.Agree t t') :
    Reading arch t' p := by
  obtain ⟨hread, hreads⟩ := h
  have hclass : (fun s => Fs.Alike p.time s { t with unixTime := p.time }) =
      fun s => Fs.Alike p.time s { t' with unixTime := p.time } := funext fun s =>
    propext ⟨fun hs => hs.trans (ht p.time), fun hs => hs.trans (ht p.time).symm⟩
  refine ⟨hread, fun s hs => ?_⟩
  have h := hreads s (hs.trans (ht p.time).symm)
  rwa [hclass, (Fs.exec_read_alone arch hread (ht p.time)).1] at h

theorem slice_reading (hrun : Run (CallStep arch) s₀ (s.log.map Prod.snd) t)
    (hquiet : Quiet arch t s) (hp : Reading arch t p) : Serial arch s₀ (s.slice i p) := by
  obtain ⟨hread, hreads⟩ := hp
  rcases Prog.Rely.resume (fun _ h => h) (hreads _ (hquiet.agree p.time)) with
    ⟨r, fs, hresume, rfl, halike⟩ | ⟨rest, fs, hresume, hrest, halike, hgo⟩
  · rw [slice_done hresume]
    have hkept := (Fs.exec_read_alone arch hread (Fs.Alike.refl rfl halike.symm.steady)).2
    refine ⟨_, run_log hrun i p.call p.time, .inl ⟨(halike.trans hkept).agree, fun j q hj => ?_⟩⟩
    simp only [Function.update_apply] at hj
    split at hj
    · cases hj
    · exact (hquiet.reading j q hj).congr hkept.agree
  · rw [slice_rest hresume hrest]
    refine ⟨t, hrun, .inl ⟨halike.agree, fun j q hj => ?_⟩⟩
    simp only [Function.update_apply] at hj
    split at hj
    · obtain rfl := Option.some.inj hj
      exact ⟨hread, fun s' hs' => hgo s' fun _ => hs'⟩
    · exact hquiet.reading j q hj

theorem slice_writing (hrun : Run (CallStep arch) s₀ (s.log.map Prod.snd) t)
    (hp : Writing arch t s i p) : Serial arch s₀ (s.slice i p) := by
  rcases Prog.Rely.resume (fun _ => rfl) hp.rest with
    ⟨r, fs, hresume, rfl, halike⟩ | ⟨rest, fs, hresume, hrest, hclock, hgo⟩
  · rw [slice_done hresume]
    refine ⟨_, run_log hrun i p.call p.time, .inl ⟨halike.agree, fun j q hj => ?_⟩⟩
    simp only [Function.update_apply] at hj
    split at hj
    · cases hj
    · rename_i hne
      rw [hp.others j hne] at hj
      cases hj
  · rw [slice_rest hresume hrest]
    refine ⟨t, hrun, .inr ⟨i, { p with rest := rest }, Function.update_self .., ?_, hp.write, ?_⟩⟩
    · intro j hne
      exact (Function.update_of_ne hne _ _).trans (hp.others j hne)
    · refine hgo _ ?_
      rw [← hclock]

/-- One slice keeps the calls serial. -/
theorem serial_step {e : TaskEvent ι} (hs : Serial arch s₀ s)
    (hstep : TaskStepIf arch Exclusive s e s') : Serial arch s₀ s' := by
  obtain ⟨t, hrun, hphase⟩ := hs
  obtain ⟨hstep, hcond⟩ := hstep
  cases hstep with
  | @start i call time hidle hcall =>
    have hquiet : Quiet arch t s := hphase.resolve_right fun ⟨j, q, hj, hq⟩ => by
      have hread := (hcond j q hj).2
      have hwrite := hq.write
      cases hc : q.call <;> rw [hc] at hread hwrite <;> first | exact hread | exact hwrite
    by_cases hread : call.IsRead
    · exact slice_reading hrun hquiet ⟨hread, fun s' hs' => Fs.exec_reads arch hread hs'⟩
    · have hwrite := hcall.resolve_left hread
      refine slice_writing hrun ⟨fun j _ => ?_, hwrite, ?_⟩
      · cases hj : s.pending j with
        | none => rfl
        | some q => exact absurd (hcond j q hj).1 hread
      · refine Prog.Rely.mono (Fs.exec_write_inStep arch hwrite (hquiet.agree time))
          fun r u hr => ?_
        unfold Prog.Match at hr
        split at hr
        · rename_i b t' hb
          obtain ⟨a, ha, rfl, hu⟩ := hr
          rw [hb]
          exact ⟨ha, hu⟩
        · rename_i e t' he
          rw [he]
          exact hr
  | @resume i p hp =>
    rcases hphase with hquiet | ⟨j, q, hj, hq⟩
    · exact slice_reading hrun hquiet (hquiet.reading i p hp)
    · by_cases hij : i = j
      · subst hij
        obtain rfl := Option.some.inj (hp.symm.trans hj)
        exact slice_writing hrun hq
      · rw [hq.others i hij] at hp
        cases hp

end Invariant

/-! ## The calls of a task -/

section Calls

variable {ι : Type} [DecidableEq ι] {arch : Arch} {s s' : Tasks ι} {i j : ι} {p : Pending}

/-- The calls that a task enters, in order. -/
def startsOf (j : ι) (es : List (TaskEvent ι)) : List (FsCall × UInt32) :=
  es.filterMap fun e => match e with
    | .start i call time => if i = j then some (call, time) else none
    | .resume _ => none

/-- The calls of a task that have returned, in order. -/
def Tasks.loggedOf (s : Tasks ι) (j : ι) : List (FsCall × UInt32) :=
  s.log.filterMap fun e => if e.1 = j then some (e.2.call, e.2.unixTime) else none

/-- These and the call the task is in. -/
def Tasks.callsOf (s : Tasks ι) (j : ι) : List (FsCall × UInt32) :=
  s.loggedOf j ++ ((s.pending j).map fun p => (p.call, p.time)).toList

theorem callsOf_slice (s : Tasks ι) (i j : ι) (p : Pending) :
    (s.slice i p).callsOf j =
      if i = j then s.loggedOf j ++ [(p.call, p.time)] else s.callsOf j := by
  rcases hresume : p.rest.resume { s.fs with unixTime := p.time } with ⟨rest, fs⟩
  by_cases hdone : ∃ r, rest = .done r
  · obtain ⟨r, rfl⟩ := hdone
    rw [slice_done hresume]
    simp only [Tasks.callsOf, Tasks.loggedOf, List.filterMap_append, Function.update_apply]
    by_cases hij : i = j
    · subst hij
      simp
    · simp [hij, Ne.symm hij]
  · rw [slice_rest hresume fun r hr => hdone ⟨r, hr⟩]
    simp only [Tasks.callsOf, Tasks.loggedOf, Function.update_apply]
    by_cases hij : i = j
    · subst hij
      simp
    · simp [hij, Ne.symm hij]

theorem callsOf_step {e : TaskEvent ι} (hstep : TaskStep arch s e s') (j : ι) :
    s'.callsOf j = s.callsOf j ++ startsOf j [e] := by
  cases hstep with
  | @start i call time hidle hcall =>
    rw [callsOf_slice]
    by_cases hij : i = j
    · subst hij
      simp [startsOf, Tasks.callsOf, hidle]
    · simp [startsOf, hij]
  | @resume i p hp =>
    rw [callsOf_slice]
    by_cases hij : i = j
    · subst hij
      simp [startsOf, Tasks.callsOf, hp]
    · simp [startsOf, hij]

/-- Each task's calls return in the order in which it enters them. -/
theorem callsOf_run {cond : Tasks ι → TaskEvent ι → Prop} {es : List (TaskEvent ι)}
    (hrun : Run (TaskStepIf arch cond) s es s') (j : ι) :
    s'.callsOf j = s.callsOf j ++ startsOf j es := by
  induction hrun with
  | nil s => simp [startsOf]
  | @cons s u t e es hstep _ ih =>
    rw [ih, callsOf_step hstep.1, List.append_assoc]
    exact congrArg (s.callsOf j ++ ·) (List.filterMap_append (l := [e])).symm

/-- **Serializability.** Any number of tasks make `read` and `write` calls on one kernel, in any
interleaving at the waits of the disk commands in which a write starts only when no call is in
progress and a read only when just reads are. When all calls have returned, each task's calls
are in the log in the order in which it made them, and the same calls made one after the other
in the order of the log return what is logged and leave the same inodes and file contents. -/
theorem serializable {s₀ : Fs} {es : List (TaskEvent ι)} (hsteady : s₀.disk.Steady)
    (hrun : Run (TaskStepIf arch Exclusive) (Tasks.idle ι s₀) es s)
    (hidle : ∀ i, s.pending i = none) :
    (∀ i, s.loggedOf i = startsOf i es) ∧
      ∃ t, Run (CallStep arch) s₀ (s.log.map Prod.snd) t ∧
        (∀ i, t.inodes i = s.fs.inodes i) ∧ ∀ i k, t.byteAt i k = s.fs.byteAt i k := by
  refine ⟨fun i => ?_, ?_⟩
  · have hcalls := callsOf_run hrun i
    simpa [Tasks.callsOf, Tasks.loggedOf, Tasks.idle, hidle i] using hcalls
  · have hstart : Serial arch s₀ (Tasks.idle ι s₀) :=
      ⟨s₀, .nil _, .inl ⟨Fs.Agree.refl hsteady, fun _ _ h => by cases h⟩⟩
    obtain ⟨t, hcalls, hphase⟩ :=
      hrun.invariant (I := Serial arch s₀) (fun _ _ _ => serial_step) hstart
    have hquiet : Quiet arch t s := hphase.resolve_right fun ⟨i, p, hp, _⟩ => by
      rw [hidle i] at hp
      cases hp
    have hagree := hquiet.agree 0
    refine ⟨t, hcalls, fun i => congrFun hagree.tables.inodes i, fun i k => ?_⟩
    simp only [Fs.byteAt, Fs.blockByte, Fs.pointer]
    rw [show t.inodes = s.fs.inodes from hagree.tables.inodes,
      show t.partLba = s.fs.partLba from hagree.tables.partLba]
    exact hagree.sectors _ _ (Nat.mod_lt _ (by decide))

end Calls

/-! ## Executing an interleaving -/

section Execute

variable {ι : Type} [DecidableEq ι] {arch : Arch} {cond : Tasks ι → TaskEvent ι → Prop}

/-- The event can happen. -/
def Tasks.Enabled (s : Tasks ι) : TaskEvent ι → Prop
  | .start i call _ => (s.pending i).isNone ∧ (call.IsRead ∨ call.IsWrite)
  | .resume i => (s.pending i).isSome

/-- The tasks after the event. -/
def Tasks.after (arch : Arch) (s : Tasks ι) : TaskEvent ι → Tasks ι
  | .start i call time => s.slice i ⟨call, time, call.exec arch⟩
  | .resume i => match s.pending i with
    | some p => s.slice i p
    | none => s

/-- The events can happen one after the other, each under the condition. -/
def Tasks.Playable (arch : Arch) (cond : Tasks ι → TaskEvent ι → Prop) :
    List (TaskEvent ι) → Tasks ι → Prop
  | [], _ => True
  | e :: es, s => (s.Enabled e ∧ cond s e) ∧ Playable arch cond es (s.after arch e)

theorem taskStep_after {s : Tasks ι} {e : TaskEvent ι} (h : s.Enabled e) :
    TaskStep arch s e (s.after arch e) := by
  cases e with
  | start i call time => exact .start (Option.isNone_iff_eq_none.1 h.1) h.2
  | resume i =>
    obtain ⟨p, hp⟩ := Option.isSome_iff_exists.1 h
    rw [Tasks.after, hp]
    exact .resume hp

theorem run_after {es : List (TaskEvent ι)} {s : Tasks ι} (h : Tasks.Playable arch cond es s) :
    Run (TaskStepIf arch cond) s es (es.foldl (Tasks.after arch) s) := by
  induction es generalizing s with
  | nil => exact .nil s
  | cons e es ih => exact .cons ⟨taskStep_after h.1.1, h.1.2⟩ (ih h.2)

instance (call : FsCall) : Decidable call.IsRead :=
  match call with
  | .read .. => instDecidableTrue
  | .create _ | .mkdir _ | .rmdir _ | .remove _ | .write .. | .writeAll .. | .sync =>
    instDecidableFalse

instance (call : FsCall) : Decidable call.IsWrite :=
  match call with
  | .write .. => instDecidableTrue
  | .create _ | .mkdir _ | .rmdir _ | .remove _ | .read .. | .writeAll .. | .sync =>
    instDecidableFalse

instance (s : Tasks ι) (e : TaskEvent ι) : Decidable (s.Enabled e) := by
  cases e <;> unfold Tasks.Enabled <;> infer_instance

instance [Fintype ι] (s : Tasks ι) (e : TaskEvent ι) : Decidable (Exclusive s e) :=
  match e with
  | .start _ call _ =>
    inferInstanceAs (Decidable (∀ i, ∀ p ∈ s.pending i, call.IsRead ∧ p.call.IsRead))
  | .resume _ => inferInstanceAs (Decidable True)

instance Tasks.Playable.decidable [∀ s e, Decidable (cond s e)] :
    ∀ (es : List (TaskEvent ι)) (s : Tasks ι), Decidable (Tasks.Playable arch cond es s)
  | [], _ => inferInstanceAs (Decidable True)
  | e :: es, s =>
    have := Tasks.Playable.decidable es (s.after arch e)
    inferInstanceAs
    (Decidable ((s.Enabled e ∧ cond s e) ∧ Tasks.Playable arch cond es (s.after arch e)))

/-- Calls that run alone determine what they lead to. -/
theorem callStep_run {s t : Fs} {l : List FsEvent} (h : Run (CallStep arch) s l t) :
    t = l.foldl (fun s e => ((e.call.exec arch).run { s with unixTime := e.unixTime }).2) s := by
  induction h with
  | nil => rfl
  | cons hstep _ ih => rw [ih, List.foldl_cons, hstep]

end Execute

/-- A kernel with two empty files. -/
def twoFilesFs : Fs :=
  let s := (execCalls .i386 [.create [97], .create [98]] formattedFs).2
  { s with disk := { s.disk with fault := fun _ _ => none } }

theorem steady_twoFilesFs : twoFilesFs.disk.Steady := fun _ _ _ => rfl

-- Only the kernel evaluates the states of this example.
attribute [irreducible] twoFilesFs

/-- One write, to its end; then another task reads the byte while the first one reads it too. -/
def overlappingReads : List (TaskEvent Bool) :=
  [.start false (.write 3 0 [85]) 0] ++ List.replicate 12 (.resume false) ++
    [.start false (.read 3 0 1) 0, .start true (.read 3 0 1) 0, .resume true, .resume false]

/-- Two writes; the second one starts while the first one waits for its first command. -/
def overlappingWrites : List (TaskEvent Bool) :=
  [.start false (.write 3 0 [85]) 0, .start true (.write 4 0 [66]) 0] ++
    List.replicate 12 (.resume false) ++ List.replicate 12 (.resume true)

/-- The tasks after the events, on a kernel with two empty files. -/
def afterCalls (es : List (TaskEvent Bool)) : Tasks Bool :=
  es.foldl (Tasks.after .i386) (Tasks.idle Bool twoFilesFs)

theorem run_overlappingReads : Run (TaskStepIf .i386 Exclusive) (Tasks.idle Bool twoFilesFs)
    overlappingReads (afterCalls overlappingReads) :=
  run_after (by decide +kernel)

theorem run_overlappingWrites : Run (TaskStepIf .i386 fun _ _ => True) (Tasks.idle Bool twoFilesFs)
    overlappingWrites (afterCalls overlappingWrites) :=
  run_after (by decide +kernel)

theorem idle_overlappingReads : ∀ i, (afterCalls overlappingReads).pending i = none := by
  have h : ∀ i, ((afterCalls overlappingReads).pending i).isNone := by decide +kernel
  exact fun i => Option.isNone_iff_eq_none.1 (h i)

theorem idle_overlappingWrites : ∀ i, (afterCalls overlappingWrites).pending i = none := by
  have h : ∀ i, ((afterCalls overlappingWrites).pending i).isNone := by decide +kernel
  exact fun i => Option.isNone_iff_eq_none.1 (h i)

/-- The two writes, as they return. -/
def writeEvents : List FsEvent :=
  [⟨.write 3 0 [85], 0, .ok (.count 1)⟩, ⟨.write 4 0 [66], 0, .ok (.count 1)⟩]

theorem log_overlappingWrites :
    (afterCalls overlappingWrites).log.map Prod.snd = writeEvents := by
  decide +kernel

example : (afterCalls overlappingReads).log.length = 3 := by decide +kernel

/-- Two tasks read together what one of them wrote before. -/
theorem serializable_overlappingReads :
    (∀ i, (afterCalls overlappingReads).loggedOf i = startsOf i overlappingReads) ∧
      ∃ t, Run (CallStep .i386) twoFilesFs ((afterCalls overlappingReads).log.map Prod.snd) t ∧
        (∀ i, t.inodes i = (afterCalls overlappingReads).fs.inodes i) ∧
        ∀ i k, t.byteAt i k = (afterCalls overlappingReads).fs.byteAt i k :=
  serializable steady_twoFilesFs run_overlappingReads idle_overlappingReads

/-- The first write's block gets the bytes that the second write put into `SCRATCH`. -/
theorem serializable_fails :
    ¬ ∀ (arch : Arch) (s₀ : Fs) (es : List (TaskEvent Bool)) (s : Tasks Bool), s₀.disk.Steady →
      Run (TaskStep arch) (Tasks.idle Bool s₀) es s → (∀ i, s.pending i = none) →
      ∃ l t, l.Perm (s.log.map Prod.snd) ∧ Run (CallStep arch) s₀ l t ∧
        ∀ i k, t.byteAt i k = s.fs.byteAt i k := by
  intro hall
  obtain ⟨l, t, hperm, hrun, hbytes⟩ := hall .i386 twoFilesFs overlappingWrites _ steady_twoFilesFs
    (run_overlappingWrites.mono fun _ _ _ h => h.1) idle_overlappingWrites
  rw [log_overlappingWrites] at hperm
  have horder : l ∈ writeEvents.permutations' := List.mem_permutations'.2 hperm
  have hserial : ∀ l ∈ writeEvents.permutations',
      (l.foldl (fun s e => ((e.call.exec .i386).run { s with unixTime := e.unixTime }).2)
        twoFilesFs).byteAt 3 0 = 85 := by
    decide +kernel
  have h85 := hserial l horder
  rw [← callStep_run hrun, hbytes] at h85
  exact absurd h85 (by decide +kernel)

end Tcmk
