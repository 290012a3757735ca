import Tcmk.Arch
import Tcmk.Fd.Counting
import Tcmk.Pipe.Fifo

/-!
# Readiness of a pipe (`readiness` of `kernel_api.rs`, `pipe::info`)

`info` does not count the unread bytes as `read` does: it takes `head - tail` modulo the word size
first, which is no multiple of `pipeCapacity + 1`. The two counts are the same as long as the tail
is not ahead of the head, and at no other time (`readiness_agrees`).
-/

namespace Tcmk

open Lib

/-- `readiness` and `info` say of a pipe what its calls do. -/
structure FdState.Agrees (wordBits : ℕ) (s : FdState) (p : ℕ) : Prop where
  pollIn : ∀ task key fd entry file keys, s.get task fd = some entry → entry.kind = .pipeRead →
    entry.node = p →
      (s.readiness wordBits task key fd &&& pollIn = pollIn ↔
        (s.read task fd 1 file keys).1 = .ok 1)
  pollOut : ∀ task key fd entry byte file, s.get task fd = some entry → entry.kind = .pipeWrite →
    entry.node = p → 0 < (s.pipes.pipes p).readers →
      (s.readiness wordBits task key fd &&& pollOut = pollOut ↔
        (s.write task fd [byte] file).1 = .ok 1)
  pending : ∀ pending writers readers, s.pipes.info wordBits p = some (pending, writers, readers) →
    ∀ room, (s.pipes.read p room).1.length = min room pending

/-- The unread bytes of an open pipe do not run over the end of the position range. -/
def PipeTable.Straight (t : PipeTable) (p : ℕ) : Prop :=
  p < maxPipes → (t.pipes p).used = true → (t.pipes p).tail ≤ (t.pipes p).head

/-! ## Positions -/

namespace PipeTable

variable {t : PipeTable} {p : ℕ}

/-- The positions of every pipe are in their range. -/
def InRange (t : PipeTable) : Prop :=
  ∀ p, (t.pipes p).head ≤ pipeCapacity ∧ (t.pipes p).tail ≤ pipeCapacity

theorem writeLoop_le {index tail : ℕ} (bytes : List UInt8) {head : ℕ} (written : ℕ)
    (buffers : ℕ → UInt8) (h : head ≤ pipeCapacity) :
    (writeLoop index tail bytes head written buffers).1 ≤ pipeCapacity := by
  induction bytes generalizing head written buffers with
  | nil => exact h
  | cons byte bytes ih =>
    rw [writeLoop]
    split_ifs
    · exact h
    · exact ih _ _ (Nat.le_of_lt_succ (Nat.mod_lt _ (Nat.succ_pos _)))

theorem readLoop_le {index head : ℕ} {buffers : ℕ → UInt8} (room : ℕ) {tail : ℕ}
    (h : tail ≤ pipeCapacity) : (readLoop index head buffers room tail).2 ≤ pipeCapacity := by
  induction room generalizing tail with
  | zero => exact h
  | succ room ih =>
    rw [readLoop]
    split_ifs
    · exact ih (Nat.le_of_lt_succ (Nat.mod_lt _ (Nat.succ_pos _)))
    · exact h

theorem InRange.setPipe (h : t.InRange) {pipe : Pipe} (hhead : pipe.head ≤ pipeCapacity)
    (htail : pipe.tail ≤ pipeCapacity) : (t.setPipe p pipe).InRange := fun q => by
  rw [setPipe_pipes, Function.update_apply]
  split_ifs
  · exact ⟨hhead, htail⟩
  · exact h q

/-- What holds of the table whatever calls are made. -/
structure Kept (P : PipeTable → Prop) : Prop where
  create : ∀ t i t', P t → t.create = some (i, t') → P t'
  write : ∀ t i bytes, P t → P (t.write i bytes).2
  read : ∀ t i room, P t → P (t.read i room).2
  closeEnd : ∀ t i writer, P t → P (t.closeEnd i writer)
  addRef : ∀ t i writer, P t → P (t.addRef i writer)

theorem kept_inRange : Kept InRange where
  create t i t' h heq := by
    obtain ⟨-, -, rfl⟩ := create_eq_some heq
    exact h.setPipe (Nat.zero_le _) (Nat.zero_le _)
  write t i bytes h := by
    unfold PipeTable.write
    split_ifs
    · exact h
    · exact h
    · exact h.setPipe (writeLoop_le bytes 0 _ (h i).1) (h i).2
  read t i room h := by
    unfold PipeTable.read
    split_ifs
    · exact h
    · exact h.setPipe (h i).1 (readLoop_le room (h i).2)
  closeEnd t i writer h := by
    unfold PipeTable.closeEnd
    split_ifs
    · exact h
    · exact h.setPipe (h i).1 (h i).2
    · exact h.setPipe (h i).1 (h i).2
  addRef t i writer h := by
    unfold PipeTable.addRef
    split_ifs
    · exact h
    · exact h.setPipe (h i).1 (h i).2
    · exact h.setPipe (h i).1 (h i).2

end PipeTable

namespace FdState

variable {P : PipeTable → Prop} {s : FdState}

theorem retain_pipes (hP : PipeTable.Kept P) (h : P s.pipes) (entry : FileDescriptor) :
    P (s.retain entry).pipes := by
  simp only [retain, PipeTable.retain]
  split
  · exact hP.addRef _ _ _ h
  · exact hP.addRef _ _ _ h
  · exact h

theorem release_pipes (hP : PipeTable.Kept P) (h : P s.pipes) (entry : FileDescriptor) :
    P (s.release entry).pipes := by
  simp only [release, PipeTable.release]
  split
  · exact hP.closeEnd _ _ _ h
  · exact hP.closeEnd _ _ _ h
  · exact h

theorem cloneInto_pipes (hP : PipeTable.Kept P) (h : P s.pipes) (parent child : ℕ) :
    P (s.cloneInto parent child).pipes := by
  unfold cloneInto
  split_ifs
  · exact h
  · refine List.foldlRecOn (motive := fun s' : FdState => P s'.pipes) _ _ h fun s' hs' i _ => ?_
    simp only
    split_ifs
    · exact retain_pipes hP hs' _
    · exact hs'

theorem closeAll_pipes (hP : PipeTable.Kept P) (h : P s.pipes) (task : ℕ) :
    P (s.closeAll task).pipes := by
  unfold closeAll
  split_ifs
  · exact h
  · refine List.foldlRecOn (motive := fun s' : FdState => P s'.pipes) _ _ h fun s' hs' i _ => ?_
    simp only
    split_ifs
    · exact hs'
    · exact release_pipes hP hs' _

theorem close_pipes (hP : PipeTable.Kept P) (h : P s.pipes) (task fd : ℕ) :
    P (s.close task fd).2.pipes := by
  unfold close
  simp only
  split_ifs
  · exact h
  · exact h
  · exact release_pipes hP h _

theorem call_pipes (hP : PipeTable.Kept P) (h : P s.pipes) (task : ℕ) (c : FileCall) :
    P (s.call task c).pipes := by
  have halloc : ∀ {s s' : FdState} {fd : ℕ} {entry : ℕ → FileDescriptor},
      ((s.firstFree task).map fun fd => (fd, s.put task fd (entry fd))) = some (fd, s') →
      s'.pipes = s.pipes := fun {s s' fd entry} heq => by
    obtain ⟨fd', -, heq⟩ := Option.map_eq_some_iff.1 heq
    obtain ⟨-, rfl⟩ := Prod.mk.inj heq
    rfl
  have hadvance : ∀ (fd delta : ℕ), (s.advance task fd delta).pipes = s.pipes := fun fd delta => by
    unfold advance
    simp only
    split_ifs <;> rfl
  cases c with
  | createPipe =>
    simp only [call, createPipe]
    split
    · exact h
    · rename_i index pipes hcreate
      have hpipes := hP.create _ _ _ h hcreate
      split
      · exact hP.closeEnd _ _ _ (hP.closeEnd _ _ _ hpipes)
      · rename_i hread
        have hsame := halloc (s := ⟨s.tables, pipes⟩) hread
        split
        · refine hP.closeEnd _ _ _ (close_pipes hP ?_ task _)
          rw [hsame]
          exact hpipes
        · rename_i hwrite
          rw [halloc hwrite, hsame]
          exact hpipes
  | «open» node =>
    simp only [call, openFile]
    split
    · exact h
    · split
      · exact h
      · rename_i hopen
        rw [halloc hopen]
        exact h
  | dup oldfd =>
    simp only [call, dup]
    split_ifs
    · exact h
    · cases s.firstFree task with
      | none => exact h
      | some fd => exact retain_pipes hP h _
  | dup2 oldfd newfd =>
    simp only [call, dup2]
    split_ifs
    · exact h
    · exact h
    · exact retain_pipes hP (release_pipes hP h _) _
    · exact retain_pipes hP h _
  | close fd => exact close_pipes hP h task fd
  | write fd bytes file =>
    simp only [call, write]
    split
    · split_ifs <;> exact h
    · split
      · exact hP.write _ _ _ h
      · exact h
      · split
        · exact h
        · rw [hadvance]
          exact h
  | read fd room file keys =>
    simp only [call, read]
    split
    · split_ifs <;> exact h
    · split
      · exact hP.read _ _ _ h
      · exact h
      · split
        · exact h
        · rw [hadvance]
          exact h

end FdState

namespace System

variable {P : PipeTable → Prop} {s s' : System} {e : SystemEvent} {es : List SystemEvent}

theorem pipes_step (hP : PipeTable.Kept P) (h : P s.files.pipes) (hstep : SystemStep s e s') :
    P s'.files.pipes := by
  obtain ⟨-, rfl⟩ := hstep
  cases e with
  | file c => exact FdState.call_pipes hP h _ c
  | kernel e =>
    simp only [after, filesAfter]
    split
    · split
      · exact FdState.cloneInto_pipes hP h _ _
      · exact h
    · exact FdState.closeAll_pipes hP h _
    · split
      · exact FdState.closeAll_pipes hP h _
      · exact h
    · exact h

theorem inRange_run (h : Run SystemStep boot es s) : s.files.pipes.InRange :=
  h.invariant (I := fun s => s.files.pipes.InRange)
    (fun _ _ _ h hstep => pipes_step PipeTable.kept_inRange h hstep)
    fun _ => ⟨Nat.zero_le _, Nat.zero_le _⟩

end System

/-! ## The two counts -/

namespace PipeTable

variable {t : PipeTable} {p : ℕ}

theorem pending_le (t : PipeTable) (p : ℕ) : t.pending p ≤ pipeCapacity :=
  Nat.le_of_lt_succ (Nat.mod_lt _ (Nat.succ_pos _))

/-- The read loop returns the unread bytes, as far as there is room. -/
theorem readLoop_length {index head : ℕ} {buffers : ℕ → UInt8} (room : ℕ) {tail : ℕ}
    (hhead : head ≤ pipeCapacity) (htail : tail ≤ pipeCapacity) :
    (readLoop index head buffers room tail).1.length =
      min room ((head + (pipeCapacity + 1) - tail) % (pipeCapacity + 1)) := by
  induction room generalizing tail with
  | zero => exact (Nat.zero_min _).symm
  | succ room ih =>
    rw [readLoop]
    by_cases hempty : tail = head
    · rw [if_neg (not_not.2 hempty), hempty, Nat.add_sub_cancel_left, Nat.mod_self, Nat.min_zero]
      rfl
    · rw [if_pos hempty]
      simp only [List.length_cons]
      rw [ih (Nat.le_of_lt_succ (Nat.mod_lt _ (Nat.succ_pos _)))]
      have hstep : (head + (pipeCapacity + 1) - tail) % (pipeCapacity + 1) =
          (head + (pipeCapacity + 1) - (tail + 1) % (pipeCapacity + 1)) % (pipeCapacity + 1) +
          1 := by
        simp only [pipeCapacity] at hhead htail ⊢
        omega
      rw [hstep, Nat.succ_min_succ]

theorem read_length (h : t.InRange) (hp : p < maxPipes) (hused : (t.pipes p).used = true)
    (room : ℕ) : (t.read p room).1.length = min room (t.pending p) := by
  unfold PipeTable.read
  rw [if_neg (by simp [hused, hp])]
  exact readLoop_length room (h p).1 (h p).2

/-- One byte is accepted as long as there is room for it. -/
theorem write_one (h : t.InRange) (hp : p < maxPipes) (hused : (t.pipes p).used = true)
    (hreaders : 0 < (t.pipes p).readers) (byte : UInt8) :
    (t.write p [byte]).1 = 1 ↔ t.pending p < pipeCapacity := by
  have hrange := h p
  have hfull : ((t.pipes p).head + 1) % (pipeCapacity + 1) = (t.pipes p).tail ↔
      ¬ t.pending p < pipeCapacity := by
    simp only [pending, pipeCapacity] at hrange ⊢
    omega
  unfold PipeTable.write
  rw [if_neg (by simp [hused, hp]), if_neg (Nat.ne_of_gt hreaders)]
  simp only [writeLoop]
  split_ifs with hnext
  · exact iff_of_false id (hfull.1 hnext)
  · exact iff_of_true rfl (not_not.1 fun hno => hnext (hfull.2 hno))

/-- `info` counts the unread bytes only when the tail is not ahead. -/
theorem info_pending (arch : Arch) {head tail : ℕ} (hhead : head ≤ pipeCapacity)
    (htail : tail ≤ pipeCapacity) :
    (head + 2 ^ arch.wordBits - tail) % 2 ^ arch.wordBits % (pipeCapacity + 1) =
      (head + (pipeCapacity + 1) - tail) % (pipeCapacity + 1) ↔ tail ≤ head := by
  simp only [pipeCapacity] at hhead htail ⊢
  cases arch with
  | i386 =>
    simp only [Arch.wordBits]
    omega
  | x86_64 =>
    simp only [Arch.wordBits]
    omega

theorem info_of_closed {wordBits : ℕ} (h : ¬ (p < maxPipes ∧ (t.pipes p).used = true)) :
    t.info wordBits p = none := by
  unfold info
  by_cases hp : p ≥ maxPipes
  · rw [if_pos hp]
  · have hused : (t.pipes p).used = false :=
      Bool.eq_false_iff.2 fun hused => h ⟨Nat.lt_of_not_le hp, hused⟩
    rw [if_neg hp]
    simp only [hused, Bool.not_false, if_true]

theorem info_of_open (wordBits : ℕ) (hp : p < maxPipes) (hused : (t.pipes p).used = true) :
    t.info wordBits p = some (((t.pipes p).head + 2 ^ wordBits - (t.pipes p).tail) % 2 ^ wordBits %
      (pipeCapacity + 1), (t.pipes p).writers, (t.pipes p).readers) := by
  unfold info
  rw [if_neg (Nat.not_le.2 hp)]
  simp only [hused, Bool.not_true, Bool.false_eq_true, if_false]

end PipeTable

namespace FdState

variable {s : FdState} {task fd p : ℕ} {entry : FileDescriptor}

theorem read_pipe (hget : s.get task fd = some entry) (hkind : entry.kind = .pipeRead) (room : ℕ)
    (file : Option ℕ) (keys : ℕ) : (s.read task fd room file keys).1 =
      .ok (s.pipes.read entry.node room).1.length := by
  simp only [FdState.read, hget, hkind]

theorem write_pipe (hget : s.get task fd = some entry) (hkind : entry.kind = .pipeWrite)
    (bytes : List UInt8) (file : Option ℕ) :
    (s.write task fd bytes file).1 = .ok (s.pipes.write entry.node bytes).1 := by
  simp only [FdState.write, hget, hkind]

/-- A pipe that is closed is neither ready nor read from nor written to. -/
theorem agrees_of_closed {wordBits : ℕ}
    (h : ¬ (p < maxPipes ∧ (s.pipes.pipes p).used = true)) : s.Agrees wordBits p := by
  have hinfo := @PipeTable.info_of_closed _ _ wordBits h
  have hclosed : (p ≥ maxPipes || !(s.pipes.pipes p).used) = true := by
    by_contra hopen
    refine h ?_
    simpa using hopen
  refine ⟨fun task key fd entry file keys hget hkind hnode => ?_,
    fun task key fd entry byte file hget hkind hnode _ => ?_, fun _ _ _ heq => ?_⟩
  · subst hnode
    have hread : (s.pipes.read entry.node 1).1 = [] := by
      unfold PipeTable.read
      rw [if_pos hclosed]
    rw [read_pipe hget hkind, hread]
    simp only [readiness, hget, hkind, hinfo]
    decide
  · subst hnode
    have hwrite : (s.pipes.write entry.node [byte]).1 = 0 := by
      unfold PipeTable.write
      rw [if_pos hclosed]
    rw [write_pipe hget hkind, hwrite]
    simp only [readiness, hget, hkind, hinfo]
    decide
  · cases hinfo.symm.trans heq

/-- If `info` counts the unread bytes, then readiness is what the calls do. -/
theorem agrees_of_pending {wordBits : ℕ} (hrange : s.pipes.InRange) (hp : p < maxPipes)
    (hused : (s.pipes.pipes p).used = true)
    (hinfo : s.pipes.info wordBits p =
      some (s.pipes.pending p, (s.pipes.pipes p).writers, (s.pipes.pipes p).readers)) :
    s.Agrees wordBits p := by
  refine ⟨fun task key fd entry file keys hget hkind hnode => ?_,
    fun task key fd entry byte file hget hkind hnode hreaders => ?_, fun _ _ _ heq room => ?_⟩
  · subst hnode
    rw [read_pipe hget hkind, PipeTable.read_length hrange hp hused]
    simp only [readiness, hget, hkind, hinfo]
    rcases Nat.eq_zero_or_pos (s.pipes.pending entry.node) with hzero | hpos
    · rw [hzero]
      refine iff_of_false ?_ ?_
      · split_ifs <;> first | decide | contradiction
      · rintro ⟨⟩
    · rw [Nat.min_eq_left hpos]
      refine iff_of_true ?_ rfl
      split_ifs <;> decide
  · subst hnode
    rw [write_pipe hget hkind]
    have hone := PipeTable.write_one hrange hp hused hreaders byte
    simp only [readiness, hget, hkind, hinfo, if_neg (Nat.ne_of_gt hreaders)]
    by_cases hroom : s.pipes.pending entry.node < pipeCapacity
    · rw [if_pos hroom, hone.2 hroom]
      decide
    · rw [if_neg hroom]
      refine iff_of_false (by decide) fun hok => hroom (hone.1 ?_)
      exact Except.ok.inj hok
  · rw [hinfo] at heq
    rw [PipeTable.read_length hrange hp hused, (Prod.mk.inj (Option.some.inj heq)).1]

theorem agrees_iff (arch : Arch) (hrange : s.pipes.InRange) :
    s.Agrees arch.wordBits p ↔ s.pipes.Straight p := by
  by_cases hopen : p < maxPipes ∧ (s.pipes.pipes p).used = true
  · obtain ⟨hp, hused⟩ := hopen
    have hinfo := s.pipes.info_of_open arch.wordBits hp hused
    have hcount := PipeTable.info_pending arch (hrange p).1 (hrange p).2
    constructor
    · intro h _ _
      have hlength := h.pending _ _ _ hinfo (pipeCapacity + 1)
      rw [PipeTable.read_length hrange hp hused,
        Nat.min_eq_right (Nat.le_succ_of_le (s.pipes.pending_le p)),
        Nat.min_eq_right (Nat.le_of_lt (Nat.mod_lt _ (Nat.succ_pos _)))] at hlength
      exact hcount.1 hlength.symm
    · intro h
      refine agrees_of_pending hrange hp hused ?_
      rw [hinfo, hcount.2 (h hp hused)]
      rfl
  · exact iff_of_true (agrees_of_closed hopen) fun hp hused => absurd ⟨hp, hused⟩ hopen

end FdState

/-- **Readiness.** In every state that the system reaches, what `readiness` and `info` say of a pipe
is what its calls do, if and only if its unread bytes do not run over the end of the position
range. -/
theorem readiness_agrees {arch : Arch} {s : System} {es : List SystemEvent}
    (hrun : Run SystemStep System.boot es s) (p : ℕ) :
    s.files.Agrees arch.wordBits p ↔ s.files.pipes.Straight p :=
  FdState.agrees_iff arch (System.inRange_run hrun)

/-- The idle task creates a pipe and writes three bytes. -/
theorem readiness_agrees_write :
    let s := [SystemEvent.file .createPipe, .file (.write 4 [97, 98, 99] none)].foldl System.after
      System.boot
    s.files.Agrees 32 0 := by
  intro s
  have hrun : Run SystemStep System.boot _ s := Run.of_plays (by decide +kernel)
  have hstraight : s.files.pipes.Straight 0 := fun _ _ => by decide +kernel
  exact (@readiness_agrees .i386 _ _ hrun 0).2 hstraight

/-- Four bytes wait, two of them over the end of the position range, and `readiness` has no
`pollIn`. -/
theorem readiness_disagrees :
    ¬ ∀ (es : List SystemEvent) (s : System), Run SystemStep System.boot es s →
      ∀ p, s.files.Agrees 32 p := by
  intro hall
  have hagrees := hall [.file .createPipe, .file (.write 4 (List.replicate 1024 0) none),
    .file (.read 3 1022 none 0), .file (.write 4 [1, 2] none)] _
    (Run.of_plays (by decide +kernel)) 0
  have hpollIn := hagrees.pollIn 0 false 3 ⟨true, .pipeRead, 0, 0⟩ none 0 (by decide +kernel)
    rfl rfl
  revert hpollIn
  decide +kernel

end Tcmk
