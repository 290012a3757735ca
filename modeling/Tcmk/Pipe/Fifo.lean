import Tcmk.Lib.Run
import Tcmk.Lib.Ring
import Tcmk.Pipe.Table

/-!
# When a pipe is a FIFO

The positions of a pipe count modulo `pipeCapacity + 1`, its cells modulo `pipeCapacity`. The
positions `0` and `pipeCapacity` are therefore two positions of one cell. As long as the unread
bytes never run over the end of the position range they cannot lie on both, and the pipe is a
queue: what the reads returned is a prefix of what the writes took (`fifo_of_unwrapped`). A
write that runs over the end stores two unread bytes in cell `0` and loses the first of them
(`fifo_fails`).

The history of a pipe is the table together with all bytes accepted from its writers and all
bytes returned to its readers.
-/

namespace Tcmk

open Lib

/-- A call on the pipe table. -/
inductive PipeCall
  | create
  | write (index : ℕ) (bytes : List UInt8)
  | read (index room : ℕ)
  | closeEnd (index : ℕ) (writer : Bool)
  | addRef (index : ℕ) (writer : Bool)

/-- The table, and the bytes one pipe has accepted and returned so far. -/
structure PipeHistory where
  table : PipeTable
  accepted : List UInt8
  returned : List UInt8

/-- One call, seen from pipe `p`. -/
def PipeHistory.step (p : ℕ) (h : PipeHistory) : PipeCall → PipeHistory
  | .create => { h with table := (h.table.create.map Prod.snd).getD h.table }
  | .write index bytes =>
    { h with
      table := (h.table.write index bytes).2
      accepted := if index = p then h.accepted ++ bytes.take (h.table.write index bytes).1
        else h.accepted }
  | .read index room =>
    { h with
      table := (h.table.read index room).2
      returned := if index = p then h.returned ++ (h.table.read index room).1
        else h.returned }
  | .closeEnd index writer => { h with table := h.table.closeEnd index writer }
  | .addRef index writer => { h with table := h.table.addRef index writer }

/-- The written but unread bytes of a pipe. -/
def PipeTable.pending (t : PipeTable) (p : ℕ) : ℕ :=
  ((t.pipes p).head + (pipeCapacity + 1) - (t.pipes p).tail) % (pipeCapacity + 1)

/-- After this call the unread bytes of pipe `p` still do not run over the end of the position
range. Only a write to `p` can make them do so. -/
def Unwrapped (p : ℕ) (t : PipeTable) : PipeCall → Prop
  | .write index bytes => index = p →
    (t.pipes p).tail + min (t.pending p + bytes.length) pipeCapacity ≤ pipeCapacity + 1
  | _ => True

/-- A call made while pipe `p` has an open reader. -/
def OpenStep (p : ℕ) (h : PipeHistory) (c : PipeCall) (h' : PipeHistory) : Prop :=
  0 < (h.table.pipes p).readers ∧ h' = h.step p c

/-- Nothing was lost, duplicated or reordered, and no more than a ring is waiting. -/
def Fifo (h : PipeHistory) : Prop :=
  h.returned <+: h.accepted ∧ h.accepted.length ≤ h.returned.length + pipeCapacity

/-! ## The ring of one pipe -/

/-- The cell of the `k`-th byte of the stream of pipe `p`. -/
def streamCell (p k : ℕ) : ℕ := PipeTable.slot p (k % (pipeCapacity + 1))

theorem slot_ne {p q : ℕ} (h : p ≠ q) (i j : ℕ) : PipeTable.slot p i ≠ PipeTable.slot q j := by
  simp only [PipeTable.slot, pipeCapacity]
  omega

/-- Within an unwrapped stretch of the stream the cells are distinct. -/
theorem streamCell_ne {p t k n : ℕ} (hk : k < n) (hn : n < pipeCapacity)
    (hw : t % (pipeCapacity + 1) + n < pipeCapacity + 1) :
    streamCell p (t + k) ≠ streamCell p (t + n) := by
  have hmod : ∀ j ≤ n, (t + j) % (pipeCapacity + 1) = t % (pipeCapacity + 1) + j := fun j hj => by
    rw [Nat.add_mod, Nat.mod_eq_of_lt (a := j), Nat.mod_eq_of_lt] <;> omega
  simp only [streamCell, hmod k (Nat.le_of_lt hk), hmod n (Nat.le_refl n), PipeTable.slot]
  simp only [pipeCapacity] at hn hw ⊢
  omega

/-- The write loop appends as many bytes as the ring has room for. -/
theorem writeLoop_spec {p t : ℕ} (bytes : List UInt8) {q : List UInt8} {mem : ℕ → UInt8} (w : ℕ)
    (hq : q.length ≤ pipeCapacity) (hmem : Holds (streamCell p) mem t q)
    (hw : t % (pipeCapacity + 1) + min (q.length + bytes.length) pipeCapacity ≤ pipeCapacity + 1) :
    ∃ n mem', PipeTable.writeLoop p (t % (pipeCapacity + 1)) bytes
        ((t + q.length) % (pipeCapacity + 1)) w mem =
          ((t + q.length + n) % (pipeCapacity + 1), w + n, mem') ∧
      q.length + n = min (q.length + bytes.length) pipeCapacity ∧
      Holds (streamCell p) mem' t (q ++ bytes.take n) := by
  induction bytes generalizing q mem w with
  | nil => exact ⟨0, mem, rfl, by simp [hq], by simpa using hmem⟩
  | cons byte bytes ih =>
    rw [List.length_cons] at hw
    by_cases hfull : q.length = pipeCapacity
    · refine ⟨0, mem, ?_, by simp [hfull], by simpa using hmem⟩
      rw [PipeTable.writeLoop, if_pos]
      · rfl
      · rw [hfull]
        simp only [pipeCapacity]
        omega
    · have hlt : q.length < pipeCapacity := lt_of_le_of_ne hq hfull
      have hnext : ((t + q.length) % (pipeCapacity + 1) + 1) % (pipeCapacity + 1) =
          (t + (q ++ [byte]).length) % (pipeCapacity + 1) := by
        rw [List.length_append, List.length_singleton, Nat.mod_add_mod, Nat.add_assoc]
      have hne : ((t + q.length) % (pipeCapacity + 1) + 1) % (pipeCapacity + 1) ≠
          t % (pipeCapacity + 1) := by
        simp only [pipeCapacity] at hlt ⊢
        omega
      have hpush := hmem.push (x := byte) fun k hk => streamCell_ne (p := p) hk hlt (by
        simp only [pipeCapacity] at hlt hw ⊢
        omega)
      obtain ⟨n, mem', hrun, hn, hholds⟩ := ih (w + 1)
        (by simpa using Nat.succ_le_of_lt hlt) hpush
        (by simpa [Nat.add_assoc, Nat.add_comm 1] using hw)
      refine ⟨n + 1, mem', ?_, ?_, by simpa using hholds⟩
      · rw [PipeTable.writeLoop, if_neg hne, hnext]
        refine hrun.trans ?_
        simp [Nat.add_assoc, Nat.add_comm 1]
      · rw [List.length_append, List.length_singleton] at hn
        rw [List.length_cons]
        omega

/-- The read loop takes bytes off the front until the ring is empty or the slice is full. -/
theorem readLoop_spec {p : ℕ} {mem : ℕ → UInt8} (room : ℕ) {t : ℕ} {q : List UInt8}
    (hq : q.length ≤ pipeCapacity) (hmem : Holds (streamCell p) mem t q) :
    ∃ n, n ≤ q.length ∧
      PipeTable.readLoop p ((t + q.length) % (pipeCapacity + 1)) mem room
        (t % (pipeCapacity + 1)) = (q.take n, (t + n) % (pipeCapacity + 1)) ∧
      Holds (streamCell p) mem (t + n) (q.drop n) := by
  induction room generalizing t q with
  | zero => exact ⟨0, Nat.zero_le _, rfl, hmem⟩
  | succ room ih =>
    cases q with
    | nil => exact ⟨0, le_rfl, by simp [PipeTable.readLoop], by simpa using hmem⟩
    | cons x q =>
      rw [List.length_cons] at hq
      obtain ⟨n, hn, hrun, hholds⟩ := ih (Nat.le_of_succ_le hq) hmem.tail
      refine ⟨n + 1, by simpa using hn, ?_, by
        simpa [Nat.add_assoc, Nat.add_comm 1] using hholds⟩
      have hne : t % (pipeCapacity + 1) ≠ (t + (x :: q).length) % (pipeCapacity + 1) := by
        simp only [List.length_cons, pipeCapacity] at hq ⊢
        omega
      rw [Nat.add_right_comm, Nat.add_assoc] at hrun
      rw [PipeTable.readLoop, if_pos hne, Nat.mod_add_mod]
      simp only [List.length_cons, hrun, List.take_succ_cons, Nat.add_assoc, Nat.add_comm 1]
      exact Prod.ext (by rw [← hmem.head]; rfl) rfl

/-! ## The invariant -/

/-- Pipe `p` of the table holds exactly the bytes accepted and not yet returned. -/
structure Synced (p : ℕ) (h : PipeHistory) : Prop where
  index_lt : p < maxPipes
  free : (h.table.pipes p).used = false → (h.table.pipes p).readers = 0
  tail : (h.table.pipes p).tail = h.returned.length % (pipeCapacity + 1)
  queue : ∃ q, h.accepted = h.returned ++ q ∧ q.length ≤ pipeCapacity ∧
    (h.table.pipes p).head = (h.returned.length + q.length) % (pipeCapacity + 1) ∧
    Holds (streamCell p) h.table.buffers h.returned.length q

theorem Synced.fifo {p : ℕ} {h : PipeHistory} (hs : Synced p h) : Fifo h := by
  obtain ⟨q, hq, hlen, -, -⟩ := hs.queue
  refine ⟨⟨q, hq.symm⟩, ?_⟩
  rw [hq, List.length_append]
  omega

theorem create_eq_some {t t' : PipeTable} {p : ℕ} (h : t.create = some (p, t')) :
    p < maxPipes ∧ (t.pipes p).used = false ∧ t' = t.setPipe p ⟨true, 0, 0, 1, 1⟩ := by
  unfold PipeTable.create at h
  split at h
  · rename_i i hi
    obtain ⟨rfl, rfl⟩ := Prod.mk.inj (Option.some.inj h)
    have hmem := List.mem_of_find?_eq_some hi
    have hfree := List.find?_some hi
    exact ⟨List.mem_range.1 hmem, by simpa using hfree, rfl⟩
  · cases h

theorem synced_create {t₀ t : PipeTable} {p : ℕ} (h : t₀.create = some (p, t)) :
    Synced p ⟨t, [], []⟩ := by
  obtain ⟨hp, -, rfl⟩ := create_eq_some h
  exact ⟨hp, by simp, by simp, ⟨[], by simp, by simp, by simp, Holds.nil⟩⟩

/-- A change to the table that keeps the record and the cells of pipe `p`. -/
theorem Synced.frame {p : ℕ} {h : PipeHistory} (hs : Synced p h) {t : PipeTable}
    (hpipe : t.pipes p = h.table.pipes p)
    (hbuf : ∀ i, t.buffers (PipeTable.slot p i) = h.table.buffers (PipeTable.slot p i)) :
    Synced p { h with table := t } := by
  obtain ⟨hp, hfree, htail, q, hq, hlen, hhead, hmem⟩ := hs
  refine ⟨hp, by simpa only [hpipe] using hfree, by simpa only [hpipe] using htail,
    ⟨q, hq, hlen, by simpa only [hpipe] using hhead, fun k hk => ?_⟩⟩
  exact (hbuf _).trans (hmem k hk)

theorem writeLoop_frame {i t : ℕ} (bytes : List UInt8) (hd w : ℕ) (mem : ℕ → UInt8) {c : ℕ}
    (hc : ∀ pos, c ≠ PipeTable.slot i pos) :
    (PipeTable.writeLoop i t bytes hd w mem).2.2 c = mem c := by
  induction bytes generalizing hd w mem with
  | nil => rfl
  | cons b bytes ih =>
    rw [PipeTable.writeLoop]
    split
    · rfl
    · rw [ih, Function.update_of_ne (hc hd)]

theorem pending_eq {p : ℕ} {h : PipeHistory} (hs : Synced p h) :
    h.accepted.length = h.returned.length + h.table.pending p := by
  obtain ⟨q, hq, hlen, hhead, -⟩ := hs.queue
  rw [PipeTable.pending, hhead, hs.tail, hq, List.length_append]
  simp only [pipeCapacity] at hlen ⊢
  omega

/-! ## One call keeps the invariant -/

section Steps

variable {p : ℕ} {h : PipeHistory}

theorem synced_step_create (hs : Synced p h) (hopen : 0 < (h.table.pipes p).readers) :
    Synced p (h.step p .create) := by
  cases hc : h.table.create with
  | none => simpa [PipeHistory.step, hc] using hs
  | some r =>
    obtain ⟨-, hfree, ht⟩ := create_eq_some (show h.table.create = some (r.1, r.2) from hc)
    have hne : r.1 ≠ p := by
      rintro rfl
      have := hs.free hfree
      omega
    refine hs.frame ?_ fun i => ?_
    · simp [hc, ht, Function.update_of_ne hne.symm]
    · simp [hc, ht]

theorem synced_step_write (hs : Synced p h) (hopen : 0 < (h.table.pipes p).readers)
    (index : ℕ) (bytes : List UInt8) (hw : Unwrapped p h.table (.write index bytes)) :
    Synced p (h.step p (.write index bytes)) := by
  have hused : (h.table.pipes p).used = true := by
    cases hu : (h.table.pipes p).used with
    | true => rfl
    | false => have := hs.free hu; omega
  by_cases hi : index = p
  · subst hi
    have hpend := pending_eq hs
    have hroom := hw rfl
    obtain ⟨hp, hfree, htail, q, hq, hlen, hhead, hmem⟩ := hs
    rw [hq, List.length_append, Nat.add_left_cancel_iff] at hpend
    rw [← hpend, htail] at hroom
    obtain ⟨n, mem', hrun, hn, hholds⟩ := writeLoop_spec bytes 0 hlen hmem hroom
    have hwrite : h.table.write index bytes = (n, { h.table with
        pipes := Function.update h.table.pipes index { h.table.pipes index with
          head := (h.returned.length + q.length + n) % (pipeCapacity + 1) }
        buffers := mem' }) := by
      unfold PipeTable.write
      rw [if_neg (by simp [hused, hp]), if_neg (Nat.ne_of_gt hopen)]
      simp only [htail, hhead, hrun, Nat.zero_add]
    simp only [PipeHistory.step, hwrite, if_true]
    have hnb : n ≤ bytes.length := by omega
    refine ⟨hp, by simp [hused], by simpa using htail, ⟨q ++ bytes.take n, ?_, ?_, ?_, ?_⟩⟩
    · rw [hq, List.append_assoc]
    · rw [List.length_append, List.length_take]
      omega
    · simp [Nat.min_eq_left hnb, Nat.add_assoc]
    · exact hholds
  · have hbuf : ∀ c, (∀ pos, c ≠ PipeTable.slot index pos) →
        (h.table.write index bytes).2.buffers c = h.table.buffers c := fun c hc => by
      unfold PipeTable.write
      split_ifs
      · rfl
      · rfl
      · exact writeLoop_frame bytes _ 0 _ hc
    have hpipe : (h.table.write index bytes).2.pipes p = h.table.pipes p := by
      unfold PipeTable.write
      split_ifs <;> simp [Function.update_of_ne (Ne.symm hi)]
    simp only [PipeHistory.step, if_neg hi]
    exact hs.frame hpipe fun i => hbuf _ fun pos => slot_ne (Ne.symm hi) i pos

theorem synced_step_read (hs : Synced p h) (hopen : 0 < (h.table.pipes p).readers)
    (index room : ℕ) : Synced p (h.step p (.read index room)) := by
  have hused : (h.table.pipes p).used = true := by
    cases hu : (h.table.pipes p).used with
    | true => rfl
    | false => have := hs.free hu; omega
  by_cases hi : index = p
  · subst hi
    obtain ⟨hp, hfree, htail, q, hq, hlen, hhead, hmem⟩ := hs
    obtain ⟨n, hn, hrun, hholds⟩ := readLoop_spec room hlen hmem
    have hread : h.table.read index room = (q.take n, h.table.setPipe index
        { h.table.pipes index with tail := (h.returned.length + n) % (pipeCapacity + 1) }) := by
      unfold PipeTable.read
      rw [if_neg (by simp [hused, hp])]
      simp only [htail, hhead, hrun]
    have hlen' : (h.returned ++ q.take n).length = h.returned.length + n := by
      rw [List.length_append, List.length_take, Nat.min_eq_left hn]
    simp only [PipeHistory.step, hread, if_true]
    refine ⟨hp, by simp [hused], by simp [hlen', -List.length_append], ⟨q.drop n, ?_, ?_, ?_, ?_⟩⟩
    · rw [List.append_assoc, List.take_append_drop, hq]
    · rw [List.length_drop]
      omega
    · simp only [PipeTable.setPipe_pipes, Function.update_self, hlen', List.length_drop, hhead]
      congr 1
      omega
    · rw [hlen']
      exact hholds
  · simp only [PipeHistory.step, if_neg hi]
    refine hs.frame ?_ fun i => ?_ <;> unfold PipeTable.read <;>
      split_ifs <;> simp [Function.update_of_ne (Ne.symm hi)]

/-- Only the end counts of a pipe change, and it stays in use while a reader is left. -/
theorem Synced.setPipe (hs : Synced p h) (index : ℕ) {r : Pipe}
    (hhead : r.head = (h.table.pipes index).head) (htail : r.tail = (h.table.pipes index).tail)
    (hfree : r.used = false → r.readers = 0) :
    Synced p { h with table := h.table.setPipe index r } := by
  by_cases hi : index = p
  · subst hi
    obtain ⟨hp, -, ht, q, hq, hlen, hh, hmem⟩ := hs
    exact ⟨hp, by simpa using hfree, by simpa [htail] using ht,
      ⟨q, hq, hlen, by simpa [hhead] using hh, hmem⟩⟩
  · exact hs.frame (by simp [Function.update_of_ne (Ne.symm hi)]) fun i => rfl

theorem synced_step (hs : Synced p h) (hopen : 0 < (h.table.pipes p).readers) (c : PipeCall)
    (hw : Unwrapped p h.table c) : Synced p (h.step p c) := by
  cases c with
  | create => exact synced_step_create hs hopen
  | write index bytes => exact synced_step_write hs hopen index bytes hw
  | read index room => exact synced_step_read hs hopen index room
  | closeEnd index writer =>
    simp only [PipeHistory.step, PipeTable.closeEnd]
    split_ifs
    · exact hs
    all_goals exact hs.setPipe index rfl rfl (by simp)
  | addRef index writer =>
    simp only [PipeHistory.step, PipeTable.addRef]
    split_ifs with hu hwr
    · exact hs
    all_goals
      have hused : (h.table.pipes index).used = true := by
        simp only [Bool.or_eq_true, decide_eq_true_eq, Bool.not_eq_true', not_or,
          Bool.not_eq_false] at hu
        exact hu.2
      exact hs.setPipe index rfl rfl (by simp [hused])

end Steps

/-! ## Runs -/

/-- **A pipe whose unread bytes never wrap is a FIFO.** In every run from `create` in which the
pipe keeps an open reader and no write makes its unread bytes run over the end of the position
range, the bytes returned are a prefix of the bytes accepted and at most `pipeCapacity` bytes
wait. -/
theorem fifo_of_unwrapped {t₀ t : PipeTable} {p : ℕ} (hc : t₀.create = some (p, t))
    {calls : List PipeCall} {h : PipeHistory}
    (hrun : Run (fun h c h' => OpenStep p h c h' ∧ Unwrapped p h.table c) ⟨t, [], []⟩ calls h) :
    Fifo h := by
  refine (hrun.invariant (I := Synced p) (fun h c h' hs hstep => ?_) (synced_create hc)).fifo
  obtain ⟨⟨hopen, rfl⟩, hw⟩ := hstep
  exact synced_step hs hopen c hw

/-- The first pipe, just created. -/
def freshPipe : PipeTable := PipeTable.initial.setPipe 0 ⟨true, 0, 0, 1, 1⟩

/-- Three bytes in, two bytes out. -/
def shortCalls : List PipeCall := [.write 0 [97, 98, 99], .read 0 2]

theorem fifo_of_unwrapped_shortCalls :
    PipeTable.initial.create = some (0, freshPipe) ∧
      Fifo (shortCalls.foldl (PipeHistory.step 0) ⟨freshPipe, [], []⟩) :=
  ⟨rfl, @fifo_of_unwrapped PipeTable.initial freshPipe 0 rfl shortCalls _
    (.cons ⟨⟨by decide, rfl⟩, fun _ => by decide⟩
      (.cons ⟨⟨by decide, rfl⟩, trivial⟩ (.nil _)))⟩

/-- The reader leaves two bytes, the writer adds two more: the unread bytes then lie on the
positions `1022`, `1023`, `1024` and `0`, and the last two of them share cell `0`. -/
def lossyCalls : List PipeCall :=
  [.write 0 (List.replicate 1024 0), .read 0 1022, .write 0 [1, 2], .read 0 4]

/-- A pipe with an open reader is not always a FIFO: at the end of `lossyCalls` the reader has
been given the byte `2` twice and the byte `1` never. -/
theorem fifo_fails :
    ¬ ∀ (t₀ t : PipeTable) (p : ℕ) (calls : List PipeCall) (h : PipeHistory),
      t₀.create = some (p, t) → Run (OpenStep p) ⟨t, [], []⟩ calls h → Fifo h := by
  intro hall
  have hfifo := hall PipeTable.initial freshPipe 0 lossyCalls _ rfl
    (.cons ⟨by decide, rfl⟩ (.cons ⟨by decide +kernel, rfl⟩
      (.cons ⟨by decide +kernel, rfl⟩ (.cons ⟨by decide +kernel, rfl⟩ (.nil _)))))
  have hreturned : (lossyCalls.foldl (PipeHistory.step 0) ⟨freshPipe, [], []⟩).returned.drop 1022 =
      [0, 0, 2, 2] := by decide +kernel
  have haccepted : (lossyCalls.foldl (PipeHistory.step 0) ⟨freshPipe, [], []⟩).accepted.drop 1022 =
      [0, 0, 1, 2] := by decide +kernel
  have hprefix : ([0, 0, 2, 2] : List UInt8) <+: [0, 0, 1, 2] := by
    rw [← hreturned, ← haccepted]
    exact List.IsPrefix.drop hfifo.1 1022
  exact absurd hprefix (by decide)

end Tcmk
