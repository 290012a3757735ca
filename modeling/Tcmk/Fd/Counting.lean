import Tcmk.Fd.Table
import Tcmk.Lib.RefCount
import Tcmk.Sched.Tasks

/-!
# Counting the ends of a pipe

The counts of a pipe's writers and readers are balanced (`Lib.Balanced`) by the descriptors in the
tables of all tasks. Between two steps of a call a reference may be owed: `create` counts one
reader and one writer before there are descriptors for them, and a `release` discounts the end of
an entry that is about to be overwritten.
-/

namespace Tcmk

open Lib

/-- An end of a pipe: `true` is the end for writing. -/
abbrev PipeEnd := ℕ × Bool

/-- The end that a descriptor in use refers to. -/
def FileDescriptor.pipeEnd (entry : FileDescriptor) : Option PipeEnd :=
  if entry.used then
    match entry.kind with
    | .file => none
    | .pipeRead => some (entry.node, false)
    | .pipeWrite => some (entry.node, true)
  else none

@[simp] theorem FileDescriptor.pipeEnd_empty : FileDescriptor.empty.pipeEnd = none := rfl

namespace PipeTable

variable {t : PipeTable} {p : ℕ} {w : Bool} {r : PipeEnd} {entry : FileDescriptor}

/-- The count of an end. -/
def ends (t : PipeTable) (r : PipeEnd) : ℕ :=
  if r.2 then (t.pipes r.1).writers else (t.pipes r.1).readers

/-- A pipe is in use as long as one of its ends is, and only the slots of the table are used. -/
structure Sound (t : PipeTable) : Prop where
  used : ∀ p, (t.pipes p).used = true ↔ 0 < t.ends (p, false) + t.ends (p, true)
  bound : ∀ p, (t.pipes p).used = true → p < maxPipes

theorem Sound.used_of_pos (h : t.Sound) (hpos : 0 < t.ends (p, w)) : (t.pipes p).used = true := by
  refine (h.used p).2 ?_
  cases w with
  | false => exact Nat.add_pos_left hpos _
  | true => exact Nat.add_pos_right _ hpos

theorem ends_setPipe (t : PipeTable) (p : ℕ) (pipe : Pipe) (r : PipeEnd) :
    (t.setPipe p pipe).ends r =
      if r.1 = p then (if r.2 then pipe.writers else pipe.readers) else t.ends r := by
  unfold ends
  rw [setPipe_pipes, Function.update_apply]
  split_ifs <;> rfl

/-- Change one pipe in a sound table. -/
theorem Sound.setPipe (h : t.Sound) {pipe : Pipe} (hp : p < maxPipes)
    (hpipe : pipe.used = true ↔ 0 < pipe.readers + pipe.writers) : (t.setPipe p pipe).Sound where
  used q := by
    rw [ends_setPipe, ends_setPipe, setPipe_pipes, Function.update_apply]
    by_cases hq : q = p
    · simpa [hq] using hpipe
    · simpa [hq] using h.used q
  bound q hq := by
    rw [setPipe_pipes, Function.update_apply] at hq
    split_ifs at hq with heq
    · exact heq ▸ hp
    · exact h.bound q hq

/-- `add_ref` on an end that is in use. -/
theorem addRef_of_pos (h : t.Sound) (hpos : 0 < t.ends (p, w)) :
    (t.addRef p w).Sound ∧ ∀ r, (t.addRef p w).ends r = t.ends r + one (some (p, w)) r := by
  have hused := h.used_of_pos hpos
  have hp := h.bound p hused
  unfold addRef
  rw [if_neg (by simp [hused, hp])]
  simp only
  constructor
  · refine h.setPipe hp ?_
    cases w <;> simp [hused]
  · rintro ⟨q, v⟩
    rw [ends_setPipe]
    unfold one ends
    by_cases hq : q = p
    · subst hq
      cases w <;> cases v <;> simp
    · have hne : some (p, w) ≠ some (q, v) :=
        fun heq => hq (Prod.mk.inj (Option.some.inj heq)).1.symm
      simp [hq, hne]

/-- `close_end` of an end that is in use. -/
theorem closeEnd_of_pos (h : t.Sound) (hpos : 0 < t.ends (p, w)) :
    (t.closeEnd p w).Sound ∧ ∀ r, (t.closeEnd p w).ends r + one (some (p, w)) r = t.ends r := by
  have hused := h.used_of_pos hpos
  have hp := h.bound p hused
  unfold closeEnd
  rw [if_neg (by simp [hused, hp])]
  simp only
  constructor
  · refine h.setPipe hp ?_
    cases w <;> simp <;> omega
  · rintro ⟨q, v⟩
    rw [ends_setPipe]
    unfold one
    by_cases hq : q = p
    · subst hq
      unfold ends at hpos ⊢
      cases w <;> cases v <;> simp at hpos ⊢ <;> omega
    · have hne : some (p, w) ≠ some (q, v) :=
        fun heq => hq (Prod.mk.inj (Option.some.inj heq)).1.symm
      simp [hq, hne]

/-- `retain` counts one more reference to what a descriptor in use refers to. -/
theorem retain_spec (h : t.Sound) (hused : entry.used = true)
    (hpos : ∀ r, entry.pipeEnd = some r → 0 < t.ends r) :
    (t.retain entry).Sound ∧ ∀ r, (t.retain entry).ends r = t.ends r + one entry.pipeEnd r := by
  unfold FileDescriptor.pipeEnd at hpos ⊢
  rw [if_pos hused] at hpos ⊢
  unfold retain
  cases hkind : entry.kind with
  | file => exact ⟨h, fun r => by simp⟩
  | pipeRead =>
    rw [hkind] at hpos
    exact addRef_of_pos h (hpos _ rfl)
  | pipeWrite =>
    rw [hkind] at hpos
    exact addRef_of_pos h (hpos _ rfl)

/-- `release` discounts one. -/
theorem release_spec (h : t.Sound) (hused : entry.used = true)
    (hpos : ∀ r, entry.pipeEnd = some r → 0 < t.ends r) :
    (t.release entry).Sound ∧ ∀ r, (t.release entry).ends r + one entry.pipeEnd r = t.ends r := by
  unfold FileDescriptor.pipeEnd at hpos ⊢
  rw [if_pos hused] at hpos ⊢
  unfold release
  cases hkind : entry.kind with
  | file => exact ⟨h, fun r => by simp⟩
  | pipeRead =>
    rw [hkind] at hpos
    exact closeEnd_of_pos h (hpos _ rfl)
  | pipeWrite =>
    rw [hkind] at hpos
    exact closeEnd_of_pos h (hpos _ rfl)

/-- `create` counts one reader and one writer of a pipe that had none. -/
theorem create_spec {t' : PipeTable} (h : t.Sound) (ht : t.create = some (p, t')) :
    t'.Sound ∧ ∀ r, t'.ends r = t.ends r + one (some (p, false)) r + one (some (p, true)) r := by
  unfold create at ht
  split at ht
  · rename_i i hfind
    obtain ⟨rfl, rfl⟩ := Prod.mk.inj (Option.some.inj ht)
    have hp := List.mem_range.1 (List.mem_of_find?_eq_some hfind)
    have hfree : (t.pipes i).used = false := by simpa using List.find?_some hfind
    have hnone : ¬ 0 < t.ends (i, false) + t.ends (i, true) := by
      rw [← h.used i, hfree]
      nofun
    refine ⟨h.setPipe hp (by simp), ?_⟩
    rintro ⟨q, v⟩
    rw [ends_setPipe]
    unfold one
    by_cases hq : q = i
    · subst hq
      cases v <;> simp <;> omega
    · have hne : ∀ w, some (i, w) ≠ some (q, v) := fun w heq =>
        hq (Prod.mk.inj (Option.some.inj heq)).1.symm
      simp [hq, hne]
  · cases ht

/-- A change of the bytes in a pipe. -/
theorem sound_of_ends {t' : PipeTable} (h : t.Sound) (hends : ∀ r, t'.ends r = t.ends r)
    (hused : ∀ p, (t'.pipes p).used = (t.pipes p).used) : t'.Sound where
  used p := by rw [hused, hends, hends, h.used p]
  bound p hp := h.bound p (by rwa [hused] at hp)

/-- `write` moves the head and nothing else of a pipe. -/
theorem write_pipes (t : PipeTable) (index : ℕ) (bytes : List UInt8) (q : ℕ) :
    ∃ head, ((t.write index bytes).2.pipes q) = { t.pipes q with head := head } := by
  unfold PipeTable.write
  split_ifs
  · exact ⟨_, rfl⟩
  · exact ⟨_, rfl⟩
  · simp only [Function.update_apply]
    split_ifs with hq
    · subst hq
      exact ⟨_, rfl⟩
    · exact ⟨_, rfl⟩

/-- `read` moves the tail. -/
theorem read_pipes (t : PipeTable) (index room q : ℕ) :
    ∃ tail, ((t.read index room).2.pipes q) = { t.pipes q with tail := tail } := by
  unfold PipeTable.read
  split_ifs
  · exact ⟨_, rfl⟩
  · simp only [setPipe_pipes, Function.update_apply]
    split_ifs with hq
    · subst hq
      exact ⟨_, rfl⟩
    · exact ⟨_, rfl⟩

end PipeTable

namespace FdState

variable {s s' : FdState} {owed owed' : PipeEnd → ℕ} {task fd : ℕ} {entry : FileDescriptor}

/-- The entries of all tables. -/
def slots : Finset (ℕ × ℕ) := Finset.range maxTasks ×ˢ Finset.range maxFds

theorem mem_slots (htask : task < maxTasks) (hfd : fd < maxFds) : (task, fd) ∈ slots :=
  Finset.mem_product.2 ⟨Finset.mem_range.2 htask, Finset.mem_range.2 hfd⟩

/-- The end of a pipe that an entry refers to. -/
def slotEnd (s : FdState) (i : ℕ × ℕ) : Option PipeEnd := (s.tables i.1 i.2).pipeEnd

/-- The counts of the pipes are right, but for the references that are owed. -/
structure Accounts (s : FdState) (owed : PipeEnd → ℕ) : Prop where
  pipes : s.pipes.Sound
  balanced : Balanced slots s.slotEnd s.pipes.ends owed

theorem put_tables (s : FdState) (task fd : ℕ) (entry : FileDescriptor) (t i : ℕ) :
    (s.put task fd entry).tables t i = if t = task ∧ i = fd then entry else s.tables t i := by
  unfold put
  simp only [Function.update_apply]
  by_cases ht : t = task
  · subst ht
    by_cases hi : i = fd <;> simp [hi]
  · simp [ht]

theorem slotEnd_put (s : FdState) (task fd : ℕ) (entry : FileDescriptor) :
    (s.put task fd entry).slotEnd = Function.update s.slotEnd (task, fd) entry.pipeEnd := by
  funext ⟨t, i⟩
  unfold slotEnd
  rw [put_tables, Function.update_apply]
  simp only [Prod.mk.injEq]
  split_ifs <;> rfl

theorem slotEnd_of_unused {i : ℕ × ℕ} (h : (s.tables i.1 i.2).used = false) :
    s.slotEnd i = none := by
  unfold slotEnd FileDescriptor.pipeEnd
  rw [h]
  rfl

namespace Accounts

/-- An entry is written. -/
theorem put (h : s.Accounts owed) (hi : (task, fd) ∈ slots)
    (howed : ∀ r, owed' r + one entry.pipeEnd r = owed r + one (s.slotEnd (task, fd)) r) :
    (s.put task fd entry).Accounts owed' where
  pipes := h.pipes
  balanced := by
    rw [slotEnd_put]
    exact h.balanced.write hi howed

theorem retain (h : s.Accounts owed) (hused : entry.used = true)
    (hpos : ∀ r, entry.pipeEnd = some r → 0 < s.pipes.ends r) :
    (s.retain entry).Accounts fun r => owed r + one entry.pipeEnd r :=
  have hspec := PipeTable.retain_spec h.pipes hused hpos
  ⟨hspec.1, h.balanced.retain hspec.2⟩

theorem release (h : s.Accounts fun r => owed r + one entry.pipeEnd r)
    (hused : entry.used = true) : (s.release entry).Accounts owed := by
  have hspec := PipeTable.release_spec h.pipes hused fun r hr => by
    have howed := h.balanced r
    simp only [hr, one_self] at howed
    rw [howed]
    exact Nat.succ_pos _
  exact ⟨hspec.1, h.balanced.release hspec.2⟩

/-- An entry in use is closed. -/
theorem drop (h : s.Accounts owed) (hi : (task, fd) ∈ slots)
    (hused : (s.tables task fd).used = true) :
    ((s.release (s.tables task fd)).put task fd .empty).Accounts owed := by
  have hput : (s.put task fd .empty).Accounts
      fun r => owed r + one (s.tables task fd).pipeEnd r :=
    h.put hi fun r => by
      rw [FileDescriptor.pipeEnd_empty, one_none]
      rfl
  exact hput.release hused

/-- An entry in use is copied to a free one. -/
theorem copy {i : ℕ × ℕ} (h : s.Accounts owed) (hto : (task, fd) ∈ slots)
    (hfree : s.slotEnd (task, fd) = none) (hi : i ∈ slots) (hentry : s.tables i.1 i.2 = entry)
    (hused : entry.used = true) : ((s.put task fd entry).retain entry).Accounts owed := by
  have hretain := h.retain hused fun r hr => h.balanced.pos hi (by unfold slotEnd; rw [hentry, hr])
  have hput : ((s.retain entry).put task fd entry).Accounts owed := hretain.put hto fun r => by
    have hfree' : (s.retain entry).slotEnd (task, fd) = none := hfree
    rw [hfree', one_none, Nat.add_zero]
  exact hput

end Accounts

/-! ### The functions of `fd.rs` -/

theorem firstFree_some (h : s.firstFree task = some fd) :
    fd < maxFds ∧ s.slotEnd (task, fd) = none := by
  have hmem := List.mem_of_find?_eq_some h
  have hfree := List.find?_some h
  refine ⟨?_, slotEnd_of_unused (by simpa using hfree)⟩
  obtain ⟨i, hi, rfl⟩ := List.mem_range'.1 hmem
  unfold firstFreeFd maxFds at *
  omega

theorem Accounts.dup (h : s.Accounts owed) (htask : task < maxTasks) {oldfd : ℕ}
    (hdup : s.dup task oldfd = some (fd, s')) : s'.Accounts owed := by
  unfold FdState.dup at hdup
  split_ifs at hdup with hbad
  obtain ⟨hold, hused⟩ := not_or.1 hbad
  obtain ⟨fd', hfree, heq⟩ := Option.map_eq_some_iff.1 hdup
  obtain ⟨rfl, rfl⟩ := Prod.mk.inj heq
  obtain ⟨hfd, hnone⟩ := firstFree_some hfree
  exact h.copy (mem_slots htask hfd) hnone (mem_slots htask (Nat.lt_of_not_le hold)) rfl
    (by simpa using hused)

theorem Accounts.dup2 (h : s.Accounts owed) (htask : task < maxTasks) {oldfd newfd : ℕ}
    (hdup : s.dup2 task oldfd newfd = some (fd, s')) : s'.Accounts owed := by
  unfold FdState.dup2 at hdup
  split_ifs at hdup with hbad hsame
  · obtain ⟨-, rfl⟩ := Prod.mk.inj (Option.some.inj hdup)
    exact h
  · obtain ⟨hold, hbad⟩ := not_or.1 hbad
    obtain ⟨hnew, hused⟩ := not_or.1 hbad
    obtain ⟨-, rfl⟩ := Prod.mk.inj (Option.some.inj hdup)
    have hto := mem_slots htask (Nat.lt_of_not_le hnew)
    have hfrom := mem_slots htask (Nat.lt_of_not_le hold)
    have hused : (s.tables task oldfd).used = true := by simpa using hused
    split_ifs with hprevious
    · -- The target is closed first; the end it gives up is not the one that is copied.
      have hdrop := h.drop hto hprevious
      have hentry : ((s.release (s.tables task newfd)).put task newfd .empty).tables task oldfd =
          s.tables task oldfd := by
        rw [put_tables, if_neg fun heq => hsame heq.2]
        rfl
      have hnone : ((s.release (s.tables task newfd)).put task newfd .empty).slotEnd
          (task, newfd) = none := by
        rw [slotEnd_put, Function.update_self]
        rfl
      have hcopy := hdrop.copy hto hnone hfrom hentry hused
      have hput : ∀ (s : FdState) (e e' : FileDescriptor),
          (s.put task newfd e).put task newfd e' = s.put task newfd e' := fun s e e' => by
        unfold FdState.put
        simp
      rwa [hput] at hcopy
    · exact h.copy hto (slotEnd_of_unused (by simpa using hprevious)) hfrom rfl hused

theorem Accounts.close (h : s.Accounts owed) (htask : task < maxTasks) :
    (s.close task fd).2.Accounts owed := by
  unfold FdState.close
  split_ifs with hfd
  · exact h
  · simp only
    split_ifs with hused
    · exact h
    · exact h.drop (mem_slots htask (Nat.lt_of_not_le hfd)) (by simpa using hused)

theorem Accounts.advance (h : s.Accounts owed) (htask : task < maxTasks) (delta : ℕ) :
    (s.advance task fd delta).Accounts owed := by
  unfold FdState.advance
  simp only
  split_ifs with hfd
  · exact h
  · exact h.put (mem_slots htask (Nat.lt_of_not_le hfd)) fun _ => rfl
  · exact h

/-- `allocate` and `allocate_pipe`: a reference that was owed gets its descriptor. -/
theorem Accounts.fill (h : s.Accounts fun r => owed r + one entry.pipeEnd r)
    (htask : task < maxTasks) (hfree : s.firstFree task = some fd) :
    (s.put task fd entry).Accounts owed := by
  obtain ⟨hfd, hnone⟩ := firstFree_some hfree
  refine h.put (mem_slots htask hfd) fun r => ?_
  rw [hnone, one_none, Nat.add_zero]

theorem Accounts.allocate (h : s.Accounts owed) (htask : task < maxTasks) {node : ℕ}
    (halloc : s.allocate task node = some (fd, s')) : s'.Accounts owed := by
  obtain ⟨fd', hfree, heq⟩ := Option.map_eq_some_iff.1 halloc
  obtain ⟨rfl, rfl⟩ := Prod.mk.inj heq
  exact Accounts.fill h htask hfree

/-- `create_pipe`, and each of its exits. -/
theorem Accounts.createPipe (h : s.Accounts owed) (htask : task < maxTasks) :
    (s.createPipe task).2.Accounts owed := by
  unfold FdState.createPipe
  split
  · exact h
  · rename_i index pipes hcreate
    obtain ⟨hsound, hends⟩ := PipeTable.create_spec h.pipes hcreate
    -- Both ends are owed.
    have hboth : Accounts { s with pipes := pipes }
        fun r => owed r + one (some (index, true)) r + one (some (index, false)) r :=
      ⟨hsound, fun r => by
        rw [hends, h.balanced r]
        show refs slots s.slotEnd r + owed r + _ + _ = refs slots s.slotEnd r + _
        omega⟩
    simp only
    split
    · have hone : (({ s with pipes := pipes } : FdState).closeEnd index false).Accounts
          fun r => owed r + one (some (index, true)) r :=
        @Accounts.release _ _ ⟨true, .pipeRead, index, 0⟩ hboth rfl
      exact @Accounts.release _ _ ⟨true, .pipeWrite, index, 0⟩ hone rfl
    · rename_i readFd s₁ hread
      obtain ⟨fd', hfree, heq⟩ := Option.map_eq_some_iff.1 hread
      obtain ⟨rfl, rfl⟩ := Prod.mk.inj heq
      have hone := @Accounts.fill _ _ _ _ ⟨true, .pipeRead, index, 0⟩ hboth htask hfree
      split
      · exact @Accounts.release _ _ ⟨true, .pipeWrite, index, 0⟩ (hone.close htask) rfl
      · rename_i writeFd s₂ hwrite
        obtain ⟨fd'', hfree', heq'⟩ := Option.map_eq_some_iff.1 hwrite
        obtain ⟨rfl, rfl⟩ := Prod.mk.inj heq'
        exact @Accounts.fill _ _ _ _ ⟨true, .pipeWrite, index, 0⟩ hone htask hfree'

/-- The table of a task is empty. -/
def Closed (s : FdState) (task : ℕ) : Prop := ∀ i < maxFds, (s.tables task i).used = false

/-- `clone_into` a task whose table is empty. -/
theorem Accounts.cloneInto {parent child : ℕ} (h : s.Accounts owed) (hparent : parent < maxTasks)
    (hclosed : s.Closed child) :
    (s.cloneInto parent child).Accounts owed ∧
      ∀ t ≠ child, (s.cloneInto parent child).tables t = s.tables t := by
  unfold FdState.cloneInto
  split_ifs with hchild
  · exact ⟨h, fun _ _ => rfl⟩
  · have hloop : ∀ n ≤ maxFds, ∀ s' : FdState, s' = (List.range n).foldl (fun s i =>
        let entry := s.tables parent i
        let s := s.put child i entry
        if entry.used then s.retain entry else s) s →
        s'.Accounts owed ∧ (∀ t ≠ child, s'.tables t = s.tables t) ∧
          ∀ i ≥ n, s'.tables child i = s.tables child i := by
      intro n
      induction n with
      | zero =>
        rintro - s' rfl
        exact ⟨h, fun _ _ => rfl, fun _ _ => rfl⟩
      | succ n ih =>
        intro hn s'' hs''
        obtain ⟨hs', htables, hrest⟩ := ih (Nat.le_of_succ_le hn) _ rfl
        rw [List.range_succ, List.foldl_append] at hs''
        simp only [List.foldl_cons, List.foldl_nil] at hs''
        generalize (List.range n).foldl _ s = s' at hs' htables hrest hs''
        have hto : (child, n) ∈ slots := mem_slots (Nat.lt_of_not_le hchild) hn
        have hfree : s'.slotEnd (child, n) = none := slotEnd_of_unused <| by
          rw [hrest n (Nat.le_refl n)]
          exact hclosed n hn
        have hother : ∀ t ≠ child, (s'.put child n (s'.tables parent n)).tables t = s.tables t :=
          fun t ht => by
            funext i
            rw [put_tables, if_neg fun heq => ht heq.1, htables t ht]
        have hlater : ∀ i ≥ n + 1,
            (s'.put child n (s'.tables parent n)).tables child i = s.tables child i :=
            fun i hi => by
          rw [put_tables, if_neg fun heq => Nat.ne_of_gt hi heq.2, hrest i (Nat.le_of_succ_le hi)]
        rw [hs'']
        split_ifs with hused
        · exact ⟨hs'.copy hto hfree (mem_slots hparent hn) rfl hused, hother, hlater⟩
        · refine ⟨hs'.put hto fun r => ?_, hother, hlater⟩
          rw [hfree]
          unfold FileDescriptor.pipeEnd
          rw [if_neg hused]
    obtain ⟨haccounts, htables, -⟩ := hloop maxFds (Nat.le_refl _) _ rfl
    exact ⟨haccounts, htables⟩

/-- `close_all`. -/
theorem Accounts.closeAll (h : s.Accounts owed) (htask : task < maxTasks) :
    (s.closeAll task).Accounts owed ∧ (s.closeAll task).Closed task ∧
      ∀ t ≠ task, (s.closeAll task).tables t = s.tables t := by
  unfold FdState.closeAll
  rw [if_neg (Nat.not_le.2 htask)]
  have hloop : ∀ n ≤ maxFds, ∀ s' : FdState, s' = (List.range n).foldl (fun s i =>
      let entry := s.tables task i
      if !entry.used then s else (s.release entry).put task i .empty) s →
      s'.Accounts owed ∧ (∀ i < n, (s'.tables task i).used = false) ∧
        ∀ t ≠ task, s'.tables t = s.tables t := by
    intro n
    induction n with
    | zero =>
      rintro - s' rfl
      exact ⟨h, fun i hi => absurd hi (Nat.not_lt_zero i), fun _ _ => rfl⟩
    | succ n ih =>
      intro hn s'' hs''
      obtain ⟨hs', hclosed, htables⟩ := ih (Nat.le_of_succ_le hn) _ rfl
      rw [List.range_succ, List.foldl_append] at hs''
      simp only [List.foldl_cons, List.foldl_nil] at hs''
      generalize (List.range n).foldl _ s = s' at hs' hclosed htables hs''
      rw [hs'']
      split_ifs with hunused
      · refine ⟨hs', fun i hi => ?_, htables⟩
        rcases Nat.lt_succ_iff_lt_or_eq.1 hi with hi | rfl
        · exact hclosed i hi
        · simpa using hunused
      · refine ⟨hs'.drop (mem_slots htask hn) (by simpa using hunused), fun i hi => ?_,
          fun t ht => ?_⟩
        · rw [put_tables]
          split_ifs with heq
          · rfl
          · exact hclosed i (Nat.lt_of_le_of_ne (Nat.le_of_lt_succ hi) fun hin => heq ⟨rfl, hin⟩)
        · funext i
          rw [put_tables, if_neg fun heq => ht heq.1]
          exact congrFun (htables t ht) i
  exact hloop maxFds (Nat.le_refl _) _ rfl

/-- Bytes go into a pipe or out of it. -/
theorem Accounts.setPipes (h : s.Accounts owed) {pipes : PipeTable}
    (hpipes : ∀ p, (pipes.pipes p).used = (s.pipes.pipes p).used ∧
      (pipes.pipes p).writers = (s.pipes.pipes p).writers ∧
      (pipes.pipes p).readers = (s.pipes.pipes p).readers) :
    ({ s with pipes := pipes } : FdState).Accounts owed := by
  have hends : ∀ r, pipes.ends r = s.pipes.ends r := fun r => by
    simp only [PipeTable.ends, hpipes]
  exact ⟨PipeTable.sound_of_ends h.pipes hends fun p => (hpipes p).1,
    fun r => (hends r).trans (h.balanced r)⟩

theorem Accounts.call (h : s.Accounts owed) (htask : task < maxTasks) (c : FileCall) :
    (s.call task c).Accounts owed := by
  cases c with
  | createPipe => exact h.createPipe htask
  | «open» node =>
    simp only [FdState.call, FdState.openFile]
    split
    · exact h
    · split
      · exact h
      · rename_i halloc
        exact h.allocate htask halloc
  | dup oldfd =>
    simp only [FdState.call]
    cases hdup : s.dup task oldfd with
    | none => exact h
    | some r => exact h.dup htask hdup
  | dup2 oldfd newfd =>
    simp only [FdState.call]
    cases hdup : s.dup2 task oldfd newfd with
    | none => exact h
    | some r => exact h.dup2 htask hdup
  | close fd => exact h.close htask
  | write fd bytes file =>
    simp only [FdState.call, FdState.write]
    split
    · split_ifs <;> exact h
    · rename_i entry _
      split
      · have hpipes := s.pipes.write_pipes entry.node bytes
        refine h.setPipes fun p => ?_
        obtain ⟨_, heq⟩ := hpipes p
        exact ⟨by rw [heq], by rw [heq], by rw [heq]⟩
      · exact h
      · split
        · exact h
        · exact h.advance htask _
  | read fd room file keys =>
    simp only [FdState.call, FdState.read]
    split
    · split_ifs <;> exact h
    · rename_i entry _
      split
      · have hpipes := s.pipes.read_pipes entry.node room
        refine h.setPipes fun p => ?_
        obtain ⟨_, heq⟩ := hpipes p
        exact ⟨by rw [heq], by rw [heq], by rw [heq]⟩
      · exact h
      · split
        · exact h
        · exact h.advance htask _

end FdState

/-- A call writes no other table than that of its task. -/
theorem FdState.call_tables (s : FdState) (task : ℕ) (c : FileCall) {t : ℕ} (ht : t ≠ task) :
    (s.call task c).tables t = s.tables t := by
  have hput : ∀ (s : FdState) (fd : ℕ) (entry : FileDescriptor),
      (s.put task fd entry).tables t = s.tables t := fun s fd entry => Function.update_of_ne ht _ _
  have halloc : ∀ {s s' : FdState} {fd : ℕ} {entry : ℕ → FileDescriptor},
      ((s.firstFree task).map fun fd => (fd, s.put task fd (entry fd))) = some (fd, s') →
      s'.tables t = s.tables t := fun {s s' fd entry} heq => by
    obtain ⟨fd', -, heq⟩ := Option.map_eq_some_iff.1 heq
    obtain ⟨-, rfl⟩ := Prod.mk.inj heq
    exact hput ..
  have hclose : ∀ (s : FdState) (fd : ℕ), (s.close task fd).2.tables t = s.tables t :=
    fun s fd => by
    unfold FdState.close
    simp only
    split_ifs
    · rfl
    · rfl
    · exact hput ..
  have hadvance : ∀ (fd delta : ℕ), (s.advance task fd delta).tables t = s.tables t :=
    fun fd delta => by
      unfold FdState.advance
      simp only
      split_ifs
      · rfl
      · exact hput ..
      · rfl
  cases c with
  | createPipe =>
    simp only [FdState.call, FdState.createPipe]
    split
    · rfl
    · rename_i index pipes _
      split
      · rfl
      · rename_i hread
        split
        · exact (hclose ..).trans (halloc (s := ⟨s.tables, pipes⟩) hread)
        · rename_i hwrite
          exact (halloc hwrite).trans (halloc (s := ⟨s.tables, pipes⟩) hread)
  | «open» node =>
    simp only [FdState.call, FdState.openFile]
    split
    · rfl
    · split
      · rfl
      · rename_i hopen
        exact halloc hopen
  | dup oldfd =>
    simp only [FdState.call, FdState.dup]
    split_ifs
    · rfl
    · cases s.firstFree task with
      | none => rfl
      | some fd => exact hput ..
  | dup2 oldfd newfd =>
    simp only [FdState.call, FdState.dup2]
    split_ifs
    · rfl
    · rfl
    · exact hput ..
    · exact hput ..
  | close fd => exact hclose s fd
  | write fd bytes file =>
    simp only [FdState.call, FdState.write]
    split
    · split_ifs <;> rfl
    · split
      · rfl
      · rfl
      · split
        · rfl
        · exact hadvance ..
  | read fd room file keys =>
    simp only [FdState.call, FdState.read]
    split
    · split_ifs <;> rfl
    · split
      · rfl
      · rfl
      · split
        · rfl
        · exact hadvance ..

/-! ## Runs -/

/-- A task is dead after a step only if it was before, or the step ends it. -/
theorem Kernel.Change.dead {k k' : Kernel} {e : KernelEvent} {i : ℕ} (h : k.Change e k' i)
    (hdead : ¬ (k'.sched.tasks i).Alive) : ¬ (k.sched.tasks i).Alive ∨ k.Ends e i := by
  cases h with
  | like hlike => exact .inl fun halive => hdead (hlike.alive.2 halive)
  | woken _ _ hnew =>
    rw [hnew] at hdead
    exact absurd ⟨nofun, nofun⟩ hdead
  | own _ _ hnew => exact absurd hnew hdead
  | spawned _ _ _ hnew => exact absurd ⟨by rw [hnew]; nofun, by rw [hnew]; nofun⟩ hdead
  | ended he => exact .inr he
  | freed he =>
    rcases he with ⟨he, -⟩ | hended
    · exact .inr he
    · exact .inl fun halive => halive.2 hended
  | collected _ hended => exact .inl fun halive => halive.2 hended

namespace System

variable {s s' : System} {e : SystemEvent} {es : List SystemEvent}

/-- What holds at every step: the counts are right, and the tables of tasks that are not alive are
empty. -/
structure Counted (s : System) : Prop where
  sound : s.kernel.Sound
  accounts : s.files.Accounts fun _ => 0
  closed : ∀ t, ¬ (s.kernel.sched.tasks t).Alive → s.files.Closed t

theorem Counted.lt (h : s.Counted) {t : ℕ} (halive : (s.kernel.sched.tasks t).Alive) :
    t < maxTasks :=
  Nat.lt_of_lt_of_le (h.sound.sched.lt_of_used halive.1) h.sound.sched.count_le

theorem Counted.kernel (h : s.Counted) {e : KernelEvent}
    (hstep : KernelStep s.kernel e (s.kernel.after e)) :
    (s.filesAfter e).Accounts (fun _ => 0) ∧
      ∀ t, ¬ ((s.kernel.after e).sched.tasks t).Alive → (s.filesAfter e).Closed t := by
  have hchange := Kernel.change h.sound hstep
  have hcurrent : s.kernel.point s.kernel.sched.current = .free →
      (s.kernel.sched.tasks s.kernel.sched.current).Alive := fun hfree =>
    h.sound.alive.resolve_left fun hhalted => by
      rw [hfree] at hhalted
      cases hhalted
  -- A step that ends no task leaves the empty tables empty.
  have hsame : (∀ t, ¬ s.kernel.Ends e t) → s.filesAfter e = s.files →
      (s.filesAfter e).Accounts (fun _ => 0) ∧
        ∀ t, ¬ ((s.kernel.after e).sched.tasks t).Alive → (s.filesAfter e).Closed t :=
    fun hends heq => by
      rw [heq]
      exact ⟨h.accounts, fun t hdead =>
        h.closed t (((hchange t).dead hdead).resolve_right (hends t))⟩
  -- A step that ends one task closes its descriptors.
  have hclose : ∀ {i}, (s.kernel.sched.tasks i).Alive → (∀ t, s.kernel.Ends e t → t = i) →
      s.filesAfter e = s.files.closeAll i → (s.filesAfter e).Accounts (fun _ => 0) ∧
        ∀ t, ¬ ((s.kernel.after e).sched.tasks t).Alive → (s.filesAfter e).Closed t :=
    fun {i} halive hends heq => by
      obtain ⟨haccounts, hclosed, hothers⟩ := h.accounts.closeAll (h.lt halive)
      rw [heq]
      refine ⟨haccounts, fun t hdead => ?_⟩
      by_cases ht : t = i
      · exact ht ▸ hclosed
      · have hold := h.closed t (((hchange t).dead hdead).resolve_right fun he => ht (hends t he))
        intro j hj
        rw [hothers t ht]
        exact hold j hj
  have hno : (∀ i, e ≠ .call (.terminate i)) → e ≠ .call .exit → ∀ t, ¬ s.kernel.Ends e t :=
    fun hkill hexit t he => he.elim (hkill t) fun he => hexit he.1
  cases e with
  | call c =>
    cases c with
    | spawn waitable =>
      cases waitable with
      | false => exact hsame (hno (by rintro _ ⟨⟩) (by rintro ⟨⟩)) rfl
      | true =>
        cases hchild : (s.kernel.sched.spawnInner true).1 with
        | none =>
          exact hsame (hno (by rintro _ ⟨⟩) (by rintro ⟨⟩)) (by simp only [filesAfter, hchild])
        | some child =>
          have hends := hno (by rintro _ ⟨⟩) (by rintro ⟨⟩)
          have hnew := Sched.spawnInner_tasks h.sound.sched.beyond true child
          obtain ⟨hunused, -⟩ := hnew.resolve_left fun hno => hno.2 hchild
          have halive := hcurrent hstep.1.1
          obtain ⟨haccounts, hothers⟩ := h.accounts.cloneInto (h.lt halive)
            (h.closed child fun halive => halive.1 hunused)
          simp only [filesAfter, hchild]
          refine ⟨haccounts, fun t hdead => ?_⟩
          have hold := ((hchange t).dead hdead).resolve_right (hends t)
          have ht : t ≠ child := by
            rintro rfl
            have hready : ((s.kernel.after (.call (.spawn true))).sched.tasks t).state =
              .ready := by
              have hready := (hnew.resolve_left fun hno => hno.2 hchild).2.2.1
              simp only [Kernel.after, Kernel.afterCall]
              split <;> rename_i heq <;> rw [heq] at hready <;> exact hready
            exact hdead ⟨by rw [hready]; rintro ⟨⟩, by rw [hready]; rintro ⟨⟩⟩
          intro j hj
          rw [hothers t ht]
          exact h.closed t hold j hj
    | exit =>
      refine hclose (hcurrent hstep.1.1) (fun t he => ?_) rfl
      rcases he with he | ⟨-, ht⟩
      · cases he
      · exact ht
    | terminate index =>
      cases hkill : s.kernel.sched.terminate index with
      | some r =>
        obtain ⟨-, -, halive, -⟩ := @Sched.terminate_some _ r.2 _ r.1 hkill
        refine hclose halive (fun t he => ?_) (by simp only [filesAfter, hkill])
        rcases he with he | ⟨he, -⟩
        · cases he
          rfl
        · cases he
      | none =>
        have hkernel : s.kernel.after (.call (.terminate index)) = s.kernel := by
          simp only [Kernel.after, Kernel.afterCall, hkill]
        simp only [filesAfter, hkill, hkernel]
        exact ⟨h.accounts, h.closed⟩
    | _ => exact hsame (hno (by rintro _ ⟨⟩) (by rintro ⟨⟩)) rfl
  | _ => exact hsame (hno (by rintro _ ⟨⟩) (by rintro ⟨⟩)) rfl

theorem Counted.step (h : s.Counted) (hstep : SystemStep s e s') : s'.Counted := by
  obtain ⟨henabled, rfl⟩ := hstep
  cases e with
  | kernel e =>
    have hkernel : KernelStep s.kernel e (s.kernel.after e) := ⟨henabled, rfl⟩
    obtain ⟨haccounts, hclosed⟩ := h.kernel hkernel
    exact ⟨h.sound.step hkernel, haccounts, hclosed⟩
  | file c =>
    have halive : (s.kernel.sched.tasks s.kernel.sched.current).Alive :=
      h.sound.alive.resolve_left fun hhalted => by
        rw [show s.kernel.point s.kernel.sched.current = .free from henabled] at hhalted
        cases hhalted
    refine ⟨h.sound, h.accounts.call (h.lt halive) c, fun t hdead i hi => ?_⟩
    have ht : t ≠ s.kernel.sched.current := fun heq => hdead (heq ▸ halive)
    simp only [after]
    rw [FdState.call_tables s.files _ c ht]
    exact h.closed t hdead i hi

theorem counted_boot : boot.Counted where
  sound := Kernel.sound_boot
  accounts :=
    { pipes := ⟨fun _ => ⟨nofun, fun hpos => absurd hpos (Nat.lt_irrefl 0)⟩,
      fun _ hp => by cases hp⟩
      balanced := fun r => by
        have hnone : refs FdState.slots boot.files.slotEnd r = 0 := by
          refine Nat.eq_zero_of_not_pos fun hpos => ?_
          obtain ⟨i, -, hi⟩ := refs_pos.1 hpos
          cases hi
        rw [hnone]
        unfold PipeTable.ends
        split_ifs <;> rfl }
  closed := fun _ _ _ _ => rfl

theorem counted_run (h : Run SystemStep boot es s) : s.Counted :=
  h.invariant (I := Counted) (fun _ _ _ h hstep => h.step hstep) counted_boot

end System

/-- The number of descriptors of a kind for one pipe, over the tables of all tasks. -/
def FdState.descriptors (s : FdState) (kind : FdKind) (p : ℕ) : ℕ :=
  (slots.filter fun i => (s.tables i.1 i.2).used = true ∧ (s.tables i.1 i.2).kind = kind ∧
    (s.tables i.1 i.2).node = p).card

theorem FdState.refs_eq_descriptors (s : FdState) (p : ℕ) :
    refs slots s.slotEnd (p, true) = s.descriptors .pipeWrite p ∧
      refs slots s.slotEnd (p, false) = s.descriptors .pipeRead p := by
  unfold descriptors slotEnd FileDescriptor.pipeEnd
  rw [refs_eq_card, refs_eq_card]
  constructor <;> congr 1 <;> refine Finset.filter_congr fun i _ => ?_ <;>
    cases (s.tables i.1 i.2).used <;> cases (s.tables i.1 i.2).kind <;> simp

/-- What `poll` answers for an end for reading. -/
theorem FdState.readiness_pollHup {s : FdState} {task fd p : ℕ} (wordBits : ℕ) (key : Bool)
    (hpipe : p < maxPipes) (hopen : (s.pipes.pipes p).used = true)
    (hget : ∃ entry, s.get task fd = some entry ∧ entry.kind = .pipeRead ∧ entry.node = p) :
    s.readiness wordBits task key fd &&& pollHup ≠ 0 ↔ (s.pipes.pipes p).writers = 0 := by
  obtain ⟨entry, hget, hkind, rfl⟩ := hget
  unfold readiness PipeTable.info
  rw [hget]
  simp only [hkind, if_neg (Nat.not_le.2 hpipe), hopen, Bool.not_true, Bool.false_eq_true, if_false]
  by_cases hwriters : (s.pipes.pipes entry.node).writers = 0
  · simp only [hwriters, if_true, iff_true]
    split_ifs <;> decide
  · simp only [hwriters, if_false, iff_false]
    split_ifs <;> decide

/-- **Counting.** In every state of a run from the boot on, the writers and the readers of a pipe
are the descriptors for its ends in the tables of all tasks, the pipe is in use as long as there
is one, and `poll` answers `POLLHUP` for an end for reading exactly if there is no descriptor for
writing. -/
theorem pipe_ends_counted {s : System} {es : List SystemEvent}
    (hrun : Run SystemStep System.boot es s) {p : ℕ} (hp : p < maxPipes) :
    (s.files.pipes.pipes p).writers = s.files.descriptors .pipeWrite p ∧
    (s.files.pipes.pipes p).readers = s.files.descriptors .pipeRead p ∧
    ((s.files.pipes.pipes p).used = true ↔
      0 < (s.files.pipes.pipes p).writers + (s.files.pipes.pipes p).readers) ∧
    ∀ (wordBits : ℕ) (key : Bool) (fd : ℕ) (entry : FileDescriptor),
      s.files.get s.kernel.sched.current fd = some entry → entry.kind = .pipeRead →
      entry.node = p →
      (s.files.readiness wordBits s.kernel.sched.current key fd &&& pollHup ≠ 0 ↔
        s.files.descriptors .pipeWrite p = 0) := by
  have h := System.counted_run hrun
  have hsound := h.accounts.pipes
  obtain ⟨hwrite, hread⟩ := s.files.refs_eq_descriptors p
  have hwriters : (s.files.pipes.pipes p).writers = s.files.descriptors .pipeWrite p := by
    have hcount := h.accounts.balanced (p, true)
    rwa [hwrite, Nat.add_zero] at hcount
  have hreaders : (s.files.pipes.pipes p).readers = s.files.descriptors .pipeRead p := by
    have hcount := h.accounts.balanced (p, false)
    rwa [hread, Nat.add_zero] at hcount
  have hused : (s.files.pipes.pipes p).used = true ↔
      0 < (s.files.pipes.pipes p).writers + (s.files.pipes.pipes p).readers := by
    rw [Nat.add_comm]
    exact hsound.used p
  refine ⟨hwriters, hreaders, hused, fun wordBits key fd entry hget hkind hnode => ?_⟩
  rw [← hwriters]
  -- The end for reading is itself in a table, so the pipe is in use.
  have hopen : (s.files.pipes.pipes p).used = true := by
    unfold FdState.get at hget
    split_ifs at hget with hfd hentry
    obtain rfl := Option.some.inj hget
    by_cases hlive : (s.kernel.sched.tasks s.kernel.sched.current).Alive
    · refine hsound.used_of_pos (w := false) (h.accounts.balanced.pos
        (FdState.mem_slots (h.lt hlive) (Nat.lt_of_not_le hfd)) ?_)
      unfold FdState.slotEnd FileDescriptor.pipeEnd
      rw [if_pos hentry, hkind, hnode]
    · have hclosed := h.closed _ hlive fd (Nat.lt_of_not_le hfd)
      rw [hclosed] at hentry
      cases hentry
  exact FdState.readiness_pollHup wordBits key hp hopen ⟨entry, hget, hkind, hnode⟩

/-- A pipe after a fork: both tasks have a descriptor for each end. -/
theorem pipe_ends_counted_fork :
    let s := (System.boot.after (.file .createPipe)).after (.kernel (.call (.spawn true)))
    (s.files.pipes.pipes 0).writers = 2 ∧ s.files.descriptors .pipeWrite 0 = 2 := by
  intro s
  have hrun : Run SystemStep System.boot [.file .createPipe, .kernel (.call (.spawn true))] s :=
    .cons ⟨rfl, rfl⟩ (.cons ⟨by decide +kernel, rfl⟩ (.nil _))
  have hwriters : (s.files.pipes.pipes 0).writers = 2 := by decide +kernel
  exact ⟨hwriters, (pipe_ends_counted hrun (p := 0) (by decide)).1.symm.trans hwriters⟩

end Tcmk
