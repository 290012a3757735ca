import Tcmk.Arch
import Tcmk.Process.ExitStatus

/-!
# Numbers in shell commands (`shell.rs`) and `kill`

Two loops of the shell read a number. `parse_usize` refuses a byte that is no digit, and the loop of
`kill` skips it. Both compute with `usize`, so what they find is the value of the digits modulo
`2 ^ wordBits` (`parseUsize_eq`, `killNumber_eq`).

`kill` ends the task that `killNumber` finds (`kill_alive`). It is the task that was typed exactly
if the argument is a number that fits a `usize`, or no task is ended at all (`shell_numbers_iff`).
-/

namespace Tcmk

open Lib

/-! ## The text of a number -/

/-- `is_ascii_digit`. -/
def isDigit (b : UInt8) : Bool := 48 ≤ b && b ≤ 57

/-- The value of a digit. -/
def digit (b : UInt8) : ℕ := b.toNat - 48

/-- The number that a sequence of digits denotes. -/
def decimal (s : List UInt8) : ℕ := s.foldl (fun value b => value * 10 + digit b) 0

/-- A decimal numeral. -/
def Numeral (s : List UInt8) : Prop := s ≠ [] ∧ s.all isDigit = true

instance (s : List UInt8) : Decidable (Numeral s) := inferInstanceAs (Decidable (_ ∧ _))

namespace Shell

/-! ## The loops -/

section Loops

variable (arch : Arch)

/-- `value * 10 + (b - b'0') as usize`. -/
def push (value : ℕ) (b : UInt8) : ℕ := (value * 10 + digit b) % 2 ^ arch.wordBits

/-- The loop of `parse_usize`. -/
def parseFrom (value : ℕ) : List UInt8 → Option ℕ
  | [] => some value
  | b :: rest => if isDigit b then parseFrom (push arch value b) rest else none

/-- `parse_usize`. -/
def parseUsize (s : List UInt8) : Option ℕ := if s = [] then none else parseFrom arch 0 s

/-- The loop of `kill`. -/
def killNumber (arg : List UInt8) : Option ℕ :=
  arg.foldl (fun acc b => if isDigit b then some (push arch (acc.getD 0) b) else acc) none

end Loops

variable {arch : Arch}

theorem push_mod (value : ℕ) (b : UInt8) :
    push arch (value % 2 ^ arch.wordBits) b = (value * 10 + digit b) % 2 ^ arch.wordBits := by
  unfold push
  rw [Nat.add_mod, Nat.mod_mul_mod, ← Nat.add_mod]

theorem parseFrom_eq (value : ℕ) (s : List UInt8) :
    parseFrom arch (value % 2 ^ arch.wordBits) s =
      if s.all isDigit then some
        (s.foldl (fun value b => value * 10 + digit b) value % 2 ^ arch.wordBits)
      else none := by
  induction s generalizing value with
  | nil => rfl
  | cons b rest ih =>
    rw [parseFrom, push_mod, ih, List.all_cons, List.foldl_cons]
    cases isDigit b <;> simp

theorem parseUsize_eq (s : List UInt8) :
    parseUsize arch s = if Numeral s then some (decimal s % 2 ^ arch.wordBits) else none := by
  have hfrom := @parseFrom_eq arch 0 s
  rw [Nat.zero_mod] at hfrom
  unfold parseUsize
  by_cases hs : s = []
  · rw [if_pos hs, if_neg fun h : Numeral s => h.1 hs]
  · rw [if_neg hs, hfrom]
    exact if_congr ⟨fun h => ⟨hs, h⟩, And.right⟩ rfl rfl

/-- The loop of `kill` reads the digits only. -/
theorem killNumber_eq (arg : List UInt8) :
    killNumber arch arg = if arg.filter isDigit = [] then none
      else some (decimal (arg.filter isDigit) % 2 ^ arch.wordBits) := by
  unfold killNumber decimal
  induction arg using List.reverseRecOn with
  | nil => rfl
  | append_singleton arg b ih =>
    rw [List.foldl_concat, ih, List.filter_append]
    by_cases hb : isDigit b = true
    · have hne : arg.filter isDigit ++ [b] ≠ [] := by simp
      rw [if_pos hb, List.filter_cons_of_pos hb, List.filter_nil, List.foldl_concat, if_neg hne]
      by_cases hnil : arg.filter isDigit = []
      · rw [if_pos hnil, hnil]
        rfl
      · rw [if_neg hnil]
        exact congrArg some (push_mod ..)
    · rw [if_neg hb, List.filter_cons_of_neg hb, List.filter_nil, List.append_nil]

end Shell

/-! ## `raise` -/

/-- The tasks and the signals that wait for them. -/
structure Signals where
  kernel : Kernel
  pending : ℕ → UInt32
  sent : ℕ

/-- What `raise` comes to. -/
inductive Raised
  | invalidSignal
  | noSuchTask
  | delivered
  /-- The task has ended itself, and the call does not return. -/
  | ended
  deriving DecidableEq

namespace Signals

/-- `exit_current_task` of a kernel task. -/
def exitCurrentTask (g : Signals) (code : UInt32) : Signals :=
  { g with kernel := (g.kernel.after (.call (.setExitCode code))).after (.call .exit) }

/-- `raise`. -/
def raise (g : Signals) (target : ℕ) (signo : UInt32) : Raised × Signals :=
  if ¬(1 ≤ signo ∧ signo ≤ maxSignal) then (.invalidSignal, g)
  else if target ≥ maxTasks then (.noSuchTask, g)
  else if (g.kernel.sched.tasks target).state = .unused ∨ (g.kernel.sched.tasks target).state =
    .terminated then
    (.noSuchTask, g)
  else
    let g := { g with sent := g.sent + 1 }
    if signo = sigkill then
      if target = g.kernel.sched.current then (.ended, g.exitCurrentTask (128 + sigkill))
      else
        match g.kernel.sched.terminate target with
        | some (_, s) => (.delivered, { g with kernel := g.kernel.withSched s })
        | none => (.noSuchTask, g)
    else
      (.delivered, { g with
        pending := Function.update g.pending target (g.pending target ||| 1 <<< signo) })

/-- The `kill` command: nothing for an argument without digits. -/
def killCommand (arch : Arch) (g : Signals) (arg : List UInt8) : Option Raised × Signals :=
  match Shell.killNumber arch arg with
  | some i => let (r, g) := g.raise i sigkill; (some r, g)
  | none => (none, g)

/-- The state ends a task that was alive. -/
def Kills (g g' : Signals) (t : ℕ) : Prop :=
  (g.kernel.sched.tasks t).Alive ∧ ¬(g'.kernel.sched.tasks t).Alive

/-- A SIGKILL ends the task: it is alive, and it is not the idle task, unless this is the sender. -/
def Killable (g : Signals) (t : ℕ) : Prop :=
  t < maxTasks ∧ (g.kernel.sched.tasks t).Alive ∧ (t = g.kernel.sched.current ∨ t ≠ idleTask)

instance (g : Signals) (t : ℕ) : Decidable (g.Killable t) :=
  inferInstanceAs (Decidable (_ ∧ (¬_ ∧ ¬_) ∧ _))

end Signals

namespace Sched

/-- A task that ends itself takes no other with it: the slots that `reap_orphans` releases are of
ended tasks. -/
theorem terminateCurrent_alive (s : Sched) (i : ℕ) :
    (s.terminateCurrent.tasks i).Alive ↔ i ≠ s.current ∧ (s.tasks i).Alive := by
  have hreap : ∀ u : Sched, (u.reapOrphans.tasks i).Alive ↔ (u.tasks i).Alive := fun u => by
    rw [reapOrphans_eq]
    unfold reapedBelow
    dsimp only
    split_ifs with h
    · exact iff_of_false (released_not_alive _) fun halive => halive.2 h.2.1
    · exact Iff.rfl
  have hset : ((s.setState s.current .terminated).tasks i).Alive ↔ i ≠ s.current ∧
    (s.tasks i).Alive := by
    rw [setState, modifyTask_tasks]
    split_ifs with hi
    · exact iff_of_false (fun h => h.2 rfl) fun h => h.1 hi
    · exact (and_iff_right hi).symm
  unfold terminateCurrent
  dsimp only
  rw [hreap]
  split_ifs
  · rw [releaseSlot_tasks]
    split_ifs with hi
    · exact iff_of_false (released_not_alive _) fun h => h.1 hi
    · exact hset
  · exact hset

theorem terminate_isSome {s : Sched} {i : ℕ} (hidle : i ≠ idleTask) (hmax : i < maxTasks)
    (hne : i ≠ s.current) (halive : (s.tasks i).Alive) :
    ∃ space u, s.terminate i = some (space, u) := by
  unfold terminate
  rw [if_neg (by simp [hidle, hne, hmax]), if_neg (by simpa [Task.Alive] using halive)]
  exact ⟨_, _, rfl⟩

end Sched

namespace Signals

variable {arch : Arch} {g : Signals} {i t : ℕ}

theorem exitCurrentTask_kills (code : UInt32)
    (h : (g.kernel.sched.tasks g.kernel.sched.current).Alive) :
    g.Kills (g.exitCurrentTask code) t ↔ t = g.kernel.sched.current := by
  have hcode :
    ((g.kernel.sched.modifyTask g.kernel.sched.current fun u => { u with exitCode := code }).tasks
      t).Alive ↔ (g.kernel.sched.tasks t).Alive := by
    rw [Sched.modifyTask_tasks]
    split_ifs with ht
    · rw [ht]
      exact Iff.rfl
    · exact Iff.rfl
  have hexit := Sched.terminateCurrent_alive
    (g.kernel.sched.modifyTask g.kernel.sched.current fun u => { u with exitCode := code }) t
  rw [hcode] at hexit
  refine ⟨fun hkill => ?_, fun ht => ⟨ht ▸ h, fun halive => (hexit.1 halive).1 ht⟩⟩
  by_contra hne
  exact hkill.2 (hexit.2 ⟨hne, hkill.1⟩)

/-- `raise` with SIGKILL ends its target if it can, and nothing else. -/
theorem raise_kills : g.Kills (g.raise i sigkill).2 t ↔ t = i ∧ g.Killable i := by
  have hvalid : 1 ≤ sigkill ∧ sigkill ≤ maxSignal := by decide
  unfold raise
  rw [if_neg (not_not.2 hvalid)]
  by_cases hmax : i ≥ maxTasks
  · rw [if_pos hmax]
    exact iff_of_false (fun h => h.2 h.1) fun h => Nat.not_le.2 h.2.1 hmax
  rw [if_neg hmax]
  by_cases hdead : (g.kernel.sched.tasks i).state = .unused ∨ (g.kernel.sched.tasks i).state =
    .terminated
  · rw [if_pos hdead]
    exact iff_of_false (fun h => h.2 h.1) fun h => hdead.elim h.2.2.1.1 h.2.2.1.2
  have halive : (g.kernel.sched.tasks i).Alive := not_or.1 hdead
  rw [if_neg hdead, if_pos rfl]
  dsimp only
  by_cases hself : i = g.kernel.sched.current
  · rw [if_pos hself]
    have hexit : g.Kills ({ g with sent := g.sent + 1 }.exitCurrentTask (128 + sigkill)) t ↔
      t = i := by
      rw [hself] at halive ⊢
      exact exitCurrentTask_kills (g := { g with sent := g.sent + 1 }) (128 + sigkill) halive
    exact hexit.trans (and_iff_left ⟨Nat.not_le.1 hmax, halive, .inl hself⟩).symm
  rw [if_neg hself]
  by_cases hidle : i = idleTask
  · have hnone : g.kernel.sched.terminate i = none := if_pos (.inl hidle)
    rw [hnone]
    exact iff_of_false (fun h => h.2 h.1) fun h => h.2.2.2.elim hself (absurd hidle)
  · obtain ⟨space, u, hu⟩ := Sched.terminate_isSome hidle (Nat.not_le.1 hmax) hself halive
    obtain ⟨-, -, -, -, -, -, hothers, hgone⟩ := Sched.terminate_some hu
    rw [hu]
    refine ⟨fun h => ⟨?_, Nat.not_le.1 hmax, halive, .inr hidle⟩, fun h => ?_⟩
    · by_contra hne
      exact h.2 ((hothers t hne).symm ▸ h.1)
    · rw [h.1]
      exact ⟨halive, hgone⟩

theorem kill_kills {arg : List UInt8} :
    g.Kills (g.killCommand arch arg).2 t ↔ Shell.killNumber arch arg = some t ∧ g.Killable t := by
  unfold killCommand
  cases Shell.killNumber arch arg with
  | none => exact iff_of_false (fun h => h.2 h.1) fun h => by cases h.1
  | some i =>
    rw [Option.some.injEq]
    refine raise_kills.trans ⟨fun h => ?_, fun h => ?_⟩
    · rw [h.1]
      exact ⟨rfl, h.2⟩
    · rw [h.1]
      exact ⟨rfl, h.2⟩

end Signals

/-! ## The law -/

/-- `parse_usize` gives what was typed, if it fits a `usize`, and nothing otherwise. -/
def ParsesNumber (arch : Arch) (arg : List UInt8) : Prop :=
  ∀ n, Shell.parseUsize arch arg = some n ↔ Numeral arg ∧ decimal arg = n ∧ arch.IsUsize n

/-- `kill` ends only the task that was typed. -/
def KillsNamed (arch : Arch) (g : Signals) (arg : List UInt8) : Prop :=
  ∀ t, g.Kills (g.killCommand arch arg).2 t → Numeral arg ∧ decimal arg = t

theorem parsesNumber_iff (arch : Arch) (arg : List UInt8) :
    ParsesNumber arch arg ↔ (Numeral arg → arch.IsUsize (decimal arg)) := by
  have hpos : 0 < 2 ^ arch.wordBits := Nat.two_pow_pos _
  unfold ParsesNumber
  simp only [Shell.parseUsize_eq]
  refine ⟨fun h hnumeral => ?_, fun h n => ?_⟩
  · obtain ⟨-, heq, hlt⟩ := (h _).1 (if_pos hnumeral)
    exact heq ▸ hlt
  · by_cases hnumeral : Numeral arg
    · rw [if_pos hnumeral, Option.some.injEq, Nat.mod_eq_of_lt (h hnumeral)]
      refine ⟨fun heq => ⟨hnumeral, heq, heq ▸ h hnumeral⟩, fun h => h.2.1⟩
    · rw [if_neg hnumeral]
      exact iff_of_false (fun h => by cases h) fun h => hnumeral h.1

theorem killsNamed_iff (arch : Arch) (g : Signals) (arg : List UInt8) :
    KillsNamed arch g arg ↔ (Numeral arg ∧ arch.IsUsize (decimal arg) ∨ arg.filter isDigit = [] ∨
      ¬g.Killable (decimal (arg.filter isDigit) % 2 ^ arch.wordBits)) := by
  unfold KillsNamed
  simp only [Signals.kill_kills, Shell.killNumber_eq]
  by_cases hnil : arg.filter isDigit = []
  · rw [if_pos hnil]
    exact iff_of_true (fun t h => by cases h.1) (.inr (.inl hnil))
  rw [if_neg hnil]
  refine ⟨fun h => ?_, fun h t hkills => ?_⟩
  · by_cases hkill : g.Killable (decimal (arg.filter isDigit) % 2 ^ arch.wordBits)
    · obtain ⟨hnumeral, heq⟩ := h _ ⟨rfl, hkill⟩
      refine .inl ⟨hnumeral, ?_⟩
      rw [heq]
      exact Nat.mod_lt _ (Nat.two_pow_pos _)
    · exact .inr (.inr hkill)
  · obtain ⟨ht, hkill⟩ := hkills
    rw [← Option.some.inj ht] at hkill
    rcases h with ⟨hnumeral, hfits⟩ | h | h
    · rw [List.filter_eq_self.2 (List.all_eq_true.1 hnumeral.2), Nat.mod_eq_of_lt hfits] at ht
      exact ⟨hnumeral, Option.some.inj ht⟩
    · exact absurd h hnil
    · exact absurd hkill h

/-- A number in a command denotes what was typed, exactly if it fits a `usize` and, for `kill`, has
no byte but digits, or what its digits amount to is no task that could be ended. -/
theorem shell_numbers_iff (arch : Arch) (g : Signals) (arg : List UInt8) :
    ParsesNumber arch arg ∧ KillsNamed arch g arg ↔
      (Numeral arg → arch.IsUsize (decimal arg)) ∧
        (Numeral arg ∨ arg.filter isDigit = [] ∨
          ¬g.Killable (decimal (arg.filter isDigit) % 2 ^ arch.wordBits)) := by
  rw [parsesNumber_iff, killsNamed_iff]
  refine and_congr_right fun h => or_congr_left ⟨And.left, fun hnumeral => ⟨hnumeral, h hnumeral⟩⟩

/-- The shell is task 1, and `kill 2x` ends task 2. -/
theorem kill_skips_letter : ¬∀ (es : List KernelEvent) (g : Signals) (arg : List UInt8),
    Run KernelStep Kernel.boot es g.kernel → ParsesNumber .i386 arg ∧ KillsNamed .i386 g arg := by
  intro hall
  let k := ((Kernel.boot.after (.call (.spawn false))).after (.call .yield)).after
    (.call (.spawn false))
  have hrun : Run KernelStep Kernel.boot [.call (.spawn false), .call .yield, .call (.spawn false)]
    k :=
    .cons ⟨by decide, rfl⟩
      (.cons ⟨by decide +kernel, rfl⟩ (.cons ⟨by decide +kernel, rfl⟩ (.nil _)))
  have hkill : Signals.Killable ⟨k, fun _ => 0, 0⟩ 2 := by decide +kernel
  obtain ⟨hnumeral, -⟩ := (hall _ ⟨k, fun _ => 0, 0⟩ [50, 120] hrun).2 2
    (Signals.kill_kills.2 ⟨by decide, hkill⟩)
  exact absurd hnumeral (by decide)

end Tcmk
