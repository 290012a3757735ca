import Mathlib

/-!
# Loops

A round of a loop goes on in a new state or ends with a value. `Ends round s b` says that the
loop, started in `s`, ends with `b`, however many rounds it takes; `runLoop` executes it for a
bounded number of rounds. A loop with a measure that every round lowers ends from every state
(`runLoop_of_measure`).
-/

namespace Lib

variable {σ β : Type*} {round : σ → σ ⊕ β} {s t : σ} {a b : β}

inductive Ends (round : σ → σ ⊕ β) : σ → β → Prop
  | stop {s : σ} {b : β} : round s = .inr b → Ends round s b
  | next {s t : σ} {b : β} : round s = .inl t → Ends round t b → Ends round s b

theorem Ends.unique (h : Ends round s a) (h' : Ends round s b) : a = b := by
  induction h with
  | stop hs =>
    cases h' with
    | stop hs' => exact Sum.inr.inj (hs.symm.trans hs')
    | next hs' _ => cases hs.symm.trans hs'
  | next hs _ ih =>
    cases h' with
    | stop hs' => cases hs.symm.trans hs'
    | next hs' h' =>
      cases hs.symm.trans hs'
      exact ih h'

/-- At most so many rounds. -/
def runLoop (round : σ → σ ⊕ β) : ℕ → σ → Option β
  | 0, _ => none
  | n + 1, s =>
    match round s with
    | .inr b => some b
    | .inl t => runLoop round n t

theorem runLoop_stop (n : ℕ) (h : round s = .inr b) : runLoop round (n + 1) s = some b := by
  rw [runLoop, h]

theorem runLoop_next (n : ℕ) (h : round s = .inl t) :
    runLoop round (n + 1) s = runLoop round n t := by
  rw [runLoop, h]

theorem ends_of_runLoop {n : ℕ} (h : runLoop round n s = some b) : Ends round s b := by
  induction n generalizing s with
  | zero => cases h
  | succ n ih =>
    cases hs : round s with
    | inr a =>
      rw [runLoop_stop n hs] at h
      cases h
      exact .stop hs
    | inl t =>
      rw [runLoop_next n hs] at h
      exact .next hs (ih h)

/-- A loop with a measure ends within as many rounds. -/
theorem runLoop_of_measure (measure : σ → ℕ)
    (hround : ∀ s t, round s = .inl t → measure t < measure s) {n : ℕ} (hn : measure s < n) :
    ∃ b, runLoop round n s = some b := by
  induction n generalizing s with
  | zero => exact absurd hn (Nat.not_lt_zero _)
  | succ n ih =>
    cases hs : round s with
    | inr b => exact ⟨b, runLoop_stop n hs⟩
    | inl t =>
      rw [runLoop_next n hs]
      exact ih (by have := hround s t hs; omega)

end Lib
