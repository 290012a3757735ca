import Mathlib

/-!
# Machines that answer

A machine answers each call and goes on to a new state. `runs` plays a list of calls and collects
the answers. A relation between two machines that every call keeps, with equal answers, gives equal
answers to every list of calls (`runs_refines`).
-/

namespace Lib

variable {σ τ ε ρ : Type*}

/-- The answers to a list of calls, and the state after them. -/
def runs (call : σ → ε → ρ × σ) : σ → List ε → List ρ × σ
  | s, [] => ([], s)
  | s, e :: es => ((call s e).1 :: (runs call (call s e).2 es).1, (runs call (call s e).2 es).2)

variable {call : σ → ε → ρ × σ} {s : σ} {e : ε} {es fs : List ε}

@[simp] theorem runs_nil : runs call s [] = ([], s) := rfl

theorem runs_append : runs call s (es ++ fs) =
    ((runs call s es).1 ++ (runs call (runs call s es).2 fs).1,
      (runs call (runs call s es).2 fs).2) := by
  induction es generalizing s with
  | nil => rfl
  | cons e es ih => simp only [List.cons_append, runs, ih]

theorem runs_concat_fst : (runs call s (es ++ [e])).1 =
    (runs call s es).1 ++ [(call (runs call s es).2 e).1] := by
  rw [runs_append, runs, runs_nil]

theorem runs_concat_snd : (runs call s (es ++ [e])).2 = (call (runs call s es).2 e).2 := by
  rw [runs_append, runs, runs_nil]

/-- Every call takes one answer. -/
@[simp] theorem length_runs : (runs call s es).1.length = es.length := by
  induction es generalizing s with
  | nil => rfl
  | cons e es ih => simp only [runs, List.length_cons, ih]

theorem runs_invariant {I : σ → Prop} (hstep : ∀ s e, I s → I (call s e).2) (hs : I s) :
    I (runs call s es).2 := by
  induction es generalizing s with
  | nil => exact hs
  | cons e es ih => exact ih (hstep s e hs)

/-- Two machines that answer alike and stay related answer every list of calls alike. -/
theorem runs_refines {call' : τ → ε → ρ × τ} {R : σ → τ → Prop}
    (hstep : ∀ s a e, R s a → (call s e).1 = (call' a e).1 ∧ R (call s e).2 (call' a e).2) {a : τ}
    (h : R s a) : (runs call s es).1 = (runs call' a es).1 ∧
    R (runs call s es).2 (runs call' a es).2 := by
  induction es generalizing s a with
  | nil => exact ⟨rfl, h⟩
  | cons e es ih =>
    obtain ⟨hanswer, hnext⟩ := hstep s a e h
    obtain ⟨hrest, hend⟩ := ih hnext
    exact ⟨congrArg₂ List.cons hanswer hrest, hend⟩

end Lib
