import Mathlib

/-!
# Runs of a transition system

A run is the list of events of its steps. Four facts are used throughout:

* `Run.invariant` — a property every step keeps holds at the end of every run.
* `Run.all_iff` — if a step that fails a condition spoils a property for good, a run keeps it
  exactly if all its steps meet the condition.
* `Run.simulate` — a step-by-step match between two systems gives a match of their runs.
* `Run.of_plays` — a system that computes its next state runs through a list of events if each of
  them can happen in its turn (`Plays`), which can be decided.
-/

namespace Lib

variable {σ τ ε : Type*}

/-- `Run step s es t`: the system goes from `s` to `t` through the events `es`. -/
inductive Run (step : σ → ε → σ → Prop) : σ → List ε → σ → Prop
  | nil (s : σ) : Run step s [] s
  | cons {s t u : σ} {e : ε} {es : List ε} :
      step s e t → Run step t es u → Run step s (e :: es) u

namespace Run

variable {step : σ → ε → σ → Prop} {s t u : σ} {e : ε} {es fs : List ε}

theorem append (h : Run step s es t) (h' : Run step t fs u) : Run step s (es ++ fs) u := by
  induction h with
  | nil => exact h'
  | cons hst _ ih => exact .cons hst (ih h')

/-- A run passes a state after each part of its events. -/
theorem split (h : Run step s (es ++ fs) u) : ∃ t, Run step s es t ∧ Run step t fs u := by
  induction es generalizing s with
  | nil => exact ⟨s, .nil s, h⟩
  | cons e es ih =>
    cases h with
    | cons hst hrun =>
      obtain ⟨t, hes, hfs⟩ := ih hrun
      exact ⟨t, .cons hst hes, hfs⟩

theorem mono {step' : σ → ε → σ → Prop} (hstep : ∀ s e t, step s e t → step' s e t)
    (h : Run step s es t) : Run step' s es t := by
  induction h with
  | nil s => exact .nil s
  | cons hst _ ih => exact .cons (hstep _ _ _ hst) ih

theorem invariant {I : σ → Prop} (hstep : ∀ s e t, I s → step s e t → I t) (hs : I s)
    (h : Run step s es t) : I t := by
  induction h with
  | nil => exact hs
  | cons hst _ ih => exact ih (hstep _ _ _ hs hst)

/-- Steps that meet `C` keep `P`, and any other step loses it for good. So a run ends in `P` exactly
if all its steps meet `C`. -/
theorem all_iff {P D : σ → Prop} {C : σ → ε → Prop}
    (hkeep : ∀ s e t, P s → step s e t → C s e → P t)
    (hlose : ∀ s e t, P s → step s e t → ¬ C s e → D t) (hstays : ∀ s e t, D s → step s e t → D t)
    (hD : ∀ s, D s → ¬ P s) (hs : P s) (h : Run step s es t) :
    P t ↔ Run (fun s e t => step s e t ∧ C s e) s es t := by
  constructor
  · intro ht
    induction h with
    | nil s => exact .nil s
    | @cons s m t e es hst hrun ih =>
      by_cases hC : C s e
      · exact .cons ⟨hst, hC⟩ (ih (hkeep _ _ _ hs hst hC) ht)
      · exact absurd ht (hD _ (hrun.invariant hstays (hlose _ _ _ hs hst hC)))
  · exact fun hrun => hrun.invariant (fun s e t hP hst => hkeep s e t hP hst.1 hst.2) hs

/-- A simulation carries every run of `step` to a run of `step'` with the same events. -/
theorem simulate {step' : τ → ε → τ → Prop} {R : σ → τ → Prop}
    (hsim : ∀ s a e t, R s a → step s e t → ∃ b, step' a e b ∧ R t b)
    {a : τ} (ha : R s a) (h : Run step s es t) : ∃ b, Run step' a es b ∧ R t b := by
  induction h generalizing a with
  | nil => exact ⟨a, .nil a, ha⟩
  | cons hst _ ih =>
    obtain ⟨b, hab, hR⟩ := hsim _ _ _ _ ha hst
    obtain ⟨c, hbc, hc⟩ := ih hR
    exact ⟨c, .cons hab hbc, hc⟩

end Run

/-- The events can happen one after the other. -/
def Plays (enabled : σ → ε → Prop) (after : σ → ε → σ) : σ → List ε → Prop
  | _, [] => True
  | s, e :: es => enabled s e ∧ Plays enabled after (after s e) es

instance Plays.decidable (enabled : σ → ε → Prop) [∀ s e, Decidable (enabled s e)]
    (after : σ → ε → σ) : ∀ s es, Decidable (Plays enabled after s es)
  | _, [] => instDecidableTrue
  | s, e :: es =>
    have := decidable enabled after (after s e) es
    inferInstanceAs (Decidable (_ ∧ _))

theorem Run.of_plays {enabled : σ → ε → Prop} {after : σ → ε → σ} {s : σ} {es : List ε}
    (h : Plays enabled after s es) :
    Run (fun s e t => enabled s e ∧ t = after s e) s es (es.foldl after s) := by
  induction es generalizing s with
  | nil => exact .nil s
  | cons e es ih => exact .cons ⟨h.1, rfl⟩ (ih h.2)

end Lib
