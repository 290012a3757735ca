import Tcmk.Lib.Run

/-!
# What an observer can tell apart

A machine makes one step for each event, and some events have an answer. To an observer some events
are hidden; which ones may depend on the state. Two runs look alike if they have the same visible
events.

`answers_eq` is the unwinding theorem: if a relation between two states is kept by hidden events on
either side and by visible events on both, with equal answers, then two runs that look alike have
equal answers.
-/

namespace Lib

variable {σ ε ρ : Type*}

/-- A machine with answers, as an observer sees it. -/
structure Observed (σ ε ρ : Type*) where
  after : σ → ε → σ
  /-- the answer to an event, if it is one of the observer's -/
  answer : σ → ε → Option ρ
  hidden : σ → ε → Bool

namespace Observed

variable (m : Observed σ ε ρ)

/-- The visible events of a run. -/
def visible : σ → List ε → List ε
  | _, [] => []
  | s, e :: es => if m.hidden s e then visible (m.after s e) es else e :: visible (m.after s e) es

/-- The answers of a run. -/
def answers : σ → List ε → List ρ
  | _, [] => []
  | s, e :: es =>
    match m.answer s e with
    | none => answers (m.after s e) es
    | some r => r :: answers (m.after s e) es

/-- The steps that the machine may make. -/
def Step (allowed : σ → ε → Prop) (s : σ) (e : ε) (t : σ) : Prop := allowed s e ∧ t = m.after s e

variable {m} {allowed : σ → ε → Prop} {R : σ → σ → Prop} {s s' t t' : σ} {e : ε} {es fs : List ε}

/-- A relation that no allowed step can break or tell. -/
structure Unwinds (m : Observed σ ε ρ) (allowed : σ → ε → Prop) (R : σ → σ → Prop) : Prop where
  symm : ∀ {s t}, R s t → R t s
  silent : ∀ {s e}, m.hidden s e = true → m.answer s e = none
  hidden : ∀ {s t e}, R s t → allowed s e → m.hidden s e = true → R (m.after s e) t
  visible : ∀ {s t e}, R s t → allowed s e → allowed t e → m.hidden s e = false →
    m.hidden t e = false → R (m.after s e) (m.after t e) ∧ m.answer s e = m.answer t e

theorem visible_hidden (h : m.hidden s e = true) :
    m.visible s (e :: es) = m.visible (m.after s e) es := if_pos h

theorem visible_shown (h : m.hidden s e = false) :
    m.visible s (e :: es) = e :: m.visible (m.after s e) es := by
  rw [visible, h]
  rfl

theorem answers_none (h : m.answer s e = none) :
    m.answers s (e :: es) = m.answers (m.after s e) es := by
  rw [answers, h]

/-- Without visible events there are no answers. -/
theorem answers_nil (hR : m.Unwinds allowed R) (h : m.visible s es = []) : m.answers s es = [] := by
  induction es generalizing s with
  | nil => rfl
  | cons e es ih =>
    cases hhidden : m.hidden s e with
    | true =>
      rw [visible_hidden hhidden] at h
      rw [answers_none (hR.silent hhidden), ih h]
    | false =>
      rw [visible_shown hhidden] at h
      cases h

/-- Hidden events at the start of a run do not matter, so that it can be taken to start with a
visible one. -/
theorem skip_hidden (hR : m.Unwinds allowed R) (hst : R s t) (h : Run (m.Step allowed) s es s')
    (hvisible : m.visible s es = e :: fs) : ∃ u us, R u t ∧ Run (m.Step allowed) u (e :: us) s' ∧
      m.hidden u e = false ∧ m.visible (m.after u e) us = fs ∧ m.answers s es =
      m.answers u (e :: us) := by
  induction h with
  | nil s => cases hvisible
  | @cons s u v a as hstep hrun ih =>
    obtain ⟨hallowed, rfl⟩ := hstep
    cases hhidden : m.hidden s a with
    | true =>
      rw [visible_hidden hhidden] at hvisible
      rw [answers_none (hR.silent hhidden)]
      exact ih (hR.hidden hst hallowed hhidden) hvisible
    | false =>
      rw [visible_shown hhidden] at hvisible
      obtain ⟨rfl, hfs⟩ := List.cons.inj hvisible
      exact ⟨s, as, hst, .cons ⟨hallowed, rfl⟩ hrun, hhidden, hfs, rfl⟩

/-- Runs that look alike have the same answers. -/
theorem answers_eq (hR : m.Unwinds allowed R) (hst : R s t) (hs : Run (m.Step allowed) s es s')
    (ht : Run (m.Step allowed) t fs t') (hsame : m.visible s es = m.visible t fs) :
    m.answers s es = m.answers t fs := by
  generalize hvisible : m.visible s es = es₀ at hsame
  induction es₀ generalizing s t es fs with
  | nil => rw [answers_nil hR hvisible, answers_nil hR hsame.symm]
  | cons e es₀ ih =>
    obtain ⟨u, us, hut, hu, hushown, hus, huanswers⟩ := skip_hidden hR hst hs hvisible
    obtain ⟨v, vs, hvu, hv, hvshown, hvs, hvanswers⟩ := skip_hidden hR (hR.symm hut) ht hsame.symm
    rw [huanswers, hvanswers]
    cases hu with
    | cons hstep hu =>
      cases hv with
      | cons hstep' hv =>
        obtain ⟨hallowed, rfl⟩ := hstep
        obtain ⟨hallowed', rfl⟩ := hstep'
        obtain ⟨hnext, hanswer⟩ := hR.visible (hR.symm hvu) hallowed hallowed' hushown hvshown
        have hrest := ih hnext hu hv hus hvs.symm
        rw [answers, answers, hanswer, hrest]

end Observed

end Lib
