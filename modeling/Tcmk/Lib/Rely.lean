import Tcmk.Lib.Prog

/-!
# Programs among other programs

At a pause of a program others may change the state. `Rely G R x s Q` says that `x`, going on
from `s`, ends with `Q`, whatever the others do, as long as each of their turns is a change `R`;
at every pause it leaves a state with `G`.

`Tracks G R x s y t Q E` compares such an execution of `x` with one of `y` that runs alone from
`t`: they return together, with values and states in the relation `Q`, or stop with the same
error and states in the relation `E`.
-/

namespace Lib

namespace Prog

variable {σ ε ε' α β γ δ : Type} {G : σ → Prop} {R : σ → σ → Prop}

def Rely (G : σ → Prop) (R : σ → σ → Prop) :
    Prog σ ε α → σ → (Except ε α → σ → Prop) → Prop
  | done r, s, Q => Q r s
  | act f k, s, Q => Rely G R (k s) (f s) Q
  | pause k, s, Q => G s ∧ ∀ s', R s s' → Rely G R k s' Q

namespace Rely

variable {x : Prog σ ε α} {s : σ} {Q Q' : Except ε α → σ → Prop}

theorem mono (h : Rely G R x s Q) (hQ : ∀ r t, Q r t → Q' r t) : Rely G R x s Q' := by
  induction x generalizing s with
  | done r => exact hQ r s h
  | act f k ih => exact ih s h
  | pause k ih => exact ⟨h.1, fun s' hs' => ih (h.2 s' hs')⟩

theorem bind {f : α → Prog σ ε β} {Q : Except ε β → σ → Prop}
    (h : Rely G R x s fun r t => match r with
      | .ok a => Rely G R (f a) t Q
      | .error e => Q (.error e) t) : Rely G R (x >>= f) s Q := by
  show Rely G R (x.bind f) s Q
  induction x generalizing s with
  | done r => cases r <;> exact h
  | act g k ih => exact ih s h
  | pause k ih => exact ⟨h.1, fun s' hs' => ih (h.2 s' hs')⟩

theorem mapError {f : ε → ε'} {Q : Except ε' α → σ → Prop}
    (h : Rely G R x s fun r t => Q (r.mapError f) t) : Rely G R (x.mapError f) s Q := by
  induction x generalizing s with
  | done r => cases r <;> exact h
  | act g k ih => exact ih s h
  | pause k ih => exact ⟨h.1, fun s' hs' => ih (h.2 s' hs')⟩

/-- Fewer changes by the others. -/
theorem weaken {R' : σ → σ → Prop} (h : Rely G R x s Q) (hR : ∀ s s', R' s s' → R s s') :
    Rely G R' x s Q := by
  induction x generalizing s with
  | done r => exact h
  | act f k ih => exact ih s h
  | pause k ih => exact ⟨h.1, fun s' hs' => ih (h.2 s' (hR s s' hs'))⟩

/-- A program that no other program disturbs does what it does alone. -/
theorem of_eq (h : Rely G Eq x s Q) : Q (x.run s).1 (x.run s).2 := by
  induction x generalizing s with
  | done r => exact h
  | act f k ih => exact ih s h
  | pause k ih => exact ih (h.2 s rfl)

/-- One slice: the program has ended, or it can be left where it is. -/
theorem resume (hR : ∀ s, R s s) (h : Rely G R x s Q) :
    (∃ r t, x.resume s = (done r, t) ∧ Q r t) ∨
      ∃ y t, x.resume s = (y, t) ∧ (∀ r, y ≠ done r) ∧ G t ∧ ∀ t', R t t' → Rely G R y t' Q := by
  induction x generalizing s with
  | done r => exact .inl ⟨r, s, rfl, h⟩
  | act f k ih => exact ih s h
  | pause k =>
    cases k with
    | done r => exact .inl ⟨r, s, rfl, h.2 s (hR s)⟩
    | act f k => exact .inr ⟨_, s, rfl, fun _ => nofun, h⟩
    | pause k => exact .inr ⟨_, s, rfl, fun _ => nofun, h⟩

end Rely

/-! ## Two executions -/

/-- What `Tracks` asks of the two results. -/
def Match (Q : α → σ → β → σ → Prop) (E : σ → σ → Prop) (r : Except ε α) (s : σ) :
    Except ε β × σ → Prop
  | (.ok b, t) => ∃ a, r = .ok a ∧ Q a s b t
  | (.error e, t) => r = .error e ∧ E s t

def Tracks (G : σ → Prop) (R : σ → σ → Prop) (x : Prog σ ε α) (s : σ) (y : Prog σ ε β) (t : σ)
    (Q : α → σ → β → σ → Prop) (E : σ → σ → Prop) : Prop :=
  Rely G R x s fun r s' => Match Q E r s' (y.run t)

namespace Tracks

variable {x : Prog σ ε α} {y : Prog σ ε β} {s t : σ} {Q Q' : α → σ → β → σ → Prop}
  {E E' : σ → σ → Prop}

theorem pure {a : α} {b : β} (h : Q a s b t) :
    Tracks (ε := ε) G R (Pure.pure a) s (Pure.pure b) t Q E := ⟨a, rfl, h⟩

theorem throw {e : ε} (h : E s t) :
    Tracks G R (Prog.throw e : Prog σ ε α) s (Prog.throw e : Prog σ ε β) t Q E := ⟨rfl, h⟩

theorem get {Q : σ → σ → σ → σ → Prop} (h : Q s s t t) :
    Tracks (ε := ε) G R Prog.get s Prog.get t Q E := ⟨s, rfl, h⟩

theorem modify {f g : σ → σ} {Q : Unit → σ → Unit → σ → Prop} (h : Q () (f s) () (g t)) :
    Tracks (ε := ε) G R (Prog.modify f) s (Prog.modify g) t Q E := ⟨(), rfl, h⟩

theorem yield {Q : Unit → σ → Unit → σ → Prop} (hG : G s) (hR : ∀ s', R s s' → Q () s' () t) :
    Tracks (ε := ε) G R Prog.yield s Prog.yield t Q E := ⟨hG, fun s' hs' => ⟨(), rfl, hR s' hs'⟩⟩

theorem mono (h : Tracks G R x s y t Q E) (hQ : ∀ a s b t, Q a s b t → Q' a s b t)
    (hE : ∀ s t, E s t → E' s t) : Tracks G R x s y t Q' E' := by
  refine Rely.mono h fun r s' hr => ?_
  unfold Match at hr ⊢
  split at hr
  · obtain ⟨a, ha, h⟩ := hr
    exact ⟨a, ha, hQ _ _ _ _ h⟩
  · exact ⟨hr.1, hE _ _ hr.2⟩

theorem bind {f : α → Prog σ ε γ} {g : β → Prog σ ε δ} {Q : γ → σ → δ → σ → Prop}
    (h : Tracks G R x s y t (fun a s' b t' => Tracks G R (f a) s' (g b) t' Q E) E) :
    Tracks G R (x >>= f) s (y >>= g) t Q E := by
  refine Rely.bind (Rely.mono h fun r s' hr => ?_)
  rw [run_bind]
  unfold Match at hr
  cases hy : y.run t with
  | mk ry t' =>
    rw [hy] at hr
    cases ry with
    | ok b =>
      obtain ⟨a, rfl, h⟩ := hr
      exact h
    | error e =>
      obtain ⟨rfl, h⟩ := hr
      exact ⟨rfl, h⟩

theorem mapError {f : ε → ε'} (h : Tracks G R x s y t Q E) :
    Tracks G R (x.mapError f) s (y.mapError f) t Q E := by
  refine Rely.mapError (Rely.mono h fun r s' hr => ?_)
  rw [run_mapError]
  unfold Match at hr
  cases hy : y.run t with
  | mk ry t' =>
    rw [hy] at hr
    cases ry with
    | ok b =>
      obtain ⟨a, rfl, h⟩ := hr
      exact ⟨a, rfl, h⟩
    | error e =>
      obtain ⟨rfl, h⟩ := hr
      exact ⟨rfl, h⟩

/-- Two counting loops in step. -/
theorem forRange {J : ℕ → σ → σ → Prop} {body body' : ℕ → Prog σ ε Unit} {start : ℕ} (count : ℕ)
    (hs : J start s t)
    (hbody : ∀ i s t, start ≤ i → i < start + count → J i s t →
      Tracks G R (body i) s (body' i) t (fun _ s' _ t' => J (i + 1) s' t') E) :
    Tracks G R (Prog.forRange count start body) s (Prog.forRange count start body') t
      (fun _ s' _ t' => J (start + count) s' t') E := by
  induction count generalizing start s t with
  | zero => exact pure hs
  | succ count ih =>
    refine bind ((hbody start s t (Nat.le_refl _) (by omega) hs).mono (fun _ s' _ t' h => ?_)
      fun _ _ he => he)
    rw [show start + (count + 1) = start + 1 + count by omega]
    exact ih h fun i u v hi hi' => hbody i u v (by omega) (by omega)

/-- Two executions that nobody disturbs return the same. -/
theorem of_eq {α : Type} {x y : Prog σ ε α} {J : σ → σ → Prop}
    (h : Tracks G Eq x s y t (fun a s' b t' => a = b ∧ J s' t') J) :
    (x.run s).1 = (y.run t).1 ∧ J (x.run s).2 (y.run t).2 := by
  have h := Rely.of_eq h
  cases hy : y.run t with
  | mk ry t' =>
    rw [hy] at h
    cases ry with
    | ok b =>
      obtain ⟨a, ha, rfl, hJ⟩ := h
      exact ⟨ha, hJ⟩
    | error e => exact h

end Tracks

end Prog

end Lib
