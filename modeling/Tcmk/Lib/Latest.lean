import Tcmk.Lib.Run

/-!
# What the events of a run add up to

Some parts of a state are a function of the events so far. `latest` is a variable that some events
write and the others leave (`Run.latest`): its value is what the last event that wrote it has
written (`latest_eq_iff`). And if an event of one kind needs one of another kind before it, there
are no more of them (`Run.countP_le`).
-/

namespace Lib

variable {σ ε α : Type*} {f : ε → Option α} {a b : α} {es : List ε}

/-- The last value written, or `a`. -/
def latest (f : ε → Option α) (a : α) (es : List ε) : α := es.foldl (fun a e => (f e).getD a) a

theorem latest_eq_iff : latest f a es = b ↔
    (∃ es₁ e es₂, es = es₁ ++ e :: es₂ ∧ f e = some b ∧ ∀ e' ∈ es₂, f e' = none) ∨
      (∀ e ∈ es, f e = none) ∧ a = b := by
  induction es using List.reverseRecOn with
  | nil => simp [latest]
  | append_singleton es e ih =>
    have hlast : latest f a (es ++ [e]) = (f e).getD (latest f a es) := by
      rw [latest, List.foldl_concat]
      rfl
    rw [hlast]
    cases hfe : f e with
    | some c =>
      rw [Option.getD_some]
      constructor
      · intro h
        exact .inl ⟨es, e, [], rfl, hfe.trans (congrArg some h), by simp⟩
      · intro h
        obtain ⟨es₁, e₁, es₂, heq, hb, hnone⟩ | ⟨hnone, -⟩ := h
        · -- The last event is the one that has written.
          rcases List.eq_nil_or_concat es₂ with rfl | ⟨es₃, e₃, rfl⟩
          · obtain ⟨-, rfl⟩ := List.append_inj' heq rfl |>.imp_right List.singleton_inj.1
            exact Option.some.inj (hfe.symm.trans hb)
          · have heq' : es ++ [e] = (es₁ ++ e₁ :: es₃) ++ [e₃] := by simpa using heq
            obtain rfl : e = e₃ := List.singleton_inj.1 (List.append_inj' heq' rfl).2
            have := hnone e (by simp)
            rw [hfe] at this
            cases this
        · have := hnone e (by simp)
          rw [hfe] at this
          cases this
    | none =>
      rw [Option.getD_none, ih]
      constructor
      · intro h
        obtain ⟨es₁, e₁, es₂, rfl, hb, hnone⟩ | ⟨hnone, hab⟩ := h
        · refine .inl ⟨es₁, e₁, es₂ ++ [e], by simp, hb, fun e' he' => ?_⟩
          rcases List.mem_append.1 he' with he' | he'
          · exact hnone e' he'
          · rw [List.mem_singleton.1 he', hfe]
        · refine .inr ⟨fun e' he' => ?_, hab⟩
          rcases List.mem_append.1 he' with he' | he'
          · exact hnone e' he'
          · rw [List.mem_singleton.1 he', hfe]
      · intro h
        obtain ⟨es₁, e₁, es₂, heq, hb, hnone⟩ | ⟨hnone, hab⟩ := h
        · rcases List.eq_nil_or_concat es₂ with rfl | ⟨es₃, e₃, rfl⟩
          · obtain rfl : e = e₁ := List.singleton_inj.1 (List.append_inj' heq rfl).2
            rw [hfe] at hb
            cases hb
          · have heq' : es ++ [e] = (es₁ ++ e₁ :: es₃) ++ [e₃] := by simpa using heq
            obtain rfl : es = es₁ ++ e₁ :: es₃ := (List.append_inj' heq' rfl).1
            exact .inl ⟨es₁, e₁, es₃, rfl, hb, fun e' he' => hnone e' (by simp [he'])⟩
        · exact .inr ⟨fun e' he' => hnone e' (by simp [he']), hab⟩

namespace Run

variable {step : σ → ε → σ → Prop} {s t : σ}

/-- A part of the state that each step writes as its event says. -/
theorem latest {v : σ → α} (hstep : ∀ s e t, step s e t → (f e).getD (v s) = v t)
    (h : Run step s es t) : latest f (v s) es = v t := by
  induction h with
  | nil s => rfl
  | cons hst _ ih =>
    rw [Lib.latest, List.foldl_cons, hstep _ _ _ hst]
    exact ih

/-- Each event of one kind is paid for by one of another kind, or by what there was. -/
theorem countP_le {v : σ → ℕ} {p q : ε → Bool}
    (hstep : ∀ s e t, step s e t → (if p e then 1 else 0) + v t ≤ (if q e then 1 else 0) + v s)
    (h : Run step s es t) : es.countP p + v t ≤ es.countP q + v s := by
  induction h with
  | nil s => simp
  | cons hst _ ih =>
    have := hstep _ _ _ hst
    simp only [List.countP_cons]
    omega

end Run

end Lib
