import Mathlib

/-!
# Logs of atomic writes

A store is changed by atomic writes, which are kept in order in a log. A crash leaves the store
that some prefix of the log makes of the first one. `Through G base f ws` says that each of these
stores has the property `G`, which may depend on the number of writes in the log (counted from
`base` on). It holds of a longer log if the property holds after each new write.
-/

namespace Lib

variable {α β : Type*} [DecidableEq α]

/-- The store after a sequence of writes. -/
def replay (f : α → β) (ws : List (α × β)) : α → β :=
  ws.foldl (fun f w => Function.update f w.1 w.2) f

@[simp] theorem replay_nil (f : α → β) : replay f [] = f := rfl

theorem replay_append (f : α → β) (ws vs : List (α × β)) :
    replay f (ws ++ vs) = replay (replay f ws) vs := List.foldl_append

theorem replay_concat (f : α → β) (ws : List (α × β)) (a : α) (b : β) :
    replay f (ws ++ [(a, b)]) = Function.update (replay f ws) a b := replay_append f ws _

theorem replay_of_ne {f : α → β} {ws : List (α × β)} {a : α} (h : ∀ w ∈ ws, w.1 ≠ a) :
    replay f ws a = f a := by
  induction ws generalizing f with
  | nil => rfl
  | cons w ws ih =>
    obtain ⟨hw, hws⟩ := List.forall_mem_cons.1 h
    exact (ih hws).trans (Function.update_of_ne hw.symm _ _)

/-- Every store on the way has the property. -/
def Through (G : ℕ → (α → β) → Prop) (base : ℕ) (f : α → β) (ws : List (α × β)) : Prop :=
  ∀ k ≤ ws.length, G (base + k) (replay f (ws.take k))

namespace Through

variable {G : ℕ → (α → β) → Prop} {base : ℕ} {f : α → β} {ws vs : List (α × β)}

theorem nil (h : G base f) : Through G base f [] := fun k hk => by
  rw [Nat.le_zero.1 hk]
  exact h

theorem append (h : Through G base f ws) (h' : Through G (base + ws.length) (replay f ws) vs) :
    Through G base f (ws ++ vs) := by
  intro k hk
  rcases Nat.le_total k ws.length with hle | hge
  · rw [List.take_append_of_le_length hle]
    exact h k hle
  · obtain ⟨j, rfl⟩ := Nat.exists_eq_add_of_le hge
    rw [List.take_length_add_append, replay_append, ← Nat.add_assoc]
    exact h' j (by rw [List.length_append] at hk; omega)

/-- One more write. -/
theorem concat (h : Through G base f ws) {a : α} {b : β}
    (hab : G (base + ws.length + 1) (Function.update (replay f ws) a b)) :
    Through G base f (ws ++ [(a, b)]) := by
  refine h.append fun k hk => ?_
  have hk' : k ≤ 1 := hk
  rcases Nat.le_one_iff_eq_zero_or_eq_one.1 hk' with rfl | rfl
  · have := h ws.length (Nat.le_refl _)
    rwa [List.take_length] at this
  · exact hab

end Through

end Lib
