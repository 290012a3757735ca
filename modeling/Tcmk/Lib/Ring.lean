import Mathlib

/-!
# Queues laid out over cells

A ring buffer keeps a queue in a cell array: the item at position `k` of the stream lies in
the cell `cell k`. `Holds` says that a memory holds a queue from a position on. Pushing is
right as long as the cell written is none of those that still hold an item; nothing else about
the map `cell` matters.
-/

namespace Lib

variable {α : Type*}

/-- The memory holds the items `q` at the positions `t, t + 1, …`. -/
def Holds (cell : ℕ → ℕ) (mem : ℕ → α) (t : ℕ) (q : List α) : Prop :=
  ∀ k (hk : k < q.length), mem (cell (t + k)) = q[k]

namespace Holds

variable {cell : ℕ → ℕ} {mem : ℕ → α} {t : ℕ} {q : List α} {x : α}

theorem nil : Holds cell mem t [] := fun _ hk => absurd hk (Nat.not_lt_zero _)

/-- Writing a cell that holds no item leaves the queue alone. -/
theorem update (h : Holds cell mem t q) {c : ℕ} (hc : ∀ k < q.length, cell (t + k) ≠ c) :
    Holds cell (Function.update mem c x) t q := fun k hk => by
  rw [Function.update_of_ne (hc k hk)]
  exact h k hk

/-- Writing the next cell appends an item, as long as that cell is free. -/
theorem push (h : Holds cell mem t q)
    (hc : ∀ k < q.length, cell (t + k) ≠ cell (t + q.length)) :
    Holds cell (Function.update mem (cell (t + q.length)) x) t (q ++ [x]) := by
  intro k hk
  rcases Nat.lt_or_ge k q.length with hlt | hge
  · rw [List.getElem_append_left hlt]
    exact h.update hc k hlt
  · have hk' : k = q.length := by
      rw [List.length_append, List.length_singleton] at hk
      omega
    subst hk'
    rw [Function.update_self, List.getElem_append_right (Nat.le_refl _)]
    simp

theorem head (h : Holds cell mem t (x :: q)) : mem (cell t) = x := by
  simpa using h 0 (Nat.succ_pos _)

theorem tail (h : Holds cell mem t (x :: q)) : Holds cell mem (t + 1) q := fun k hk => by
  have := h (k + 1) (Nat.succ_lt_succ hk)
  rw [show t + 1 + k = t + (k + 1) by omega]
  simpa using this

end Holds

end Lib
