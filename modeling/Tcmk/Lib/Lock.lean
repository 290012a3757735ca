import Mathlib

/-!
# Locks

`H` is the set of parties between taking a lock and giving it back. A lock that is taken only
while it is free has one holder at most (`Excl`), and as long as no holder disappears, it is taken
exactly while there is one (`Exact`).
-/

namespace Lib

variable {ι : Type*} {locked locked' : Bool} {H H' : Set ι} {i : ι}

/-- One party holds the lock at most, and then it is taken. -/
structure Excl (locked : Bool) (H : Set ι) : Prop where
  unique : ∀ i ∈ H, ∀ j ∈ H, i = j
  taken : ∀ i ∈ H, locked = true

/-- The lock is taken exactly if a party holds it. -/
def Exact (locked : Bool) (H : Set ι) : Prop := locked = true ↔ H.Nonempty

namespace Excl

theorem empty : Excl locked (∅ : Set ι) := ⟨by rintro i ⟨⟩, by rintro i ⟨⟩⟩

/-- Holders may disappear. -/
theorem mono (h : Excl locked H) (hH : H' ⊆ H) : Excl locked H' :=
  ⟨fun i hi j hj => h.unique i (hH hi) j (hH hj), fun i hi => h.taken i (hH hi)⟩

theorem acquire (h : Excl locked H) (hfree : locked = false) (hH : H' ⊆ insert i H) :
    Excl true H' := by
  have hnone : ∀ j ∈ H', j = i := fun j hj => (hH hj).resolve_right fun hj => by
    cases hfree.symm.trans (h.taken j hj)
  exact ⟨fun j hj k hk => (hnone j hj).trans (hnone k hk).symm, fun _ _ => rfl⟩

theorem release (h : Excl locked H) (hi : i ∈ H) (hH : H' ⊆ H \ {i}) : Excl false H' := by
  have hnone : ∀ j, j ∉ H' := fun j hj => (hH hj).2 (h.unique j (hH hj).1 i hi)
  exact ⟨fun j hj => absurd hj (hnone j), fun j hj => absurd hj (hnone j)⟩

end Excl

namespace Exact

theorem empty : Exact false (∅ : Set ι) := iff_of_false Bool.false_ne_true Set.not_nonempty_empty

theorem acquire (hi : i ∈ H') : Exact true H' := iff_of_true rfl ⟨i, hi⟩

theorem release (h : Excl locked H) (hi : i ∈ H) (hH : H' ⊆ H \ {i}) : Exact false H' := by
  refine iff_of_false Bool.false_ne_true ?_
  rintro ⟨j, hj⟩
  exact (hH hj).2 (h.unique j (hH hj).1 i hi)

/-- A holder that disappears leaves the lock taken. -/
theorem lose (h : Excl locked H) (hi : i ∈ H) (hH : H' ⊆ H \ {i}) : ¬ Exact locked H' := by
  intro hexact
  obtain ⟨j, hj⟩ := hexact.1 (h.taken i hi)
  exact (hH hj).2 (h.unique j (hH hj).1 i hi)

end Exact

end Lib
