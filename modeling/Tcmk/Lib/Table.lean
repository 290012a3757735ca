import Mathlib

/-!
# Loops over a table

A table is a function on indices. `each n f t` is the loop `for i in 0 .. n { t[i] = f(t, i) }`.
Where a round does not depend on what the other rounds do, the loop is one simultaneous
assignment (`each_eq`).
-/

namespace Lib

variable {α : Type*}

/-- `for i in 0 .. n { t[i] = f(t, i) }`. -/
def each (n : ℕ) (f : (ℕ → α) → ℕ → α) (t : ℕ → α) : ℕ → α :=
  (List.range n).foldl (fun t i => Function.update t i (f t i)) t

theorem each_succ (n : ℕ) (f : (ℕ → α) → ℕ → α) (t : ℕ → α) :
    each (n + 1) f t = Function.update (each n f t) n (f (each n f t) n) := by
  simp only [each, List.range_succ, List.foldl_append, List.foldl_cons, List.foldl_nil]

/-- A round may depend on the entries before it, which have their new values, and on those from
its own on, which have their old ones. -/
theorem each_eq {n : ℕ} {f : (ℕ → α) → ℕ → α} {t g : ℕ → α}
    (h : ∀ i < n, f (fun j => if j < i then g j else t j) i = g i) :
    each n f t = fun j => if j < n then g j else t j := by
  induction n with
  | zero => simp [each]
  | succ n ih =>
    have hn := ih fun i hi => h i (Nat.lt_succ_of_lt hi)
    rw [each_succ, hn, h n (Nat.lt_succ_self n)]
    funext j
    rcases Nat.lt_trichotomy j n with hj | rfl | hj
    · rw [Function.update_of_ne (Nat.ne_of_lt hj), if_pos hj, if_pos (Nat.lt_succ_of_lt hj)]
    · rw [Function.update_self, if_pos (Nat.lt_succ_self j)]
    · rw [Function.update_of_ne (Nat.ne_of_gt hj), if_neg (Nat.not_lt.2 (Nat.le_of_lt hj)),
        if_neg (Nat.not_lt.2 hj)]

/-- Each round changes its entry by itself. -/
theorem each_self (n : ℕ) (f : α → α) (t : ℕ → α) :
    each n (fun t i => f (t i)) t = fun j => if j < n then f (t j) else t j :=
  each_eq fun i _ => by simp only [if_neg (Nat.lt_irrefl i)]

end Lib
