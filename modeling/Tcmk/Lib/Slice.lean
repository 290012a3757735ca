import Mathlib

/-!
# Slices of lists

`slice xs a b` is the part of a list from `a` to `b`, and `assign xs a b ys` puts `ys` in its
place, as in scripting languages: bounds past the end mean the end, and the list gets longer or
shorter if `ys` is. A slice that lies in the list, replaced by one of its length, changes the
elements between `a` and `b` and nothing else.
-/

namespace Lib

variable {α : Type*} {xs ys : List α} {a b i : ℕ} {d : α}

/-- `xs[a:b]`. -/
def slice (xs : List α) (a b : ℕ) : List α := (xs.take b).drop a

/-- `xs[a:b] = ys`. -/
def assign (xs : List α) (a b : ℕ) (ys : List α) : List α :=
  xs.take a ++ ys ++ xs.drop (max a b)

theorem length_slice (hb : b ≤ xs.length) : (slice xs a b).length = b - a := by
  rw [slice, List.length_drop, List.length_take, Nat.min_eq_left hb]

theorem getD_slice (h : a + i < b) : (slice xs a b).getD i d = xs.getD (a + i) d := by
  simp only [slice, List.getD_eq_getElem?_getD, List.getElem?_drop, List.getElem?_take, if_pos h]

theorem length_assign (hb : b ≤ xs.length) (hys : a + ys.length = b) :
    (assign xs a b ys).length = xs.length := by
  simp only [assign, List.length_append, List.length_take, List.length_drop]
  omega

/-- Inside the slice. -/
theorem getD_assign (hb : b ≤ xs.length) (hys : a + ys.length = b) (hi : i < ys.length) :
    (assign xs a b ys).getD (a + i) d = ys.getD i d := by
  have ha : (xs.take a).length = a := by rw [List.length_take]; omega
  rw [assign, List.append_assoc, List.getD_append_right _ _ _ _ (by omega), ha,
    Nat.add_sub_cancel_left, List.getD_append _ _ _ _ hi]

/-- Outside of it. -/
theorem getD_assign_of_not (hb : b ≤ xs.length) (hys : a + ys.length = b)
    (hi : ¬ (a ≤ i ∧ i < b)) : (assign xs a b ys).getD i d = xs.getD i d := by
  have ha : (xs.take a).length = a := by rw [List.length_take]; omega
  rw [assign, List.append_assoc]
  by_cases hlow : i < a
  · rw [List.getD_append _ _ _ _ (by omega)]
    simp only [List.getD_eq_getElem?_getD, List.getElem?_take, if_pos hlow]
  · rw [List.getD_append_right _ _ _ _ (by omega), ha, List.getD_append_right _ _ _ _ (by omega)]
    simp only [List.getD_eq_getElem?_getD, List.getElem?_drop]
    rw [show max a b + (i - a - ys.length) = i by omega]

end Lib
