import Mathlib

/-!
# Pictures in linear buffers

A `Layer` gives colours to some points, and layers are piled over one another. A buffer has the rows
of a picture of `w` columns and `h` rows one after the other. `Draws` says that an operation on
buffers draws a layer: what the layer leaves out and what is behind the picture stays as it is.
-/

namespace Lib

variable {α : Type*}

/-- What is painted at the point in the column `x` and the row `y`. -/
abbrev Layer (α : Type*) := ℕ → ℕ → Option α

namespace Layer

def empty : Layer α := fun _ _ => none

def atop (top bottom : Layer α) : Layer α := fun x y => (top x y).or (bottom x y)

/-- The layers over one another, the first at the bottom. -/
def pile (layers : List (Layer α)) : Layer α :=
  layers.foldl (fun bottom top => top.atop bottom) empty

/-- A region in some colours. -/
def filled (region : ℕ → ℕ → Bool) (colour : ℕ → ℕ → α) : Layer α := fun x y =>
  if region x y then some (colour x y) else none

variable {l l' l'' : Layer α} {x y : ℕ}

@[simp] theorem atop_empty (l : Layer α) : l.atop empty = l := by
  funext x y
  exact Option.or_none

@[simp] theorem empty_atop (l : Layer α) : empty.atop l = l := by
  funext x y
  exact Option.none_or

theorem atop_of_none (h : l x y = none) : l.atop l' x y = l' x y := by
  rw [atop, h, Option.none_or]

theorem atop_of_some {c : α} (h : l x y = some c) : l.atop l' x y = some c := by
  rw [atop, h, Option.some_or]

@[simp] theorem pile_nil : pile ([] : List (Layer α)) = empty := rfl

theorem pile_concat (layers : List (Layer α)) (l : Layer α) :
    pile (layers ++ [l]) = l.atop (pile layers) := by
  rw [pile, List.foldl_concat]
  rfl

theorem isSome_atop (l l' : Layer α) (x y : ℕ) :
    (l.atop l' x y).isSome = ((l x y).isSome || (l' x y).isSome) :=
  Option.isSome_or

/-- A pile has the colour of the topmost layer that has one. -/
theorem pile_map {β : Type*} (as : List β) (layer : β → Layer α) (x y : ℕ) :
    pile (as.map layer) x y = (as.reverse.find? fun a => (layer a x y).isSome).bind fun a =>
    layer a x y := by
  induction as using List.reverseRecOn with
  | nil => rfl
  | append_singleton as a ih =>
    rw [List.map_append, List.map_singleton, pile_concat, List.reverse_append,
      List.reverse_singleton, List.singleton_append]
    cases h : layer a x y with
    | none =>
      rw [atop_of_none h, ih, List.find?_cons_of_neg (by rw [h]; exact Bool.false_ne_true)]
    | some c =>
      rw [atop_of_some h, List.find?_cons_of_pos (by rw [h]; rfl), Option.bind_some, h]

theorem filled_atop (r r' : ℕ → ℕ → Bool) (colour : ℕ → ℕ → α) :
    (filled r colour).atop (filled r' colour) = filled (fun x y => r x y || r' x y) colour := by
  funext x y
  rw [atop, filled, filled, filled]
  cases r x y <;> cases r' x y <;> rfl

theorem pile_filled {β : Type*} (as : List β) (region : β → ℕ → ℕ → Bool) (colour : ℕ → ℕ → α) :
    pile (as.map fun a => filled (region a) colour) =
    filled (fun x y => as.any fun a => region a x y) colour := by
  induction as using List.reverseRecOn with
  | nil => rfl
  | append_singleton as a ih =>
    rw [List.map_append, List.map_singleton, pile_concat, ih, filled_atop]
    refine congrArg (filled · colour) (funext fun x => funext fun y => ?_)
    rw [List.any_append, List.any_cons, List.any_nil, Bool.or_false, Bool.or_comm]

theorem filled_apply (region : ℕ → ℕ → Bool) (colour : ℕ → ℕ → α) (x y : ℕ) :
    filled region colour x y = if region x y then some (colour x y) else none := rfl

end Layer

/-- The operation draws this layer. -/
def Draws (w h : ℕ) (op : (ℕ → α) → ℕ → α) (l : Layer α) : Prop :=
  ∀ buf, (∀ x < w, ∀ y < h, op buf (y * w + x) = (l x y).getD (buf (y * w + x))) ∧
    ∀ i, w * h ≤ i → op buf i = buf i

namespace Draws

variable {w h : ℕ} {f g : (ℕ → α) → ℕ → α} {l l' : Layer α}

theorem id : Draws w h (fun buf => buf) (Layer.empty : Layer α) :=
  fun _ => ⟨fun _ _ _ _ => rfl, fun _ _ => rfl⟩

theorem congr_op (hf : Draws w h f l) (hg : ∀ buf, g buf = f buf) : Draws w h g l := by
  obtain rfl : g = f := funext hg
  exact hf

/-- Only the points of the picture matter. -/
theorem congr (hf : Draws w h f l) (hl : ∀ x < w, ∀ y < h, l x y = l' x y) : Draws w h f l' := by
  intro buf
  refine ⟨fun x hx y hy => ?_, (hf buf).2⟩
  rw [← hl x hx y hy]
  exact (hf buf).1 x hx y hy

theorem comp (hg : Draws w h g l') (hf : Draws w h f l) : Draws w h (fun buf => g (f buf))
    (l'.atop l) := by
  intro buf
  refine ⟨fun x hx y hy => ?_, fun i hi => ?_⟩
  · show g (f buf) (y * w + x) = _
    rw [(hg (f buf)).1 x hx y hy, (hf buf).1 x hx y hy, Layer.atop]
    cases l' x y <;> rfl
  · exact ((hg (f buf)).2 i hi).trans ((hf buf).2 i hi)

/-- Operations one after the other. -/
theorem foldl {β : Type*} (as : List β) {op : β → (ℕ → α) → ℕ → α} {layer : β → Layer α}
    (h' : ∀ a ∈ as, Draws w h (op a) (layer a)) :
    Draws w h (fun buf => as.foldl (fun buf a => op a buf) buf) (Layer.pile (as.map layer)) := by
  induction as using List.reverseRecOn with
  | nil => exact id
  | append_singleton as a ih =>
    have hrest := ih fun a' ha' => h' a' (List.mem_append_left _ ha')
    have hlast := h' a (List.mem_append_right _ (List.mem_singleton_self a))
    simp only [List.foldl_append, List.foldl_cons, List.foldl_nil, List.map_append, List.map_cons,
      List.map_nil, Layer.pile_concat]
    exact hlast.comp hrest

/-- Operations that draw parts of a region. -/
theorem foldl_filled {β : Type*} (as : List β) {op : β → (ℕ → α) → ℕ → α}
    {region : β → ℕ → ℕ → Bool} {colour : ℕ → ℕ → α}
    (h' : ∀ a ∈ as, Draws w h (op a) (.filled (region a) colour)) :
    Draws w h (fun buf => as.foldl (fun buf a => op a buf) buf)
      (.filled (fun x y => as.any fun a => region a x y) colour) := by
  rw [← Layer.pile_filled]
  exact foldl as h'

/-- One point. -/
theorem pixel {x y : ℕ} (hx : x < w) (hy : y < h) (c : α) :
    Draws w h (fun buf => Function.update buf (y * w + x) c)
      (.filled (fun x' y' => decide (x' = x ∧ y' = y)) fun _ _ => c) := by
  intro buf
  refine ⟨fun x' hx' y' hy' => ?_, fun i hi => ?_⟩
  · rw [Layer.filled_apply]
    by_cases hsame : x' = x ∧ y' = y
    · obtain ⟨rfl, rfl⟩ := hsame
      simp
    · have hne : y' * w + x' ≠ y * w + x := by
        intro heq
        have hdiv := congrArg (· / w) heq
        have hmod := congrArg (· % w) heq
        simp only [Nat.mul_comm _ w, Nat.mul_add_div (Nat.zero_lt_of_lt hx), Nat.mul_add_mod,
          Nat.div_eq_of_lt hx, Nat.div_eq_of_lt hx', Nat.mod_eq_of_lt hx,
          Nat.mod_eq_of_lt hx'] at hdiv hmod
        exact hsame ⟨hmod, hdiv⟩
      simp [hne, hsame]
  · have hlt : y * w + x < w * h := by
      have := Nat.mul_le_mul_right w (hy : y + 1 ≤ h)
      rw [Nat.add_one_mul, Nat.mul_comm h] at this
      omega
    exact Function.update_of_ne (by omega) ..

end Draws

end Lib
