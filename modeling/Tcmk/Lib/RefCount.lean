import Mathlib

/-!
# Reference counts

Slots refer to objects, and every object has a count. The count is *balanced* when it is the
number of slots that refer to the object and of the references that are *owed*: counted, but in
no slot yet, or in none any more. Each operation of a reference-counted table is one of three:
it counts a new reference, it discounts one, or it writes a slot.
-/

namespace Lib

variable {ι ρ : Type*} [DecidableEq ρ]

/-- The reference that `o` is, if it is one, as a count. -/
def one (o : Option ρ) (r : ρ) : ℕ := if o = some r then 1 else 0

@[simp] theorem one_none (r : ρ) : one none r = 0 := if_neg nofun

theorem one_self (r : ρ) : one (some r) r = 1 := if_pos rfl

theorem one_of_ne {r r' : ρ} (h : r ≠ r') : one (some r) r' = 0 :=
  if_neg fun heq => h (Option.some.inj heq)

/-- The number of slots that refer to an object. -/
def refs (S : Finset ι) (h : ι → Option ρ) (r : ρ) : ℕ := ∑ i ∈ S, one (h i) r

variable {S : Finset ι} {h : ι → Option ρ} {i : ι} {r : ρ}

theorem refs_eq_card (S : Finset ι) (h : ι → Option ρ) (r : ρ) :
    refs S h r = (S.filter fun i => h i = some r).card :=
  (Finset.card_filter ..).symm

theorem refs_pos : 0 < refs S h r ↔ ∃ i ∈ S, h i = some r := by
  rw [refs_eq_card, Finset.card_pos]
  simp only [Finset.Nonempty, Finset.mem_filter]

theorem refs_update [DecidableEq ι] (hi : i ∈ S) (b : Option ρ) (r : ρ) :
    refs S (Function.update h i b) r + one (h i) r = refs S h r + one b r := by
  have hone : (fun j => one (Function.update h i b j) r) =
      Function.update (fun j => one (h j) r) i (one b r) := by
    funext j
    by_cases hj : j = i
    · subst hj
      rw [Function.update_self, Function.update_self]
    · rw [Function.update_of_ne hj, Function.update_of_ne hj]
  unfold refs
  rw [hone, Finset.sum_update_of_mem hi, ← Finset.add_sum_erase S _ hi, Finset.erase_eq]
  omega

/-- Two slots refer to the object. -/
theorem one_lt_refs {j : ι} (hi : i ∈ S) (hj : j ∈ S) (hne : i ≠ j) (hr : h i = some r)
    (hr' : h j = some r) : 1 < refs S h r := by
  rw [refs_eq_card, Finset.one_lt_card]
  exact ⟨i, Finset.mem_filter.2 ⟨hi, hr⟩, j, Finset.mem_filter.2 ⟨hj, hr'⟩, hne⟩

/-- Only the slots of one row change. -/
theorem refs_row {κ : Type*} [DecidableEq ι] {T : Finset κ} {g g' : ι × κ → Option ρ} (hi : i ∈ S)
    (hrow : ∀ s : ι × κ, s.1 ≠ i → g' s = g s) (r : ρ) :
    refs (S ×ˢ T) g' r + refs T (fun j => g (i, j)) r =
      refs (S ×ˢ T) g r + refs T (fun j => g' (i, j)) r := by
  have hrest : ∑ a ∈ S.erase i, ∑ j ∈ T, one (g' (a, j)) r = ∑ a ∈ S.erase i, ∑ j ∈ T,
    one (g (a, j)) r :=
    Finset.sum_congr rfl fun a ha => Finset.sum_congr rfl fun j _ => by
      rw [hrow (a, j) (Finset.ne_of_mem_erase ha)]
  unfold refs
  rw [Finset.sum_product, Finset.sum_product, ← Finset.add_sum_erase S _ hi,
    ← Finset.add_sum_erase S (fun a => ∑ j ∈ T, one (g (a, j)) r) hi, hrest]
  dsimp only
  omega

/-- The slots of a list, in their order. -/
theorem refs_range (n : ℕ) (g : ℕ → Option ρ) (r : ρ) :
    refs (Finset.range n) g r = ((List.range n).filterMap g).count r := by
  induction n with
  | zero => rfl
  | succ n ih =>
    unfold refs at ih ⊢
    rw [Finset.sum_range_succ, ih, List.range_succ, List.filterMap_append, List.count_append]
    congr 1
    cases hg : g n <;> simp [one, hg, List.count_singleton]

/-- The counts are the references in the slots and those that are owed. -/
def Balanced (S : Finset ι) (h : ι → Option ρ) (count owed : ρ → ℕ) : Prop :=
  ∀ r, count r = refs S h r + owed r

namespace Balanced

variable {count count' owed owed' : ρ → ℕ} {o b : Option ρ}

/-- A new reference is counted. -/
theorem retain (hb : Balanced S h count owed) (hcount : ∀ r, count' r = count r + one o r) :
    Balanced S h count' fun r => owed r + one o r := fun r => by
  rw [hcount, hb r, Nat.add_assoc]

/-- A reference that is in no slot is discounted. -/
theorem release (hb : Balanced S h count fun r => owed r + one o r)
    (hcount : ∀ r, count' r + one o r = count r) : Balanced S h count' owed := fun r => by
  have heq := hcount r
  rw [hb r, ← Nat.add_assoc] at heq
  exact Nat.add_right_cancel heq

/-- A slot is written: the reference in it becomes owed, and the new one no longer is. -/
theorem write [DecidableEq ι] (hb : Balanced S h count owed) (hi : i ∈ S)
    (howed : ∀ r, owed' r + one b r = owed r + one (h i) r) :
    Balanced S (Function.update h i b) count owed' := fun r => by
  have hrefs := refs_update (h := h) hi b r
  have hsame := howed r
  rw [hb r]
  omega

theorem pos (hb : Balanced S h count owed) (hi : i ∈ S) (hr : h i = some r) : 0 < count r := by
  rw [hb r]
  exact Nat.add_pos_left (refs_pos.2 ⟨i, hi, hr⟩) _

end Balanced

end Lib
