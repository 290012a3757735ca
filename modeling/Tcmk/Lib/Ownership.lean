import Mathlib

/-!
# Exclusive ownership

Slots `κ` hold resources `ρ`. Of the slots, those of a set `L` are live; the resource of a live
slot is marked used, and no two live slots hold the same one (`Owns`). Nothing is lost when every
used resource is in a live slot (`Covers`). Both are kept by taking a free resource into a new
slot and by giving one back; a counter of free resources follows by `countP`.
-/

namespace Lib

variable {κ ρ : Type*} {L L' : Set κ} {ptr ptr' : κ → ρ} {used used' : ρ → Prop}

/-- Live slots hold used resources, each its own. -/
structure Owns (L : Set κ) (ptr : κ → ρ) (used : ρ → Prop) : Prop where
  used : ∀ a ∈ L, used (ptr a)
  inj : Set.InjOn ptr L

/-- Every used resource is in a live slot. -/
def Covers (L : Set κ) (ptr : κ → ρ) (used : ρ → Prop) : Prop := ∀ r, used r → ∃ a ∈ L, ptr a = r

namespace Owns

theorem empty : Owns (∅ : Set κ) ptr used :=
  ⟨fun _ ha => absurd ha (Set.notMem_empty _), Set.injOn_empty _⟩

theorem mono (h : Owns L ptr used) (hL : L' ⊆ L) : Owns L' ptr used :=
  ⟨fun a ha => h.used a (hL ha), h.inj.mono hL⟩

/-- Slots that are not live do not matter. -/
theorem congr (h : Owns L ptr used) (hptr : Set.EqOn ptr' ptr L) : Owns L ptr' used :=
  ⟨fun a ha => by rw [hptr ha]; exact h.used a ha, h.inj.congr hptr.symm⟩

/-- Each slot has its resource from a slot of its own. -/
theorem transfer (h : Owns L ptr used) (f : κ → κ) (hf : Set.InjOn f L')
    (hL : ∀ a ∈ L', f a ∈ L ∧ ptr' a = ptr (f a)) : Owns L' ptr' used := by
  refine ⟨fun a ha => ?_, fun a ha b hb heq => hf ha hb ?_⟩
  · rw [(hL a ha).2]
    exact h.used _ (hL a ha).1
  · rw [(hL a ha).2, (hL b hb).2] at heq
    exact h.inj (hL a ha).1 (hL b hb).1 heq

/-- The resource of slot `a` goes into slot `b`. -/
theorem move (h : Owns L ptr used) {a b : κ} (hb : b ∈ L' → a ∈ L ∧ ptr' b = ptr a)
    (hL : ∀ c ∈ L', c ≠ b → c ∈ L ∧ c ≠ a ∧ ptr' c = ptr c) : Owns L' ptr' used := by
  classical
  refine h.transfer (fun c => if c = b then a else c) (fun c hc d hd heq => ?_) fun c hc => ?_
  · by_cases hcb : c = b <;> by_cases hdb : d = b <;> simp only [hcb, hdb, if_true, if_false] at heq
    · rw [hcb, hdb]
    · exact absurd heq.symm (hL d hd hdb).2.1
    · exact absurd heq (hL c hc hcb).2.1
    · exact heq
  · by_cases hcb : c = b
    · subst hcb
      simp only [if_true]
      exact hb hc
    · simp only [hcb, if_false]
      exact ⟨(hL c hc hcb).1, (hL c hc hcb).2.2⟩

/-- A free resource goes into a new slot. -/
theorem acquire (h : Owns L ptr used) {a : κ} {r : ρ} (hr : ¬ used r) (ha : ptr' a = r)
    (hptr : Set.EqOn ptr' ptr L) (hused : ∀ x, used' x ↔ x = r ∨ used x) :
    Owns (insert a L) ptr' used' := by
  have hne : ∀ b ∈ L, ptr' b ≠ r := fun b hb heq =>
    hr (heq ▸ hptr hb ▸ h.used b hb)
  refine ⟨fun b hb => ?_, fun b hb c hc heq => ?_⟩
  · rw [hused]
    rcases hb with rfl | hb
    · exact .inl ha
    · exact .inr (hptr hb ▸ h.used b hb)
  · rcases hb with rfl | hb <;> rcases hc with rfl | hc
    · rfl
    · exact absurd (heq.symm.trans ha) (hne c hc)
    · exact absurd (heq.trans ha) (hne b hb)
    · exact h.inj hb hc (by rw [← hptr hb, ← hptr hc, heq])

/-- The resource of a live slot is given back. -/
theorem release (h : Owns L ptr used) {a : κ} (ha : a ∈ L)
    (hused : ∀ x, used' x ↔ used x ∧ x ≠ ptr a) : Owns (L \ {a}) ptr used' := by
  refine ⟨fun b hb => (hused _).2 ⟨h.used b hb.1, fun heq => hb.2 ?_⟩,
    h.inj.mono Set.sdiff_subset⟩
  exact h.inj hb.1 ha heq

end Owns

namespace Covers

theorem congr (h : Covers L ptr used) (hptr : Set.EqOn ptr' ptr L) : Covers L ptr' used :=
  fun r hr => by
    obtain ⟨a, ha, rfl⟩ := h r hr
    exact ⟨a, ha, hptr ha⟩

theorem acquire (h : Covers L ptr used) {a : κ} {r : ρ} (ha : ptr' a = r)
    (hptr : Set.EqOn ptr' ptr L) (hused : ∀ x, used' x ↔ x = r ∨ used x) :
    Covers (insert a L) ptr' used' := fun x hx => by
  rcases (hused x).1 hx with rfl | hx
  · exact ⟨a, Set.mem_insert _ _, ha⟩
  · obtain ⟨b, hb, rfl⟩ := h x hx
    exact ⟨b, Set.mem_insert_of_mem _ hb, hptr hb⟩

theorem release (h : Covers L ptr used) {a : κ} (hused : ∀ x, used' x ↔ used x ∧ x ≠ ptr a) :
    Covers (L \ {a}) ptr used' := fun x hx => by
  obtain ⟨hx, hne⟩ := (hused x).1 hx
  obtain ⟨b, hb, rfl⟩ := h x hx
  refine ⟨b, ⟨hb, fun hba => hne ?_⟩, rfl⟩
  rw [Set.mem_singleton_iff.1 hba]

end Covers

/-! ## Counting the free resources below a bound -/

variable {p q : ℕ → Bool} {r n : ℕ}

theorem countP_range_congr (h : ∀ i < n, q i = p i) :
    (List.range n).countP q = (List.range n).countP p :=
  List.countP_congr fun i hi => by rw [h i (List.mem_range.1 hi)]

/-- One resource more. -/
theorem countP_range_succ_of (hr : r < n) (hp : p r = false) (hq : q r = true)
    (h : ∀ i, i ≠ r → q i = p i) :
    (List.range n).countP q = (List.range n).countP p + 1 := by
  induction n with
  | zero => exact absurd hr (Nat.not_lt_zero _)
  | succ n ih =>
    rw [List.range_succ, List.countP_append, List.countP_append, List.countP_singleton,
      List.countP_singleton]
    rcases Nat.lt_succ_iff_lt_or_eq.1 hr with hlt | rfl
    · rw [ih hlt, h n (Nat.ne_of_gt hlt)]
      omega
    · rw [hp, hq, countP_range_congr fun i hi => h i (Nat.ne_of_lt hi)]
      simp

end Lib
