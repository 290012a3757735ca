import Tcmk.Lib.Bytes

/-!
# Memories with wrapping addresses

An address of `w` bits is a number below `2 ^ w`, and an access of `n` bytes at `a` touches
`a`, `a + 1`, … modulo `2 ^ w`. `store` writes such a range and `loadNat` reads a number from one.
A range that does not wrap is the interval from `a` to `a + n` (`touches_iff`).
-/

namespace Lib

variable {w a b n m k x : ℕ} {mem mem' : ℕ → UInt8} {f : ℕ → UInt8}

/-- How far `x` lies after `a`. -/
def distance (w a x : ℕ) : ℕ := (x + (2 ^ w - a % 2 ^ w)) % 2 ^ w

theorem distance_lt : distance w a x < 2 ^ w := Nat.mod_lt _ (Nat.two_pow_pos w)

theorem distance_add (hk : k < 2 ^ w) : distance w a ((a + k) % 2 ^ w) = k := by
  have hr : a % 2 ^ w < 2 ^ w := Nat.mod_lt _ (Nat.two_pow_pos w)
  rw [distance, Nat.add_mod a k, Nat.mod_eq_of_lt hk]
  rcases Nat.lt_or_ge (a % 2 ^ w + k) (2 ^ w) with hlt | hge
  · rw [Nat.mod_eq_of_lt hlt, show a % 2 ^ w + k + (2 ^ w - a % 2 ^ w) = k + 2 ^ w by omega,
      Nat.add_mod_right, Nat.mod_eq_of_lt hk]
  · rw [Nat.mod_eq_sub_mod hge, Nat.mod_eq_of_lt (show a % 2 ^ w + k - 2 ^ w < 2 ^ w by omega),
      show a % 2 ^ w + k - 2 ^ w + (2 ^ w - a % 2 ^ w) = k by omega, Nat.mod_eq_of_lt hk]

theorem add_distance (hx : x < 2 ^ w) : (a + distance w a x) % 2 ^ w = x := by
  have hr : a % 2 ^ w < 2 ^ w := Nat.mod_lt _ (Nat.two_pow_pos w)
  rw [distance, Nat.add_mod_mod, Nat.add_mod, Nat.add_mod_mod,
    show a % 2 ^ w + (x + (2 ^ w - a % 2 ^ w)) = x + 2 ^ w by omega, Nat.add_mod_right,
    Nat.mod_eq_of_lt hx]

/-- The range of `n` bytes at `a` contains the address `x`. -/
def Touches (w a n x : ℕ) : Prop := x < 2 ^ w ∧ distance w a x < n

instance : Decidable (Touches w a n x) := inferInstanceAs (Decidable (_ ∧ _))

theorem touches_add (hk : k < n) (hw : k < 2 ^ w) : Touches w a n ((a + k) % 2 ^ w) :=
  ⟨Nat.mod_lt _ (Nat.two_pow_pos w), by rwa [distance_add hw]⟩

theorem Touches.exists (h : Touches w a n x) : ∃ k, k < n ∧ k < 2 ^ w ∧ x = (a + k) % 2 ^ w :=
  ⟨distance w a x, h.2, distance_lt, (add_distance h.1).symm⟩

/-- A range that does not wrap is an interval. -/
theorem touches_iff (h : a + n ≤ 2 ^ w) : Touches w a n x ↔ a ≤ x ∧ x < a + n := by
  constructor
  · intro hx
    obtain ⟨k, hk, -, rfl⟩ := hx.exists
    rw [Nat.mod_eq_of_lt (by omega)]
    omega
  · intro hx
    have := touches_add (a := a) (n := n) (w := w) (k := x - a) (by omega) (by omega)
    rwa [show a + (x - a) = x by omega, Nat.mod_eq_of_lt (by omega)] at this

/-- A part of a range. -/
theorem Touches.sub {o : ℕ} (h : Touches w ((a + o) % 2 ^ w) n x) (ho : o + n ≤ m)
    (hm : m ≤ 2 ^ w) : Touches w a m x := by
  obtain ⟨k, hk, -, rfl⟩ := h.exists
  rw [Nat.mod_add_mod, Nat.add_assoc]
  exact touches_add (by omega) (by omega)

/-- No address is in both ranges. -/
def Apart (w a n b m : ℕ) : Prop := ∀ x, Touches w a n x → ¬ Touches w b m x

theorem Apart.symm (h : Apart w a n b m) : Apart w b m a n := fun x hb ha => h x ha hb

/-! ## Writing -/

/-- Write the bytes `f 0`, …, `f (n - 1)` at `a`. -/
def store (w : ℕ) (mem : ℕ → UInt8) (a n : ℕ) (f : ℕ → UInt8) : ℕ → UInt8 := fun x =>
  if Touches w a n x then f (distance w a x) else mem x

theorem store_add (hk : k < n) (hw : k < 2 ^ w) : store w mem a n f ((a + k) % 2 ^ w) = f k := by
  rw [store, if_pos (touches_add hk hw), distance_add hw]

theorem store_of_not (h : ¬ Touches w a n x) : store w mem a n f x = mem x := if_neg h

theorem store_of_interval (h : a + n ≤ 2 ^ w) (hk : k < n) : store w mem a n f (a + k) = f k := by
  have := @store_add w a n k mem f hk (by omega)
  rwa [Nat.mod_eq_of_lt (by omega)] at this

@[simp] theorem store_zero : store w mem a 0 f = mem := by
  funext x
  exact store_of_not fun h => Nat.not_lt_zero _ h.2

/-! ## Numbers -/

/-- The number of `n` bytes at `a`. -/
def loadNat (w : ℕ) (mem : ℕ → UInt8) (a n : ℕ) : ℕ := leNat (fun k => mem ((a + k) % 2 ^ w)) 0 n

theorem loadNat_lt : loadNat w mem a n < 256 ^ n := leNat_lt _ _ _

theorem loadNat_congr (h : ∀ x, Touches w a n x → mem x = mem' x) (hn : n ≤ 2 ^ w) :
    loadNat w mem a n = loadNat w mem' a n :=
  leNat_congr fun k hk => h _ (touches_add (by omega) (by omega))

theorem loadNat_store_of_apart (h : Apart w b m a n) (hm : m ≤ 2 ^ w) :
    loadNat w (store w mem a n f) b m = loadNat w mem b m :=
  loadNat_congr (fun _ hx => store_of_not (h _ hx)) hm

theorem loadNat_store (v : ℕ) (hn : n ≤ 2 ^ w) :
    loadNat w (store w mem a n (leByte v)) a n = v % 256 ^ n :=
  leNat_of_leByte v fun k hk => by rw [Nat.zero_add, store_add hk (by omega)]

/-! ## Adding to numbers in memory -/

/-- Add `d` to the number of `n` bytes at `a`. -/
def addAt (w n d : ℕ) (mem : ℕ → UInt8) (a : ℕ) : ℕ → UInt8 :=
  store w mem a n (leByte (loadNat w mem a n + d))

theorem foldl_addAt_of_not {d : ℕ} {as : List ℕ} (h : ∀ a ∈ as, ¬ Touches w a n x) :
    as.foldl (addAt w n d) mem x = mem x := by
  induction as generalizing mem with
  | nil => rfl
  | cons a as ih =>
    rw [List.forall_mem_cons] at h
    rw [List.foldl_cons, ih h.2, addAt, store_of_not h.1]

/-- At places that do not overlap, each number is added to once. -/
theorem foldl_addAt {d : ℕ} {as : List ℕ} (hn : n ≤ 2 ^ w)
    (hapart : as.Pairwise fun a b => Apart w a n b n) :
    ∀ a ∈ as, loadNat w (as.foldl (addAt w n d) mem) a n = (loadNat w mem a n + d) % 256 ^ n := by
  induction as generalizing mem with
  | nil => exact fun _ h => absurd h List.not_mem_nil
  | cons a as ih =>
    obtain ⟨hfirst, hrest⟩ := List.pairwise_cons.1 hapart
    rw [List.foldl_cons, List.forall_mem_cons]
    refine ⟨?_, fun b hb => ?_⟩
    · have hkeep : ∀ x, Touches w a n x → as.foldl (addAt w n d) (addAt w n d mem a) x =
          addAt w n d mem a x := fun x hx => foldl_addAt_of_not fun b hb => hfirst b hb x hx
      rw [loadNat_congr hkeep hn, addAt, loadNat_store _ hn]
    · rw [ih hrest b hb, addAt, loadNat_store_of_apart (hfirst b hb).symm hn]

end Lib
