import Tcmk.Loader.Bus

/-!
# Staying inside

`Access.Inside` says where a loader may read and write. What it has accessed stays in the log
(`Grows`).
-/

namespace Tcmk

namespace Loader

open Lib

/-- The access stays inside the file, inside the first `region` bytes of the process, or inside what
is reserved for it. -/
def Access.Inside (w : ℕ) (image : Image) (region : ℕ) : Access → Prop
  | .file off n => ∀ x, Touches w off n x → x < image.len
  | .read a n => ∀ x, Touches w a n x → userMemStart ≤ x ∧ x < userMemStart + region
  | .write a n => ∀ x, Touches w a n x → userMemStart ≤ x ∧ x < userMemStart + userMapSize
  | .passed n => n < 2 ^ w

variable {ε α β : Type} {w : ℕ} {s t : Bus} {a : Access} {x : Prog Bus ε α} {k : α → Prog Bus ε β}

/-! ## The log grows -/

def Grows (x : Prog Bus ε α) : Prop := ∀ s a, a ∈ s.log → a ∈ (x.run s).2.log

theorem grows_pure (a : α) : Grows (pure a : Prog Bus ε α) := fun _ _ h => h

theorem grows_throw (e : ε) : Grows (Prog.throw e : Prog Bus ε α) := fun _ _ h => h

theorem grows_act {f : Bus → Bus} {k : Bus → Prog Bus ε α} (hf : ∀ s a, a ∈ s.log → a ∈ (f s).log)
    (hk : ∀ s, Grows (k s)) : Grows (.act f k) := fun s a h => hk s (f s) a (hf s a h)

theorem grows_modify {f : Bus → Bus} (hf : ∀ s a, a ∈ s.log → a ∈ (f s).log) :
    Grows (Prog.modify f : Prog Bus ε Unit) := hf

theorem Grows.mem_log {v : α} (h : Grows x) (hr : x.run s = (.ok v, t)) (ha : a ∈ s.log) :
    a ∈ t.log := by
  have := h s a ha
  rwa [hr] at this

theorem Grows.bind (hx : Grows x) (hk : ∀ a, Grows (k a)) : Grows (x >>= k) := by
  intro s a h
  rw [Prog.run_bind]
  have h' := hx s a h
  cases hr : x.run s with
  | mk r t =>
    rw [hr] at h'
    cases r with
    | ok b => exact hk b t a h'
    | error e => exact h'

theorem Grows.ite {c : Prop} [Decidable c] {y : Prog Bus ε α} (hx : Grows x) (hy : Grows y) :
    Grows (if c then x else y) := by
  split_ifs
  · exact hx
  · exact hy

theorem Grows.foldlM {ι : Type} {f : α → ι → Prog Bus ε α} (h : ∀ a i, Grows (f a i)) (is : List ι)
    (a : α) : Grows (is.foldlM f a) := by
  induction is generalizing a with
  | nil => exact grows_pure a
  | cons i is ih =>
    rw [List.foldlM_cons]
    exact (h a i).bind fun b => ih b

theorem grows_check (n limit : ℕ) (e : ε) : Grows (check w n limit e) :=
  (grows_throw e).ite (grows_modify fun _ _ h => List.mem_append_left _ h)

theorem grows_readFile (image : Image) (off n : ℕ) :
    Grows (readFile w image off n : Prog Bus ε ℕ) :=
  grows_act (fun _ _ h => List.mem_append_left _ h) fun _ => grows_pure _

theorem grows_copyFile (image : Image) (off dst n : ℕ) :
    Grows (copyFile w image off dst n : Prog Bus ε Unit) :=
  grows_modify fun _ _ h => List.mem_append_left _ h

end Loader

end Tcmk
