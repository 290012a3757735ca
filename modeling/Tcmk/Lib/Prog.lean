import Mathlib

/-!
# Programs with suspension points

A program works on a state that other programs may change as well. It is a tree of atomic
actions; at a `pause` it gives up the processor. Two ways to execute it:

* `run` — alone, through all its pauses, to its result;
* `resume` — to its next pause only, which is what a scheduler does.

For programs that run alone, `Post x s Q E` says that `x` started in `s` returns a value and a
state with `Q`, or stops with an error and a state with `E`. `Post` of a composition is found
from its parts (`post_bind`), and that of a counting loop from an invariant (`Post.forRange`).
-/

namespace Lib

inductive Prog (σ ε α : Type) where
  | done (r : Except ε α)
  | act (f : σ → σ) (k : σ → Prog σ ε α)
  | pause (k : Prog σ ε α)

namespace Prog

variable {σ ε ε' α β γ : Type}

def bind : Prog σ ε α → (α → Prog σ ε β) → Prog σ ε β
  | done (.ok a), f => f a
  | done (.error e), _ => done (.error e)
  | act g k, f => act g fun s => (k s).bind f
  | pause k, f => pause (k.bind f)

instance : Monad (Prog σ ε) where
  pure a := done (.ok a)
  bind := bind

/-- The state as it is. -/
def get : Prog σ ε σ := act id fun s => done (.ok s)

def modify (f : σ → σ) : Prog σ ε Unit := act f fun _ => done (.ok ())

def throw (e : ε) : Prog σ ε α := done (.error e)

/-- Give up the processor once. -/
def yield : Prog σ ε Unit := pause (done (.ok ()))

/-- Translate the errors. -/
def mapError (f : ε → ε') : Prog σ ε α → Prog σ ε' α
  | done (.ok a) => done (.ok a)
  | done (.error e) => done (.error (f e))
  | act g k => act g fun s => (k s).mapError f
  | pause k => pause (k.mapError f)

/-- `for i in start .. start + count { body i }`. -/
def forRange : ℕ → ℕ → (ℕ → Prog σ ε Unit) → Prog σ ε Unit
  | 0, _, _ => pure ()
  | count + 1, start, body => body start >>= fun _ => forRange count (start + 1) body

/-! ## Running alone -/

/-- Execute through all pauses. -/
def run : Prog σ ε α → σ → Except ε α × σ
  | done r, s => (r, s)
  | act f k, s => (k s).run (f s)
  | pause k, s => k.run s

@[simp] theorem run_pure (a : α) (s : σ) : (pure a : Prog σ ε α).run s = (.ok a, s) := rfl

@[simp] theorem run_get (s : σ) : (get : Prog σ ε σ).run s = (.ok s, s) := rfl

@[simp] theorem run_modify (f : σ → σ) (s : σ) :
    (modify f : Prog σ ε Unit).run s = (.ok (), f s) := rfl

@[simp] theorem run_throw (e : ε) (s : σ) : (throw e : Prog σ ε α).run s = (.error e, s) := rfl

@[simp] theorem run_yield (s : σ) : (yield : Prog σ ε Unit).run s = (.ok (), s) := rfl

theorem run_bind (x : Prog σ ε α) (f : α → Prog σ ε β) (s : σ) :
    (x >>= f).run s = match x.run s with
      | (.ok a, t) => (f a).run t
      | (.error e, t) => (.error e, t) := by
  show (x.bind f).run s = _
  induction x generalizing s with
  | done r => cases r <;> rfl
  | act g k ih => exact ih s (g s)
  | pause k ih => exact ih s

theorem run_mapError (f : ε → ε') (x : Prog σ ε α) (s : σ) :
    (x.mapError f).run s = match x.run s with
      | (.ok a, t) => (.ok a, t)
      | (.error e, t) => (.error (f e), t) := by
  induction x generalizing s with
  | done r => cases r <;> rfl
  | act g k ih => exact ih s (g s)
  | pause k ih => exact ih s

theorem run_eq_of_fst {x : Prog σ ε α} {s : σ} {r : Except ε α} (h : (x.run s).1 = r) :
    x.run s = (r, (x.run s).2) := Prod.ext h rfl

/-- A composition returns if both parts do. -/
theorem run_bind_ok {x : Prog σ ε α} {f : α → Prog σ ε β} {s t : σ} {b : β} :
    (x >>= f).run s = (.ok b, t) ↔ ∃ a u, x.run s = (.ok a, u) ∧ (f a).run u = (.ok b, t) := by
  rw [run_bind]
  constructor
  · intro h
    cases hx : x.run s with
    | mk r u =>
      rw [hx] at h
      cases r with
      | ok a => exact ⟨a, u, rfl, h⟩
      | error e => cases h
  · rintro ⟨a, u, hx, hf⟩
    rw [hx]
    exact hf

theorem run_pure_ok {a b : α} {s t : σ} :
    (pure a : Prog σ ε α).run s = (.ok b, t) ↔ b = a ∧ t = s := by
  rw [run_pure, Prod.mk.injEq, Except.ok.injEq]
  exact and_congr eq_comm eq_comm

theorem run_throw_ok {e : ε} {b : α} {s t : σ} :
    ¬ (throw e : Prog σ ε α).run s = (.ok b, t) := fun h => by cases h

theorem run_act_ok {f : σ → σ} {k : σ → Prog σ ε α} {b : α} {s t : σ} :
    (act f k).run s = (.ok b, t) ↔ (k s).run (f s) = (.ok b, t) := Iff.rfl

/-- A loop whose rounds are known to return, with `g` and `e` for what they return and do. -/
theorem run_foldlM_ok {ι : Type} {f : α → ι → Prog σ ε α} {A : ι → Prop} {g : α → ι → α}
    {e : σ → ι → σ} (hf : ∀ a i s b t, (f a i).run s = (.ok b, t) ↔ A i ∧ b = g a i ∧ t = e s i)
    {is : List ι} {a b : α} {s t : σ} :
    (is.foldlM f a).run s = (.ok b, t) ↔
      (∀ i ∈ is, A i) ∧ b = is.foldl g a ∧ t = is.foldl e s := by
  induction is generalizing a s with
  | nil => simpa using and_congr eq_comm eq_comm
  | cons i is ih =>
    rw [List.foldlM_cons, run_bind_ok, List.forall_mem_cons, List.foldl_cons, List.foldl_cons]
    constructor
    · rintro ⟨a', u, hi, his⟩
      obtain ⟨hA, rfl, rfl⟩ := (hf _ _ _ _ _).1 hi
      obtain ⟨hAs, hb, ht⟩ := ih.1 his
      exact ⟨⟨hA, hAs⟩, hb, ht⟩
    · rintro ⟨⟨hA, hAs⟩, hb, ht⟩
      exact ⟨_, _, (hf _ _ _ _ _).2 ⟨hA, rfl, rfl⟩, ih.2 ⟨hAs, hb, ht⟩⟩

/-! ## Postconditions -/

/-- `x` started in `s` returns with `Q` or stops with `E`. -/
def Post (x : Prog σ ε α) (s : σ) (Q : α → σ → Prop) (E : ε → σ → Prop) : Prop :=
  match x.run s with
  | (.ok a, t) => Q a t
  | (.error e, t) => E e t

variable {x : Prog σ ε α} {s t : σ} {Q Q' : α → σ → Prop} {E E' : ε → σ → Prop}

@[simp] theorem post_pure {a : α} : Post (pure a) s Q E ↔ Q a s := Iff.rfl

@[simp] theorem post_get {Q : σ → σ → Prop} : Post get s Q E ↔ Q s s := Iff.rfl

@[simp] theorem post_modify {f : σ → σ} {Q : Unit → σ → Prop} :
    Post (modify f) s Q E ↔ Q () (f s) := Iff.rfl

@[simp] theorem post_throw {e : ε} : Post (throw e) s Q E ↔ E e s := Iff.rfl

@[simp] theorem post_yield {Q : Unit → σ → Prop} : Post yield s Q E ↔ Q () s := Iff.rfl

@[simp] theorem post_bind {f : α → Prog σ ε β} {Q : β → σ → Prop} :
    Post (x >>= f) s Q E ↔ Post x s (fun a t => Post (f a) t Q E) E := by
  unfold Post
  rw [run_bind]
  cases x.run s with
  | mk r t => cases r <;> rfl

@[simp] theorem post_mapError {f : ε → ε'} {E : ε' → σ → Prop} :
    Post (x.mapError f) s Q E ↔ Post x s Q fun e => E (f e) := by
  unfold Post
  rw [run_mapError]
  cases x.run s with
  | mk r t => cases r <;> rfl

theorem Post.mono (h : Post x s Q E) (hQ : ∀ a t, Q a t → Q' a t) (hE : ∀ e t, E e t → E' e t) :
    Post x s Q' E' := by
  unfold Post at h ⊢
  cases hr : x.run s with
  | mk r t =>
    rw [hr] at h
    cases r with
    | ok a => exact hQ a t h
    | error e => exact hE e t h

theorem post_true : Post x s (fun _ _ => True) fun _ _ => True := by
  unfold Post
  split <;> trivial

theorem post_run : Post x s (fun a t => x.run s = (.ok a, t))
    fun e t => x.run s = (.error e, t) := by
  unfold Post
  split <;> assumption

theorem Post.and {R : α → σ → Prop} {F : ε → σ → Prop} (h : Post x s Q E) (h' : Post x s R F) :
    Post x s (fun a t => Q a t ∧ R a t) fun e t => E e t ∧ F e t := by
  unfold Post at h h' ⊢
  cases hr : x.run s with
  | mk r t =>
    rw [hr] at h h'
    cases r <;> exact ⟨h, h'⟩

theorem Post.of_ok {a : α} (h : Post x s Q E) (hr : x.run s = (.ok a, t)) : Q a t := by
  unfold Post at h
  rwa [hr] at h

theorem Post.of_error {e : ε} (h : Post x s Q E) (hr : x.run s = (.error e, t)) : E e t := by
  unfold Post at h
  rwa [hr] at h

theorem post_of_run_eq {r : Except ε α} (hr : x.run s = (r, t))
    (h : ∀ a, r = .ok a → Q a t) (h' : ∀ e, r = .error e → E e t) : Post x s Q E := by
  unfold Post
  rw [hr]
  cases r with
  | ok a => exact h a rfl
  | error e => exact h' e rfl

/-- A counting loop keeps an invariant that each of its rounds keeps. -/
theorem Post.forRange {I : ℕ → σ → Prop} {body : ℕ → Prog σ ε Unit} {start : ℕ} (count : ℕ)
    (hs : I start s)
    (hbody : ∀ i t, start ≤ i → i < start + count → I i t →
      Post (body i) t (fun _ => I (i + 1)) E) :
    Post (forRange count start body) s (fun _ => I (start + count)) E := by
  induction count generalizing start s with
  | zero => exact hs
  | succ count ih =>
    refine post_bind.2 ((hbody start s (Nat.le_refl _) (by omega) hs).mono (fun _ t ht => ?_)
      fun _ _ he => he)
    rw [show start + (count + 1) = start + 1 + count by omega]
    exact ih ht fun i u hi hi' => hbody i u (by omega) (by omega)

/-! ## Running in slices -/

/-- Execute to the next pause: what is left, and the state. -/
def resume : Prog σ ε α → σ → Prog σ ε α × σ
  | done r, s => (done r, s)
  | act f k, s => (k s).resume (f s)
  | pause k, s => (k, s)

/-- Running a program is running its first slice and then the rest. -/
theorem run_resume (x : Prog σ ε α) (s : σ) :
    (x.resume s).1.run (x.resume s).2 = x.run s := by
  induction x generalizing s with
  | done r => rfl
  | act f k ih => exact ih s (f s)
  | pause k ih => rfl

end Prog

end Lib
