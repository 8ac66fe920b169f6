import Mathlib.Tactic

/-!
# Computations that keep their state on failure

A stateful computation ends with a value or an exception, and with the state in
both cases: what was written before the exception stays written. The rules below
open a successful run at its first step, and run a loop from a rule for its body.
-/

set_option autoImplicit false

namespace FerricStore.Stateful

variable {ε σ α β : Type}

@[simp] theorem pure_apply (a : α) (s : σ) :
    (pure a : EStateM ε σ α) s = .ok a s := rfl

@[simp] theorem throw_apply (e : ε) (s : σ) :
    (throw e : EStateM ε σ α) s = .error e s := rfl

theorem bind_of_ok {x : EStateM ε σ α} {s t : σ} {a : α} (h : x s = .ok a t)
    (f : α → EStateM ε σ β) : (x >>= f) s = f a t := by
  simp only [bind, EStateM.bind, h]

theorem bind_of_error {x : EStateM ε σ α} {s t : σ} {e : ε} (h : x s = .error e t)
    (f : α → EStateM ε σ β) : (x >>= f) s = .error e t := by
  simp only [bind, EStateM.bind, h]

/-- A successful sequence is a successful first step and a successful rest. -/
theorem bind_eq_ok {x : EStateM ε σ α} {f : α → EStateM ε σ β} {s u : σ} {b : β}
    (h : (x >>= f) s = .ok b u) : ∃ a t, x s = .ok a t ∧ f a t = .ok b u := by
  cases hx : x s with
  | ok a t => exact ⟨a, t, rfl, by rwa [bind_of_ok hx] at h⟩
  | error e t =>
    rw [bind_of_error hx] at h
    cases h

theorem pure_eq_ok {a b : α} {s t : σ}
    (h : (pure a : EStateM ε σ α) s = .ok b t) : a = b ∧ s = t := by
  rw [pure_apply] at h
  cases h
  exact ⟨rfl, rfl⟩

/-!
## Contracts of computations that can fail

A contract says what holds after a computation that returns and after one that raises,
from what held before it. There is one rule for each way to build a computation, and the
rule for a cleanup says that it runs in both cases.
-/

variable {ε σ α β : Type}

/-- From `P`, `x` returns with `Q` or raises with `E`. -/
def Contract (P : σ → Prop) (x : EStateM ε σ α) (Q : α → σ → Prop) (E : ε → σ → Prop) : Prop :=
  ∀ s, P s → match x s with
    | .ok a t => Q a t
    | .error e t => E e t

/-- The cleanup runs after the body, and replaces its exception if it raises itself. -/
def always (x : EStateM ε σ α) (cleanup : EStateM ε σ Unit) : EStateM ε σ α := fun s =>
  match x s with
  | .ok a t => (cleanup >>= fun _ => pure a) t
  | .error e t => (cleanup >>= fun _ => throw e) t

namespace Contract

variable {P P' : σ → Prop} {Q Q' : α → σ → Prop} {R : β → σ → Prop} {E E' : ε → σ → Prop}

theorem pure {a : α} (h : ∀ s, P s → Q a s) : Contract P (Pure.pure a : EStateM ε σ α) Q E :=
  fun s hs => h s hs

theorem throw {e : ε} (h : ∀ s, P s → E e s) :
    Contract P (MonadExcept.throw e : EStateM ε σ α) Q E :=
  fun s hs => h s hs

theorem weaken {x : EStateM ε σ α} (h : Contract P x Q E) (hP : ∀ s, P' s → P s)
    (hQ : ∀ a s, Q a s → Q' a s) (hE : ∀ e s, E e s → E' e s) : Contract P' x Q' E' := by
  intro s hs
  have hx := h s (hP s hs)
  cases hrun : x s with
  | ok a t =>
    rw [hrun] at hx
    exact hQ a t hx
  | error e t =>
    rw [hrun] at hx
    exact hE e t hx

/-- What the state does not enter is known to the rest of the proof. -/
theorem assuming {p : Prop} {x : EStateM ε σ α} (h : p → Contract P x Q E) :
    Contract (fun s => p ∧ P s) x Q E := fun s hs => h hs.1 s hs.2

theorem exists_of {ι : Sort*} {A : ι → σ → Prop} {x : EStateM ε σ α}
    (h : ∀ i, Contract (A i) x Q E) : Contract (fun s => ∃ i, A i s) x Q E := by
  rintro s ⟨i, hs⟩
  exact h i s hs

theorem bind {x : EStateM ε σ α} {f : α → EStateM ε σ β} (hx : Contract P x Q E)
    (hf : ∀ a, Contract (Q a) (f a) R E) : Contract P (x >>= f) R E := by
  intro s hs
  have hrun := hx s hs
  cases h : x s with
  | ok a t =>
    rw [h] at hrun
    rw [bind_of_ok h]
    exact hf a t hrun
  | error e t =>
    rw [h] at hrun
    rw [bind_of_error h]
    exact hrun

theorem map {x : EStateM ε σ α} {f : α → β} (hx : Contract P x (fun a => R (f a)) E) :
    Contract P (f <$> x) R E := by
  intro s hs
  have hrun := hx s hs
  simp only [Functor.map, EStateM.map]
  cases h : x s with
  | ok a t =>
    rw [h] at hrun
    exact hrun
  | error e t =>
    rw [h] at hrun
    exact hrun

theorem handle {x : EStateM ε σ α} {handler : ε → EStateM ε σ α} (hx : Contract P x Q E)
    (hh : ∀ e, Contract (E e) (handler e) Q E') : Contract P (tryCatch x handler) Q E' := by
  intro s hs
  have hrun := hx s hs
  simp only [tryCatch, tryCatchThe, MonadExceptOf.tryCatch, EStateM.tryCatch]
  cases h : x s with
  | ok a t =>
    rw [h] at hrun
    exact hrun
  | error e t =>
    rw [h] at hrun
    exact hh e t hrun

theorem always {x : EStateM ε σ α} {cleanup : EStateM ε σ Unit} (hx : Contract P x Q E)
    (hok : ∀ a, Contract (Q a) cleanup (fun _ => Q' a) E')
    (herror : ∀ e, Contract (E e) cleanup (fun _ => E' e) E') :
    Contract P (Stateful.always x cleanup) Q' E' := by
  intro s hs
  have hrun := hx s hs
  simp only [Stateful.always]
  cases h : x s with
  | ok a t =>
    rw [h] at hrun
    exact bind (hok a) (fun _ => pure fun _ ht => ht) t hrun
  | error e t =>
    rw [h] at hrun
    exact bind (herror e) (fun _ => throw fun _ ht => ht) t hrun

end Contract

end FerricStore.Stateful
