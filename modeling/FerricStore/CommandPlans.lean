import FerricStore.Transitions
import Mathlib

/-!
# Command plans

A plan asks for batches of commands and goes on with their replies. It runs alone over a
state that executes commands, or as one job of many: then the commands of its last batch
are answered in any order, between the commands of the other jobs, and the job may stop
at any moment.
-/

set_option autoImplicit false

namespace FerricStore.CommandPlans

variable {S C R E α β L V O : Type}

/-- A program between whose steps commands are executed for it. -/
inductive Plan (C R E α : Type) where
  | finish (result : Except E α)
  | request (commands : List C) (next : List R → Plan C R E α)

namespace Plan

def bind (p : Plan C R E α) (k : α → Plan C R E β) : Plan C R E β :=
  match p with
  | finish (.ok a) => k a
  | finish (.error e) => finish (.error e)
  | request cs next => request cs fun rs => (next rs).bind k

instance : Monad (Plan C R E) where
  pure a := finish (.ok a)
  bind := bind

/-- A computation that asks for nothing. -/
abbrev lift (result : Except E α) : Plan C R E α := finish result

/-- The replies to a batch of commands. -/
def batch (commands : List C) : Plan C R E (List R) := request commands pure

/-- The reply to one command. -/
def command [Inhabited R] (c : C) : Plan C R E R := request [c] fun rs => pure (rs.headD default)

theorem pure_eq (a : α) : (pure a : Plan C R E α) = finish (.ok a) := rfl

theorem finish_ok_bind (a : α) (k : α → Plan C R E β) : finish (.ok a) >>= k = k a := rfl

theorem finish_error_bind (e : E) (k : α → Plan C R E β) :
    finish (.error e) >>= k = finish (.error e) := rfl

theorem lift_bind (x : Except E α) (k : α → Plan C R E β) :
    lift x >>= k = match x with
      | .ok a => k a
      | .error e => finish (.error e) := by
  cases x <;> rfl

theorem pure_bind (a : α) (k : α → Plan C R E β) : (pure a : Plan C R E α) >>= k = k a := rfl

theorem request_bind (cs : List C) (next : List R → Plan C R E α) (k : α → Plan C R E β) :
    request cs next >>= k = request cs fun rs => next rs >>= k := rfl

theorem batch_bind (cs : List C) (k : List R → Plan C R E β) : batch cs >>= k = request cs k := rfl

theorem command_bind [Inhabited R] (c : C) (k : R → Plan C R E β) :
    command c >>= k = request [c] fun rs => k (rs.headD default) := rfl

end Plan

section Computed

variable {ε γ δ : Type}

/-- A list each of whose elements can be computed. -/
theorem mapM_eq_ok {f : γ → Except ε δ} {g : γ → δ} {xs : List γ} (h : ∀ x ∈ xs, f x = .ok (g x)) :
    xs.mapM f = .ok (xs.map g) := by
  induction xs with
  | nil => rfl
  | cons x xs ih =>
    rw [List.mapM_cons, h x List.mem_cons_self, ih fun y hy => h y (List.mem_cons_of_mem x hy)]
    rfl

theorem mapM_forall₂ {f : γ → Except ε δ} {xs : List γ} {ys : List δ} (h : xs.mapM f = .ok ys) :
    List.Forall₂ (fun x y => f x = .ok y) xs ys := by
  induction xs generalizing ys with
  | nil =>
    cases h
    exact .nil
  | cons x xs ih =>
    rw [List.mapM_cons] at h
    cases hx : f x with
    | error e =>
      rw [hx] at h
      cases h
    | ok y =>
      rw [hx] at h
      cases hxs : xs.mapM f with
      | error e =>
        rw [hxs] at h
        cases h
      | ok zs =>
        rw [hxs] at h
        cases h
        exact .cons hx (ih hxs)

theorem forall₂_mem_right {R : γ → δ → Prop} {xs : List γ} {ys : List δ}
    (h : List.Forall₂ R xs ys) {y : δ} (hy : y ∈ ys) : ∃ x ∈ xs, R x y := by
  induction h with
  | nil => exact absurd hy List.not_mem_nil
  | @cons x z xs zs hx _ ih =>
    rcases List.mem_cons.mp hy with rfl | hy
    · exact ⟨x, List.mem_cons_self, hx⟩
    · obtain ⟨a, ha, hay⟩ := ih hy
      exact ⟨a, List.mem_cons_of_mem x ha, hay⟩

theorem forall₂_mem_left {R : γ → δ → Prop} {xs : List γ} {ys : List δ}
    (h : List.Forall₂ R xs ys) {x : γ} (hx : x ∈ xs) : ∃ y ∈ ys, R x y := by
  induction h with
  | nil => exact absurd hx List.not_mem_nil
  | @cons w y xs ys hw _ ih =>
    rcases List.mem_cons.mp hx with rfl | hx
    · exact ⟨y, List.mem_cons_self, hw⟩
    · obtain ⟨b, hb, hxb⟩ := ih hx
      exact ⟨b, List.mem_cons_of_mem y hb, hxb⟩

end Computed

/-- The commands of a batch in their order. -/
def execAll (exec : C → S → R × S) : List C → S → List R × S
  | [], s => ([], s)
  | c::cs, s =>
    let (r, s) := exec c s
    let (rs, s) := execAll exec cs s
    (r::rs, s)

/-- A plan that nothing interferes with. -/
def run (exec : C → S → R × S) : Plan C R E α → S → Except E α × S
  | .finish result, s => (result, s)
  | .request cs next, s => run exec (next (execAll exec cs s).1) (execAll exec cs s).2

section Alone

variable {exec : C → S → R × S}

theorem execAll_length (cs : List C) (s : S) : (execAll exec cs s).1.length = cs.length := by
  induction cs generalizing s with
  | nil => rfl
  | cons c cs ih => exact congrArg (·+1) (ih _)

theorem run_bind (p : Plan C R E α) (k : α → Plan C R E β) (s : S) :
    run exec (p >>= k) s = match run exec p s with
      | (.ok a, t) => run exec (k a) t
      | (.error e, t) => (.error e, t) := by
  induction p generalizing s with
  | finish result => cases result <;> rfl
  | request cs next ih => exact ih _ _

theorem run_bind_ok {p : Plan C R E α} {k : α → Plan C R E β} {s t : S} {a : α}
    (h : run exec p s = (.ok a, t)) : run exec (p >>= k) s = run exec (k a) t := by
  rw [run_bind, h]

theorem run_bind_error {p : Plan C R E α} {k : α → Plan C R E β} {s t : S} {e : E}
    (h : run exec p s = (.error e, t)) : run exec (p >>= k) s = (.error e, t) := by
  rw [run_bind, h]

theorem run_batch (cs : List C) (s : S) :
    run exec (.batch cs : Plan C R E (List R)) s =
      (.ok (execAll exec cs s).1, (execAll exec cs s).2) := rfl

theorem run_command [Inhabited R] (c : C) (s : S) :
    run exec (.command c : Plan C R E R) s = (.ok (exec c s).1, (exec c s).2) := rfl

/-- Commands that leave the state as it is answer from one state. -/
theorem execAll_reading {cs : List C} {s : S} (h : ∀ c ∈ cs, (exec c s).2 = s) :
    execAll exec cs s = (cs.map fun c => (exec c s).1, s) := by
  induction cs with
  | nil => rfl
  | cons c cs ih =>
    have hc := h c List.mem_cons_self
    have hrest := ih fun d hd => h d (List.mem_cons_of_mem c hd)
    simp only [execAll, hc, hrest, List.map_cons]

end Alone

/-- Every command that the plan can ask for satisfies `P` and every result `A`, whatever the
replies. -/
def Asks (P : C → Prop) (A : α → Prop) : Plan C R E α → Prop
  | .finish result => ∀ a, result = .ok a → A a
  | .request cs next => (∀ c ∈ cs, P c) ∧ ∀ rs, Asks P A (next rs)

theorem Asks.bind {P : C → Prop} {A : α → Prop} {B : β → Prop} {p : Plan C R E α}
    {k : α → Plan C R E β} (hp : Asks P A p) (hk : ∀ a, A a → Asks P B (k a)) :
    Asks P B (p >>= k) := by
  induction p with
  | finish result =>
    cases result with
    | ok a => exact hk a (hp a rfl)
    | error e => exact fun b hb => nomatch hb
  | request cs next ih => exact ⟨hp.1, fun rs => ih rs (hp.2 rs)⟩

theorem Asks.mono {P P' : C → Prop} {A A' : α → Prop} {p : Plan C R E α} (hp : Asks P A p)
    (h : ∀ c, P c → P' c) (hA : ∀ a, A a → A' a) : Asks P' A' p := by
  induction p with
  | finish result => exact fun a ha => hA a (hp a ha)
  | request cs next ih => exact ⟨fun c hc => h c (hp.1 c hc), fun rs => ih rs (hp.2 rs)⟩

theorem Asks.pure {P : C → Prop} {A : α → Prop} {a : α} (h : A a) :
    Asks P A (Pure.pure a : Plan C R E α) := fun _ hb => Except.ok.inj hb ▸ h

theorem Asks.lift {P : C → Prop} (x : Except E α) :
    Asks P (fun a => x = .ok a) (.lift x : Plan C R E α) := fun _ ha => ha

theorem Asks.batch {P : C → Prop} {cs : List C} (h : ∀ c ∈ cs, P c) :
    Asks P (fun _ => True) (.batch cs : Plan C R E (List R)) := ⟨h, fun _ _ _ => trivial⟩

theorem Asks.command [Inhabited R] {P : C → Prop} {c : C} (h : P c) :
    Asks P (fun _ => True) (.command c : Plan C R E R) :=
  ⟨fun _ hd => (List.mem_singleton.mp hd).symm ▸ h, fun _ _ _ => trivial⟩

theorem Asks.run_ok {exec : C → S → R × S} {P : C → Prop} {A : α → Prop} {p : Plan C R E α}
    (hp : Asks P A p) {s t : S} {a : α} (h : run exec p s = (.ok a, t)) : A a := by
  induction p generalizing s with
  | finish result => exact hp a (congrArg Prod.fst h)
  | request cs next ih => exact ih _ (hp.2 _) h

/-- A plan that only asks for commands that change nothing changes nothing. -/
theorem Asks.run_unchanged {exec : C → S → R × S} {P : C → Prop} {A : α → Prop}
    (hP : ∀ c s, P c → (exec c s).2 = s) {p : Plan C R E α} (hp : Asks P A p) (s : S) :
    (run exec p s).2 = s := by
  induction p generalizing s with
  | finish result => rfl
  | request cs next ih =>
    have hcs := execAll_reading fun c hc => hP c s (hp.1 c hc)
    change (run exec (next (execAll exec cs s).1) (execAll exec cs s).2).2 = s
    rw [hcs]
    exact ih _ (hp.2 _) s

end FerricStore.CommandPlans
