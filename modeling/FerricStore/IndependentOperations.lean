import Mathlib.Tactic

/-!
# Reads and writes that do not meet

Operations on a store of keys are independent when no key is written by one of
them and touched by the other. A list of pairwise independent operations answers
each read from the store it started with, and any order of it leaves the same
store.
-/

set_option autoImplicit false

namespace FerricStore.Operations

variable {κ β : Type}

inductive Operation (κ β : Type) where
  | read (key : κ)
  | write (key : κ) (value : β)
  deriving DecidableEq, Repr

inductive Reply (β : Type) where
  | found (value : Option β)
  | stored
  deriving DecidableEq, Repr

abbrev Store (κ β : Type) := κ → Option β

def reply (store : Store κ β) : Operation κ β → Reply β
  | .read key => .found (store key)
  | .write _ _ => .stored

/-- Neither operation writes a key that the other touches. -/
def Independent : Operation κ β → Operation κ β → Prop
  | .read _, .read _ => True
  | .read k, .write l _ => k ≠ l
  | .write k _, .read l => k ≠ l
  | .write k _, .write l _ => k ≠ l

theorem Independent.symm {a b : Operation κ β} (h : Independent a b) : Independent b a := by
  cases a <;> cases b
  · trivial
  · exact Ne.symm h
  · exact Ne.symm h
  · exact Ne.symm h

instance : Std.Symm (Independent : Operation κ β → Operation κ β → Prop) :=
  ⟨fun _ _ h => h.symm⟩

/-- The operations in the order that a permutation gives them. -/
def permuted (ops : List (Operation κ β)) (σ : Equiv.Perm (Fin ops.length)) :
    List (Operation κ β) := List.ofFn fun i => ops.get (σ i)

theorem permuted_perm (ops : List (Operation κ β)) (σ : Equiv.Perm (Fin ops.length)) :
    (permuted ops σ).Perm ops := by
  have hp := Equiv.Perm.ofFn_comp_perm σ ops.get
  rwa [List.ofFn_get] at hp

variable [DecidableEq κ]

def effect (store : Store κ β) : Operation κ β → Store κ β
  | .read _ => store
  | .write key value => Function.update store key (some value)

def run : Store κ β → List (Operation κ β) → List (Reply β) × Store κ β
  | store, [] => ([], store)
  | store, op::ops =>
    let rest := run (effect store op) ops
    (reply store op::rest.1, rest.2)

theorem reply_effect {a b : Operation κ β} (h : Independent a b) (store : Store κ β) :
    reply (effect store a) b = reply store b := by
  cases a with
  | read k => rfl
  | write k v =>
    cases b with
    | read l => simp [reply, effect, Function.update_of_ne (Ne.symm h)]
    | write l w => rfl

theorem effect_comm {a b : Operation κ β} (h : Independent a b) (store : Store κ β) :
    effect (effect store a) b = effect (effect store b) a := by
  cases a with
  | read k => rfl
  | write k v =>
    cases b with
    | read l => rfl
    | write l w => exact Function.update_comm h _ _ store

theorem run_final (store : Store κ β) (ops : List (Operation κ β)) :
    (run store ops).2 = ops.foldl effect store := by
  induction ops generalizing store with
  | nil => rfl
  | cons op ops ih => exact ih (effect store op)

/-- Pairwise independent operations are answered from the first store. -/
theorem run_replies (store : Store κ β) (ops : List (Operation κ β))
    (h : ops.Pairwise Independent) : (run store ops).1 = ops.map (reply store) := by
  induction ops generalizing store with
  | nil => rfl
  | cons op ops ih =>
    obtain ⟨hop, hops⟩ := List.pairwise_cons.mp h
    have hrest : ops.map (reply (effect store op)) = ops.map (reply store) :=
      List.map_congr_left fun b hb => reply_effect (hop b hb) store
    simp only [run, List.map_cons, ih (effect store op) hops, hrest]

theorem run_final_perm (store : Store κ β) {ops others : List (Operation κ β)}
    (hp : ops.Perm others) (h : ops.Pairwise Independent) :
    (run store ops).2 = (run store others).2 := by
  rw [run_final, run_final]
  refine hp.foldl_eq' ?_ store
  intro a ha b hb s
  by_cases he : a = b
  · rw [he]
  · exact effect_comm (h.forall ha hb he) s

/-- Every order of pairwise independent operations gives each of them the reply it
has in the first order, and leaves the same store. -/
theorem run_permuted (store : Store κ β) (ops : List (Operation κ β))
    (h : ops.Pairwise Independent) (σ : Equiv.Perm (Fin ops.length)) :
    (∀ i : Fin ops.length, (run store (permuted ops σ)).1[i.val]? =
      (run store ops).1[(σ i).val]?) ∧
      (run store (permuted ops σ)).2 = (run store ops).2 := by
  have hp := permuted_perm ops σ
  have hpairs : (permuted ops σ).Pairwise Independent :=
    hp.symm.pairwise h fun hab => hab.symm
  refine ⟨?_, run_final_perm store hp hpairs⟩
  intro i
  rw [run_replies store _ hpairs, run_replies store _ h]
  simp [permuted]

end FerricStore.Operations
