import FerricStore.Stateful

/-!
# Computations charged to an optional budget

The state of such a computation is what is left of its budget, or nothing when it is
unlimited. It `Charges` a cost of its result when the budget decides only whether that
cost fits: a limited run succeeds exactly when the unlimited run does and the cost of its
result is left, gives the same result and leaves the rest. Costs add along a sequence.
-/

set_option autoImplicit false

namespace FerricStore.Budgets
open Stateful

variable {ε α β : Type}

structure Charges (x : EStateM ε (Option ℕ) α) (cost : α → ℕ) : Prop where
  unlimited : ∀ {a r}, x none = .ok a r → r = none
  limited : ∀ {n a r}, x (some n) = .ok a r ↔
    x none = .ok a none ∧ cost a ≤ n ∧ r = some (n-cost a)

/-- A computation that does not look at its budget. -/
theorem Charges.free {x : EStateM ε (Option ℕ) α} {cost : α → ℕ}
    (h : ∀ budget, (∃ e, ∀ b, x b = .error e b) ∨ ∃ a, cost a = 0 ∧ x budget = .ok a budget ∧
      x none = .ok a none) : Charges x cost where
  unlimited := by
    intro a r hx
    rcases h none with ⟨e, he⟩ | ⟨b, -, hb, -⟩
    · rw [he] at hx
      cases hx
    · rw [hb] at hx
      cases hx
      rfl
  limited := by
    intro n a r
    rcases h (some n) with ⟨e, he⟩ | ⟨b, hzero, hb, hnone⟩
    · rw [he, he]
      simp
    · rw [hb, hnone]
      constructor
      · intro hx
        cases hx
        rw [hzero]
        exact ⟨rfl, Nat.zero_le _, rfl⟩
      · rintro ⟨hx, -, rfl⟩
        cases hx
        rw [hzero]
        rfl

theorem Charges.pure {a : α} {cost : α → ℕ} (h : cost a = 0) :
    Charges (Pure.pure a : EStateM ε (Option ℕ) α) cost :=
  Charges.free fun _ => Or.inr ⟨a, h, rfl, rfl⟩

theorem Charges.throw {e : ε} {cost : α → ℕ} :
    Charges (MonadExcept.throw e : EStateM ε (Option ℕ) α) cost :=
  Charges.free fun _ => Or.inl ⟨e, fun _ => rfl⟩

theorem Charges.ite {c : Prop} [Decidable c] {x y : EStateM ε (Option ℕ) α} {cost : α → ℕ}
    (hx : Charges x cost) (hy : Charges y cost) : Charges (if c then x else y) cost := by
  split_ifs
  · exact hx
  · exact hy

/-- The cost of a sequence is the cost of its first step and of the rest. -/
theorem Charges.bind {x : EStateM ε (Option ℕ) α} {f : α → EStateM ε (Option ℕ) β}
    {first : α → ℕ} {rest : α → β → ℕ} {cost : β → ℕ} (hx : Charges x first)
    (hf : ∀ a, Charges (f a) (rest a))
    (hcost : ∀ a b, x none = .ok a none → f a none = .ok b none → cost b = first a+rest a b) :
    Charges (x >>= f) cost where
  unlimited := by
    intro b r h
    obtain ⟨a, t, ha, hb⟩ := bind_eq_ok h
    rw [hx.unlimited ha] at hb
    exact (hf a).unlimited hb
  limited := by
    intro n b r
    constructor
    · intro h
      obtain ⟨a, t, ha, hb⟩ := bind_eq_ok h
      obtain ⟨hnone, hle, rfl⟩ := hx.limited.mp ha
      obtain ⟨hnone', hle', rfl⟩ := (hf a).limited.mp hb
      rw [bind_of_ok hnone, hcost a b hnone hnone']
      exact ⟨hnone', by omega, by rw [Nat.sub_sub]⟩
    · rintro ⟨h, hle, rfl⟩
      obtain ⟨a, t, ha, hb⟩ := bind_eq_ok h
      obtain rfl := hx.unlimited ha
      rw [hcost a b ha hb] at hle ⊢
      have hfirst := hx.limited.mpr ⟨ha, (by omega : first a ≤ n), rfl⟩
      rw [bind_of_ok hfirst]
      exact (hf a).limited.mpr ⟨hb, by omega, by rw [Nat.sub_sub]⟩

/-- A first step that costs nothing. -/
theorem Charges.then {x : EStateM ε (Option ℕ) α} {f : α → EStateM ε (Option ℕ) β}
    {cost : β → ℕ} (hx : Charges x fun _ => 0) (hf : ∀ a, Charges (f a) cost) :
    Charges (x >>= f) cost :=
  hx.bind hf fun _ _ _ _ => (Nat.zero_add _).symm

/-- A last step that costs nothing. -/
theorem Charges.last {x : EStateM ε (Option ℕ) α} {f : α → EStateM ε (Option ℕ) β}
    {first : α → ℕ} {cost : β → ℕ} (hx : Charges x first)
    (hf : ∀ a, ∃ b, f a = Pure.pure b ∧ cost b = first a) : Charges (x >>= f) cost := by
  have hfree : ∀ a, Charges (f a) fun _ => 0 := fun a => by
    obtain ⟨b, hb, -⟩ := hf a
    rw [hb]
    exact Charges.pure rfl
  refine hx.bind hfree fun a b _ hb => ?_
  obtain ⟨c, hc, hcost⟩ := hf a
  rw [hc] at hb
  obtain ⟨rfl, -⟩ := pure_eq_ok hb
  exact hcost

/-- A budget that a cost fits. -/
def Affords (budget : Option ℕ) (cost : ℕ) : Prop := ∀ n, budget = some n → cost ≤ n

def spend (budget : Option ℕ) (cost : ℕ) : Option ℕ := budget.map (·-cost)

@[simp] theorem spend_spend (budget : Option ℕ) (c d : ℕ) :
    spend (spend budget c) d = spend budget (c+d) := by
  cases budget <;> simp [spend, Nat.sub_sub]

@[simp] theorem spend_zero (budget : Option ℕ) : spend budget 0 = budget := by
  cases budget <;> simp [spend]

theorem Affords.mono {budget : Option ℕ} {c d : ℕ} (h : Affords budget d) (hle : c ≤ d) :
    Affords budget c := fun n hn => hle.trans (h n hn)

theorem Affords.spend {budget : Option ℕ} {c d : ℕ} (h : Affords budget (c+d)) :
    Affords (spend budget c) d := by
  intro n hn
  obtain ⟨m, rfl, rfl⟩ := Option.map_eq_some_iff.mp hn
  have := h m rfl
  omega

theorem Charges.afford {x : EStateM ε (Option ℕ) α} {cost : α → ℕ} (h : Charges x cost) {a : α}
    (hx : x none = .ok a none) {budget : Option ℕ} (hb : Affords budget (cost a)) :
    x budget = .ok a (Budgets.spend budget (cost a)) := by
  cases budget with
  | none => exact hx
  | some n => exact h.limited.mpr ⟨hx, hb n rfl, rfl⟩

end FerricStore.Budgets
