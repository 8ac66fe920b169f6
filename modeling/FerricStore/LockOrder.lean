import Mathlib.Tactic

/-!
# Ordered acquisition

Parties hold keys and want keys. One party waits for another if it wants a key that the
other holds. If nobody wants a key below one that it holds, no party waits for itself
through any others.
-/

set_option autoImplicit false

namespace FerricStore.LockOrder

variable {I K : Type} [LinearOrder K]

def WaitsFor (wants holds : I → K → Prop) (i j : I) : Prop := ∃ k, wants i k ∧ holds j k

/-- Every wanted key is above every key that is held. -/
def Ascending (wants holds : I → K → Prop) : Prop :=
  ∀ i k l, wants i k → holds i l → l < k

variable {wants holds : I → K → Prop}

theorem Ascending.chain (h : Ascending wants holds) {i j : I}
    (hij : Relation.TransGen (WaitsFor wants holds) i j) :
    ∃ k l, wants i k ∧ holds j l ∧ k ≤ l := by
  induction hij with
  | single hij =>
    obtain ⟨k, hwants, hholds⟩ := hij
    exact ⟨k, k, hwants, hholds, le_rfl⟩
  | tail _ hjm ih =>
    obtain ⟨k, l, hwants, hholds, hle⟩ := ih
    obtain ⟨m, hwants', hholds'⟩ := hjm
    exact ⟨k, m, hwants, hholds', hle.trans (h _ _ _ hwants' hholds).le⟩

theorem Ascending.acyclic (h : Ascending wants holds) (i : I) :
    ¬Relation.TransGen (WaitsFor wants holds) i i := by
  intro hcycle
  obtain ⟨k, l, hwants, hholds, hle⟩ := h.chain hcycle
  exact absurd (h i k l hwants hholds) (not_lt.mpr hle)

end FerricStore.LockOrder
