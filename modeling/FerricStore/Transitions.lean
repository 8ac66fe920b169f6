import Mathlib.Tactic

/-!
# Transition systems

A program that other parties interleave with is a relation between states. What holds at
the start and is kept by every step holds in every state that is reached, and a measure
that every step from such a state lowers bounds the length of every run.
-/

set_option autoImplicit false

namespace FerricStore.Transitions

variable {S : Type} {Step : S → S → Prop} {I : S → Prop}

/-- The rule for invariants. -/
theorem invariant (hstep : ∀ s t, I s → Step s t → I t) {s t : S} (hs : I s)
    (h : Relation.ReflTransGen Step s t) : I t := by
  induction h with
  | refl => exact hs
  | tail _ hst ih => exact hstep _ _ ih hst

/-- A run of so many steps. -/
inductive Path (Step : S → S → Prop) : ℕ → S → S → Prop where
  | stop (s : S) : Path Step 0 s s
  | step {k : ℕ} {s t u : S} (h : Step s t) (rest : Path Step k t u) : Path Step (k+1) s u

theorem Path.reaches {k : ℕ} {s t : S} (h : Path Step k s t) : Relation.ReflTransGen Step s t := by
  induction h with
  | stop s => exact .refl
  | step h _ ih => exact .head h ih

/-- A lowered measure bounds the number of steps. -/
theorem Path.bounded {μ : S → ℕ} (hstep : ∀ s t, I s → Step s t → I t)
    (hμ : ∀ s t, I s → Step s t → μ t < μ s) {k : ℕ} {s t : S} (hs : I s)
    (h : Path Step k s t) : k+μ t ≤ μ s := by
  induction h with
  | stop s => omega
  | step hst _ ih =>
    have hlow := hμ _ _ hs hst
    have hrest := ih (hstep _ _ hs hst)
    omega

end FerricStore.Transitions

/-!
## Runs of a machine under the rules of its callers

A machine takes one step for each event, and its callers promise not to send an
event in a state where it is not allowed. What holds at the start and is kept by
every allowed step holds along every allowed run, and every event of a run meets
a state that the run reaches.
-/

namespace FerricStore.GuardedRuns

variable {S ε : Type}

def run (step : S → ε → S) (s : S) (es : List ε) : S := es.foldl step s

def Allowed (legal : S → ε → Prop) (step : S → ε → S) : S → List ε → Prop
  | _, [] => True
  | s, e::es => legal s e ∧ Allowed legal step (step s e) es

theorem run_append (step : S → ε → S) (s : S) (es fs : List ε) :
    run step s (es++fs) = run step (run step s es) fs := List.foldl_append

theorem allowed_append {legal : S → ε → Prop} {step : S → ε → S} {s : S} {es fs : List ε} :
    Allowed legal step s (es++fs) ↔
      Allowed legal step s es ∧ Allowed legal step (run step s es) fs := by
  induction es generalizing s with
  | nil => simp [Allowed, run]
  | cons e es ih =>
    simp only [List.cons_append, Allowed, ih, and_assoc]
    rfl

/-- The rule for invariants: one step keeps it, so a run does. -/
theorem Allowed.invariant {legal : S → ε → Prop} {step : S → ε → S} {I : S → Prop}
    (hstep : ∀ s e, I s → legal s e → I (step s e)) {s : S} {es : List ε} (hs : I s)
    (h : Allowed legal step s es) : I (run step s es) := by
  induction es generalizing s with
  | nil => exact hs
  | cons e es ih => exact ih (hstep s e hs h.1) h.2

end FerricStore.GuardedRuns
