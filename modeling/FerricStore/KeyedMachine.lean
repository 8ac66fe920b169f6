import Mathlib.Tactic

/-!
# Machines whose events touch one key

A shared state is a family of local states, one for each key, and an event
changes and reads only the local state of its own key. The outputs of one key
in any interleaving are then those of the local machine on that key's events.
-/

set_option autoImplicit false

namespace FerricStore.KeyedMachine

variable {κ S σ ε ω : Type}

def run (step : S → ε → S × ω) : S → List ε → S × List (ε × ω)
  | s, [] => (s, [])
  | s, e::es =>
    let (t, o) := step s e
    let (u, os) := run step t es
    (u, (e, o)::os)

theorem run_append (step : S → ε → S × ω) (s : S) (es fs : List ε) :
    run step s (es++fs) =
      let r := run step s es
      let q := run step r.1 fs
      (q.1, r.2++q.2) := by
  induction es generalizing s with
  | nil => rfl
  | cons e es ih => simp [run, ih]

theorem run_events (step : S → ε → S × ω) (s : S) (es : List ε) :
    (run step s es).2.map Prod.fst = es := by
  induction es generalizing s with
  | nil => rfl
  | cons e es ih => simp [run, ih]

structure Keyed (key : ε → κ) (look : S → κ → σ) (step : S → ε → S × ω)
    (own : σ → ε → σ × ω) : Prop where
  state : ∀ s e, look (step s e).1 (key e) = (own (look s (key e)) e).1
  output : ∀ s e, (step s e).2 = (own (look s (key e)) e).2
  frame : ∀ s e k, k ≠ key e → look (step s e).1 k = look s k

/-- One key's part of a run is the local run on that key's events. -/
theorem Keyed.project [DecidableEq κ] {key : ε → κ} {look : S → κ → σ}
    {step : S → ε → S × ω} {own : σ → ε → σ × ω} (h : Keyed key look step own)
    (k : κ) (s : S) (es : List ε) :
    look (run step s es).1 k = (run own (look s k) (es.filter fun e => key e = k)).1 ∧
    (run step s es).2.filter (fun p => key p.1 = k) =
      (run own (look s k) (es.filter fun e => key e = k)).2 := by
  induction es generalizing s with
  | nil => exact ⟨rfl, rfl⟩
  | cons e es ih =>
    obtain ⟨ihs, iho⟩ := ih (step s e).1
    by_cases hk : key e = k
    · subst hk
      rw [h.state] at ihs iho
      simp [run, ihs, iho, h.output]
    · rw [h.frame s e k (Ne.symm hk)] at ihs iho
      simp [run, ihs, iho, hk]

/-- Feeding a key's events alone gives the same outputs for that key. -/
theorem Keyed.isolated [DecidableEq κ] {key : ε → κ} {look : S → κ → σ}
    {step : S → ε → S × ω} {own : σ → ε → σ × ω} (h : Keyed key look step own)
    (k : κ) (s t : S) (hst : look s k = look t k) (es : List ε) :
    (run step s es).2.filter (fun p => key p.1 = k) =
      (run step t (es.filter fun e => key e = k)).2 := by
  have hs := (h.project k s es).2
  have ht := (h.project k t (es.filter fun e => key e = k)).2
  rw [List.filter_filter] at ht
  simp only [Bool.and_self] at ht
  have hall : (run step t (es.filter fun e => key e = k)).2.filter (fun p => key p.1 = k) =
      (run step t (es.filter fun e => key e = k)).2 := by
    rw [List.filter_eq_self]
    intro p hp
    have hm : p.1 ∈ (run step t (es.filter fun e => key e = k)).2.map Prod.fst :=
      List.mem_map_of_mem hp
    rw [run_events] at hm
    exact (List.mem_filter.mp hm).2
  rw [hs, hst, ← ht, hall]

end FerricStore.KeyedMachine
