import FerricStore.FanOut

/-!
# Bounded fan-out is the sequential map

Whatever futures the executor completes and whenever, the call ends with what a loop over
the items would end with: the smallest failed index of the submitted items is the first
failure of all, since they are an initial part of the items.
-/

set_option autoImplicit false

namespace FerricStore.FanOut
open Transitions

variable {ι ρ ε : Type} {f : Fanout ι ρ ε} {s t : State ρ ε}

/-- What is left to do, with the swept futures counted as done. -/
def remaining (f : Fanout ι ρ ε) (s : State ρ ε) : ℕ :=
  let width := 2*pendingLimit f+5
  let left := f.items.length-s.next+s.pending.length
  match s.phase with
  | .filling room => left*width+room+2
  | .waiting => left*width+1
  | .sweeping completed => (left-completed.length)*width+pendingLimit f+4+completed.length
  | .finished => 0

theorem completed_length (h : Inv f s) {completed : List ℕ}
    (hp : s.phase = .sweeping completed) : completed.length ≤ s.pending.length := by
  obtain ⟨-, hsorted, hmem⟩ := phase_of h hp
  exact (List.subperm_of_subset (hsorted.imp ne_of_lt) hmem).length_le

theorem remaining_lt (h : Inv f s) (hst : Step f s t) : remaining f t < remaining f s := by
  have hlimit := pending_bounded h
  cases hst with
  | submit hp hn =>
    simp only [remaining, hp, submit, List.length_append, List.length_singleton]
    rw [show f.items.length-(s.next+1)+(s.pending.length+1) =
      f.items.length-s.next+s.pending.length by omega]
    omega
  | exhausted hp _ =>
    simp only [remaining, hp]
    omega
  | full hp =>
    simp only [remaining, hp]
    omega
  | @wait completed hp hc hs hm =>
    have hlength := (List.subperm_of_subset (hs.imp ne_of_lt) hm).length_le
    have hpos := List.length_pos_iff.mpr hc
    simp only [remaining, hp]
    obtain ⟨rest, hrest⟩ : ∃ rest, f.items.length-s.next+s.pending.length =
        rest+completed.length := ⟨_, (Nat.sub_add_cancel (by omega)).symm⟩
    rw [hrest, Nat.add_sub_cancel, Nat.add_mul]
    have hwidth : 2*pendingLimit f+5 ≤ completed.length*(2*pendingLimit f+5) :=
      Nat.le_mul_of_pos_left _ hpos
    omega
  | @observe index completed item hp _ =>
    obtain ⟨hphase, hnext, hpending, -⟩ := observe_fields f s index item completed
    have hmem : index ∈ s.pending := (phase_of h hp).2.2 index List.mem_cons_self
    have hpos := List.length_pos_iff.mpr (List.ne_nil_of_mem hmem)
    simp only [remaining, hp, hphase, hnext, hpending, List.length_erase_of_mem hmem,
      List.length_cons]
    rw [show f.items.length-s.next+(s.pending.length-1)-completed.length =
      f.items.length-s.next+s.pending.length-(completed.length+1) by omega]
    omega
  | stopping hp _ _ =>
    simp only [remaining, hp, List.length_nil, Nat.sub_zero]
    omega
  | refill hp _ =>
    simp only [remaining, hp, List.length_nil, Nat.sub_zero]
    omega
  | finish hp _ =>
    simp only [remaining, hp]
    omega

theorem mapM_error {g : ι → Except ε ρ} {items : List ι} {i : ℕ} {item : ι} {e : ε}
    (hi : items[i]? = some item) (he : g item = .error e)
    (hj : ∀ j < i, ∀ x, items[j]? = some x → ∃ r, g x = .ok r) : items.mapM g = .error e := by
  induction items generalizing i with
  | nil => cases hi
  | cons x items ih =>
    rw [List.mapM_cons]
    cases i with
    | zero =>
      cases hi
      rw [he]
      rfl
    | succ i =>
      obtain ⟨r, hr⟩ := hj 0 (Nat.succ_pos i) x rfl
      rw [hr, ih hi fun j hlt y hy => hj (j+1) (Nat.succ_lt_succ hlt) y hy]
      rfl

theorem mapM_results {g : ι → Except ε ρ} {items : List ι} {results : List (Option ρ)}
    (hl : results.length = items.length)
    (h : ∀ (i : ℕ) x, items[i]? = some x → ∃ r, g x = .ok r ∧ results[i]? = some (some r)) :
    (items.mapM g).map (List.map some) = .ok results := by
  induction items generalizing results with
  | nil =>
    obtain rfl := List.length_eq_zero_iff.mp hl
    rfl
  | cons x items ih =>
    cases results with
    | nil => cases hl
    | cons o results =>
      obtain ⟨r, hr, ho⟩ := h 0 x rfl
      cases ho
      have hrest := ih (Nat.succ.inj hl) fun i y hy => h (i+1) y hy
      rw [List.mapM_cons, hr]
      cases hm : items.mapM g with
      | error e =>
        rw [hm] at hrest
        cases hrest
      | ok rs =>
        rw [hm] at hrest
        cases hrest
        rfl

/-- What the call ends with when nothing is pending. -/
theorem finished_outcome (h : Inv f s) (hp : s.phase = .finished) :
    (s.errors = [] ∧ s.next = f.items.length ∧ outcome s = .ok s.results ∧
      ∀ (i : ℕ) x, f.items[i]? = some x → ∃ r, f.operation x = .ok r ∧ s.results[i]? = some (some r)) ∨
    ∃ (i : ℕ) (x : ι) (e : ε), i < s.next ∧ f.items[i]? = some x ∧ f.operation x = .error e ∧
      outcome s = .error e ∧
      ∀ j < i, ∀ y, f.items[j]? = some y → ∃ r, f.operation y = .ok r := by
  obtain ⟨hpending, hnext⟩ := phase_of h hp
  simp only at hpending hnext
  have hrecorded : ∀ (i : ℕ) x, f.items[i]? = some x → i < s.next → Recorded f s i x := by
    intro i x hx hi
    exact h.recorded i x hx hi (by rw [hpending]; exact List.not_mem_nil)
  by_cases he : s.errors = []
  · refine .inl ⟨he, hnext (.inl he), by rw [outcome, he]; rfl, fun i x hx => ?_⟩
    have hi : i < s.next := by
      rw [hnext (.inl he)]
      exact (List.getElem?_eq_some_iff.mp hx).1
    have hrec := hrecorded i x hx hi
    unfold Recorded at hrec
    cases hop : f.operation x with
    | ok r =>
      rw [hop] at hrec
      exact ⟨r, rfl, hrec.1⟩
    | error e =>
      rw [hop, he] at hrec
      cases hrec
  · right
    obtain ⟨i, hmin⟩ : ∃ i, (s.errors.map Prod.fst).min? = some i := by
      rw [← Option.isSome_iff_exists, List.isSome_min?_iff]
      simpa using he
    obtain ⟨hmem, hle⟩ := List.min?_eq_some_iff.mp hmin
    obtain ⟨e, hget⟩ := Option.isSome_iff_exists.mp ((Dict.get?_isSome_iff s.errors i).mpr hmem)
    have hi : i < s.next := by
      by_contra hge
      rw [h.clear i (.inl (not_lt.mp hge))] at hget
      cases hget
    obtain ⟨x, hx⟩ : ∃ x, f.items[i]? = some x :=
      ⟨_, List.getElem?_eq_getElem (hi.trans_le h.next)⟩
    refine ⟨i, x, e, hi, hx, ?_, by simp only [outcome, hmin, hget], fun j hj y hy => ?_⟩
    · have hrec := hrecorded i x hx hi
      unfold Recorded at hrec
      cases hop : f.operation x with
      | ok r =>
        rw [hop, hget] at hrec
        exact absurd hrec.2 (by simp)
      | error e' =>
        rw [hop, hget] at hrec
        rw [Option.some.inj hrec]
    · have hrec := hrecorded j y hy (hj.trans hi)
      unfold Recorded at hrec
      cases hop : f.operation y with
      | ok r => exact ⟨r, rfl⟩
      | error e' =>
        rw [hop] at hrec
        have hkey := (Dict.get?_isSome_iff s.errors j).mp (by rw [hrec]; rfl)
        exact absurd (hle j hkey) (not_le.mpr hj)

theorem outcome_sequential (h : Inv f s) (hp : s.phase = .finished) :
    outcome s = (f.items.mapM f.operation).map (List.map some) := by
  rcases finished_outcome h hp with ⟨-, -, hok, hall⟩ | ⟨i, x, e, -, hx, he, herr, hbefore⟩
  · rw [hok, mapM_results h.length hall]
  · rw [herr, mapM_error hx he hbefore]
    rfl

/-- In every order of completion a fan-out stays within its limit, submits the items in
order, and ends with the outcome of the sequential map: the results in the order of the
items, or the error of the smallest failing index. -/
theorem fanout_is_sequential_map (f : Fanout ι ρ ε) :
    (∀ s, Relation.ReflTransGen (Step f) (start f) s →
      s.pending.length ≤ min f.maxConcurrency f.items.length ∧
      s.submitted = List.range s.next ∧ s.next ≤ f.items.length ∧
      (∀ t, Step f s t → t.submitted ≠ s.submitted → f.stopOnError = true → s.errors = []) ∧
      (s.phase ≠ .finished → ∃ t, Step f s t) ∧
      (s.phase = .finished →
        outcome s = (f.items.mapM f.operation).map (List.map some) ∧
        (∀ e, outcome s = .error e → ∃ i ∈ s.submitted, ∃ x, f.items[i]? = some x ∧
          f.operation x = .error e ∧
          ∀ j < i, ∀ y, f.items[j]? = some y → ∃ r, f.operation y = .ok r) ∧
        (f.stopOnError = false → s.submitted = List.range f.items.length))) ∧
    ∀ k s, Path (Step f) k (start f) s → k ≤ remaining f (start f) := by
  constructor
  · intro s hs
    have h := reached_inv hs
    refine ⟨pending_bounded h, h.submitted, h.next, fun t hst => submits_before_error h hst,
      progress h, fun hp => ⟨outcome_sequential h hp, fun e he => ?_, fun hstop => ?_⟩⟩
    · rcases finished_outcome h hp with ⟨-, -, hok, -⟩ | ⟨i, x, e', hi, hx, hop, herr, hbefore⟩
      · rw [hok] at he
        cases he
      · obtain rfl : e' = e := Except.error.inj (herr.symm.trans he)
        refine ⟨i, ?_, x, hx, hop, hbefore⟩
        rw [h.submitted]
        exact List.mem_range.mpr hi
    · rw [h.submitted, (phase_of h hp).2 (.inr hstop)]
  · intro k s hpath
    have hbound := hpath.bounded (I := Inv f) (fun _ _ hs hst => step_inv hs hst)
      (fun _ _ hs hst => remaining_lt hs hst) (start_inv f)
    omega

end FerricStore.FanOut
