import Mathlib.Data.List.Range
import Mathlib.Data.List.Perm.Basic
import Mathlib.Tactic.Common

/-!
# Gathering results that arrive in any order

So many parts are awaited. Each arrives once, under its number, as a result or as an error. The
first error decides the outcome. Without one the outcome is what becomes of the results in the
order of their numbers, once the last of them is there.
-/

set_option autoImplicit false

namespace FerricStore.Gathering

variable {ε α β : Type}

structure State (ε α β : Type) where
  results : List (Option α)
  remaining : ℕ
  outcome : Option (Except ε β)

def start (n : ℕ) : State ε α β := ⟨List.replicate n none, n, none⟩

def arrive (merge : List α → Except ε β) (s : State ε α β) (p : ℕ × Except ε α) : State ε α β :=
  match p.2 with
  | .error e => { s with outcome := s.outcome.or (some (.error e)) }
  | .ok a =>
    if s.outcome.isSome then s
    else
      let results := s.results.set p.1 (some a)
      let remaining := s.remaining-1
      ⟨results, remaining, if remaining = 0 then some (merge (results.filterMap id)) else none⟩

def run (n : ℕ) (merge : List α → Except ε β) (arrivals : List (ℕ × Except ε α)) :
    State ε α β :=
  arrivals.foldl (arrive merge) (start n)

def firstError (arrivals : List (ℕ × Except ε α)) : Option ε :=
  arrivals.findSome? fun p => match p.2 with
    | .error e => some e
    | .ok _ => none

theorem run_snoc (n : ℕ) (merge : List α → Except ε β) (arrivals : List (ℕ × Except ε α))
    (p : ℕ × Except ε α) : run n merge (arrivals++[p]) = arrive merge (run n merge arrivals) p := by
  simp [run]

theorem arrive_done {merge : List α → Except ε β} {s : State ε α β} {r : Except ε β}
    (h : s.outcome = some r) (p : ℕ × Except ε α) : (arrive merge s p).outcome = some r := by
  obtain ⟨i, a⟩ := p
  cases a <;> simp [arrive, h]

/-- An outcome is never replaced. -/
theorem run_done {n : ℕ} {merge : List α → Except ε β} {arrivals : List (ℕ × Except ε α)}
    {r : Except ε β} (h : (run n merge arrivals).outcome = some r)
    (later : List (ℕ × Except ε α)) : (run n merge (arrivals++later)).outcome = some r := by
  induction later using List.reverseRecOn with
  | nil => rwa [List.append_nil]
  | append_singleton later p ih =>
    rw [← List.append_assoc, run_snoc]
    exact arrive_done ih p

theorem firstError_snoc (arrivals : List (ℕ × Except ε α)) (p : ℕ × Except ε α) :
    firstError (arrivals++[p]) = (firstError arrivals).or (match p.2 with
      | .error e => some e
      | .ok _ => none) := by
  simp only [firstError, List.findSome?_append, List.findSome?_cons, List.findSome?_nil]
  cases p.2 <;> simp

theorem firstError_eq_none {arrivals : List (ℕ × Except ε α)} :
    firstError arrivals = none ↔ ∀ p ∈ arrivals, ∃ a, p.2 = .ok a := by
  rw [firstError, List.findSome?_eq_none_iff]
  refine forall₂_congr fun p _ => ?_
  cases p.2 <;> simp

theorem firstError_mem {arrivals : List (ℕ × Except ε α)} {e : ε}
    (h : firstError arrivals = some e) : ∃ i, (i, .error e) ∈ arrivals := by
  obtain ⟨⟨i, a⟩, hmem, hp⟩ := List.exists_of_findSome?_eq_some h
  cases a with
  | ok a => cases hp
  | error f =>
    obtain rfl : f = e := Option.some.inj hp
    exact ⟨i, hmem⟩

/-- What is known while no error arrived: every result stands under its number, the rest is
missing, and the outcome is there when nothing remains. -/
structure Gathered (n : ℕ) (merge : List α → Except ε β) (arrivals : List (ℕ × Except ε α))
    (s : State ε α β) : Prop where
  remaining : s.remaining = n-arrivals.length
  length : s.results.length = n
  present : ∀ i a, (i, .ok a) ∈ arrivals → s.results[i]? = some (some a)
  outcome : s.outcome = if arrivals ≠ [] ∧ n ≤ arrivals.length then
    some (merge (s.results.filterMap id)) else none

theorem run_gathered {n : ℕ} {merge : List α → Except ε β} {arrivals : List (ℕ × Except ε α)}
    (hnodup : (arrivals.map Prod.fst).Nodup) (hlt : ∀ p ∈ arrivals, p.1 < n)
    (hok : firstError arrivals = none) : Gathered n merge arrivals (run n merge arrivals) := by
  induction arrivals using List.reverseRecOn with
  | nil => exact ⟨rfl, by simp [run, start], by simp, by simp [run, start]⟩
  | append_singleton arrivals p ih =>
    rw [List.map_append, List.nodup_append] at hnodup
    obtain ⟨hnodup, -, hfresh⟩ := hnodup
    rw [firstError_snoc, Option.or_eq_none_iff] at hok
    have hbefore := ih hnodup (fun q hq => hlt q (List.mem_append_left _ hq)) hok.1
    obtain ⟨i, a⟩ := p
    have hi : i < n := hlt (i, a) (by simp)
    have hfew : arrivals.length < n := by
      have hsub := @List.subperm_of_subset _ _ ((List.range n).erase i) hnodup fun j hj => by
        obtain ⟨q, hq, rfl⟩ := List.mem_map.mp hj
        have hne : q.1 ≠ i := hfresh q.1 hj i (by simp)
        exact (List.mem_erase_of_ne hne).mpr
          (List.mem_range.mpr (hlt q (List.mem_append_left _ hq)))
      have hlength := hsub.length_le
      rw [List.length_map, List.length_erase_of_mem (List.mem_range.mpr hi),
        List.length_range] at hlength
      omega
    cases a with
    | error e => cases hok.2
    | ok a =>
      have hopen : (run n merge arrivals).outcome = none := by
        rw [hbefore.outcome, if_neg fun h => absurd h.2 (Nat.not_le.mpr hfew)]
      have hstate : arrive merge (run n merge arrivals) (i, .ok a) =
          ⟨(run n merge arrivals).results.set i (some a), n-(arrivals.length+1),
            if n-(arrivals.length+1) = 0 then
              some (merge (((run n merge arrivals).results.set i (some a)).filterMap id))
            else none⟩ := by
        simp [arrive, hopen, hbefore.remaining, Nat.sub_sub]
      rw [run_snoc, hstate]
      refine ⟨by simp, by simp [hbefore.length], ?_, ?_⟩
      · intro j b hj
        rw [List.getElem?_set]
        rcases List.mem_append.mp hj with hj | hj
        · have hne : j ≠ i := hfresh j (List.mem_map_of_mem hj) i (by simp)
          rw [if_neg (Ne.symm hne)]
          exact hbefore.present j b hj
        · obtain ⟨rfl, hab⟩ := Prod.mk.inj (List.mem_singleton.mp hj)
          cases hab
          rw [if_pos rfl, if_pos (by rw [hbefore.length]; exact hi)]
      · have hcount : n-(arrivals.length+1) = 0 ↔ n ≤ (arrivals++[(i, Except.ok a)]).length := by
          simp [Nat.sub_eq_zero_iff_le]
        simp only [hcount]
        simp

/-- While no error arrived the outcome is open until the last part is there. -/
theorem run_open {n : ℕ} {merge : List α → Except ε β} {arrivals : List (ℕ × Except ε α)}
    (hnodup : (arrivals.map Prod.fst).Nodup) (hlt : ∀ p ∈ arrivals, p.1 < n)
    (hok : firstError arrivals = none) (hfew : arrivals.length < n) :
    (run n merge arrivals).outcome = none := by
  rw [(run_gathered hnodup hlt hok).outcome, if_neg fun h => absurd h.2 (Nat.not_le.mpr hfew)]

/-- The first error decides. -/
theorem run_error {n : ℕ} {merge : List α → Except ε β} {arrivals : List (ℕ × Except ε α)} {e : ε}
    (hnodup : (arrivals.map Prod.fst).Nodup) (hlt : ∀ p ∈ arrivals, p.1 < n)
    (h : firstError arrivals = some e) : (run n merge arrivals).outcome = some (.error e) := by
  induction arrivals using List.reverseRecOn with
  | nil => cases h
  | append_singleton arrivals p ih =>
    have hall := hnodup
    rw [List.map_append, List.nodup_append] at hnodup
    have hbefore := ih hnodup.1 fun q hq => hlt q (List.mem_append_left _ hq)
    rw [run_snoc]
    rw [firstError_snoc] at h
    cases hfirst : firstError arrivals with
    | some f =>
      rw [hfirst] at h
      obtain rfl : f = e := Option.some.inj h
      exact arrive_done (hbefore hfirst) p
    | none =>
      rw [hfirst, Option.none_or] at h
      obtain ⟨i, a⟩ := p
      cases a with
      | ok a => cases h
      | error f =>
        obtain rfl : f = e := Option.some.inj h
        have hfew : arrivals.length < n := by
          have hsub := @List.subperm_of_subset _ _ (List.range n) hall fun j hj => by
            obtain ⟨q, hq, rfl⟩ := List.mem_map.mp hj
            exact List.mem_range.mpr (hlt q hq)
          have hlength := hsub.length_le
          simp only [List.length_map, List.length_append, List.length_singleton,
            List.length_range] at hlength
          omega
        have hopen : (run n merge arrivals).outcome = none :=
          run_open hnodup.1 (fun q hq => hlt q (List.mem_append_left _ hq)) hfirst hfew
        simp [arrive, hopen]

/-- Without an error the outcome is that of the results in the order of their numbers. -/
theorem run_ok {n : ℕ} {merge : List α → Except ε β} {arrivals : List (ℕ × Except ε α)}
    {answers : List α} (hpos : 0 < n) (hlength : answers.length = n)
    (hperm : (arrivals.map Prod.fst).Perm (List.range n))
    (hanswers : ∀ p ∈ arrivals, ∃ a, answers[p.1]? = some a ∧ p.2 = .ok a) :
    (run n merge arrivals).outcome = some (merge answers) := by
  have hnodup := hperm.nodup_iff.mpr List.nodup_range
  have hlt : ∀ p ∈ arrivals, p.1 < n := fun p hp =>
    List.mem_range.mp (hperm.mem_iff.mp (List.mem_map_of_mem hp))
  have hok : firstError arrivals = none := firstError_eq_none.mpr fun p hp => by
    obtain ⟨a, -, ha⟩ := hanswers p hp
    exact ⟨a, ha⟩
  have hcount : arrivals.length = n := by
    have := hperm.length_eq
    rwa [List.length_map, List.length_range] at this
  have hgathered : Gathered n merge arrivals (run n merge arrivals) :=
    run_gathered hnodup hlt hok
  have hne : arrivals ≠ [] := by
    rintro rfl
    simp at hcount
    omega
  have hresults : (run n merge arrivals).results = answers.map some := by
    refine List.ext_getElem? fun i => ?_
    by_cases hi : i < n
    · obtain ⟨⟨j, a⟩, hp, rfl⟩ := List.mem_map.mp (hperm.mem_iff.mpr (List.mem_range.mpr hi))
      obtain ⟨b, hb, hab⟩ := hanswers _ hp
      dsimp only at hab
      subst hab
      rw [hgathered.present j b hp, List.getElem?_map, hb]
      rfl
    · rw [List.getElem?_eq_none (by rw [hgathered.length]; omega),
        List.getElem?_eq_none (by rw [List.length_map]; omega)]
  rw [hgathered.outcome, if_pos ⟨hne, hcount.ge⟩, hresults]
  simp [List.filterMap_map]

/-- The outcome along the way, when no part is an error. -/
theorem run_take_ok {n : ℕ} {merge : List α → Except ε β} {arrivals : List (ℕ × Except ε α)}
    {answers : List α} (hpos : 0 < n) (hlength : answers.length = n)
    (hperm : (arrivals.map Prod.fst).Perm (List.range n))
    (hanswers : ∀ p ∈ arrivals, ∃ a, answers[p.1]? = some a ∧ p.2 = .ok a) (k : ℕ) :
    (run n merge (arrivals.take k)).outcome = if k < n then none else some (merge answers) := by
  have hcount : arrivals.length = n := by
    have := hperm.length_eq
    rwa [List.length_map, List.length_range] at this
  by_cases hk : k < n
  · rw [if_pos hk]
    have hsub : List.Sublist ((arrivals.take k).map Prod.fst) (arrivals.map Prod.fst) :=
      (List.take_sublist k arrivals).map _
    refine run_open ((hperm.nodup_iff.mpr List.nodup_range).sublist hsub) (fun p hp => ?_) ?_ ?_
    · exact List.mem_range.mp (hperm.mem_iff.mp (hsub.subset (List.mem_map_of_mem hp)))
    · exact firstError_eq_none.mpr fun p hp => by
        obtain ⟨a, -, ha⟩ := hanswers p (List.mem_of_mem_take hp)
        exact ⟨a, ha⟩
    · rw [List.length_take]
      omega
  · rw [if_neg hk, List.take_of_length_le (by omega)]
    exact run_ok hpos hlength hperm hanswers

/-- The outcome along the way, when a part is an error and none before it is. -/
theorem run_take_error {n : ℕ} {merge : List α → Except ε β}
    {arrivals before after : List (ℕ × Except ε α)} {i : ℕ} {e : ε}
    (hperm : (arrivals.map Prod.fst).Perm (List.range n))
    (harrivals : arrivals = before++(i, .error e)::after) (hbefore : firstError before = none)
    (k : ℕ) :
    (run n merge (arrivals.take k)).outcome =
      if k ≤ before.length then none else some (.error e) := by
  have hnodup := hperm.nodup_iff.mpr List.nodup_range
  have hlt : ∀ p ∈ arrivals, p.1 < n := fun p hp =>
    List.mem_range.mp (hperm.mem_iff.mp (List.mem_map_of_mem hp))
  have hcount : arrivals.length = n := by
    have := hperm.length_eq
    rwa [List.length_map, List.length_range] at this
  have hsub : List.Sublist ((arrivals.take k).map Prod.fst) (arrivals.map Prod.fst) :=
    (List.take_sublist k arrivals).map _
  have hfew : before.length < n := by
    rw [← hcount, harrivals, List.length_append, List.length_cons]
    omega
  by_cases hk : k ≤ before.length
  · have htake : arrivals.take k = before.take k := by
      rw [harrivals, List.take_append_of_le_length hk]
    rw [if_pos hk]
    refine run_open (hnodup.sublist hsub) (fun p hp => hlt p (List.mem_of_mem_take hp)) ?_ ?_
    · rw [htake]
      exact firstError_eq_none.mpr fun p hp =>
        firstError_eq_none.mp hbefore p (List.mem_of_mem_take hp)
    · rw [List.length_take]
      omega
  · rw [if_neg hk]
    refine run_error (hnodup.sublist hsub) (fun p hp => hlt p (List.mem_of_mem_take hp)) ?_
    have htake : arrivals.take k = before++(i, .error e)::after.take (k-before.length-1) := by
      obtain ⟨m, rfl⟩ : ∃ m, k = before.length+(m+1) := ⟨k-before.length-1, by omega⟩
      rw [harrivals, List.take_length_add_append, List.take_succ_cons]
      congr 3
      omega
    rw [htake, firstError, List.findSome?_append]
    rw [firstError] at hbefore
    rw [hbefore, Option.none_or, List.findSome?_cons]

end FerricStore.Gathering
