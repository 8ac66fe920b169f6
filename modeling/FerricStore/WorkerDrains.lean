import FerricStore.WorkerCompletions

/-!
# What a drain does to the pending completions

A drain moves completions from the pending ones to those it took and the one that raised, so
every one of them stays somewhere. Those that were taken before another one stopped the
drain are not returned.
-/

set_option autoImplicit false

namespace FerricStore.WorkerCompletions

open WorkerBatches

variable {E : Type} {ends : ℕ → Except E Counts}

namespace Drained

def pending : Drained → List ℕ
  | .returned p _ | .raised p _ _ | .timedOut p _ => p

def counted : Drained → List ℕ
  | .returned _ t => t
  | _ => []

def raisedOnes : Drained → List ℕ
  | .raised _ _ f => [f]
  | _ => []

def lost : Drained → List ℕ
  | .returned _ _ => []
  | .raised _ t _ | .timedOut _ t => t

/-- How often a completion occurs in the outcome of a drain. -/
def count (f : ℕ) (d : Drained) : ℕ :=
  d.pending.count f+d.counted.count f+d.raisedOnes.count f+d.lost.count f

end Drained

theorem drainBlocking_count (late : ℕ → Bool) (f n : ℕ) (pending taken : List ℕ) :
    (drainBlocking ends late n pending taken).count f = pending.count f+taken.count f := by
  induction n generalizing pending taken with
  | zero => simp [drainBlocking, Drained.count, Drained.pending, Drained.counted,
      Drained.raisedOnes, Drained.lost]
  | succ n ih =>
    cases pending with
    | nil => simp [drainBlocking, Drained.count, Drained.pending, Drained.counted,
        Drained.raisedOnes, Drained.lost]
    | cons g pending =>
      rw [drainBlocking]
      split_ifs
      · simp [Drained.count, Drained.pending, Drained.counted, Drained.raisedOnes, Drained.lost]
      · cases ends g with
        | ok counts =>
          simp only [ih, List.count_append, List.count_cons, List.count_nil]
          omega
        | error e =>
          simp only [Drained.count, Drained.pending, Drained.counted, Drained.raisedOnes,
            Drained.lost, List.count_cons, List.count_nil]
          omega

theorem drainReady_count (done : ℕ → Bool) (limit : Option ℕ) (f : ℕ)
    (pending retained taken : List ℕ) :
    (drainReady ends done limit pending retained taken).count f =
      pending.count f+retained.count f+taken.count f := by
  induction pending generalizing retained taken with
  | nil => simp [drainReady, Drained.count, Drained.pending, Drained.counted,
      Drained.raisedOnes, Drained.lost]
  | cons g pending ih =>
    rw [drainReady]
    split_ifs
    · cases ends g with
      | ok counts =>
        simp only [ih, List.count_append, List.count_cons, List.count_nil]
        omega
      | error e =>
        simp only [Drained.count, Drained.pending, Drained.counted, Drained.raisedOnes,
          Drained.lost, List.count_cons, List.count_nil, List.count_append]
        omega
    · simp only [ih, List.count_append, List.count_cons, List.count_nil]
      omega

theorem drain_count (call : DrainCall) (f : ℕ) (pending : List ℕ) :
    (drain ends pending call).count f = pending.count f := by
  cases call with
  | blocking limit late => exact drainBlocking_count late f _ pending []
  | ready limit done => exact drainReady_count done limit f pending [] []

/-- Only completions that ended well are returned. -/
theorem drainBlocking_ok (late : ℕ → Bool) (n : ℕ) (pending taken : List ℕ)
    (h : ∀ f ∈ taken, (ends f).isOk = true) :
    ∀ f ∈ (drainBlocking ends late n pending taken).counted, (ends f).isOk = true := by
  induction n generalizing pending taken with
  | zero => exact h
  | succ n ih =>
    cases pending with
    | nil => exact h
    | cons g pending =>
      rw [drainBlocking]
      split_ifs
      · nofun
      · cases hends : ends g with
        | ok counts =>
          refine ih pending (taken++[g]) fun f hf => ?_
          rcases List.mem_append.mp hf with hf | hf
          · exact h f hf
          · rw [List.mem_singleton.mp hf, hends]
            rfl
        | error e => nofun

theorem drainReady_ok (done : ℕ → Bool) (limit : Option ℕ) (pending retained taken : List ℕ)
    (h : ∀ f ∈ taken, (ends f).isOk = true) :
    ∀ f ∈ (drainReady ends done limit pending retained taken).counted, (ends f).isOk = true := by
  induction pending generalizing retained taken with
  | nil => exact h
  | cons g pending ih =>
    rw [drainReady]
    split_ifs
    · cases hends : ends g with
      | ok counts =>
        refine ih retained (taken++[g]) fun f hf => ?_
        rcases List.mem_append.mp hf with hf | hf
        · exact h f hf
        · rw [List.mem_singleton.mp hf, hends]
          rfl
      | error e => nofun
    · exact ih (retained++[g]) taken h

theorem drain_ok (call : DrainCall) (pending : List ℕ) :
    ∀ f ∈ (drain ends pending call).counted, (ends f).isOk = true := by
  cases call with
  | blocking limit late => exact drainBlocking_ok late _ pending [] nofun
  | ready limit done => exact drainReady_ok done limit pending [] [] nofun

/-- What was taken before the first completion that stops, if one does. -/
def divided (stop : ℕ → Bool) : List ℕ → List ℕ → List ℕ
  | _, [] => []
  | taken, f::ones => if stop f then taken else divided stop (taken++[f]) ones

theorem divided_of_taken (stop : ℕ → Bool) (taken ones : List ℕ) (h : taken ≠ []) :
    divided stop taken ones = [] ↔ ∀ g ∈ ones, stop g = false := by
  induction ones generalizing taken with
  | nil => simp [divided]
  | cons f ones ih =>
    rw [divided]
    cases hf : stop f with
    | true => simpa [hf] using h
    | false => simp [ih (taken++[f]) (by simp), hf]

theorem divided_eq_nil_iff (stop : ℕ → Bool) (ones : List ℕ) : divided stop [] ones = [] ↔
    ∀ f rest, ones = f::rest → stop f = true ∨ ∀ g ∈ rest, stop g = false := by
  cases ones with
  | nil => simp [divided]
  | cons f ones =>
    rw [divided]
    cases hf : stop f with
    | true => simp [hf]
    | false => simp [divided_of_taken stop [f] ones nofun, hf]

theorem drainBlocking_lost (limit : Option ℕ) (late : ℕ → Bool) (n : ℕ) (pending taken : List ℕ) :
    (drainBlocking ends late n pending taken).lost =
      divided (stops ends (.blocking limit late)) taken (pending.take n) := by
  induction n generalizing pending taken with
  | zero => rfl
  | succ n ih =>
    cases pending with
    | nil => rfl
    | cons g pending =>
      rw [drainBlocking, List.take_succ_cons, divided]
      cases hlate : late g with
      | true => simp [stops, hlate, Drained.lost]
      | false =>
        cases hends : ends g with
        | ok counts => simp [stops, hlate, hends, Except.isOk, Except.toBool, ih]
        | error e => simp [stops, hlate, hends, Except.isOk, Except.toBool, Drained.lost]

theorem drainReady_lost (limit : Option ℕ) (done : ℕ → Bool) (pending retained taken : List ℕ) :
    (drainReady ends done limit pending retained taken).lost =
      divided (stops ends (.ready limit done)) taken
        (limit.elim (pending.filter done) fun n => (pending.filter done).take (n-taken.length)) := by
  induction pending generalizing retained taken with
  | nil => cases limit <;> simp [drainReady, divided, Drained.lost]
  | cons g pending ih =>
    rw [drainReady]
    cases hdone : done g with
    | false => simp only [Bool.false_and, Bool.false_eq_true, if_false, ih, List.filter_cons, hdone]
    | true =>
      have hstops : stops ends (.ready limit done) g = !(ends g).isOk := rfl
      cases limit with
      | none =>
        simp only [Option.all_none, Bool.and_self, if_true, List.filter_cons, hdone,
          Option.elim_none, divided, hstops]
        cases hends : ends g with
        | ok counts => simpa [Except.isOk, Except.toBool] using ih retained (taken++[g])
        | error e => simp [Except.isOk, Except.toBool, Drained.lost]
      | some n =>
        by_cases hroom : taken.length < n
        · obtain ⟨m, hm⟩ : ∃ m, n-taken.length = m+1 := ⟨n-taken.length-1, by omega⟩
          have hm' : n-(taken++[g]).length = m := by
            rw [List.length_append, List.length_singleton]
            omega
          simp only [Option.all_some, hroom, decide_true, Bool.and_self, if_true,
            List.filter_cons, hdone, Option.elim_some, hm, List.take_succ_cons, divided, hstops]
          cases hends : ends g with
          | ok counts =>
            have hrest := ih retained (taken++[g])
            rw [Option.elim_some, hm'] at hrest
            simpa [Except.isOk, Except.toBool] using hrest
          | error e => simp [Except.isOk, Except.toBool, Drained.lost]
        · have hzero : n-taken.length = 0 := by omega
          have hrest := ih (retained++[g]) taken
          rw [Option.elim_some, hzero, List.take_zero] at hrest
          simp only [Option.all_some, hroom, decide_false, Bool.and_false, Bool.false_eq_true,
            if_false, hrest, Option.elim_some, hzero, List.take_zero]

theorem drain_lost (call : DrainCall) (pending : List ℕ) :
    (drain ends pending call).lost = divided (stops ends call) [] (looked pending call) := by
  cases call with
  | blocking limit late => exact drainBlocking_lost limit late _ pending []
  | ready limit done =>
    refine (drainReady_lost limit done pending [] []).trans ?_
    cases limit <;> rfl

/-- A drain loses nothing exactly if it is undivided. -/
theorem drain_lost_iff (s : State) (call : DrainCall) :
    (drain ends s.pending call).lost = [] ↔ Undivided ends s (.drain call) := by
  rw [drain_lost]
  exact divided_eq_nil_iff _ _

end FerricStore.WorkerCompletions
