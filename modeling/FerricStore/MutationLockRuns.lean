import FerricStore.MutationLockSteps
import FerricStore.Transitions

/-!
# Runs of calls under mutation locks

A request changes only what its own call owns, so every call stands as its steps left it,
whatever the others do. Exclusion, the order of the waits and the cleanup follow from what
the calls own.
-/

set_option autoImplicit false

namespace FerricStore.MutationLocks

variable {I K E R : Type}

/-- What a call holds at the server. -/
def System.owned (s : System I K E R) (i : I) : Set K := {k | s.holder k = some i}

section
variable [DecidableEq I]

theorem handle_served [DecidableEq K] (holder : K → Option I) (i : I) (request : Request K) :
    served {k | holder k = some i} {k | (handle holder i request).2 k = some i}
      (handle holder i request).1 request := by
  cases request with
  | lock key =>
    cases hkey : holder key with
    | none =>
      simp only [handle, hkey, served, if_true]
      ext k
      by_cases hk : k = key
      · simp [hk]
      · simp [hk]
    | some j =>
      by_cases hj : j = i
      · simp [handle, hkey, served, hj]
      · simp [handle, hkey, served, hj]
  | unlock key =>
    simp only [handle, served]
    split_ifs with hkey
    · ext k
      by_cases hk : k = key
      · simp [hk]
      · simp [hk]
    · refine (Set.sdiff_singleton_eq_self ?_).symm
      exact hkey

/-- A request leaves what other calls hold. -/
theorem handle_other [DecidableEq K] (holder : K → Option I) {i j : I} (hne : j ≠ i)
    (request : Request K) (k : K) :
    (handle holder i request).2 k = some j ↔ holder k = some j := by
  cases request with
  | lock key =>
    cases hkey : holder key with
    | none =>
      by_cases hk : k = key
      · simp [handle, hkey, hk, hne.symm]
      · simp [handle, hkey, hk]
    | some l => simp [handle, hkey]
  | unlock key =>
    simp only [handle]
    split_ifs with hkey
    · by_cases hk : k = key
      · simp [hk, hkey, hne.symm]
      · simp [hk]
    · rfl

end

section
variable [LinearOrder K] {keys : I → List K}

def Orderly (keys : I → List K) (s : System I K E R) : Prop :=
  ∀ i, Fits (lockKeys (keys i)) (s.owned i) (s.calls i)

theorem Orderly.init : Orderly keys (.init : System I K E R) :=
  fun _ => .fresh (by simp [System.owned, System.init])

variable [DecidableEq I]

theorem Orderly.step {s t : System I K E R} (h : Orderly keys s) (hstep : Step keys s t) :
    Orderly keys t := by
  intro j
  cases hstep with
  | @call i c hcall =>
    by_cases hj : j = i
    · subst hj
      simpa [System.owned] using (h j).step hcall
    · simpa [System.owned, hj] using h j
  | @serve i request reply hmem hreply =>
    by_cases hj : j = i
    · subst hj
      have hserved := handle_served s.holder j request
      rw [← hreply] at hserved
      simpa [System.owned] using (h j).deliver hmem hserved
    · simpa [System.owned, hj, handle_other s.holder hj] using h j
  | @deny i key reply hmem hreply =>
    by_cases hj : j = i
    · subst hj
      have hserved : served (s.owned j) (s.owned j) (trySyncLock reply) (.lock key) := by
        simp [served, hreply]
      simpa [System.owned] using (h j).deliver hmem hserved
    · simpa [System.owned, hj] using h j

theorem Reached.orderly {s : System I K E R} (h : Reached keys s) : Orderly keys s :=
  Transitions.invariant (fun _ _ hs hst => hs.step hst) .init h

end

section
variable [LinearOrder K]

/-- An operation runs while its call owns all its keys. -/
theorem Fits.owned_of_runs {keys : List K} {owned : Set K} {c : Call K E R}
    (h : Fits (lockKeys keys) owned c) (hruns : c.phase.runs) {k : K} (hk : k ∈ keys) :
    k ∈ owned := by
  have hordered := mem_lockKeys.mpr hk
  cases h with
  | direct hempty => rw [hempty] at hordered; cases hordered
  | operating howned => rw [howned]; exact hordered
  | _ => cases hruns

theorem lt_of_before {keys a rest : List K} {k l : K} (h : a++k::rest = lockKeys keys)
    (hl : l ∈ a) : l < k := by
  have hsorted := lockKeys_sorted keys
  rw [← h, List.pairwise_append] at hsorted
  exact hsorted.2.2 l hl k List.mem_cons_self

/-- A call waits for a key above all that it owns. -/
theorem Fits.lt_of_wants {keys : List K} {owned : Set K} {c : Call K E R}
    (h : Fits (lockKeys keys) owned c) {k l : K} (hwants : c.phase.wants = some k)
    (hl : l ∈ owned) : l < k := by
  cases h with
  | asking hordered howned =>
    obtain rfl := Option.some.inj hwants
    subst howned
    exact lt_of_before hordered hl
  | granted _ hreply => simp [Phase.wants, hreply] at hwants
  | denied hordered hreply howned =>
    simp only [Phase.wants, hreply, Bool.false_eq_true, if_false, Option.some.injEq] at hwants
    subst hwants
    subst howned
    exact lt_of_before hordered hl
  | refused hordered howned =>
    obtain rfl := Option.some.inj hwants
    subst howned
    exact lt_of_before hordered hl
  | _ => cases hwants

end

/-- A call that has returned or raised. -/
structure Left (s : System I K E R) (i : I) (out : Except (Failure K E) R) : Prop where
  /-- An `UNLOCK` for exactly the keys whose `LOCK` succeeded, each once. -/
  unlocks_eq : unlocks (s.calls i).log = (locks (s.calls i).log).reverse
  once : (unlocks (s.calls i).log).Nodup
  /-- A key whose `UNLOCK` returned is held no more. -/
  freed : ∀ k, Event.unlocked k ∈ (s.calls i).log → s.holder k ≠ some i
  /-- The body ended once, and its own error is raised. -/
  ended : ∃ result, endings (s.calls i).log = [result] ∧
    (∀ f, result = .error f → out = .error f) ∧
    ∀ value, result = .ok value → out = .ok value ∨
      (∃ key reason, out = .error (.leaseLost key reason)) ∨ ∃ e, out = .error (.command e)

theorem outcome_ok (value : R) (lost : Option (K × String)) (released : Option E) :
    outcome (.ok value) lost released = .ok value ∨
      (∃ key reason, outcome (.ok value : Except (Failure K E) R) lost released =
        .error (.leaseLost key reason)) ∨
      ∃ e, outcome (.ok value : Except (Failure K E) R) lost released = .error (.command e) := by
  rcases lost with _ | ⟨key, reason⟩
  · cases released with
    | none => exact .inl rfl
    | some e => exact .inr (.inr ⟨e, rfl⟩)
  · exact .inr (.inl ⟨key, reason, rfl⟩)

variable [LinearOrder K] {keys : I → List K}

theorem Orderly.left {s : System I K E R} (h : Orderly keys s) {i : I}
    {out : Except (Failure K E) R} (hout : (s.calls i).phase = .finished out) :
    Left s i out := by
  have hfits := h i
  generalize hc : s.calls i = c at hfits hout
  cases hfits with
  | @finished sent lost released result _ w log hleaving heq =>
    obtain rfl := Phase.finished.inj hout
    have hsplit := hleaving.split
    rw [List.append_nil] at hsplit
    have hnodup := hleaving.nodup (lockKeys_nodup _)
    rw [List.append_nil] at hnodup
    refine ⟨?_, ?_, fun k hk => ?_, result, ?_, ?_, ?_⟩
    · rw [hc, hleaving.unlocks_eq, hsplit]
    · rw [hc, hleaving.unlocks_eq]
      exact hnodup
    · rw [hc] at hk
      exact (hleaving.freed k hk).2
    · rw [hc]
      exact hleaving.endings_eq
    · rintro f rfl
      exact heq
    · rintro value rfl
      rw [heq]
      exact outcome_ok value lost released
  | _ => cases hout

variable [DecidableEq I]

/-- In every interleaving of calls: operations that share a key never run at the same time,
an operation runs while its call holds all its keys, nobody waits in a circle since a call
waits only for a key above those it holds, and a call that has ended has sent an `UNLOCK` for
each key it locked and raised the error of its body. -/
theorem locks_guard_operations {s : System I K E R} (h : Reached keys s) :
    (∀ i j, i ≠ j → (s.calls i).phase.runs → (s.calls j).phase.runs →
      List.Disjoint (keys i) (keys j)) ∧
    (∀ i, (s.calls i).phase.runs → ∀ k ∈ keys i, s.holder k = some i) ∧
    (∀ i k l, (s.calls i).phase.wants = some k → s.holder l = some i → l < k) ∧
    (∀ i, ¬Relation.TransGen (LockOrder.WaitsFor (fun j k => (s.calls j).phase.wants = some k)
      fun j k => s.holder k = some j) i i) ∧
    ∀ i out, (s.calls i).phase = .finished out → Left s i out := by
  have horderly := h.orderly
  have hholds : ∀ i, (s.calls i).phase.runs → ∀ k ∈ keys i, s.holder k = some i :=
    fun i hruns k hk => (horderly i).owned_of_runs hruns hk
  have hascending : LockOrder.Ascending (fun i k => (s.calls i).phase.wants = some k)
      fun i k => s.holder k = some i :=
    fun i k l hwants hl => (horderly i).lt_of_wants hwants hl
  refine ⟨fun i j hne hi hj k hki hkj => hne ?_, hholds, hascending, hascending.acyclic,
    fun i out hout => horderly.left hout⟩
  exact Option.some.inj ((hholds i hi k hki).symm.trans (hholds j hj k hkj))

/-- Two calls that want the same two keys. -/
def contenders : Bool → List ℕ := fun _ => [2, 1, 2]

theorem contenders_ordered (i : Bool) : lockKeys (contenders i) = [1, 2] := by
  have hset : ([2, 1, 2] : List ℕ).toFinset = [1, 2].toFinset := by decide
  rw [lockKeys, contenders, hset]
  exact (List.toFinset_sort _ (by decide)).mpr (by decide)

def both (holder : ℕ → Option Bool) (c d : Call ℕ Unit Unit) : System Bool ℕ Unit Unit :=
  ⟨holder, fun i => if i then c else d⟩

@[simp] theorem update_both_first (holder : ℕ → Option Bool) (c c' d : Call ℕ Unit Unit) :
    Function.update (both holder c d).calls true c' = (both holder c' d).calls := by
  funext i
  cases i <;> rfl

@[simp] theorem update_both_second (holder : ℕ → Option Bool) (c d d' : Call ℕ Unit Unit) :
    Function.update (both holder c d).calls false d' = (both holder c d').calls := by
  funext i
  cases i <;> rfl

theorem both_first {holder : ℕ → Option Bool} {c c' d : Call ℕ Unit Unit}
    (h : CallStep (contenders true) c c') :
    Step contenders (both holder c d) (both holder c' d) := by
  have hstep : Step contenders (both holder c d) _ := .call (i := true) h
  rwa [update_both_first] at hstep

theorem both_second {holder : ℕ → Option Bool} {c d d' : Call ℕ Unit Unit}
    (h : CallStep (contenders false) d d') :
    Step contenders (both holder c d) (both holder c d') := by
  have hstep : Step contenders (both holder c d) _ := .call (i := false) h
  rwa [update_both_second] at hstep

theorem both_first_served {holder : ℕ → Option Bool} {c d : Call ℕ Unit Unit}
    {r : Request ℕ} {s : Option Value} (h : r ∈ c.inflight)
    (hreply : trySyncLock s = (handle holder true r).1) :
    Step contenders (both holder c d) (both (handle holder true r).2 (c.deliver r s) d) := by
  have hstep : Step contenders (both holder c d) _ := .serve (i := true) h hreply
  rwa [update_both_first] at hstep

theorem both_second_served {holder : ℕ → Option Bool} {c d : Call ℕ Unit Unit}
    {r : Request ℕ} {s : Option Value} (h : r ∈ d.inflight)
    (hreply : trySyncLock s = (handle holder false r).1) :
    Step contenders (both holder c d) (both (handle holder false r).2 c (d.deliver r s)) := by
  have hstep : Step contenders (both holder c d) _ := .serve (i := false) h hreply
  rwa [update_both_second] at hstep

/-- The first call has locked one key and asks for the other; the second was refused. -/
def contended : System Bool ℕ Unit Unit :=
  both (Function.update (fun _ => none) 1 (some true))
    ⟨.asking [1] 2 [], [.lock 2], [.locked 1]⟩ ⟨.refused [] 1 [2], [], []⟩

theorem contended_reached : Reached contenders contended := by
  have hstart : (System.init : System Bool ℕ Unit Unit) = both (fun _ => none) .fresh .fresh := by
    simp [System.init, both]
  have hfirst : Reached contenders (both (fun _ => none)
      (⟨.asking [] 1 [2], [.lock 1], []⟩ : Call ℕ Unit Unit)
      ⟨.asking [] 1 [2], [.lock 1], []⟩) := by
    unfold Reached
    rw [hstart]
    refine .tail (.tail (.tail (.tail .refl
      (both_first (.enter (by simp [contenders_ordered]))))
      (both_second (.enter (by simp [contenders_ordered]))))
      (both_first ?_)) (both_second ?_)
    · rw [contenders_ordered]
      exact .ask
    · rw [contenders_ordered]
      exact .ask
  have hserved : Reached contenders (both (Function.update (fun _ => none) 1 (some true))
      (⟨.answered [] 1 [2] (some (.bool true)), [], []⟩ : Call ℕ Unit Unit)
      ⟨.answered [] 1 [2] none, [], []⟩) := by
    refine .tail (.tail hfirst
      (both_first_served (r := .lock 1) (s := some (.bool true)) List.mem_cons_self rfl)) ?_
    exact both_second_served (r := .lock 1) (s := none) List.mem_cons_self rfl
  exact .tail (.tail (.tail hserved (both_first (.granted rfl))) (both_second (.denied rfl)))
    (both_first .ask)

/-- A reachable state in which the second call waits for the first. -/
theorem locks_guard_operations_contended :
    LockOrder.WaitsFor (fun j k => (contended.calls j).phase.wants = some k)
      (fun j k => contended.holder k = some j) false true ∧
    ¬Relation.TransGen (LockOrder.WaitsFor (fun j k => (contended.calls j).phase.wants = some k)
      fun j k => contended.holder k = some j) true true :=
  ⟨⟨1, rfl, rfl⟩, (locks_guard_operations contended_reached).2.2.2.1 true⟩

end FerricStore.MutationLocks
