import FerricStore.KeepAlivePoolSteps

/-!
# Runs of the keep-alive pool

Every connection that was created is idle, handed out, about to be closed or closed, and it
is so once and under its key.
-/

set_option autoImplicit false

namespace FerricStore.KeepAlivePool

variable {K C : Type}

section
variable [DecidableEq K]

theorem move_new_nodup {p q : Pool K C} {call : Call K C} {calls : List (Call K C)}
    {new gone : List (K × C)} (h : Move p call q calls new gone) :
    (new.map Prod.snd).Nodup := by
  cases h <;> simp

/-- The invariant of every run. -/
structure Balanced (maxConnections : ℕ) (s : State K C) : Prop where
  conserved : (s.idle : Multiset (K × C))+s.leased+s.leaving+s.closed = s.created
  distinct : (s.created.map Prod.snd).Nodup
  counted : s.pool.totalConnections = s.idle.length+s.leased.length
  bounded : s.pool.totalConnections ≤ maxConnections
  filled : ∀ e ∈ s.pool.idle, e.2 ≠ []
  shut : s.pool.closed = true → s.pool.idle = []
  bound : s.pool.maxConnections = maxConnections

theorem Balanced.step {n : ℕ} {s t : State K C} (h : Balanced n s) (hstep : Step s t) :
    Balanced n t := by
  cases hstep with
  | @start p call before after created closed hstart =>
    have hnone : call.leased = [] ∧ call.leaving = [] := by
      cases call <;> first | exact ⟨rfl, rfl⟩ | cases hstart
    have hleased : State.leased ⟨p, before++call::after, created, closed⟩ =
        State.leased ⟨p, before++after, created, closed⟩ := by
      simp [State.leased, hnone]
    have hleaving : State.leaving ⟨p, before++call::after, created, closed⟩ =
        State.leaving ⟨p, before++after, created, closed⟩ := by
      simp [State.leaving, hnone]
    refine ⟨?_, h.distinct, ?_, h.bounded, h.filled, h.shut, h.bound⟩
    · rw [hleased, hleaving]
      exact h.conserved
    · rw [hleased]
      exact h.counted
  | @move p q call calls before after created new closed gone hmove hnew =>
    have hspec := move_spec hmove
    have hconserved := h.conserved
    have hcounted := h.counted
    simp only [State.idle, State.leased, State.leaving, List.flatMap_append, List.flatMap_cons,
      ← Multiset.coe_add] at hconserved
    simp only [State.idle, State.leased, List.flatMap_append, List.flatMap_cons,
      List.length_append] at hcounted
    have hbound : q.maxConnections = n := hspec.sameBound.trans h.bound
    refine ⟨?_, ?_, ?_, ?_, hspec.filled h.filled, hspec.shut h.shut, hbound⟩
    · simp only [State.idle, State.leased, State.leaving, List.flatMap_append,
        ← Multiset.coe_add, ← hconserved]
      calc
        _ = ((idleConnections q.idle : Multiset (K × C))+calls.flatMap Call.leased+
            calls.flatMap Call.leaving+gone)+before.flatMap Call.leased+
            after.flatMap Call.leased+before.flatMap Call.leaving+after.flatMap Call.leaving+
            closed := by abel
        _ = _ := by
          rw [← hspec.moved]
          abel
    · simp only [List.map_append]
      refine List.nodup_append.mpr ⟨h.distinct, move_new_nodup hmove, fun a ha b hb heq => ?_⟩
      obtain ⟨e, he, rfl⟩ := List.mem_map.mp hb
      exact hnew e he (heq ▸ ha)
    · have hmoved := hspec.counted
      simp only [State.idle, State.leased, List.flatMap_append, List.length_append]
      push_cast at hcounted ⊢
      omega
    · have hle := hspec.bounded (h.bound ▸ h.bounded)
      rw [hbound] at hle
      exact hle

omit [DecidableEq K] in
theorem Balanced.init (n : ℕ) : Balanced n (⟨.init n, [], [], []⟩ : State K C) :=
  ⟨rfl, List.nodup_nil, rfl, Int.natCast_nonneg n, nofun, fun _ => rfl, rfl⟩

theorem Reachable.balanced {n : ℕ} {s : State K C} (h : Reachable n s) : Balanced n s :=
  Transitions.invariant (fun _ _ hs hst => hs.step hst) (.init n) h

theorem step_closed {s t : State K C} (hclosed : s.pool.closed = true) (h : Step s t) :
    t.pool.closed = true := by
  cases h with
  | start => exact hclosed
  | move hmove => exact (move_spec hmove).staysClosed hclosed

omit [DecidableEq K] in
/-- Every created connection is in one place. -/
theorem Balanced.perm {n : ℕ} {s : State K C} (h : Balanced n s) :
    (s.idle++s.leased++s.leaving++s.closed).Perm s.created := by
  refine Multiset.coe_eq_coe.mp ?_
  simpa only [Multiset.coe_add] using h.conserved

/-- In every interleaving: the counter is the number of idle and handed out connections and
within its bounds; every connection is idle, handed out, about to be closed or closed, in
one place and once, under the key it was created for; no deque is empty; and from a closed
pool on no connection is idle. -/
theorem pool_accounts_connections {n : ℕ} {s : State K C} (h : Reachable n s) :
    s.pool.totalConnections = s.idle.length+s.leased.length ∧
    0 ≤ s.pool.totalConnections ∧ s.pool.totalConnections ≤ n ∧
    ((s.idle++s.leased++s.leaving++s.closed).map Prod.snd).Nodup ∧
    (∀ e, e ∈ s.created ↔ e ∈ s.idle++s.leased++s.leaving++s.closed) ∧
    (∀ c key key', (key, c) ∈ s.leased → (key', c) ∈ s.created → key = key') ∧
    (∀ e ∈ s.pool.idle, e.2 ≠ []) ∧
    ∀ t, s.pool.closed = true → Relation.ReflTransGen Step s t →
      t.pool.closed = true ∧ t.idle = [] := by
  have hbalanced := h.balanced
  have hperm := hbalanced.perm
  refine ⟨hbalanced.counted, ?_, hbalanced.bounded, ?_, fun e => hperm.mem_iff.symm,
    fun c key key' hleased hcreated => ?_, hbalanced.filled, fun t hclosed hrun => ?_⟩
  · rw [hbalanced.counted]
    positivity
  · exact (hperm.map Prod.snd).nodup_iff.mpr hbalanced.distinct
  · have hleased' : (key, c) ∈ s.created := hperm.subset (by simp [hleased])
    exact congrArg Prod.fst (List.inj_on_of_nodup_map hbalanced.distinct hleased' hcreated rfl)
  · have hstays := Transitions.invariant (I := fun u => u.pool.closed = true)
      (fun _ _ hs hst => step_closed hs hst) hclosed hrun
    have hidle := (Reachable.balanced (h.trans hrun)).shut hstays
    exact ⟨hstays, by simp [State.idle, hidle, idleConnections]⟩

end

theorem lone_step [DecidableEq K] {p q : Pool K C} {call : Call K C} {calls : List (Call K C)}
    {created new closed gone : List (K × C)} (h : Move p call q calls new gone)
    (hnew : ∀ e ∈ new, e.2 ∉ created.map Prod.snd) :
    Step ⟨p, [call], created, closed⟩ ⟨q, calls, created++new, closed++gone⟩ := by
  have hstep := @Step.move K C _ p q call calls [] [] created new closed gone h hnew
  rwa [List.nil_append, List.nil_append, List.append_nil] at hstep

/-- A pool of one connection whose only request gave its connection back. -/
def restedState : State ℕ ℕ := ⟨⟨1, [(5, [7])], 1, false⟩, [], [(5, 7)], []⟩

theorem restedState_reachable : Reachable 1 restedState := by
  have htaken : takeOrCreate (.init 1) 5 (some 7) =
      ⟨.created 7, (⟨1, [], 1, false⟩ : Pool ℕ ℕ), []⟩ := by
    simp [takeOrCreate, Pool.init, takeIdle]
  have hmove := Move.created (congrArg Pass.taken htaken)
  rw [htaken] at hmove
  have hstart : Step (⟨.init 1, [], [], []⟩ : State ℕ ℕ) ⟨.init 1, [.acquiring 5], [], []⟩ :=
    @Step.start ℕ ℕ _ _ _ [] [] _ _ rfl
  exact .tail (.tail (.tail (.tail .refl hstart) (lone_step hmove (by simp)))
    (lone_step (.done _ 5 7 true) (by simp))) (lone_step (.kept rfl) (by simp))

theorem pool_accounts_connections_rested :
    restedState.pool.totalConnections = restedState.idle.length+restedState.leased.length ∧
      restedState.idle = [(5, 7)] :=
  ⟨(pool_accounts_connections restedState_reachable).1, rfl⟩

end FerricStore.KeepAlivePool
