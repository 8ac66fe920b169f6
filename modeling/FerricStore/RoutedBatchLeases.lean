import FerricStore.Stateful
import FerricStore.RoutedBatchLedger

/-!
# Leasing an endpoint

Whatever other threads do, leasing an endpoint adds one lease of that endpoint to the trace
as its last event, or raises and adds none. The branches that wait for or create the adapter
give back their reservation on the way out.
-/

set_option autoImplicit false

namespace FerricStore.RoutedBatch
open Stateful EndpointLifecycle
open TopologyRetry (Exn)

section Calls

variable {σ κ α τ ρ μ π β γ : Type} (host : Host σ κ α τ ρ μ π)

/-- A section under the lock adds its events, and leaves the local variables. -/
theorem locked_contract (K : Except Exn β → Locals κ α π → List (Event κ α τ μ) → Prop)
    {f : σ → Shared κ α τ → Except Exn β × Shared κ α τ × List (Event κ α τ μ)}
    {P : World σ κ α τ μ π → Prop}
    (h : ∀ w, P w → ∀ e s, K (f e s).1 w.locals (w.trace++(f e s).2.2)) :
    Contract P (locked host f) (fun a w => K (.ok a) w.locals w.trace)
      (fun e w => K (.error e) w.locals w.trace) := by
  intro w hw
  have hr := h w hw (host.yield (w.env, w.shared)).1 (host.yield (w.env, w.shared)).2
  unfold locked lift
  simp only
  cases hf : (f (host.yield (w.env, w.shared)).1 (host.yield (w.env, w.shared)).2).1 with
  | ok a =>
    rw [hf] at hr
    exact hr
  | error e =>
    rw [hf] at hr
    exact hr

variable (J : Locals κ α π → List (Event κ α τ μ) → Prop)

/-- What a computation leaves as it was. -/
def Keeps (x : Run σ κ α τ μ π β) : Prop :=
  Contract (fun w => J w.locals w.trace) x (fun _ w => J w.locals w.trace)
    (fun _ w => J w.locals w.trace)

theorem external_keeps (f : External σ κ α τ β) : Keeps J (external f : Run σ κ α τ μ π β) := by
  intro w hw
  simp only [external, lift]
  cases (f (w.env, w.shared)).1 with
  | ok a => exact hw
  | error e => exact hw

theorem lift_keeps (x : Except Exn β) :
    Contract (fun w => J w.locals w.trace) (lift x : Run σ κ α τ μ π β)
      (fun a w => x = .ok a ∧ J w.locals w.trace) (fun _ w => J w.locals w.trace) := by
  intro w hw
  cases x with
  | ok a => exact ⟨rfl, hw⟩
  | error e => exact hw

theorem locked_keeps {f : σ → Shared κ α τ → Except Exn β × Shared κ α τ × List (Event κ α τ μ)}
    (h : ∀ e s, (f e s).2.2 = []) : Keeps J (locked host f) := by
  refine locked_contract host (fun _ => J) fun w hw e s => ?_
  rw [h e s, List.append_nil]
  exact hw

theorem Keeps.bind {x : Run σ κ α τ μ π β} {f : β → Run σ κ α τ μ π γ} (hx : Keeps J x)
    (hf : ∀ a, Keeps J (f a)) : Keeps J (x >>= f) := Contract.bind hx hf

theorem cleanup_keeps (adapters : List α) : Keeps J (cleanup host adapters) :=
  external_keeps J _

/-- A handler that leaves things as they were does not matter. -/
theorem cleaning_contract {x : Run σ κ α τ μ π β} {handler : Run σ κ α τ μ π Unit}
    {Q : β → World σ κ α τ μ π → Prop} {P : World σ κ α τ μ π → Prop}
    (hx : Contract P x Q (fun _ w => J w.locals w.trace)) (hh : Keeps J handler) :
    Contract P (cleaning x handler) Q (fun _ w => J w.locals w.trace) := by
  refine hx.handle fun e => ?_
  split_ifs
  · exact Contract.throw fun _ h => h
  · exact Contract.bind hh fun _ => Contract.throw fun _ h => h

end Calls

section Leases

variable {σ κ α τ ρ μ π : Type} (host : Host σ κ α τ ρ μ π)
  (J : Locals κ α π → List (Event κ α τ μ) → Prop)

/-- The last event takes a lease of the endpoint. -/
def Took (key : κ) (lease : Lease κ α) (w : World σ κ α τ μ π) : Prop :=
  lease.key = key ∧ ∃ t, w.trace = t++[Event.leased lease] ∧ J w.locals t

theorem acquire_key [DecidableEq κ] [DecidableEq α] {s : Lifecycle κ α} {key : κ} {adapter : Option α} {lease : Lease κ α}
    (h : (s.acquire key adapter).1 = some lease) : lease.key = key := by
  cases adapter with
  | none =>
    simp only [Lifecycle.acquire] at h
    cases hget : s.get key with
    | mk found life =>
      rw [hget] at h
      cases found with
      | none => cases h
      | some a =>
        cases h
        rfl
  | some a =>
    simp only [Lifecycle.acquire] at h
    split_ifs at h
    cases h
    rfl

/-- A section ends with a lease of the endpoint and its event, or without both. -/
def Grants {β : Type} (key : κ) (wrap : Lease κ α → β)
    (r : Except Exn β × Shared κ α τ × List (Event κ α τ μ)) : Prop :=
  (∃ lease, lease.key = key ∧ r.1 = .ok (wrap lease) ∧ r.2.2 = [.leased lease]) ∨
    (∀ lease, r.1 ≠ .ok (wrap lease)) ∧ r.2.2 = []

theorem granted_grants {β : Type} (key : κ) (wrap : Lease κ α → β) (s : Shared κ α τ)
    {r : Option (Lease κ α) × Lifecycle κ α} (h : ∀ lease, r.1 = some lease → lease.key = key) :
    Grants key wrap (mapResult wrap (granted s r : _ × _ × List (Event κ α τ μ))) := by
  obtain ⟨found, life⟩ := r
  cases found with
  | some lease => exact .inl ⟨lease, h lease rfl, rfl, rfl⟩
  | none => exact .inr ⟨fun _ h => (nomatch h), rfl⟩

theorem ifCurrent_grants {β : Type} {key : κ} {wrap : Lease κ α → β} {expected : ℕ}
    {s : Shared κ α τ} {r : Except Exn β × Shared κ α τ × List (Event κ α τ μ)}
    (h : Grants key wrap r) : Grants key wrap (ifCurrent expected s r) := by
  unfold ifCurrent
  split_ifs
  · exact .inr ⟨fun _ h => (nomatch h), rfl⟩
  · exact .inr ⟨fun _ h => (nomatch h), rfl⟩
  · exact h

/-- A section that may take a lease. -/
theorem grants_contract {β : Type} (key : κ) (wrap : Lease κ α → β)
    {f : σ → Shared κ α τ → Except Exn β × Shared κ α τ × List (Event κ α τ μ)}
    (h : ∀ e s, Grants key wrap (f e s)) :
    Contract (fun w => J w.locals w.trace) (locked host f)
      (fun b w => (∃ lease, b = wrap lease ∧ Took J key lease w) ∨
        (∀ lease, b ≠ wrap lease) ∧ J w.locals w.trace)
      (fun _ w => J w.locals w.trace) := by
  refine (locked_contract host (fun r l t => Except.casesOn r (fun _ => J l t) fun b =>
      (∃ lease, b = wrap lease ∧ lease.key = key ∧ ∃ u, t = u++[Event.leased lease] ∧ J l u) ∨
        (∀ lease, b ≠ wrap lease) ∧ J l t) fun w hw e s => ?_).weaken (fun _ hw => hw)
      (fun _ _ hw => hw) fun _ _ hw => hw
  rcases h e s with ⟨lease, hkey, hok, hevents⟩ | ⟨hnone, hevents⟩
  · rw [hok, hevents]
    exact .inl ⟨lease, rfl, hkey, w.trace, rfl, hw⟩
  · rw [hevents, List.append_nil]
    cases hr : (f e s).1 with
    | ok b => exact .inr ⟨fun lease heq => hnone lease (hr.trans (congrArg _ heq)), hw⟩
    | error e => exact hw

variable [DecidableEq κ] [DecidableEq α]

theorem cancelReservation_keeps (key : κ) (created : Bool) :
    Keeps J (cancelReservation host key created) :=
  (locked_keeps host J fun _ _ => rfl).bind J fun _ => cleanup_keeps host J _

theorem enterAdapterForKey_contract (key : κ) (expected : ℕ) :
    Contract (fun w => J w.locals w.trace) (enterAdapterForKey host key expected)
      (fun r w => (∃ lease, r = .inl lease ∧ Took J key lease w) ∨
        (∀ lease, r ≠ .inl lease) ∧ J w.locals w.trace)
      (fun _ w => J w.locals w.trace) := by
  refine grants_contract host J key Sum.inl fun e s => ifCurrent_grants ?_
  cases s.life.get key with
  | mk found life =>
    cases found with
    | some adapter => exact granted_grants key Sum.inl s fun _ h => acquire_key h
    | none => exact .inr ⟨fun _ h => (nomatch h), rfl⟩

theorem awaitAdapter_contract (key : κ) (expected : ℕ) :
    Contract (fun w => J w.locals w.trace) (awaitAdapter host key expected) (Took J key)
      (fun _ w => J w.locals w.trace) := by
  refine Contract.bind (cleaning_contract J (external_keeps J _)
    (cancelReservation_keeps host J key false)) fun adapter => ?_
  refine Contract.bind (grants_contract host J key Sum.inl fun e s => ?_) fun r => ?_
  · simp only
    split_ifs
    · exact .inr ⟨fun _ h => (nomatch h), rfl⟩
    · exact granted_grants key Sum.inl s fun _ h => acquire_key h
  · cases r with
    | inl lease =>
      refine Contract.pure ?_
      rintro w (⟨other, heq, htook⟩ | ⟨hne, -⟩)
      · cases heq
        exact htook
      · exact absurd rfl (hne lease)
    | inr ready =>
      refine Contract.bind (Q := fun _ w => J w.locals w.trace)
        ((cleanup_keeps host J _).weaken ?_ (fun _ _ h => h) fun _ _ h => h)
          fun _ => Contract.throw fun _ h => h
      rintro w (⟨other, heq, -⟩ | ⟨-, hw⟩)
      · cases heq
      · exact hw

theorem installAdapter_contract (key : κ) (expected : ℕ) (candidate : α) (fuel : ℕ) :
    Contract (fun w => J w.locals w.trace) (installAdapter host key expected candidate fuel)
      (Took J key) (fun _ w => J w.locals w.trace) := by
  induction fuel with
  | zero => exact Contract.throw fun _ h => h
  | succ fuel ih =>
    have hseen : Keeps J (locked host fun _ s =>
        ifCurrent expected s (.ok s.subscriptionGeneration, s, [])) := by
      refine locked_keeps host J fun e s => ?_
      unfold ifCurrent
      split_ifs <;> rfl
    refine Contract.bind hseen fun seen => ?_
    refine Contract.bind (external_keeps J _) fun _ => ?_
    refine Contract.bind (grants_contract host J key some fun e s => ifCurrent_grants ?_)
      fun r => ?_
    · split_ifs
      · exact .inr ⟨fun _ h => (nomatch h), rfl⟩
      · exact granted_grants key some _ fun _ h => acquire_key h
    · cases r with
      | some lease =>
        refine Contract.pure ?_
        rintro w (⟨other, heq, htook⟩ | ⟨hne, -⟩)
        · cases heq
          exact htook
        · exact absurd rfl (hne lease)
      | none =>
        refine ih.weaken ?_ (fun _ _ h => h) fun _ _ h => h
        rintro w (⟨other, heq, -⟩ | ⟨-, hw⟩)
        · cases heq
        · exact hw

theorem createAdapter_contract (fuel : ℕ) (route : ρ) (key : κ) (expected : ℕ) :
    Contract (fun w => J w.locals w.trace) (createAdapter host fuel route key expected)
      (Took J key) (fun _ w => J w.locals w.trace) := by
  refine cleaning_contract J ?_ (cancelReservation_keeps host J key true)
  refine Contract.bind (external_keeps J _) fun candidate => ?_
  refine cleaning_contract J ?_ (cleanup_keeps host J [candidate])
  exact Contract.bind (external_keeps J _) fun _ =>
    installAdapter_contract host J key expected candidate fuel

/-- One lease of the endpoint of the route is taken, or none. -/
theorem leasedAdapterForEndpoint_contract (fuel : ℕ) (route : ρ) (generation : ℕ) :
    Contract (fun w => J w.locals w.trace) (leasedAdapterForEndpoint host fuel route generation)
      (fun lease w => host.endpointKey route = .ok lease.key ∧ Took J lease.key lease w)
      (fun _ w => J w.locals w.trace) := by
  refine Contract.bind (external_keeps J _) fun _ => ?_
  refine (lift_keeps J _).bind fun key => Contract.assuming fun hkey => ?_
  have htook : ∀ (lease : Lease κ α) (w : World σ κ α τ μ π), Took J key lease w →
      host.endpointKey route = .ok lease.key ∧ Took J lease.key lease w := by
    rintro lease w ⟨hlease, hw⟩
    exact ⟨hlease ▸ hkey, rfl, hw⟩
  refine (enterAdapterForKey_contract host J key generation).bind fun r => ?_
  have hinr : ∀ {b : Bool} {x : Run σ κ α τ μ π (Lease κ α)}, r = .inr b →
      Contract (fun w => J w.locals w.trace) x (Took J key) (fun _ w => J w.locals w.trace) →
      Contract (fun w => (∃ lease, r = .inl lease ∧ Took J key lease w) ∨
        (∀ lease, r ≠ .inl lease) ∧ J w.locals w.trace) x
        (fun lease w => host.endpointKey route = .ok lease.key ∧ Took J lease.key lease w)
        (fun _ w => J w.locals w.trace) := by
    intro b x hr hx
    refine hx.weaken ?_ htook fun _ _ h => h
    rintro w (⟨lease, heq, -⟩ | ⟨-, hw⟩)
    · rw [hr] at heq
      cases heq
    · exact hw
  match r with
  | .inl lease =>
    refine Contract.pure ?_
    rintro w (⟨other, heq, hw⟩ | ⟨hne, -⟩)
    · cases heq
      exact htook _ w hw
    · exact absurd rfl (hne lease)
  | .inr true => exact hinr rfl (createAdapter_contract host J fuel route key generation)
  | .inr false => exact hinr rfl (awaitAdapter_contract host J key generation)

end Leases

end FerricStore.RoutedBatch
