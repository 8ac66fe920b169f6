import FerricStore.TopologyRetryContracts

/-!
# Commands are replayed only when that is safe

The loops of `execute_command` keep the contracts of their parts: an attempt holds its own
lease until it ends, and what comes after it is sent only with the permission to replay.
-/

set_option autoImplicit false

namespace FerricStore.TopologyRetry
open Stateful

section Attempts

variable {σ ρ ℓ κ β : Type} {rt : Runtime} {args : List Value} (host : Host σ ρ ℓ κ β)

/-- A leased endpoint is held, and nothing is held otherwise. -/
theorem lease_contract (route : ρ) :
    Contract (fun w : World σ ℓ β => Sound rt args none w ∧ Ready rt args w.trace)
      (tryCatch (some <$> call leaseEvents (host.leasedAdapterForEndpoint route))
        fun exc => if exc = .generationChanged then pure none else throw exc)
      (fun leased w => w.lease = none ∧ Ledger rt args leased w.trace ∧ Ready rt args w.trace)
      (Raised rt args none) := by
  refine Contract.handle (E := fun _ w => Sound rt args none w ∧ Ready rt args w.trace) ?_
    fun exc => ?_
  · refine Contract.map ((call_contract (fun r lease t => lease = none ∧
      Ledger rt args r.toOption t ∧ Ready rt args t) leaseEvents _).weaken ?_
        (fun _ _ h => h) (fun _ _ h => ⟨⟨h.1, h.2.1⟩, h.2.2⟩))
    rintro w ⟨⟨hlease, hledger⟩, hready⟩ r
    cases r with
    | ok l => exact ⟨hlease, hledger.lease l, hready.append (untouched_single rfl)⟩
    | error e =>
      rw [leaseEvents, List.append_nil]
      exact ⟨hlease, hledger, hready⟩
  · split_ifs
    · exact Contract.pure fun _ h => ⟨h.1.1, h.1.2, h.2⟩
    · exact Contract.throw fun _ h => ⟨h.1, .inl h.2⟩

/-- A route comes with a lease, and the command may be sent to it. -/
def Leased (rt : Runtime) (args : List Value) (r : β ⊕ ρ) (w : World σ ℓ β) : Prop :=
  match r with
  | .inl _ => ∃ held, Sound rt args held w
  | .inr _ => ∃ l, Sound rt args (some l) w ∧ Ready rt args w.trace

theorem leaseRoute_contract (fuel : ℕ) (route : ρ) :
    Contract (fun w : World σ ℓ β => Sound rt args none w ∧ Ready rt args w.trace)
      (leaseRoute rt host args fuel route) (Leased rt args) (Raised rt args none) := by
  induction fuel generalizing route with
  | zero => exact Contract.throw fun _ h => ⟨h.1, .inl h.2⟩
  | succ fuel ih =>
    refine (lease_contract host route).bind fun leased => ?_
    cases leased with
    | some l =>
      refine Contract.bind (Q := fun _ w => Sound rt args (some l) w ∧ Ready rt args w.trace)
        (fun w hw => ⟨⟨rfl, hw.2.1⟩, hw.2.2⟩) fun _ => ?_
      exact Contract.pure fun _ h => ⟨l, h⟩
    | none =>
      refine Contract.bind ((silent_contract (fun lease t => lease = none ∧
        Ledger rt args none t ∧ Ready rt args t) _).weaken (fun _ h => h) (fun _ _ h => h)
          fun _ w h => ⟨⟨h.1, h.2.1⟩, .inl h.2.2⟩) fun data => ?_
      cases data with
      | none =>
        exact Contract.map ((executeControlMethod_contract host).weaken
          (fun _ h => ⟨⟨h.1, h.2.1⟩, h.2.2⟩) (fun _ _ h => ⟨none, h⟩) fun _ _ h => h)
      | some route =>
        exact (ih route).weaken (fun _ h => ⟨⟨h.1, h.2.1⟩, h.2.2⟩) (fun _ _ h => h) fun _ _ h => h

theorem attemptBody_contract (fuel : ℕ) (route : ρ) :
    Contract (fun w : World σ ℓ β => Sound rt args none w ∧ Ready rt args w.trace)
      (attemptBody rt host args fuel route) (fun _ w => ∃ held, Sound rt args held w)
      (fun exc w => ∃ held, Raised rt args held exc w) := by
  refine Contract.bind ((leaseRoute_contract host fuel route).weaken (fun _ h => h)
    (fun _ _ h => h) fun _ _ h => ⟨none, h⟩) fun r => ?_
  cases r with
  | inl result => exact Contract.pure fun _ h => h
  | inr route =>
    rintro w ⟨l, hsound, hready⟩
    simp only [hsound.1]
    exact (dispatch_contract (host.executeProtocolCommand l route)).weaken (fun _ h => h)
      (fun _ _ h => ⟨some l, h⟩) (fun _ _ h => ⟨some l, h⟩) w ⟨hsound, hready⟩

/-- After an attempt: with a route, the command may be sent again. -/
def Resumes (rt : Runtime) (args : List Value) (r : β ⊕ ρ) (t : List (Event ℓ β)) : Prop :=
  match r with
  | .inl _ => True
  | .inr _ => Ready rt args t

theorem attemptHandler_contract (n : ℕ) (exc : Exn) :
    Contract (fun w => ∃ held, Raised rt args held exc w) (attemptHandler rt host args n exc)
      (fun r (w : World σ ℓ β) => ∃ held, Sound rt args held w ∧ Resumes rt args r w.trace)
      (fun _ w => ∃ held, Sound rt args held w) := by
  refine Contract.exists_of fun held => ?_
  refine Contract.weaken (Q := fun r w => Sound rt args held w ∧ Resumes rt args r w.trace)
    (E := Raised rt args held) ?_ (fun _ h => h) (fun _ _ h => ⟨held, h⟩) fun _ _ h => ⟨held, h.1⟩
  refine (raiseIf_contract _ fun _ h => h).bind fun _ => Contract.assuming fun _ => ?_
  refine (prepareReplay_contract host exc).bind fun _ => ?_
  refine Contract.bind ((silent_contract (fun lease t => (lease = held ∧
    Ledger rt args held t) ∧ Ready rt args t) _).weaken (fun _ h => h) (fun _ _ h => h)
      fun _ _ h => ⟨h.1, .inl h.2⟩) fun data => ?_
  cases data with
  | none =>
    exact Contract.map ((executeOnControl_contract host).weaken (fun _ h => h)
      (fun _ _ h => ⟨h, trivial⟩) fun _ _ h => h)
  | some route => exact Contract.pure fun _ h => h

/-- The lease that is held is returned, whatever the release ends with. -/
theorem releaseLease_contract (K : List (Event ℓ β) → Prop)
    (hK : ∀ t l, K t → K (t++[Event.release l])) :
    Contract (fun w : World σ ℓ β => ∃ held, Sound rt args held w ∧ K w.trace)
      (releaseLease host) (fun _ w => Ledger rt args none w.trace ∧ K w.trace)
      (fun _ w => Ledger rt args none w.trace) := by
  rintro w ⟨held, ⟨hlease, hledger⟩, hw⟩
  unfold releaseLease
  rw [hlease]
  cases held with
  | none => exact ⟨hledger, hw⟩
  | some l =>
    exact (call_contract (fun _ _ t => Ledger rt args none t ∧ K t) (fun _ => [.release l])
      (host.releaseAdapterLease l)).weaken (fun _ h => h) (fun _ _ h => h) (fun _ _ h => h.1) w
        fun _ => ⟨hledger.release, hK _ l hw⟩

theorem attempt_contract (fuel n : ℕ) (route : ρ) :
    Contract (fun w => Ledger rt args none w.trace ∧ Ready rt args w.trace)
      (attempt rt host args fuel n route)
      (fun r (w : World σ ℓ β) => Ledger rt args none w.trace ∧ Resumes rt args r w.trace)
      (fun _ w => Ledger rt args none w.trace) := by
  refine Contract.bind (Q := fun _ w => Sound rt args none w ∧ Ready rt args w.trace)
    (fun w hw => ⟨⟨rfl, hw.1⟩, hw.2⟩) fun _ => ?_
  have hbody : Contract (fun w : World σ ℓ β => Sound rt args none w ∧ Ready rt args w.trace)
      (Sum.inl <$> attemptBody rt host args fuel route)
      (fun r w => ∃ held, Sound rt args held w ∧ Resumes rt args (r : β ⊕ ρ) w.trace)
      (fun exc w => ∃ held, Raised rt args held exc w) :=
    Contract.map ((attemptBody_contract host fuel route).weaken (fun _ h => h)
      (fun _ _ h => h.imp fun _ hsound => ⟨hsound, trivial⟩) fun _ _ h => h)
  refine Contract.always (Contract.handle hbody (attemptHandler_contract host n))
    (fun r => ?_) fun e => ?_
  · refine releaseLease_contract host (Resumes rt args r) fun t l h => ?_
    cases r with
    | inl result => trivial
    | inr route => exact Ready.append h (untouched_single rfl)
  · exact (releaseLease_contract host (fun _ => True) fun _ _ h => h).weaken
      (fun _ h => h.imp fun _ hsound => ⟨hsound, trivial⟩) (fun _ _ h => h.1) fun _ _ h => h

theorem attempts_contract (fuel : ℕ) (ns : List ℕ) (route : ρ) :
    Contract (fun w => Ledger rt args none w.trace ∧ Ready rt args w.trace)
      (attempts rt host args fuel ns route)
      (fun _ (w : World σ ℓ β) => Ledger rt args none w.trace)
      (fun _ w => Ledger rt args none w.trace) := by
  induction ns generalizing route with
  | nil => exact Contract.throw fun _ h => h.1
  | cons n ns ih =>
    refine (attempt_contract host fuel n route).bind fun r => ?_
    cases r with
    | inl result => exact Contract.pure fun _ h => h.1
    | inr route => exact ih route

theorem executeCommand_contract (fuel : ℕ) :
    Contract (fun w : World σ ℓ β => Sound rt args none w ∧ Ready rt args w.trace)
      (executeCommand rt host args fuel) (fun _ w => Ledger rt args none w.trace)
      (fun _ w => Ledger rt args none w.trace) := by
  refine Contract.bind ((silent_contract (fun lease t => (lease = none ∧
    Ledger rt args none t) ∧ Ready rt args t) _).weaken (fun _ h => h) (fun _ _ h => h)
      fun _ _ h => h.1.2) fun data => ?_
  cases data with
  | none =>
    exact (executeControlMethod_contract host).weaken (fun _ h => h) (fun _ _ h => h.2)
      fun _ _ h => h.1.2
  | some route =>
    exact (attempts_contract host fuel [0, 1] route).weaken (fun _ h => ⟨h.1.2, h.2⟩)
      (fun _ _ h => h) fun _ _ h => h

end Attempts

section Replay

variable {σ ρ ℓ κ β : Type}

/-- The trace of `execute_command`, up to so many changes of the topology in one loop. -/
def commandTrace (rt : Runtime) (host : Host σ ρ ℓ κ β) (args : List Value) (fuel : ℕ) (s : σ) :
    List (Event ℓ β) :=
  match executeCommand rt host args fuel ⟨s, none, []⟩ with
  | .ok _ w => w.trace
  | .error _ w => w.trace

theorem commandTrace_ledger (rt : Runtime) (host : Host σ ρ ℓ κ β) (args : List Value)
    (fuel : ℕ) (s : σ) : Ledger rt args none (commandTrace rt host args fuel s) := by
  have huntouched : Untouched ([] : List (Event ℓ β)) := fun e he => absurd he (by simp)
  have hstart : Ledger rt args none ([] : List (Event ℓ β)) := by
    refine ⟨fun pre r post h => absurd h.symm (by simp), fun p hp => ⟨none, ?_⟩, rfl⟩
    rw [List.prefix_nil.mp hp]
    rfl
  have hrun := executeCommand_contract host fuel ⟨s, none, []⟩ ⟨⟨rfl, hstart⟩, .inl huntouched⟩
  unfold commandTrace
  cases h : executeCommand rt host args fuel ⟨s, none, []⟩ with
  | ok result w =>
    rw [h] at hrun
    exact hrun
  | error e w =>
    rw [h] at hrun
    exact hrun

/-- Whatever the host does, a command outside the safe set is dispatched once at most; a
dispatch after another one follows an error of it that permits a replay, its delay and, if
the error called for one, a refresh that succeeded; and the leases are released as they
were taken, one at a time. -/
theorem commands_are_replayed_safely (rt : Runtime) (host : Host σ ρ ℓ κ β) (args : List Value)
    (fuel : ℕ) (s : σ) :
    (isSafeControlRetry rt args = false →
      ((commandTrace rt host args fuel s).filter Event.isDispatch).length ≤ 1) ∧
    (∀ pre r post, commandTrace rt host args fuel s = pre++.dispatch r::post →
      Untouched pre ∨ isSafeControlRetry rt args = true ∧ Cleared rt pre) ∧
    taken (commandTrace rt host args fuel s) = released (commandTrace rt host args fuel s) ∧
    ∀ p, p <+: commandTrace rt host args fuel s →
      ∃ held : Option ℓ, taken p = released p++held.toList := by
  have hledger := commandTrace_ledger rt host args fuel s
  refine ⟨hledger.careful.once, hledger.careful, ?_, hledger.orderly⟩
  simpa using hledger.balance

end Replay

end FerricStore.TopologyRetry
