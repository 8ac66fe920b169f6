import FerricStore.TopologyRetryTraces

/-!
# Contracts of the replay

A part that sends the command starts with no dispatch in the trace or with the permission
to replay, and an exception that leaves it is the error of the last dispatch unless it
forbids a replay.
-/

set_option autoImplicit false

namespace FerricStore.TopologyRetry
open Stateful

section Classification

variable {rt : Runtime}

theorem hasRouteReason_error {raw : Value} {e : Exn} (h : hasRouteReason rt raw = .error e) :
    e = .other "UnicodeDecodeError" := by
  unfold hasRouteReason optionalText at h
  cases hget : RoutingTopology.mapGet raw ["reason"] with
  | none => simp [hget, bind, Except.bind] at h
  | _ =>
    simp only [hget, bind, Except.bind] at h
    split at h
    · cases h
      rename_i herror
      split at herror
      · cases herror
      · cases herror
        rfl
    · cases h

theorem retryable_error {exc e : Exn} (h : isRetryableRouteError rt exc = .error e) :
    e = .other "UnicodeDecodeError" := by
  cases exc with
  | ferricStore error =>
    simp only [isRetryableRouteError] at h
    cases hflag : error.retryable with
    | some flag =>
      rw [hflag] at h
      cases h
    | none =>
      simp only [hflag] at h
      split_ifs at h
      exact hasRouteReason_error h
  | _ => cases h

theorem refresh_error {exc e : Exn} (h : isTopologyRefreshError rt exc = .error e) :
    e = .other "UnicodeDecodeError" := by
  cases exc with
  | ferricStore error =>
    simp only [isTopologyRefreshError, bind, Except.bind] at h
    cases hreason : hasRouteReason rt error.raw with
    | error e' =>
      rw [hreason] at h
      cases h
      exact hasRouteReason_error hreason
    | ok b =>
      simp only [hreason] at h
      split_ifs at h
  | _ => cases h

theorem not_retryable_of_not_exception {exc : Exn} (h : exc.isException = false) :
    isRetryableRouteError rt exc ≠ .ok true := by
  cases exc with
  | interrupt => simp [isRetryableRouteError]
  | waiting => simp [isRetryableRouteError]
  | _ => cases h

end Classification

section Contracts

variable {σ ρ ℓ κ β α : Type} {rt : Runtime} {args : List Value}

/-- A call changes the trace by its events, and neither lease nor trace otherwise. -/
theorem call_contract (K : Except Exn α → Option ℓ → List (Event ℓ β) → Prop)
    (events : Except Exn α → List (Event ℓ β)) (f : σ → Except Exn α × σ) :
    Contract (fun w => ∀ r, K r w.lease (w.trace++events r)) (call events f)
      (fun a w => K (.ok a) w.lease w.trace) (fun e w => K (.error e) w.lease w.trace) := by
  intro w hw
  have hr := hw (f w.host).1
  unfold call lift
  cases hf : (f w.host).1 with
  | ok a =>
    rw [hf] at hr
    exact hr
  | error e =>
    rw [hf] at hr
    exact hr

theorem silent_contract (K : Option ℓ → List (Event ℓ β) → Prop) (f : σ → Except Exn α × σ) :
    Contract (fun w => K w.lease w.trace) (silent f)
      (fun _ w => K w.lease w.trace) (fun _ w => K w.lease w.trace) := by
  refine (call_contract (fun _ => K) (fun _ => []) f).weaken ?_ (fun _ _ h => h) (fun _ _ h => h)
  intro w hw r
  simpa using hw

theorem lift_contract (P : World σ ℓ β → Prop) (x : Except Exn α) :
    Contract P (lift x : Run σ ℓ β α) (fun a w => x = .ok a ∧ P w)
      (fun e w => x = .error e ∧ P w) := by
  intro w hw
  cases x with
  | ok a => exact ⟨rfl, hw⟩
  | error e => exact ⟨rfl, hw⟩

/-- The books are in order, and the local lease is the one that is held. -/
def Sound (rt : Runtime) (args : List Value) (held : Option ℓ) (w : World σ ℓ β) : Prop :=
  w.lease = held ∧ Ledger rt args held w.trace

/-- How the parts of the program end that raise. -/
def Raised (rt : Runtime) (args : List Value) (held : Option ℓ) (exc : Exn)
    (w : World σ ℓ β) : Prop :=
  Sound rt args held w ∧ After rt args exc w.trace

variable {held : Option ℓ}

/-- A dispatch that may happen. -/
theorem dispatch_contract (f : σ → Except Exn β × σ) :
    Contract (fun w : World σ ℓ β => Sound rt args held w ∧ Ready rt args w.trace) (dispatch f)
      (fun _ w => Sound rt args held w) (Raised rt args held) := by
  refine (call_contract (fun r lease t => (lease = held ∧ Ledger rt args held t) ∧
      ∀ e, r = .error e → After rt args e t) (fun r => [.dispatch r]) f).weaken ?_ ?_ ?_
  · rintro w ⟨hsound, hready⟩ r
    refine ⟨⟨hsound.1, hsound.2.other (fun _ => hready) rfl rfl⟩, ?_⟩
    rintro e rfl
    exact After.dispatch e w.trace
  · rintro a w ⟨hledger, -⟩
    exact hledger
  · rintro e w ⟨hledger, hafter⟩
    exact ⟨hledger, hafter e rfl⟩

variable (host : Host σ ρ ℓ κ β)

/-- While a replay is prepared: it may happen already, or the last dispatch failed with the
error and the topology was refreshed since. -/
def Preparing (rt : Runtime) (args : List Value) (exc : Exn) (refreshed : Bool)
    (t : List (Event ℓ β)) : Prop :=
  Ready rt args t ∨ ∃ mid, LastFailed exc t mid ∧
    (refreshed = true → .refresh (.ok ()) ∈ mid)

theorem Preparing.after {exc : Exn} {b : Bool} {t : List (Event ℓ β)}
    (h : Preparing rt args exc b t) : After rt args exc t := by
  rcases h with h | ⟨mid, h, -⟩
  · exact .inl h
  · exact .inr (.inl ⟨mid, h⟩)

theorem tryRefresh_contract {exc : Exn} :
    Contract (fun w : World σ ℓ β => Sound rt args held w ∧ Preparing rt args exc false w.trace)
      (tryRefresh host)
      (fun b w => Sound rt args held w ∧ Preparing rt args exc b w.trace)
      (Raised rt args held) := by
  have hquiet : ∀ r : Except Exn Unit, Untouched [(.refresh r : Event ℓ β)] :=
    fun r => untouched_single rfl
  have hcall : Contract
      (fun w : World σ ℓ β => Sound rt args held w ∧ Preparing rt args exc false w.trace)
      (call (fun r => [.refresh r]) host.refreshTopology)
      (fun _ w => Sound rt args held w ∧ Preparing rt args exc true w.trace)
      (fun _ w => Sound rt args held w ∧ Preparing rt args exc false w.trace) := by
    refine (call_contract (fun r lease t => (lease = held ∧ Ledger rt args held t) ∧
      Preparing rt args exc r.isOk t) (fun r => [.refresh r])
        host.refreshTopology).weaken ?_ (fun _ _ h => h) (fun _ _ h => h)
    rintro w ⟨hsound, hprep⟩ r
    refine ⟨⟨hsound.1, hsound.2.other (fun hd => Bool.noConfusion hd) rfl rfl⟩, ?_⟩
    rcases hprep with hready | ⟨mid, hlast, -⟩
    · exact .inl (hready.append (hquiet r))
    · refine .inr ⟨mid++[Event.refresh r], hlast.append (hquiet r), ?_⟩
      cases r with
      | ok u => exact fun _ => by simp
      | error e => exact fun h => Bool.noConfusion h
  refine Contract.handle (hcall.bind fun _ => Contract.pure fun _ h => h) fun e => ?_
  cases he : e.isException with
  | true => exact Contract.pure fun _ h => h
  | false =>
    refine Contract.throw ?_
    rintro w ⟨hsound, -⟩
    exact ⟨hsound, .inr (.inr (not_retryable_of_not_exception he))⟩

theorem raiseIf_contract {P : World σ ℓ β → Prop} {exc : Exn} (condition : Bool)
    (h : ∀ w, P w → Raised rt args held exc w) :
    Contract P (raiseIf condition exc) (fun _ w => condition = false ∧ P w) (Raised rt args held) := by
  cases condition with
  | true => exact Contract.throw h
  | false => exact Contract.pure fun w hw => ⟨rfl, hw⟩

theorem lift_raises {P : World σ ℓ β → Prop} {x : Except Exn α}
    (hx : ∀ e, x = .error e → e = .other "UnicodeDecodeError")
    (h : ∀ w, P w → Sound rt args held w) :
    Contract P (lift x) (fun a w => x = .ok a ∧ P w) (Raised rt args held) := by
  refine (lift_contract P x).weaken (fun _ hw => hw) (fun _ _ hw => hw) ?_
  rintro e w ⟨herror, hw⟩
  rw [hx e herror]
  exact ⟨h w hw, .inr (.inr (by simp [isRetryableRouteError]))⟩

theorem refreshed_contract {exc : Exn} (required : Bool) :
    Contract (fun w : World σ ℓ β => Sound rt args held w ∧ Preparing rt args exc false w.trace)
      (bif required then tryRefresh host else pure true)
      (fun b w => Sound rt args held w ∧ Preparing rt args exc (required && b) w.trace)
      (Raised rt args held) := by
  cases required with
  | true => exact tryRefresh_contract host
  | false => exact Contract.pure fun _ h => h

/-- The delay of an error that permits a replay is over, and the replay may happen. -/
theorem sleepFor_contract {exc : Exn} {required : Bool}
    (hrequired : isTopologyRefreshError rt exc = .ok required)
    (hsafe : isSafeControlRetry rt args = true) (hallows : serverAllowsRetry exc = true) :
    Contract (fun w : World σ ℓ β => Sound rt args held w ∧ Preparing rt args exc required w.trace)
      (sleepFor (serverRetryDelay exc))
      (fun _ w => Sound rt args held w ∧ Ready rt args w.trace)
      (Raised rt args held) := by
  have hcleared : ∀ {t mid : List (Event ℓ β)} {ms : ℤ}, LastFailed exc t mid →
      serverRetryDelay exc = some ms → (ms ≠ 0 → .sleep ms ∈ mid) →
      (required = true → .refresh (.ok ()) ∈ mid) → Ready rt args t := by
    intro t mid ms hlast hms hsleep hrefresh
    refine .inr ⟨hsafe, exc, mid, hlast, hallows, ⟨ms, hms, hsleep⟩, fun h => hrefresh ?_⟩
    rw [hrequired] at h
    exact Except.ok.inj h
  cases hdelay : serverRetryDelay exc with
  | none =>
    cases exc with
    | ferricStore error => simp [serverAllowsRetry, hdelay] at hallows
    | _ => cases hdelay
  | some ms =>
    simp only [sleepFor]
    by_cases hzero : ms = 0
    · rw [if_pos hzero]
      refine Contract.pure ?_
      rintro w ⟨hsound, hready | ⟨mid, hlast, hrefresh⟩⟩
      · exact ⟨hsound, hready⟩
      · exact ⟨hsound, hcleared hlast hdelay (fun h => absurd hzero h) hrefresh⟩
    · rw [if_neg hzero]
      refine (call_contract (fun _ lease t => (lease = held ∧ Ledger rt args held t) ∧ Ready rt args t)
        (fun _ => [.sleep ms]) _).weaken ?_ (fun _ _ h => h) (fun _ _ h => ⟨h.1, .inl h.2⟩)
      rintro w ⟨hsound, hprep⟩ r
      have hquiet : Untouched [(.sleep ms : Event ℓ β)] := untouched_single rfl
      refine ⟨⟨hsound.1, hsound.2.other (fun hd => Bool.noConfusion hd) rfl rfl⟩, ?_⟩
      rcases hprep with hready | ⟨mid, hlast, hrefresh⟩
      · exact hready.append hquiet
      · exact hcleared (hlast.append hquiet) hdelay (fun _ => by simp)
          fun h => List.mem_append_left _ (hrefresh h)

theorem prepareReplay_contract (exc : Exn) :
    Contract (Raised rt args held exc) (prepareReplay rt host args exc)
      (fun _ (w : World σ ℓ β) => Sound rt args held w ∧ Ready rt args w.trace) (Raised rt args held) := by
  unfold prepareReplay
  refine (raiseIf_contract _ fun _ h => h).bind fun _ => Contract.assuming fun _ => ?_
  refine (lift_raises (fun e => retryable_error) fun _ h => h.1).bind fun retryable =>
    Contract.assuming fun hretryable => ?_
  refine (raiseIf_contract _ fun _ h => h).bind fun _ => Contract.assuming fun hretry => ?_
  refine (lift_raises (fun e => refresh_error) fun _ h => h.1).bind fun required =>
    Contract.assuming fun hrequired => ?_
  have hpreparing : ∀ w : World σ ℓ β, Raised rt args held exc w →
      Sound rt args held w ∧ Preparing rt args exc false w.trace := by
    rintro w ⟨hsound, hready | ⟨mid, hlast⟩ | hnot⟩
    · exact ⟨hsound, .inl hready⟩
    · exact ⟨hsound, .inr ⟨mid, hlast, fun h => Bool.noConfusion h⟩⟩
    · rw [hretryable, show retryable = true by simpa using hretry] at hnot
      exact absurd rfl hnot
  refine ((refreshed_contract host required).weaken hpreparing (fun _ _ h => h)
    fun _ _ h => h).bind fun refreshed => ?_
  refine Contract.bind (Q := fun _ w => Sound rt args held w ∧
    Preparing rt args exc (required && refreshed) w.trace) (fun w hw => hw) fun managed => ?_
  refine (raiseIf_contract _ fun _ h => ⟨h.1, h.2.after⟩).bind fun _ =>
    Contract.assuming fun _ => ?_
  refine (raiseIf_contract _ fun _ h => ⟨h.1, h.2.after⟩).bind fun _ =>
    Contract.assuming fun hpermit => ?_
  simp only [Bool.not_eq_false', Bool.and_eq_true] at hpermit
  obtain ⟨⟨rfl, hsafe⟩, hallows⟩ := hpermit
  rw [Bool.and_true]
  exact sleepFor_contract hrequired hsafe hallows

theorem executeOnControl_contract :
    Contract (fun w : World σ ℓ β => Sound rt args held w ∧ Ready rt args w.trace)
      (executeOnControl host args) (fun _ w => Sound rt args held w) (Raised rt args held) := by
  refine Contract.bind ((silent_contract (fun lease t => (lease = held ∧ Ledger rt args held t) ∧
    Ready rt args t) _).weaken (fun _ h => h) (fun _ _ h => h) fun _ _ h => ⟨h.1, .inl h.2⟩)
      fun adapter => dispatch_contract _

theorem executeControlMethod_contract :
    Contract (fun w : World σ ℓ β => Sound rt args held w ∧ Ready rt args w.trace)
      (executeControlMethod rt host args) (fun _ w => Sound rt args held w) (Raised rt args held) := by
  refine Contract.bind ((silent_contract (fun lease t => (lease = held ∧ Ledger rt args held t) ∧
    Ready rt args t) _).weaken (fun _ h => h) (fun _ _ h => h) fun _ _ h => ⟨h.1, .inl h.2⟩)
      fun adapter => Contract.handle (dispatch_contract _) fun exc => ?_
  exact (prepareReplay_contract host exc).bind fun _ => executeOnControl_contract host

end Contracts

end FerricStore.TopologyRetry
