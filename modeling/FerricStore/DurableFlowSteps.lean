import FerricStore.DurableFlows

/-!
# Steps of a durable flow

A call that may run its closure, or has a commit in flight, knows that its name had no result
while its claim was current, so that a commit of this claim is the first one under the name.
What a call read or was told stays true in every later flow.
-/

set_option autoImplicit false

namespace FerricStore.DurableSteps

open Text

variable {C V : Type} {host : Host V} {flow flow' : Flow} {p : Params}
  {commits commits' : List (C × Option (Str × Bytes))}

/-- What a flow keeps of an earlier one. -/
structure Later (flow flow' : Flow) : Prop where
  fencing : flow.fencing ≤ flow'.fencing
  refs_eq : flow'.fencing = flow.fencing → flow'.refs = flow.refs
  refs : ∀ n, (flow.refs n).isSome → (flow'.refs n).isSome
  store : ∀ ref b, flow.store ref = some b → flow'.store ref = some b

theorem Later.refl (flow : Flow) : Later flow flow :=
  ⟨le_rfl, fun _ => rfl, fun _ h => h, fun _ _ h => h⟩

theorem Applied.later {toState : Str} {value : Option (Str × Bytes)}
    (h : Applied flow toState value flow') : Later flow flow' := by
  cases h with
  | plain lease fencing hlarger =>
    exact ⟨hlarger.le, fun _ => rfl, fun _ h => h, fun _ _ h => h⟩
  | value lease fencing valueName ref bytes hlarger hfresh =>
    refine ⟨hlarger.le, fun heq => absurd heq hlarger.ne', ?_, ?_⟩
    · intro n hn
      by_cases hname : n = valueName
      · simp [hname]
      · simpa [hname] using hn
    · intro r b hb
      by_cases href : r = ref
      · subst href
        simp [hfresh b hb]
      · simpa [href] using hb

theorem Applied.fencing_lt {toState : Str} {value : Option (Str × Bytes)}
    (h : Applied flow toState value flow') : flow.fencing < flow'.fencing := by
  cases h with
  | plain lease fencing hlarger => exact hlarger
  | value lease fencing valueName ref bytes hlarger hfresh => exact hlarger

/-- The name had no result while the claim was current. -/
def Cleared (flow : Flow) (job : Claim) (n : Str) : Prop :=
  job.fencingToken ≤ flow.fencing ∧ (flow.fencing = job.fencingToken → flow.refs n = none)

theorem Cleared.mono {job : Claim} {n : Str} (h : Cleared flow job n) (hlater : Later flow flow') :
    Cleared flow' job n := by
  obtain ⟨hle, hnone⟩ := h
  refine ⟨hle.trans hlater.fencing, fun heq => ?_⟩
  have hsame : flow.fencing = job.fencingToken :=
    le_antisymm (heq ▸ hlater.fencing) hle
  rw [hlater.refs_eq (heq.trans hsame.symm)]
  exact hnone hsame

/-- The reference leads to the bytes that were committed under the name. -/
def Held (flow : Flow) (commits : List (C × Option (Str × Bytes))) (n ref : Str) : Prop :=
  ∃ c b, (c, some (n, b)) ∈ commits ∧ flow.store ref = some b

theorem Held.mono {n ref : Str} (h : Held flow commits n ref) (hlater : Later flow flow')
    (hsub : commits ⊆ commits') : Held flow' commits' n ref := by
  obtain ⟨c, b, hmem, hstore⟩ := h
  exact ⟨c, b, hsub hmem, hlater.store ref b hstore⟩

/-- What the commit of a call carries. -/
inductive Carries (host : Host V) : Kind → Option (Str × Bytes) → Prop where
  | advance : Carries host .advance none
  | step {name n : Str} {b : Bytes} (hname : durableStepValueName host name = .ok n) :
      Carries host (.step name) (some (n, b))

/-- The value is what the carried bytes are read back as. -/
inductive Stores (host : Host V) : Option V → Option (Str × Bytes) → Prop where
  | nothing : Stores host none none
  | value {v : V} {n : Str} {b : Bytes} (hdecode : host.decode b = .ok v) :
      Stores host (some v) (some (n, b))

/-- A commit for the call's name carries the value. -/
def Found (host : Host V) (commits : List (C × Option (Str × Bytes))) (p : Params)
    (value : Option V) : Prop :=
  ∃ c x, (c, x) ∈ commits ∧ Carries host p.kind x ∧ Stores host value x

theorem Found.mono {value : Option V} (h : Found host commits p value)
    (hsub : commits ⊆ commits') : Found host commits' p value := by
  obtain ⟨c, x, hmem, hcarries, hstores⟩ := h
  exact ⟨c, x, hsub hmem, hcarries, hstores⟩

theorem carries_of_valueName {n : Str} {b : Bytes} (h : p.valueName host = some n) :
    Carries host p.kind (some (n, b)) := by
  unfold Params.valueName at h
  cases hkind : p.kind with
  | advance => simp [hkind] at h
  | step name =>
    cases hname : durableStepValueName host name with
    | error e => simp [hkind, hname, Except.toOption] at h
    | ok m =>
      simp only [hkind, hname, Except.toOption, Option.some.injEq] at h
      exact .step (h ▸ hname)

theorem Carries.valueName {n : Str} {b : Bytes} (h : Carries host p.kind (some (n, b))) :
    p.valueName host = some n := by
  unfold Params.valueName
  generalize p.kind = kind at h
  cases h with
  | step hname => simp [hname, Except.toOption]

inductive RequestOk (host : Host V) (flow : Flow) (commits : List (C × Option (Str × Bytes)))
    (p : Params) : Request → Prop where
  | extendLease :
      RequestOk host flow commits p (.extendLease p.job.leaseToken p.job.fencingToken)
  | stepContinue {value : Option (Str × Bytes)} (hcarries : Carries host p.kind value)
      (hcleared : ∀ n b, value = some (n, b) → Cleared flow p.job n) :
      RequestOk host flow commits p (commitRequest p value)
  | valueMget {n ref : Str} (hname : p.valueName host = some n) (hheld : Held flow commits n ref) :
      RequestOk host flow commits p (.valueMget ref)

/-- What the record of a claim that was current says about a name. -/
structure RecordOk (flow : Flow) (commits : List (C × Option (Str × Bytes))) (job : Claim)
    (record : Record) (n : Str) : Prop where
  cleared : valueRef record n = .ok none → Cleared flow job n
  held : ∀ ref, valueRef record n = .ok (some ref) → Held flow commits n ref

structure ReturnedOk (host : Host V) (commits : List (C × Option (Str × Bytes))) (p : Params)
    (claim : Claim) (value : Option V) (committed : Bool) : Prop where
  id : claim.id = p.job.id
  partitionKey : claim.partitionKey = p.job.partitionKey
  fencing : committed = true → p.job.fencingToken < claim.fencingToken
  found : Found host commits p value

structure CallOk (host : Host V) (flow : Flow) (commits : List (C × Option (Str × Bytes)))
    (p : Params) (call : Call V) : Prop where
  request : ∀ r, call.request = some r → RequestOk host flow commits p r
  sent : ∀ stored value, call.phase = .committing stored →
    call.request = some (commitRequest p value) → Stores host stored value
  record : ∀ r n, call.reply = some (.record r) → p.valueName host = some n →
    RecordOk flow commits p.job r n
  values : ∀ response v, call.reply = some (.values response) →
    committedResult host response = .ok v → Found host commits p (some v)
  continued : ∀ response stored, call.reply = some (.continued response) →
    call.phase = .committing stored → Found host commits p stored
  ready : ∀ n, call.phase = .ready → p.valueName host = some n → Cleared flow p.job n
  fetching : ∀ r, call.phase = .fetching r →
    r.id = p.job.id ∧ r.partitionKey = p.job.partitionKey
  returned : ∀ claim value committed, call.phase = .ended (.returned claim value committed) →
    ReturnedOk host commits p claim value committed

theorem RequestOk.mono {r : Request} (h : RequestOk host flow commits p r)
    (hlater : Later flow flow') (hsub : commits ⊆ commits') :
    RequestOk host flow' commits' p r := by
  cases h with
  | extendLease => exact .extendLease
  | stepContinue hcarries hcleared =>
    exact .stepContinue hcarries fun n b hvalue => (hcleared n b hvalue).mono hlater
  | valueMget hname hheld => exact .valueMget hname (hheld.mono hlater hsub)

theorem CallOk.mono {call : Call V} (h : CallOk host flow commits p call)
    (hlater : Later flow flow') (hsub : commits ⊆ commits') :
    CallOk host flow' commits' p call where
  request r hr := (h.request r hr).mono hlater hsub
  sent := h.sent
  record r n hr hn :=
    ⟨fun href => ((h.record r n hr hn).cleared href).mono hlater,
      fun ref href => ((h.record r n hr hn).held ref href).mono hlater hsub⟩
  values response v hr hv := (h.values response v hr hv).mono hsub
  continued response stored hr hs := (h.continued response stored hr hs).mono hsub
  ready n hr hn := (h.ready n hr hn).mono hlater
  fetching := h.fetching
  returned claim value committed hr :=
    let h := h.returned claim value committed hr
    ⟨h.id, h.partitionKey, h.fencing, h.found.mono hsub⟩

theorem CallOk.fail (e : StepError) : CallOk host flow commits p (Call.fail e) := by
  constructor <;> simp [Call.fail]

theorem CallOk.failed (failure : Failure) :
    CallOk host flow commits p ⟨.ended (.failed failure), none, none⟩ := by
  constructor <;> simp

theorem CallOk.idle : CallOk host flow commits p ⟨.idle, none, none⟩ := by
  constructor <;> simp

theorem commitRequest_inj {x y : Option (Str × Bytes)} (h : commitRequest p x = commitRequest p y) :
    x = y := by
  simpa [commitRequest] using h

/-- A call that sends its commit. -/
theorem CallOk.commit {stored : Option V} {value : Option (Str × Bytes)}
    (hcarries : Carries host p.kind value) (hstores : Stores host stored value)
    (hcleared : ∀ n b, value = some (n, b) → Cleared flow p.job n) :
    CallOk host flow commits p ⟨.committing stored, some (commitRequest p value), none⟩ where
  request r hr := by
    cases hr
    exact .stepContinue hcarries hcleared
  sent st x hst hx := by
    cases hst
    rw [← commitRequest_inj (Option.some.inj hx)]
    exact hstores
  record _ _ hr := by simp at hr
  values _ _ hr := by simp at hr
  continued _ _ hr := by simp at hr
  ready _ hr := by simp at hr
  fetching _ hr := by simp at hr
  returned _ _ _ hr := by simp at hr

theorem begin_ok : CallOk host flow commits p (begin host p) := by
  unfold begin
  cases validateClaimedJob p.job p.toState with
  | error e => exact .fail e
  | ok u =>
    cases hkind : p.kind with
    | advance =>
      have hcarries : Carries host p.kind none := hkind ▸ .advance
      exact .commit hcarries .nothing (by simp)
    | step name =>
      cases hname : durableStepValueName host name with
      | error e =>
        simp only [hname]
        exact .fail e
      | ok n =>
        simp only [hname]
        refine ⟨fun r hr => ?_, ?_, ?_, ?_, ?_, ?_, ?_, ?_⟩
        · cases hr
          exact .extendLease
        all_goals simp

theorem afterRecord_ok {n : Str} {record : Record} (hn : p.valueName host = some n)
    (h : RecordOk flow commits p.job record n) :
    CallOk host flow commits p (afterRecord p n record : Call V) := by
  unfold afterRecord
  cases hpre : validateStepPreflight p.job record with
  | error e => exact .fail e
  | ok u =>
    cases href : valueRef record n with
    | error e => exact .fail e
    | ok ref =>
      cases ref with
      | none =>
        have hcleared := h.cleared href
        refine ⟨by simp, by simp, by simp, by simp, by simp, fun m _ hm => ?_, by simp, by simp⟩
        rw [hn] at hm
        cases hm
        exact hcleared
      | some ref =>
        simp only
        split_ifs with hstate
        · exact .fail _
        · refine ⟨fun r hr => ?_, by simp, by simp, by simp, by simp, by simp, fun r hr => ?_,
            by simp⟩
          · cases hr
            exact .valueMget hn (h.held ref href)
          · cases hr
            exact validateStepPreflight_ok hpre

theorem afterClosure_ok {n : Str} {outcome : ClosureOutcome V} (hn : p.valueName host = some n)
    (hcleared : Cleared flow p.job n) :
    CallOk host flow commits p (afterClosure host p n outcome) := by
  cases outcome with
  | awaitable => exact .fail _
  | raised id => exact .fail _
  | value v =>
    simp only [afterClosure]
    cases hencode : encodeStepResult host v with
    | error e => exact .fail e
    | ok encoded =>
      obtain ⟨b, stored⟩ := encoded
      refine .commit (carries_of_valueName hn) (.value (encodeStepResult_ok hencode)) ?_
      intro m x hx
      cases hx
      exact hcleared

theorem committedResult_ok {response : Value} {v : V}
    (h : committedResult host response = .ok v) :
    ∃ b, (response = .list [.bytes b] ∨ response = .list [.bytearray b]) ∧
      host.decode b = .ok v := by
  unfold committedResult at h
  split at h
  · next stored =>
    cases stored with
    | bytes b => exact ⟨b, .inl rfl, h⟩
    | bytearray b => exact ⟨b, .inr rfl, h⟩
    | _ => cases h
  · cases h
  · cases h

theorem receive_ok {call next : Call V} {reply : Reply} (h : CallOk host flow commits p call)
    (hreply : call.reply = some reply) (hreceive : receive host p call.phase reply = some next) :
    CallOk host flow commits p next := by
  obtain ⟨phase, request, r⟩ := call
  simp only at hreply hreceive
  subst hreply
  cases phase with
  | idle => cases reply <;> cases hreceive
  | ready => cases reply <;> cases hreceive
  | ended outcome => cases reply <;> cases hreceive
  | checking =>
    cases reply with
    | record record =>
      obtain ⟨n, hn, hnext⟩ := Option.map_eq_some_iff.mp hreceive
      rw [← hnext]
      exact afterRecord_ok hn (h.record record n rfl hn)
    | failed e =>
      cases hreceive
      exact .fail _
    | continued response => cases hreceive
    | values response => cases hreceive
  | fetching record =>
    cases reply with
    | values response =>
      simp only [receive, Option.some.injEq] at hreceive
      cases hresult : committedResult host response with
      | error e =>
        rw [← hreceive, hresult]
        exact .fail e
      | ok v =>
        rw [← hreceive, hresult]
        have hidentity := h.fetching record rfl
        refine ⟨by simp, by simp, by simp, by simp, by simp, by simp, by simp, ?_⟩
        intro claim value committed hended
        cases hended
        exact ⟨hidentity.1, hidentity.2, by simp, h.values response v rfl hresult⟩
    | failed e =>
      cases hreceive
      exact .fail _
    | continued response => cases hreceive
    | record record => cases hreceive
  | committing stored =>
    cases reply with
    | continued response =>
      simp only [receive, Option.some.injEq] at hreceive
      cases hfresh : refreshedClaim host p.job response p.toState with
      | error e =>
        rw [← hreceive, hfresh]
        exact .failed _
      | ok claim =>
        rw [← hreceive, hfresh]
        obtain ⟨hid, hpartition, hfencing⟩ := refreshedClaim_ok hfresh
        refine ⟨by simp, by simp, by simp, by simp, by simp, by simp, by simp, ?_⟩
        intro claim value committed hended
        cases hended
        exact ⟨hid, hpartition, fun _ => hfencing, h.continued response stored rfl rfl⟩
    | failed e =>
      cases hreceive
      exact .failed _
    | record record => cases hreceive
    | values response => cases hreceive

/-- A call that ended without a result leaves its request in flight. -/
theorem CallOk.abandon {call : Call V} {outcome : Outcome V}
    (h : CallOk host flow commits p call)
    (houtcome : ∀ claim value committed, outcome ≠ .returned claim value committed) :
    CallOk host flow commits p { call with phase := .ended outcome } where
  request := h.request
  sent _ _ hphase := by simp at hphase
  record := h.record
  values := h.values
  continued _ _ _ hphase := by simp at hphase
  ready _ hphase := by simp at hphase
  fetching _ hphase := by simp at hphase
  returned claim value committed hphase := by
    cases hphase
    exact absurd rfl (houtcome claim value committed)

theorem CallOk.lose {call : Call V} (h : CallOk host flow commits p call) :
    CallOk host flow commits p { call with request := none } :=
  ⟨by simp, by simp, h.record, h.values, h.continued, h.ready, h.fetching, h.returned⟩

/-- A call that was answered. -/
theorem CallOk.answer {call : Call V} {reply : Reply} (h : CallOk host flow commits p call)
    (hrecord : ∀ r n, reply = .record r → p.valueName host = some n →
      RecordOk flow commits p.job r n)
    (hvalues : ∀ response v, reply = .values response →
      committedResult host response = .ok v → Found host commits p (some v))
    (hcontinued : ∀ response stored, reply = .continued response →
      call.phase = .committing stored → Found host commits p stored) :
    CallOk host flow commits p { call with reply := some reply } where
  request := h.request
  sent := h.sent
  record r n hr := hrecord r n (Option.some.inj hr)
  values response v hr := hvalues response v (Option.some.inj hr)
  continued response stored hr := hcontinued response stored (Option.some.inj hr)
  ready := h.ready
  fetching := h.fetching
  returned := h.returned

end FerricStore.DurableSteps
