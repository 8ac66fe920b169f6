import FerricStore.DurableFlowSteps

/-!
# Runs of a durable flow

In every interleaving no two commits carry results of one name, a reference leads to the
bytes that were committed under its name, and a call that starts after the commit does not
come to its closure.
-/

set_option autoImplicit false

namespace FerricStore.DurableSteps

open Text Transitions

variable {C V : Type} {host : Host V} {params : C → Params}

structure Inv (host : Host V) (params : C → Params) (s : State C V) : Prop where
  call : ∀ c, CallOk host s.flow s.commits (params c) (s.call c)
  carries : ∀ e ∈ s.commits, Carries host (params e.1).kind e.2
  once : s.commits.Pairwise fun a b => ∀ n x y, a.2 = some (n, x) → b.2 ≠ some (n, y)
  referred : ∀ c n b, (c, some (n, b)) ∈ s.commits → (s.flow.refs n).isSome
  held : ∀ name n ref, durableStepValueName host name = .ok n → s.flow.refs n = some ref →
    Held s.flow s.commits n ref
  ran : ∀ c ∈ s.ran, (s.call c).phase ≠ .idle

theorem Inv.start {flow : Flow}
    (hflow : ∀ name n, durableStepValueName host name = .ok n → flow.refs n = none) :
    Inv host params (.init flow : State C V) where
  call _ := .idle
  carries e he := by cases he
  once := .nil
  referred c n b he := by cases he
  held name n ref hname href := by
    have hnone := hflow name n hname
    change flow.refs n = some ref at href
    rw [hnone] at href
    cases href
  ran c hc := by cases hc

theorem begin_phase (p : Params) : (begin host p).phase ≠ .idle := by
  unfold begin
  cases validateClaimedJob p.job p.toState with
  | error e => simp [Call.fail]
  | ok u =>
    cases p.kind with
    | advance => simp
    | step name => cases hname : durableStepValueName host name <;> simp [hname, Call.fail]

theorem afterRecord_phase (p : Params) (n : Str) (record : Record) :
    (afterRecord p n record : Call V).phase ≠ .idle := by
  unfold afterRecord
  cases validateStepPreflight p.job record with
  | error e => simp [Call.fail]
  | ok u =>
    cases valueRef record n with
    | error e => simp [Call.fail]
    | ok ref =>
      cases ref with
      | none => simp
      | some ref =>
        simp only
        split_ifs <;> simp [Call.fail]

theorem afterClosure_phase (host : Host V) (p : Params) (n : Str) (outcome : ClosureOutcome V) :
    (∃ stored, (afterClosure host p n outcome).phase = .committing stored) ∨
      ∃ e, afterClosure host p n outcome = .fail e := by
  cases outcome with
  | awaitable => exact .inr ⟨_, rfl⟩
  | raised id => exact .inr ⟨_, rfl⟩
  | value v =>
    simp only [afterClosure]
    cases encodeStepResult host v with
    | error e => exact .inr ⟨e, rfl⟩
    | ok encoded => exact .inl ⟨encoded.2, rfl⟩

theorem receive_phase {p : Params} {phase : Phase V} {reply : Reply} {next : Call V}
    (h : receive host p phase reply = some next) :
    (∃ n record, phase = .checking ∧ reply = .record record ∧ p.valueName host = some n ∧
      next = afterRecord p n record) ∨ ∃ outcome, next.phase = .ended outcome := by
  cases phase with
  | idle => cases reply <;> cases h
  | ready => cases reply <;> cases h
  | ended outcome => cases reply <;> cases h
  | checking =>
    cases reply with
    | record record =>
      obtain ⟨n, hn, hnext⟩ := Option.map_eq_some_iff.mp h
      exact .inl ⟨n, record, rfl, rfl, hn, hnext.symm⟩
    | failed e =>
      cases h
      exact .inr ⟨_, rfl⟩
    | continued response => cases h
    | values response => cases h
  | fetching record =>
    cases reply with
    | values response =>
      cases h
      cases hresult : committedResult host response <;> exact .inr ⟨_, by simp [Call.fail]; rfl⟩
    | failed e =>
      cases h
      exact .inr ⟨_, rfl⟩
    | continued response => cases h
    | record record => cases h
  | committing stored =>
    cases reply with
    | continued response =>
      cases h
      cases hresult : refreshedClaim host p.job response p.toState <;> exact .inr ⟨_, rfl⟩
    | failed e =>
      cases h
      exact .inr ⟨_, rfl⟩
    | record record => cases h
    | values response => cases h

theorem giveUp_failed {e : TransportError} {phase : Phase V} {outcome : Outcome V}
    (h : giveUp e phase = some outcome) (claim : Claim) (value : Option V) (committed : Bool) :
    outcome ≠ .returned claim value committed := by
  cases phase <;> cases h <;> simp

/-- Where the references differ is where the commit carried a value. -/
theorem Applied.refs_some {flow flow' : Flow} {toState n ref : Str}
    {value : Option (Str × Bytes)} (h : Applied flow toState value flow')
    (href : flow'.refs n = some ref) :
    flow.refs n = some ref ∨ ∃ b, value = some (n, b) ∧ flow'.store ref = some b := by
  cases h with
  | plain lease fencing hlarger => exact .inl href
  | value lease fencing valueName r bytes hlarger hfresh =>
    by_cases hname : n = valueName
    · subst hname
      simp only [Function.update_self, Option.some.injEq] at href
      subst href
      exact .inr ⟨bytes, rfl, by simp⟩
    · exact .inl (by simpa [hname] using href)

theorem Applied.referred {flow flow' : Flow} {toState n : Str} {b : Bytes}
    (h : Applied flow toState (some (n, b)) flow') : (flow'.refs n).isSome := by
  cases h with
  | value lease fencing valueName r bytes hlarger hfresh => simp

variable [DecidableEq C]

@[simp] theorem State.setCall_self (s : State C V) (c : C) (call : Call V) :
    (s.setCall c call).call c = call := by
  simp [State.setCall]

theorem State.setCall_ne (s : State C V) {c d : C} (call : Call V) (h : d ≠ c) :
    (s.setCall c call).call d = s.call d := by
  simp [State.setCall, h]

theorem Inv.setCall {s : State C V} {c : C} {call : Call V} (h : Inv host params s)
    (hcall : CallOk host s.flow s.commits (params c) call)
    (hphase : call.phase = .idle → (s.call c).phase = .idle) :
    Inv host params (s.setCall c call) where
  call d := by
    by_cases hd : d = c
    · subst hd
      rw [s.setCall_self]
      exact hcall
    · rw [s.setCall_ne call hd]
      exact h.call d
  carries := h.carries
  once := h.once
  referred := h.referred
  held := h.held
  ran d hd := by
    have hran := h.ran d hd
    by_cases hdc : d = c
    · subst hdc
      intro hidle
      exact hran (hphase (by simpa using hidle))
    · rw [s.setCall_ne call hdc]
      exact hran

omit [DecidableEq C] in
/-- The record of a claim that is current. -/
theorem Inv.recordOk {s : State C V} {p : Params} {record : Record} {n : Str}
    (h : Inv host params s) (hfencing : p.job.fencingToken = s.flow.fencing)
    (hreports : Reports record s.flow) (hn : p.valueName host = some n) :
    RecordOk s.flow s.commits p.job record n where
  cleared href := ⟨hfencing.le, fun _ => (hreports n none href).symm⟩
  held ref href := by
    have hcarries : Carries host p.kind (some (n, [])) := carries_of_valueName hn
    generalize p.kind = kind at hcarries
    cases hcarries with
    | step hname => exact h.held _ n ref hname (hreports n (some ref) href).symm

theorem Inv.extend_step {s : State C V} {c : C} {record : Record} (h : Inv host params s)
    (hrequest : (s.call c).request = some (.extendLease s.flow.lease s.flow.fencing))
    (hreports : Reports record s.flow) :
    Inv host params (s.setCall c { s.call c with reply := some (.record record) }) := by
  have hfencing : (params c).job.fencingToken = s.flow.fencing := by
    have hr := (h.call c).request _ hrequest
    generalize hreq : Request.extendLease s.flow.lease s.flow.fencing = request at hr
    cases hr with
    | extendLease =>
      simp only [Request.extendLease.injEq] at hreq
      exact hreq.2.symm
    | stepContinue hcarries hcleared => cases hreq
    | valueMget hname hheld => cases hreq
  refine h.setCall ((h.call c).answer ?_ (by simp) (by simp)) id
  intro r n hr hn
  cases hr
  exact h.recordOk hfencing hreports hn

theorem Inv.fetch_step {s : State C V} {c : C} {ref : Str} {response : Value}
    (h : Inv host params s) (hrequest : (s.call c).request = some (.valueMget ref))
    (hshows : Shows response ref s.flow) :
    Inv host params (s.setCall c { s.call c with reply := some (.values response) }) := by
  refine h.setCall ((h.call c).answer (by simp) ?_ (by simp)) id
  intro r v hr hv
  cases hr
  obtain ⟨b, hresponse, hdecode⟩ := committedResult_ok hv
  have hstore := hshows b hresponse
  have hok := (h.call c).request _ hrequest
  generalize hreq : Request.valueMget ref = request at hok
  cases hok with
  | extendLease => cases hreq
  | stepContinue hcarries hcleared => cases hreq
  | valueMget hname hheld =>
    cases hreq
    obtain ⟨d, x, hmem, hx⟩ := hheld
    rw [hstore] at hx
    cases hx
    exact ⟨d, _, hmem, carries_of_valueName hname, .value hdecode⟩

/-- The commit of a current claim is the first one under its name. -/
theorem Inv.commit_step {s : State C V} {c : C} {toState : Str} {value : Option (Str × Bytes)}
    {flow : Flow} {response : Value} (h : Inv host params s)
    (hrequest : (s.call c).request =
      some (.stepContinue s.flow.lease s.flow.fencing s.flow.runState toState value))
    (happlied : Applied s.flow toState value flow) :
    Inv host params
      { s.setCall c { s.call c with reply := some (.continued response) } with
        flow := flow
        commits := s.commits++[(c, value)] } := by
  obtain ⟨hcommit, hcarries, hcleared, hfencing⟩ :
      (s.call c).request = some (commitRequest (params c) value) ∧
        Carries host (params c).kind value ∧
        (∀ n b, value = some (n, b) → Cleared s.flow (params c).job n) ∧
        s.flow.fencing = (params c).job.fencingToken := by
    have hok := (h.call c).request _ hrequest
    generalize hreq : Request.stepContinue s.flow.lease s.flow.fencing s.flow.runState toState
      value = request at hok
    cases hok with
    | extendLease => cases hreq
    | valueMget hname hheld => cases hreq
    | stepContinue hcarries hcleared =>
      rw [hreq] at hrequest
      simp only [commitRequest, Request.stepContinue.injEq] at hreq
      obtain ⟨-, hfencing, -, -, rfl⟩ := hreq
      exact ⟨hrequest, hcarries, hcleared, hfencing⟩
  have hlater := happlied.later
  have hsub : s.commits ⊆ s.commits++[(c, value)] := List.subset_append_left _ _
  have hnew : (c, value) ∈ s.commits++[(c, value)] := by simp
  have hfirst : ∀ e ∈ s.commits, ∀ n x y, e.2 = some (n, x) → value ≠ some (n, y) := by
    rintro ⟨d, x⟩ he n b y hx hvalue
    cases hx
    have hsome := h.referred d n b he
    rw [(hcleared n y hvalue).2 hfencing] at hsome
    cases hsome
  refine ⟨fun d => ?_, ?_, ?_, ?_, ?_, ?_⟩
  · have hmono := (h.call d).mono hlater hsub
    by_cases hd : d = c
    · subst hd
      simp only [State.setCall_self]
      refine hmono.answer (by simp) (by simp) ?_
      intro r stored hr hphase
      exact ⟨d, value, hnew, hcarries, (h.call d).sent stored value hphase hcommit⟩
    · simp only [s.setCall_ne _ hd]
      exact hmono
  · intro e he
    rcases List.mem_append.mp he with he | he
    · exact h.carries e he
    · cases List.mem_singleton.mp he
      exact hcarries
  · refine List.pairwise_append.mpr ⟨h.once, List.pairwise_singleton _ _, ?_⟩
    intro a ha b hb
    cases List.mem_singleton.mp hb
    exact hfirst a ha
  · intro d n b he
    rcases List.mem_append.mp he with he | he
    · exact hlater.refs n (h.referred d n b he)
    · cases List.mem_singleton.mp he
      exact happlied.referred
  · intro name n ref hname href
    rcases happlied.refs_some href with hold | ⟨b, rfl, hstore⟩
    · exact (h.held name n ref hname hold).mono hlater hsub
    · exact ⟨c, b, hnew, hstore⟩
  · intro d hd
    have hran := h.ran d hd
    by_cases hdc : d = c
    · subst hdc
      simpa using hran
    · simpa [s.setCall_ne _ hdc] using hran

theorem Inv.run_step {s : State C V} {c : C} {n : Str} {outcome : ClosureOutcome V}
    (h : Inv host params s) (hready : (s.call c).phase = .ready)
    (hname : (params c).valueName host = some n) :
    Inv host params
      { s.setCall c (afterClosure host (params c) n outcome) with ran := s.ran++[c] } := by
  have hphase : (afterClosure host (params c) n outcome).phase ≠ .idle := by
    rcases afterClosure_phase host (params c) n outcome with ⟨stored, hp⟩ | ⟨e, hp⟩ <;>
      simp [hp, Call.fail]
  have hcleared := (h.call c).ready n hready hname
  have hset := h.setCall (afterClosure_ok hname hcleared) fun hidle => absurd hidle hphase
  refine ⟨hset.call, hset.carries, hset.once, hset.referred, hset.held, ?_⟩
  intro d hd
  rcases List.mem_append.mp hd with hd | hd
  · exact hset.ran d hd
  · cases List.mem_singleton.mp hd
    simpa using hphase

theorem Inv.step {s t : State C V} (h : Inv host params s) (hstep : Step host params s t) :
    Inv host params t := by
  cases hstep with
  | start hidle => exact h.setCall begin_ok fun _ => hidle
  | extend hrequest hreports => exact h.extend_step hrequest hreports
  | commit hrequest happlied => exact h.commit_step hrequest happlied
  | fetch hrequest hshows => exact h.fetch_step hrequest hshows
  | reject hrequest => exact h.setCall ((h.call _).answer (by simp) (by simp) (by simp)) id
  | lose => exact h.setCall (h.call _).lose id
  | receive hreply hreceive =>
    refine h.setCall (receive_ok (h.call _) hreply hreceive) fun hidle => ?_
    rcases receive_phase hreceive with ⟨n, record, -, -, -, rfl⟩ | ⟨outcome, hended⟩
    · exact absurd hidle (afterRecord_phase _ n record)
    · rw [hended] at hidle
      cases hidle
  | giveUp hgiveUp => exact h.setCall ((h.call _).abandon (giveUp_failed hgiveUp)) (by simp)
  | run hready hname => exact h.run_step hready hname
  | crash => exact h.setCall ((h.call _).abandon (by simp)) (by simp)
  | @change lease fencing runState hfencing =>
    have hlater : Later s.flow { s.flow with lease, fencing, runState } :=
      ⟨hfencing, fun _ => rfl, fun _ h => h, fun _ _ h => h⟩
    exact ⟨fun c => (h.call c).mono hlater (List.Subset.refl _), h.carries, h.once, h.referred,
      h.held, h.ran⟩

theorem Reached.inv {s : State C V} (h : Reached host params s) : Inv host params s := by
  obtain ⟨flow, hflow, hrun⟩ := h
  exact invariant (I := Inv host params) (fun _ _ h hstep => h.step hstep) (Inv.start hflow) hrun

end FerricStore.DurableSteps
