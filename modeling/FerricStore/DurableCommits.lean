import FerricStore.DurableContexts
import FerricStore.DurableFlowRuns

/-!
# Durable steps commit at most once

For any workers on one flow, in any interleaving and with crashes and lost messages at any
point: a step name is committed at most once, a call that starts after the commit does not
run its closure, and a call that returns has the committed value and a claim on the same flow.
-/

set_option autoImplicit false

namespace FerricStore.DurableSteps

open Text Transitions

variable {C V : Type} {host : Host V} {params : C → Params}

/-- The commits of the calls of one name. -/
def commitsOf (params : C → Params) (name : Str) (s : State C V) :
    List (C × Option (Str × Bytes)) :=
  s.commits.filter fun e => (params e.1).kind = .step name

theorem mem_commitsOf {name : Str} {s : State C V} {e : C × Option (Str × Bytes)} :
    e ∈ commitsOf params name s ↔ e ∈ s.commits ∧ (params e.1).kind = .step name := by
  simp [commitsOf]

theorem Carries.of_step {name : Str} {x : Option (Str × Bytes)}
    (h : Carries host (.step name) x) :
    ∃ n b, durableStepValueName host name = .ok n ∧ x = some (n, b) := by
  cases h with
  | step hname => exact ⟨_, _, hname, rfl⟩

theorem Inv.commitsOf_length {s : State C V} (h : Inv host params s) (name : Str) :
    (commitsOf params name s).length ≤ 1 := by
  have hpair := h.once.filter fun e => decide ((params e.1).kind = .step name)
  change (commitsOf params name s).Pairwise _ at hpair
  have hvalue : ∀ e ∈ commitsOf params name s,
      ∃ n b, durableStepValueName host name = .ok n ∧ e.2 = some (n, b) := by
    intro e he
    obtain ⟨hmem, hkind⟩ := mem_commitsOf.mp he
    have hcarries := h.carries e hmem
    rw [hkind] at hcarries
    exact hcarries.of_step
  generalize commitsOf params name s = l at hpair hvalue
  match l, hpair, hvalue with
  | [], _, _ => simp
  | [e], _, _ => simp
  | a::b::rest, hpair, hvalue =>
    exfalso
    obtain ⟨n, x, hn, hx⟩ := hvalue a (by simp)
    obtain ⟨m, y, hm, hy⟩ := hvalue b (by simp)
    rw [hn] at hm
    cases hm
    exact (List.pairwise_cons.mp hpair).1 b (by simp) n x y hx hy

/-- What a returned value is: the committed bytes of the name, read back. -/
theorem Inv.found_value {s : State C V} {c : C} {name : Str} {value : Option V}
    (h : Inv host params s) (hdigest : Function.Injective host.digest)
    (hkind : (params c).kind = .step name) (hfound : Found host s.commits (params c) value) :
    ∃ e ∈ commitsOf params name s, ∃ n b v,
      e.2 = some (n, b) ∧ host.decode b = .ok v ∧ value = some v := by
  obtain ⟨d, x, hmem, hcarries, hstores⟩ := hfound
  rw [hkind] at hcarries
  obtain ⟨n, b, hname, rfl⟩ := hcarries.of_step
  have howner := h.carries _ hmem
  simp only at howner
  generalize hother : (params d).kind = kind at howner
  cases howner with
  | step hname' =>
    cases durableStepValueName_inj hdigest hname hname'
    cases hstores with
    | value hdecode =>
      exact ⟨_, mem_commitsOf.mpr ⟨hmem, hother⟩, n, b, _, rfl, hdecode, rfl⟩

/-- A name with a result, and a call for it that has not come to its closure. -/
structure Settled (n : Str) (c : C) (s : State C V) : Prop where
  referred : (s.flow.refs n).isSome
  record : ∀ r, (s.call c).phase = .checking → (s.call c).reply = some (.record r) →
    valueRef r n ≠ .ok none
  phase : (s.call c).phase ≠ .ready
  ran : c ∉ s.ran

theorem begin_reply (p : Params) : (begin host p).reply = none ∧ (begin host p).phase ≠ .ready := by
  unfold begin
  cases validateClaimedJob p.job p.toState with
  | error e => simp [Call.fail]
  | ok u =>
    cases p.kind with
    | advance => simp
    | step name => cases hname : durableStepValueName host name <;> simp [hname, Call.fail]

theorem afterRecord_reply {p : Params} {n : Str} {record : Record}
    (h : valueRef record n ≠ .ok none) :
    (afterRecord p n record : Call V).reply = none ∧
      (afterRecord p n record : Call V).phase ≠ .ready := by
  unfold afterRecord
  cases validateStepPreflight p.job record with
  | error e => simp [Call.fail]
  | ok u =>
    cases href : valueRef record n with
    | error e => simp [Call.fail]
    | ok ref =>
      cases ref with
      | none => exact absurd href h
      | some ref =>
        simp only
        split_ifs <;> simp [Call.fail]

theorem receive_reply {p : Params} {phase : Phase V} {reply : Reply} {next : Call V}
    (h : receive host p phase reply = some next) : next.reply = none := by
  cases phase <;> cases reply <;> simp only [receive, reduceCtorEq, Option.some.injEq] at h
  · obtain ⟨n, hn, rfl⟩ := Option.map_eq_some_iff.mp h
    rename_i record
    unfold afterRecord
    cases validateStepPreflight p.job record with
    | error e => rfl
    | ok u =>
      cases valueRef record n with
      | error e => rfl
      | ok ref =>
        cases ref with
        | none => rfl
        | some ref =>
          simp only
          split_ifs <;> rfl
  all_goals subst h
  · rfl
  · split <;> rfl
  · rfl
  · split <;> rfl
  · rfl

section
variable [DecidableEq C]

theorem Settled.setCall {n : Str} {c d : C} {s : State C V} {call : Call V}
    (h : Settled n c s)
    (hrecord : d = c → ∀ r, call.phase = .checking → call.reply = some (.record r) →
      valueRef r n ≠ .ok none)
    (hphase : d = c → call.phase ≠ .ready) : Settled n c (s.setCall d call) := by
  by_cases hd : c = d
  · subst hd
    refine ⟨h.referred, ?_, ?_, h.ran⟩
    · rw [s.setCall_self]
      exact hrecord rfl
    · rw [s.setCall_self]
      exact hphase rfl
  · refine ⟨h.referred, ?_, ?_, h.ran⟩
    · rw [s.setCall_ne call hd]
      exact h.record
    · rw [s.setCall_ne call hd]
      exact h.phase

omit [DecidableEq C] in
theorem Settled.later {n : Str} {c : C} {s : State C V} {flow : Flow} (h : Settled n c s)
    (hlater : Later s.flow flow) (commits : List (C × Option (Str × Bytes))) :
    Settled n c { s with flow := flow, commits := commits } :=
  ⟨hlater.refs n h.referred, h.record, h.phase, h.ran⟩

theorem Settled.keep {n : Str} {c : C} {s t : State C V} (hname : (params c).valueName host = some n)
    (h : Settled n c s) (hstep : Step host params s t) : Settled n c t := by
  cases hstep with
  | start hidle =>
    refine h.setCall (fun _ r _ hr => ?_) fun _ => (begin_reply _).2
    rw [(begin_reply _).1] at hr
    cases hr
  | @extend d record hrequest hreports =>
    refine h.setCall (fun _ r _ hr hnone => ?_) fun hd => hd ▸ h.phase
    cases hr
    have hrefs := h.referred
    rw [← hreports n none hnone] at hrefs
    cases hrefs
  | @commit d toState value flow response hrequest happlied =>
    have hset : Settled n c
        (s.setCall d { s.call d with reply := some (.continued response) }) :=
      h.setCall (by simp) fun hd => hd ▸ h.phase
    exact hset.later happlied.later _
  | fetch hrequest hshows => exact h.setCall (by simp) fun hd => hd ▸ h.phase
  | reject hrequest => exact h.setCall (by simp) fun hd => hd ▸ h.phase
  | lose => exact h.setCall (fun hd => hd ▸ h.record) fun hd => hd ▸ h.phase
  | @receive d reply call hreply hreceive =>
    refine h.setCall (fun _ r _ hr => ?_) fun hd hready => ?_
    · rw [receive_reply hreceive] at hr
      cases hr
    · subst hd
      rcases receive_phase hreceive with ⟨m, record, hchecking, rfl, hm, rfl⟩ | ⟨outcome, hended⟩
      · rw [hname] at hm
        cases hm
        exact (afterRecord_reply (h.record record hchecking hreply)).2 hready
      · rw [hready] at hended
        cases hended
  | giveUp hgiveUp => exact h.setCall (by simp) (by simp)
  | @run d m outcome hready hm =>
    have hne : d ≠ c := by
      rintro rfl
      exact h.phase hready
    have hset : Settled n c (s.setCall d (afterClosure host (params d) m outcome)) :=
      h.setCall (fun hd => absurd hd hne) fun hd => absurd hd hne
    refine ⟨hset.referred, hset.record, hset.phase, ?_⟩
    simpa [hne.symm] using h.ran
  | crash => exact h.setCall (by simp) (by simp)
  | @change lease fencing runState hfencing =>
    have hlater : Later s.flow { s.flow with lease, fencing, runState } :=
      ⟨hfencing, fun _ => rfl, fun _ h => h, fun _ _ h => h⟩
    exact h.later hlater s.commits

omit [DecidableEq C] in
/-- A call that has not started when its name is committed. -/
theorem Inv.settled {s : State C V} {c : C} {name : Str} (h : Inv host params s)
    (hcommitted : commitsOf params name s ≠ []) (hkind : (params c).kind = .step name)
    (hidle : (s.call c).phase = .idle) :
    ∃ n, (params c).valueName host = some n ∧ Settled n c s := by
  obtain ⟨e, he⟩ := List.exists_mem_of_ne_nil _ hcommitted
  obtain ⟨hmem, hother⟩ := mem_commitsOf.mp he
  have hcarries := h.carries e hmem
  rw [hother] at hcarries
  obtain ⟨n, b, hname, hvalue⟩ := hcarries.of_step
  refine ⟨n, by simp [Params.valueName, hkind, hname, Except.toOption], ?_⟩
  refine ⟨h.referred e.1 n b ?_, by simp [hidle], by simp [hidle], fun hran => ?_⟩
  · rw [← hvalue]
    exact hmem
  · exact h.ran c hran hidle

end

/-- The claim with which the first worker commits a step. -/
def chargeClaim : Claim where
  id := lit "f"
  leaseToken := [1]
  fencingToken := 1
  partitionKey := none
  type := []
  state := lit "running"
  runState := some (lit "a")
  payload := .none
  attributes := none

def chargeHost : Host Bytes where
  encode := .ok
  decode := .ok
  digest b := b.map fun x => ⟨x.toNat, lt_trans x.toNat_lt (by decide)⟩
  isSpace _ := false
  fromResp _ := .ok { chargeClaim with leaseToken := [2], fencingToken := 2, runState := none }

def chargeParams (_ : ℕ) : Params := ⟨.step (lit "charge"), chargeClaim, lit "b"⟩

def chargeFlow : Flow := ⟨[1], 1, lit "a", fun _ => none, fun _ => none⟩

theorem chargeHost_digest : Function.Injective chargeHost.digest := by
  refine List.map_injective_iff.mpr ?_
  intro x y h
  exact UInt8.toNat_inj.mp (Fin.mk.inj h)

def chargeRecord : Record := { chargeClaim with valueRefs := none, raw := none }

theorem chargeRecord_reports : Reports chargeRecord chargeFlow := by
  intro n ref h
  simp only [valueRef, chargeRecord, Option.any_none, Bool.false_eq_true, if_false,
    Option.getD_none, Dict.get?, Except.ok.injEq] at h
  exact h.symm

end FerricStore.DurableSteps
