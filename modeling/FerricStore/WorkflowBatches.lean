import FerricStore.BatchFingerprints
import FerricStore.Stateful
import FerricStore.Value

/-!
# Workflow batches

A worker hands the jobs it claimed for one state to their handler and sends what the handler
decided: one mutation for many jobs while the decisions agree, a batch of mutations or one
call for each job when they do not. The planner keeps the decisions in three ways, and moves
from one to the next at the first decision that differs and at the first step that the
handler has already applied.
-/

set_option autoImplicit false

namespace FerricStore.Workflows
open Text BatchFingerprints Stateful

/-- The fields that every outcome has. -/
structure Edits where
  payload : Obj := .none
  values : Obj := .none
  valueRefs : Obj := .none
  dropValues : Obj := .none
  overrideValues : Obj := .none
  attributesMerge : Obj := .none
  stateMeta : Obj := .none

inductive Outcome where
  | transition (toState : Str) (runAtMs priority : Obj) (edits : Edits)
  | complete (result ttlMs : Obj) (edits : Edits)
  | retry (error runAtMs : Obj) (edits : Edits)
  | fail (error ttlMs : Obj) (edits : Edits)

def outcomeType (name : String) : TypeName := ⟨"ferricstore.workflow", name⟩

def Edits.fields (e : Edits) : List (String × Obj) :=
  [("values", e.values), ("value_refs", e.valueRefs), ("drop_values", e.dropValues),
    ("override_values", e.overrideValues), ("attributes_merge", e.attributesMerge),
    ("state_meta", e.stateMeta)]

/-- The outcome as the dataclass it is. -/
def Outcome.toObj : Outcome → Obj
  | .transition toState runAtMs priority e => .dataclass (outcomeType "Transition")
      (("to_state", .str toState)::("payload", e.payload)::("run_at_ms", runAtMs)::
        ("priority", priority)::e.fields)
  | .complete result ttlMs e => .dataclass (outcomeType "Complete")
      (("result", result)::("payload", e.payload)::("ttl_ms", ttlMs)::e.fields)
  | .retry error runAtMs e => .dataclass (outcomeType "Retry")
      (("error", error)::("payload", e.payload)::("run_at_ms", runAtMs)::e.fields)
  | .fail error ttlMs e => .dataclass (outcomeType "Fail")
      (("error", error)::("payload", e.payload)::("ttl_ms", ttlMs)::e.fields)

/-- A value that is no outcome. -/
structure Plain where
  value : Obj
  plain : ∀ name fields, value ≠ .dataclass (outcomeType name) fields

/-- What a handler returns. -/
inductive Returned where
  | outcome (o : Outcome)
  | plain (v : Plain)

def Returned.toObj : Returned → Obj
  | .outcome o => o.toObj
  | .plain v => v.value

/-- `outcome if isinstance(outcome, ...) else complete(result=outcome)`. -/
def Returned.normalized : Returned → Outcome
  | .outcome o => o
  | .plain v => .complete v.value .none {}

structure Job where
  id : Str
  leaseToken : Bytes
  fencingToken : ℤ
  partitionKey : Option Key
  state : Str
  deriving DecidableEq

/-- The outcome fields of a mutation, under the names they have in a call. -/
inductive Fields where
  | transition (fromState toState : Str) (runAtMs priority : Obj) (edits : Edits)
  | complete (result ttlMs : Obj) (edits : Edits)
  | retry (error runAtMs : Obj) (edits : Edits)
  | fail (error ttlMs : Obj) (edits : Edits)

def Outcome.fields (fromState : Str) : Outcome → Fields
  | .transition toState runAtMs priority e => .transition fromState toState runAtMs priority e
  | .complete result ttlMs e => .complete result ttlMs e
  | .retry error runAtMs e => .retry error runAtMs e
  | .fail error ttlMs e => .fail error ttlMs e

/-- `JobMutation`; its kind is that of its fields. -/
structure JobMutation where
  job : Job
  fields : Fields

/-- The calls of the client that mutate flows. -/
inductive Call where
  | one (id : Str) (fields : Fields) (leaseToken : Bytes) (fencingToken : ℤ)
      (partitionKey : Option Key) (returnRecord : Bool)
  | many (partitionKey : Option Key) (items : List Job) (fields : Fields)
  | applyJobMutations (mutations : List JobMutation)
  | completeJobMutations (items : List (Job × Fields))

/-- One fenced mutation of one flow. -/
structure Mutation where
  id : Str
  leaseToken : Bytes
  fencingToken : ℤ
  partitionKey : Option Key
  fields : Fields

def Job.mutation (job : Job) (fields : Fields) : Mutation :=
  ⟨job.id, job.leaseToken, job.fencingToken, job.partitionKey, fields⟩

/-- What a call asks of the server. The partition of a many call is that of all its items;
without one an item has its own. -/
def Call.mutations : Call → List Mutation
  | .one id fields leaseToken fencingToken partitionKey _ =>
    [⟨id, leaseToken, fencingToken, partitionKey, fields⟩]
  | .many partitionKey items fields => items.map fun job =>
    ⟨job.id, job.leaseToken, job.fencingToken, partitionKey.or job.partitionKey, fields⟩
  | .applyJobMutations mutations => mutations.map fun m => m.job.mutation m.fields
  | .completeJobMutations items => items.map fun item => item.1.mutation item.2

inductive Failure (E : Type) where
  | noHandler
  | lostFirstOutcome
  | lostContinuation
  | priorityForFifo
  | cardinality
  | zip
  | item (error : E)
  | client (error : E)
  | handler (error : E)
  deriving DecidableEq

inductive OnError where
  | retry
  | fail
  | raise
  deriving DecidableEq

structure StateConfig where
  fifo : Bool := false
  onError : OnError := .retry
  returnRecord : Bool := false

/-- The states of a workflow, and which batch methods its client has. -/
structure Workflow where
  states : Dict Str StateConfig
  appliesJobMutations : Bool := true
  completesJobMutations : Bool := true

/-- The client answers a call by what it was asked before. -/
structure Client (E : Type) where
  respond : List Call → Call → Except E Value
  manyItemError : Value → Option E

/-- `AppliedWorkflowStep`: the handler has applied a mutation itself. -/
structure AppliedStep (E : Type) where
  job : Job
  error : Option E
  continuation : Option Returned

/-- What running the handler on a job comes to. -/
inductive Run (E : Type) where
  | returned (r : Returned)
  | applied (step : AppliedStep E)
  | raised (message : Str) (error : E)

inductive Decision (E : Type) where
  | returned (r : Returned)
  | applied (step : AppliedStep E)

section Execution

variable {E : Type}

/-- A computation that calls the client; its state is the calls made so far. -/
abbrev Exec (E α : Type) := EStateM (Failure E) (List Call) α

def lift {α : Type} : Except (Failure E) α → Exec E α
  | .ok a => pure a
  | .error e => throw e

def send (client : Client E) (call : Call) : Exec E Value := fun calls =>
  match client.respond calls call with
  | .ok v => .ok v (calls++[call])
  | .error e => .error (.client e) (calls++[call])

def expandManyResult (response : Value) (expected : ℕ) : Except (Failure E) (List Value) :=
  match response with
  | .list items => if items.length = expected then .ok items else .error .cardinality
  | v => .ok (List.replicate expected v)

def validateManyResult (client : Client E) (response : Value) (expected : ℕ) :
    Except (Failure E) (List Value) := do
  let items ← expandManyResult response expected
  match items.findSome? client.manyItemError with
  | some e => .error (.item e)
  | none => .ok items

def isNone : Obj → Bool
  | .none => true
  | _ => false

/-- `_validate_transition_policy`. -/
def validateTransitionPolicy (w : Workflow) : Outcome → Except (Failure E) Unit
  | .transition toState _ priority _ =>
    if (w.states.get? toState).any StateConfig.fifo && !isNone priority then
      .error .priorityForFifo
    else .ok ()
  | _ => .ok ()

def exceptionOutcome (config : StateConfig) (message : Str) (error : E) :
    Except (Failure E) Outcome :=
  match config.onError with
  | .raise => .error (.handler error)
  | .fail => .ok (.fail (.str message) .none {})
  | .retry => .ok (.retry (.str message) .none {})

/-- `apply_sync_outcome`. -/
def apply (w : Workflow) (client : Client E) (config : StateConfig) (job : Job) (r : Returned) :
    Exec E Value := do
  lift (validateTransitionPolicy w r.normalized)
  send client (.one job.id (r.normalized.fields job.state) job.leaseToken job.fencingToken
    job.partitionKey config.returnRecord)

def buildJobMutation (w : Workflow) (job : Job) (o : Outcome) :
    Except (Failure E) JobMutation := do
  validateTransitionPolicy w o
  .ok ⟨job, o.fields job.state⟩

def applyContinuation (w : Workflow) (client : Client E) (config : StateConfig)
    (step : AppliedStep E) : Exec E Value :=
  match step.error, step.continuation with
  | some _, _ => pure (.bytes (utf8 (lit "OK")))
  | none, none => throw .lostContinuation
  | none, some r => apply w client config step.job r

/-! ## The planner -/

structure Plan (E : Type) where
  idx : ℕ := 0
  mixedOutcomes : Option (List Returned) := none
  outcomesWithApplied : Option (List (Decision E)) := none
  firstOutcome : Option Returned := none

def requiredFirstOutcome (first : Option Returned) : Except (Failure E) Returned :=
  first.elim (.error .lostFirstOutcome) .ok

/-- The outcomes before the first applied step. -/
def Plan.outcomesBefore (plan : Plan E) : Except (Failure E) (List (Decision E)) :=
  if plan.idx = 0 then .ok []
  else match plan.mixedOutcomes with
    | some outcomes => .ok (outcomes.map .returned)
    | none => do
      let first ← requiredFirstOutcome plan.firstOutcome
      .ok (List.replicate plan.idx (.returned first))

def Plan.addReturned (plan : Plan E) (r : Returned) : Except (Failure E) (Plan E) :=
  if plan.idx = 0 then .ok { plan with idx := 1, firstOutcome := some r }
  else match plan.mixedOutcomes with
    | some outcomes =>
      .ok { plan with idx := plan.idx+1, mixedOutcomes := some (outcomes++[r]) }
    | none =>
      if plan.firstOutcome.any fun first => matchesValue first.toObj r.toObj then
        .ok { plan with idx := plan.idx+1 }
      else do
        let first ← requiredFirstOutcome plan.firstOutcome
        .ok { plan with
          idx := plan.idx+1, mixedOutcomes := some (List.replicate plan.idx first++[r]) }

def Plan.add (plan : Plan E) (d : Decision E) : Except (Failure E) (Plan E) :=
  match plan.outcomesWithApplied, d with
  | some outcomes, d =>
    .ok { plan with idx := plan.idx+1, outcomesWithApplied := some (outcomes++[d]) }
  | none, .applied step => do
    let before ← plan.outcomesBefore
    .ok { plan with
      idx := plan.idx+1, outcomesWithApplied := some (before++[.applied step]) }
  | none, .returned r => plan.addReturned r

def handlerDecision (config : StateConfig) : Run E → Except (Failure E) (Decision E)
  | .returned r => .ok (.returned r)
  | .applied step => .ok (.applied step)
  | .raised message error => do
    let o ← exceptionOutcome config message error
    .ok (.returned (.outcome o))

/-- The loop over the jobs of a batch. -/
def planRuns (config : StateConfig) : Plan E → List (Run E) → Except (Failure E) (Plan E)
  | plan, [] => .ok plan
  | plan, run::runs => do
    let d ← handlerDecision config run
    let plan ← plan.add d
    planRuns config plan runs

/-! ## Sending a batch -/

inductive BatchResult where
  | values (values : List Value)
  | count (n : ℕ)

def batchResult (materialize : Bool) (values : List Value) : BatchResult :=
  if materialize then .values values else .count values.length

/-- `zip(..., strict=True)`. -/
def zipStrict {α β : Type} (xs : List α) (ys : List β) : Except (Failure E) (List (α × β)) :=
  if xs.length = ys.length then .ok (xs.zip ys) else .error .zip

def each {α : Type} (f : α → Exec E Value) : List α → Exec E (List Value)
  | [] => pure []
  | a::as => do
    let v ← f a
    let vs ← each f as
    pure (v::vs)

def applyDecision (w : Workflow) (client : Client E) (config : StateConfig)
    (item : Job × Decision E) : Exec E Value :=
  match item.2 with
  | .applied step => applyContinuation w client config step
  | .returned r => apply w client config item.1 r

def Decision.error : Decision E → Option E
  | .applied step => step.error
  | .returned _ => none

def sendApplied (w : Workflow) (client : Client E) (config : StateConfig) (jobs : List Job)
    (decisions : List (Decision E)) : Exec E (List Value) := do
  let items ← lift (zipStrict jobs decisions)
  let values ← each (applyDecision w client config) items
  match decisions.findSome? Decision.error with
  | some e => throw (.handler e)
  | none => pure values

def Outcome.isComplete : Outcome → Bool
  | .complete .. => true
  | _ => false

def sendMixed (w : Workflow) (client : Client E) (config : StateConfig) (jobs : List Job)
    (outcomes : List Returned) : Exec E (List Value) := do
  let items ← lift (zipStrict jobs (outcomes.map Returned.normalized))
  if !config.returnRecord && w.appliesJobMutations then
    let mutations ← lift (items.mapM fun item => buildJobMutation w item.1 item.2)
    let response ← send client (.applyJobMutations mutations)
    lift (validateManyResult client response mutations.length)
  else if !config.returnRecord && w.completesJobMutations &&
      items.all fun item => item.2.isComplete then
    let response ← send client
      (.completeJobMutations (items.map fun item => (item.1, item.2.fields item.1.state)))
    lift (validateManyResult client response jobs.length)
  else each (fun item => apply w client config item.1 (.outcome item.2)) items

def uniformPartitionKey (jobs : List Job) : Option Key :=
  match jobs with
  | [] => none
  | first::_ => if jobs.all fun job => job.partitionKey = first.partitionKey then
      first.partitionKey else none

def uniformCurrentState (jobs : List Job) : Option Str :=
  match jobs with
  | [] => none
  | first::_ => if jobs.all fun job => job.state = first.state then some first.state else none

def flowManyBatchLimit : ℕ := 1000

/-- `apply_uniform_batch` of no more jobs than the limit. -/
def sendMany (client : Client E) (jobs : List Job) (fields : Fields) :
    Exec E (List Value) := do
  let response ← send client (.many (uniformPartitionKey jobs) jobs fields)
  lift (validateManyResult client response jobs.length)

def sendUniformChunk (w : Workflow) (client : Client E) (config : StateConfig)
    (r : Returned) (jobs : List Job) : Exec E (List Value) :=
  match r.normalized with
  | .transition toState runAtMs priority e => do
    lift (validateTransitionPolicy w (.transition toState runAtMs priority e))
    match uniformCurrentState jobs with
    | none => each (fun job => apply w client config job
        (.outcome (.transition toState runAtMs priority e))) jobs
    | some fromState => sendMany client jobs (.transition fromState toState runAtMs priority e)
  | .complete result ttlMs e => sendMany client jobs (.complete result ttlMs e)
  | .retry error runAtMs e => sendMany client jobs (.retry error runAtMs e)
  | .fail error ttlMs e => sendMany client jobs (.fail error ttlMs e)

/-- The slices that start at the multiples of the limit. -/
def slices {α : Type} (limit : ℕ) : ℕ → List α → List (List α)
  | 0, _ => []
  | _+1, [] => []
  | fuel+1, x::xs => (x::xs).take limit::slices limit fuel ((x::xs).drop limit)

def eachChunk (f : List Job → Exec E (List Value)) : List (List Job) → Exec E (List Value)
  | [] => pure []
  | chunk::chunks => do
    let vs ← f chunk
    let ws ← eachChunk f chunks
    pure (vs++ws)

def sendUniform (w : Workflow) (client : Client E) (config : StateConfig) (r : Returned)
    (jobs : List Job) : Exec E (List Value) :=
  if flowManyBatchLimit < jobs.length then
    eachChunk (sendUniformChunk w client config r)
      (slices flowManyBatchLimit jobs.length jobs)
  else sendUniformChunk w client config r jobs

/-- What follows the loop over the jobs. -/
def sendPlan (w : Workflow) (client : Client E) (config : StateConfig) (jobs : List Job)
    (plan : Plan E) : Exec E (List Value) :=
  match plan.outcomesWithApplied, plan.mixedOutcomes with
  | some decisions, _ => sendApplied w client config jobs decisions
  | none, some outcomes => sendMixed w client config jobs outcomes
  | none, none => do
    let first ← lift (requiredFirstOutcome plan.firstOutcome)
    sendUniform w client config first jobs

/-- `handle_known_state_batch`. -/
def handleKnownStateBatch (w : Workflow) (client : Client E) (stateName : Str)
    (materialize : Bool) (runs : List (Job × Run E)) : Exec E BatchResult :=
  if runs = [] then pure (batchResult materialize [])
  else match w.states.get? stateName with
    | none => throw .noHandler
    | some config => do
      let plan ← lift (planRuns config {} (runs.map Prod.snd))
      let values ← sendPlan w client config (runs.map Prod.fst) plan
      pure (batchResult materialize values)

/-! ## What is sent -/

def callsOf {α : Type} : EStateM.Result (Failure E) (List Call) α → List Call
  | .ok _ calls => calls
  | .error _ calls => calls

/-- The outcome of a job that is still to be sent. -/
def Run.outcome (config : StateConfig) : Run E → Option Returned
  | .returned r => some r
  | .applied step => if step.error.isSome then none else step.continuation
  | .raised message error => match exceptionOutcome config message error with
    | .ok o => some (.outcome o)
    | .error _ => none

/-- An applied step has the job as the server left it. -/
def Run.job (job : Job) : Run E → Job
  | .applied step => step.job
  | _ => job

def Run.error : Run E → Option E
  | .applied step => step.error
  | _ => none

/-- The handler's exception meets a policy that does not raise it, and an applied step has a
continuation or an error. -/
def Run.Handled (config : StateConfig) : Run E → Prop
  | .returned _ => True
  | .applied step => step.error.isSome ∨ step.continuation.isSome
  | .raised _ _ => config.onError ≠ .raise

/-- What `apply` sends for a job and its own outcome alone. -/
def sentAlone (w : Workflow) (client : Client E) (config : StateConfig) (x : Job × Run E) :
    List Mutation :=
  match x.2.outcome config with
  | none => []
  | some r => (callsOf (apply w client config (x.2.job x.1) r [])).flatMap Call.mutations

structure Edits.Same (a b : Edits) : Prop where
  payload : BatchFingerprints.Same a.payload b.payload
  values : BatchFingerprints.Same a.values b.values
  valueRefs : BatchFingerprints.Same a.valueRefs b.valueRefs
  dropValues : BatchFingerprints.Same a.dropValues b.dropValues
  overrideValues : BatchFingerprints.Same a.overrideValues b.overrideValues
  attributesMerge : BatchFingerprints.Same a.attributesMerge b.attributesMerge
  stateMeta : BatchFingerprints.Same a.stateMeta b.stateMeta

/-- Fields of one kind with the same values, up to the order of mappings. -/
inductive Fields.Same : Fields → Fields → Prop
  | transition {f t : Str} {r r' p p' : Obj} {e e' : Edits} (hr : BatchFingerprints.Same r r')
      (hp : BatchFingerprints.Same p p') (he : e.Same e') :
      Fields.Same (.transition f t r p e) (.transition f t r' p' e')
  | complete {r r' t t' : Obj} {e e' : Edits} (hr : BatchFingerprints.Same r r')
      (ht : BatchFingerprints.Same t t') (he : e.Same e') :
      Fields.Same (.complete r t e) (.complete r' t' e')
  | retry {x x' r r' : Obj} {e e' : Edits} (hx : BatchFingerprints.Same x x')
      (hr : BatchFingerprints.Same r r') (he : e.Same e') :
      Fields.Same (.retry x r e) (.retry x' r' e')
  | fail {x x' t t' : Obj} {e e' : Edits} (hx : BatchFingerprints.Same x x')
      (ht : BatchFingerprints.Same t t') (he : e.Same e') :
      Fields.Same (.fail x t e) (.fail x' t' e')

/-- The same mutation of the same flow under the same lease. -/
structure Mutation.Same (a b : Mutation) : Prop where
  id : a.id = b.id
  leaseToken : a.leaseToken = b.leaseToken
  fencingToken : a.fencingToken = b.fencingToken
  partitionKey : a.partitionKey = b.partitionKey
  fields : a.fields.Same b.fields

theorem Edits.same_refl (e : Edits) : e.Same e :=
  ⟨.refl _, .refl _, .refl _, .refl _, .refl _, .refl _, .refl _⟩

theorem Fields.same_refl (f : Fields) : f.Same f := by
  cases f with
  | transition => exact .transition (.refl _) (.refl _) (Edits.same_refl _)
  | complete => exact .complete (.refl _) (.refl _) (Edits.same_refl _)
  | retry => exact .retry (.refl _) (.refl _) (Edits.same_refl _)
  | fail => exact .fail (.refl _) (.refl _) (Edits.same_refl _)

theorem same_dataclass {a : Obj} {type : TypeName} {ys : List (String × Obj)}
    (h : BatchFingerprints.Same a (.dataclass type ys)) :
    ∃ xs, a = .dataclass type xs ∧
      List.Forall₂ BatchFingerprints.Same (xs.map Prod.snd) (ys.map Prod.snd) := by
  cases h with
  | refl => exact ⟨ys, rfl, List.forall₂_same.mpr fun _ _ => .refl _⟩
  | dataclass _ hnames h => exact ⟨_, rfl, h⟩

theorem same_str {s t : Str} (h : BatchFingerprints.Same (.str s : Obj) (.str t)) : s = t := by
  cases h
  rfl

theorem outcomeType_inj {a b : String} (h : outcomeType a = outcomeType b) : a = b :=
  congrArg TypeName.qualname h

theorem Outcome.toObj_dataclass (o : Outcome) :
    ∃ name fields, o.toObj = .dataclass (outcomeType name) fields := by
  cases o with
  | transition => exact ⟨_, _, rfl⟩
  | complete => exact ⟨_, _, rfl⟩
  | retry => exact ⟨_, _, rfl⟩
  | fail => exact ⟨_, _, rfl⟩

/-- Outcomes with the same key are sent as the same fields. -/
theorem Outcome.fields_same {a b : Outcome} (h : BatchFingerprints.Same a.toObj b.toObj)
    (fromState : Str) : (a.fields fromState).Same (b.fields fromState) := by
  cases b with
  | transition t r p e =>
    obtain ⟨xs, ha, hxs⟩ := same_dataclass h
    cases a with
    | transition t' r' p' e' =>
      cases ha
      simp only [Edits.fields, List.map_cons, List.map_nil, List.forall₂_cons] at hxs
      obtain ⟨ht, hpay, hr, hp, hv, href, hdrop, hover, hattr, hmeta, -⟩ := hxs
      obtain rfl := same_str ht
      exact .transition hr hp ⟨hpay, hv, href, hdrop, hover, hattr, hmeta⟩
    | _ => simp [Outcome.toObj, outcomeType] at ha
  | complete r t e =>
    obtain ⟨xs, ha, hxs⟩ := same_dataclass h
    cases a with
    | complete r' t' e' =>
      cases ha
      simp only [Edits.fields, List.map_cons, List.map_nil, List.forall₂_cons] at hxs
      obtain ⟨hr, hpay, ht, hv, href, hdrop, hover, hattr, hmeta, -⟩ := hxs
      exact .complete hr ht ⟨hpay, hv, href, hdrop, hover, hattr, hmeta⟩
    | _ => simp [Outcome.toObj, outcomeType] at ha
  | retry x r e =>
    obtain ⟨xs, ha, hxs⟩ := same_dataclass h
    cases a with
    | retry x' r' e' =>
      cases ha
      simp only [Edits.fields, List.map_cons, List.map_nil, List.forall₂_cons] at hxs
      obtain ⟨hx, hpay, hr, hv, href, hdrop, hover, hattr, hmeta, -⟩ := hxs
      exact .retry hx hr ⟨hpay, hv, href, hdrop, hover, hattr, hmeta⟩
    | _ => simp [Outcome.toObj, outcomeType] at ha
  | fail x t e =>
    obtain ⟨xs, ha, hxs⟩ := same_dataclass h
    cases a with
    | fail x' t' e' =>
      cases ha
      simp only [Edits.fields, List.map_cons, List.map_nil, List.forall₂_cons] at hxs
      obtain ⟨hx, hpay, ht, hv, href, hdrop, hover, hattr, hmeta, -⟩ := hxs
      exact .fail hx ht ⟨hpay, hv, href, hdrop, hover, hattr, hmeta⟩
    | _ => simp [Outcome.toObj, outcomeType] at ha

/-- A decision that the planner takes for another is sent as the same fields. -/
theorem Returned.fields_same {a b : Returned} (h : BatchFingerprints.Same a.toObj b.toObj)
    (fromState : Str) :
    (a.normalized.fields fromState).Same (b.normalized.fields fromState) := by
  cases b with
  | outcome o =>
    cases a with
    | outcome o' => exact Outcome.fields_same h fromState
    | plain v =>
      obtain ⟨name, fields, ho⟩ := o.toObj_dataclass
      rw [show Returned.toObj (.outcome o) = _ from ho] at h
      obtain ⟨xs, hv, -⟩ := same_dataclass h
      exact absurd hv (v.plain name xs)
  | plain v =>
    cases a with
    | outcome o =>
      obtain ⟨name, fields, ho⟩ := o.toObj_dataclass
      rw [show Returned.toObj (.outcome o) = _ from ho] at h
      have hv : ∃ ys, v.value = .dataclass (outcomeType name) ys := by
        generalize hw : Returned.toObj (.plain v) = w at h
        cases h with
        | refl => exact ⟨fields, hw⟩
        | dataclass _ _ _ => exact ⟨_, hw⟩
      obtain ⟨ys, hv⟩ := hv
      exact absurd hv (v.plain name ys)
    | plain v' => exact .complete h (.refl _) (Edits.same_refl _)

/-! ## What the planner keeps -/

/-- A decision and the one kept for it. -/
inductive Decision.Same : Decision E → Decision E → Prop
  | returned {r r' : Returned} (h : BatchFingerprints.Same r.toObj r'.toObj) :
      Decision.Same (.returned r) (.returned r')
  | applied (step : AppliedStep E) : Decision.Same (.applied step) (.applied step)

theorem Decision.same_refl (d : Decision E) : d.Same d := by
  cases d with
  | returned r => exact .returned (.refl _)
  | applied step => exact .applied step

theorem forall₂_snoc {α β : Type} {R : α → β → Prop} {xs : List α} {ys : List β} {x : α} {y : β}
    (h : List.Forall₂ R xs ys) (hxy : R x y) : List.Forall₂ R (xs++[x]) (ys++[y]) :=
  List.rel_append h (.cons hxy .nil)

/-- The plan keeps a decision for each one made so far, in whichever way it keeps them. -/
def Plan.Represents (plan : Plan E) (ds : List (Decision E)) : Prop :=
  plan.idx = ds.length ∧ match plan.outcomesWithApplied, plan.mixedOutcomes with
    | some kept, _ => List.Forall₂ Decision.Same ds kept
    | none, some kept => ds ≠ [] ∧ List.Forall₂ Decision.Same ds (kept.map .returned)
    | none, none => ds = [] ∨ ∃ first, plan.firstOutcome = some first ∧
        List.Forall₂ Decision.Same ds (List.replicate ds.length (.returned first))

theorem Plan.outcomesBefore_represents {plan : Plan E} {ds : List (Decision E)}
    (h : plan.Represents ds) (happlied : plan.outcomesWithApplied = none) :
    ∃ before, plan.outcomesBefore = .ok before ∧ List.Forall₂ Decision.Same ds before := by
  obtain ⟨hidx, h⟩ := h
  rw [happlied] at h
  unfold Plan.outcomesBefore
  by_cases hzero : plan.idx = 0
  · rw [if_pos hzero]
    obtain rfl := List.eq_nil_of_length_eq_zero (hidx.symm.trans hzero)
    exact ⟨[], rfl, .nil⟩
  rw [if_neg hzero]
  cases hmixed : plan.mixedOutcomes with
  | some kept =>
    rw [hmixed] at h
    exact ⟨_, rfl, h.2⟩
  | none =>
    rw [hmixed] at h
    rcases h with rfl | ⟨first, hfirst, hall⟩
    · exact absurd hidx hzero
    · refine ⟨List.replicate plan.idx (.returned first), ?_, hidx ▸ hall⟩
      simp only [hfirst]
      rfl

theorem Plan.addReturned_represents {plan : Plan E} {ds : List (Decision E)}
    (h : plan.Represents ds) (happlied : plan.outcomesWithApplied = none) (r : Returned) :
    ∃ plan' : Plan E, plan.addReturned r = .ok plan' ∧ plan'.Represents (ds++[.returned r]) := by
  obtain ⟨hidx, h⟩ := h
  rw [happlied] at h
  unfold Plan.addReturned
  by_cases hzero : plan.idx = 0
  · rw [if_pos hzero]
    obtain rfl := List.eq_nil_of_length_eq_zero (hidx.symm.trans hzero)
    refine ⟨_, rfl, rfl, ?_⟩
    cases hmixed : plan.mixedOutcomes with
    | some kept =>
      rw [hmixed] at h
      exact absurd rfl h.1
    | none =>
      rw [happlied]
      exact .inr ⟨r, rfl, .cons (Decision.same_refl _) .nil⟩
  rw [if_neg hzero]
  cases hmixed : plan.mixedOutcomes with
  | some kept =>
    rw [hmixed] at h
    refine ⟨_, rfl, by simp [hidx], ?_⟩
    rw [happlied]
    refine ⟨by simp, ?_⟩
    rw [List.map_append]
    exact forall₂_snoc h.2 (Decision.same_refl _)
  | none =>
    rw [hmixed] at h
    rcases h with rfl | ⟨first, hfirst, hall⟩
    · exact absurd hidx hzero
    simp only [hfirst, Option.any_some]
    by_cases hmatch : matchesValue first.toObj r.toObj = true
    · rw [if_pos hmatch]
      refine ⟨_, rfl, by simp [hidx], ?_⟩
      rw [happlied]
      refine .inr ⟨first, rfl, ?_⟩
      rw [List.length_append, List.length_singleton, List.replicate_succ']
      exact forall₂_snoc hall (.returned (matchesValue_sound hmatch))
    · rw [if_neg hmatch]
      refine ⟨_, rfl, by simp [hidx], ?_⟩
      rw [happlied]
      refine ⟨by simp, ?_⟩
      rw [List.map_append, List.map_replicate, hidx]
      exact forall₂_snoc hall (Decision.same_refl _)

/-- One turn of the loop. -/
theorem Plan.add_represents {plan : Plan E} {ds : List (Decision E)} (h : plan.Represents ds)
    (d : Decision E) :
    ∃ plan' : Plan E, plan.add d = .ok plan' ∧ plan'.Represents (ds++[d]) := by
  unfold Plan.add
  cases happlied : plan.outcomesWithApplied with
  | some kept =>
    obtain ⟨hidx, h⟩ := h
    rw [happlied] at h
    refine ⟨_, rfl, by simp [hidx], ?_⟩
    exact forall₂_snoc h (Decision.same_refl _)
  | none =>
    cases d with
    | returned r => exact Plan.addReturned_represents h happlied r
    | applied step =>
      obtain ⟨before, hbefore, hall⟩ := Plan.outcomesBefore_represents h happlied
      rw [hbefore]
      refine ⟨_, rfl, by simp [h.1], ?_⟩
      exact forall₂_snoc hall (Decision.same_refl _)

/-- The loop keeps a decision for each run. -/
theorem planRuns_represents {config : StateConfig} {runs : List (Run E)} {ds : List (Decision E)}
    (hruns : List.Forall₂ (fun run d => handlerDecision config run = .ok d) runs ds)
    {plan : Plan E} {before : List (Decision E)} (h : plan.Represents before) :
    ∃ plan' : Plan E, planRuns config plan runs = .ok plan' ∧ plan'.Represents (before++ds) := by
  induction hruns generalizing plan before with
  | nil => exact ⟨plan, rfl, by rwa [List.append_nil]⟩
  | cons hd _ ih =>
    obtain ⟨plan', hadd, hplan'⟩ := Plan.add_represents h _
    obtain ⟨plan'', hrest, hplan''⟩ := ih hplan'
    refine ⟨plan'', ?_, by rwa [List.append_assoc] at hplan''⟩
    rw [planRuns, hd, except_ok_bind, hadd, except_ok_bind, hrest]

/-! ## Sending -/

/-- The mutation of a job and an outcome. -/
def Job.mutationOf (job : Job) (r : Returned) : Mutation :=
  job.mutation (r.normalized.fields job.state)

/-- Whatever the computation ends with, its calls are for these mutations. -/
def Sends {α : Type} (x : Exec E α) (ms : List Mutation) : Prop :=
  ∀ calls, ∃ new, callsOf (x calls) = calls++new ∧ new.flatMap Call.mutations = ms

/-- The computation returns, and its calls are for these mutations. -/
def Returns {α : Type} (x : Exec E α) (ms : List Mutation) : Prop :=
  ∀ calls, ∃ a new, x calls = .ok a (calls++new) ∧ new.flatMap Call.mutations = ms

theorem Returns.sends {α : Type} {x : Exec E α} {ms : List Mutation} (h : Returns x ms) :
    Sends x ms := by
  intro calls
  obtain ⟨a, new, hx, hms⟩ := h calls
  exact ⟨new, by rw [hx]; rfl, hms⟩

theorem Returns.pure {α : Type} (a : α) : Returns (Pure.pure a : Exec E α) [] :=
  fun calls => ⟨a, [], by rw [List.append_nil]; rfl, rfl⟩

theorem Sends.lift {α : Type} (x : Except (Failure E) α) : Sends (lift x) [] := by
  intro calls
  refine ⟨[], ?_, rfl⟩
  cases x <;> exact (List.append_nil _).symm

theorem Returns.bind {α β : Type} {x : Exec E α} {f : α → Exec E β} {ms ns : List Mutation}
    (hx : Returns x ms) (hf : ∀ a, Returns (f a) ns) : Returns (x >>= f) (ms++ns) := by
  intro calls
  obtain ⟨a, new, hrun, rfl⟩ := hx calls
  obtain ⟨b, more, hmore, rfl⟩ := hf a (calls++new)
  refine ⟨b, new++more, ?_, List.flatMap_append⟩
  rw [bind_of_ok hrun, hmore, List.append_assoc]

theorem Returns.bind_sends {α β : Type} {x : Exec E α} {f : α → Exec E β}
    {ms ns : List Mutation} (hx : Returns x ms) (hf : ∀ a, Sends (f a) ns) :
    Sends (x >>= f) (ms++ns) := by
  intro calls
  obtain ⟨a, new, hrun, rfl⟩ := hx calls
  obtain ⟨more, hmore, rfl⟩ := hf a (calls++new)
  refine ⟨new++more, ?_, List.flatMap_append⟩
  rw [bind_of_ok hrun, hmore, List.append_assoc]

theorem bind_lift {α β : Type} {x : Except (Failure E) α} {a : α} (h : x = .ok a)
    (f : α → Exec E β) : (lift x >>= f) = f a := by
  rw [h]
  rfl

theorem Returns.each {α : Type} {f : α → Exec E Value} {ms : α → List Mutation} {as : List α}
    (h : ∀ a ∈ as, Returns (f a) (ms a)) : Returns (each f as) (as.flatMap ms) := by
  induction as with
  | nil => exact .pure _
  | cons a as ih =>
    rw [List.forall_mem_cons] at h
    rw [List.flatMap_cons, Workflows.each]
    refine h.1.bind fun v => ?_
    have hrest := (ih h.2).bind fun vs => Returns.pure (E := E) (v::vs)
    rwa [List.append_nil] at hrest

theorem Returns.eachChunk {f : List Job → Exec E (List Value)} {m : Job → Mutation}
    {chunks : List (List Job)} (h : ∀ chunk ∈ chunks, Returns (f chunk) (chunk.map m)) :
    Returns (eachChunk f chunks) (chunks.flatten.map m) := by
  induction chunks with
  | nil => exact .pure _
  | cons chunk chunks ih =>
    rw [List.forall_mem_cons] at h
    rw [List.flatten_cons, List.map_append, Workflows.eachChunk]
    refine h.1.bind fun vs => ?_
    have hrest := (ih h.2).bind fun ws => Returns.pure (E := E) (vs++ws)
    rwa [List.append_nil] at hrest

/-- No call of the client raises. -/
def Client.Responds (client : Client E) : Prop :=
  ∀ calls call, ∃ v, client.respond calls call = .ok v

/-- The client answers a call for many jobs with one good item for each. -/
def Client.Accepts (client : Client E) : Prop :=
  ∀ calls call v (n : ℕ), client.respond calls call = .ok v →
    ∃ items, validateManyResult client v n = .ok items

theorem send_returns {client : Client E} (h : client.Responds) (call : Call) :
    Returns (send client call) call.mutations := by
  intro calls
  obtain ⟨v, hv⟩ := h calls call
  refine ⟨v, [call], ?_, by rw [List.flatMap_singleton]⟩
  rw [send, hv]

theorem sendAll_sends {client : Client E} (h : client.Responds) (call : Call)
    (n : ℕ) : Sends (send client call >>= fun v => lift (validateManyResult client v n))
      call.mutations := by
  have hsend := (send_returns h call).bind_sends fun v => Sends.lift (validateManyResult client v n)
  rwa [List.append_nil] at hsend

theorem sendAll_returns {client : Client E} (h : client.Responds) (hok : client.Accepts)
    (call : Call) (n : ℕ) :
    Returns (send client call >>= fun v => lift (validateManyResult client v n))
      call.mutations := by
  intro calls
  obtain ⟨v, hv⟩ := h calls call
  obtain ⟨items, hitems⟩ := hok calls call v n hv
  refine ⟨items, [call], ?_, by rw [List.flatMap_singleton]⟩
  have hrun : send client call calls = .ok v (calls++[call]) := by rw [send, hv]
  rw [bind_of_ok hrun, hitems]
  rfl

/-- What can be sent: a transition that meets the policy, or another outcome. -/
def Returned.Permitted (E : Type) (w : Workflow) (r : Returned) : Prop :=
  (validateTransitionPolicy w r.normalized : Except (Failure E) Unit) = .ok ()

theorem apply_returns {w : Workflow} {client : Client E} (hclient : client.Responds)
    (config : StateConfig) (job : Job) {r : Returned} (hr : r.Permitted E w) :
    Returns (apply w client config job r) [job.mutationOf r] := by
  rw [apply, bind_lift hr]
  exact send_returns hclient _

theorem sentAlone_apply {w : Workflow} {client : Client E} (hclient : client.Responds)
    (config : StateConfig) (job : Job) {r : Returned} (hr : r.Permitted E w) :
    (callsOf (apply w client config job r [])).flatMap Call.mutations = [job.mutationOf r] := by
  obtain ⟨v, new, hrun, hms⟩ := apply_returns hclient config job hr []
  rw [hrun]
  exact hms

/-- What a decision sends. -/
def Decision.mutations (job : Job) : Decision E → List Mutation
  | .returned r => [job.mutationOf r]
  | .applied step => match step.error, step.continuation with
    | none, some r => [step.job.mutationOf r]
    | _, _ => []

def Decision.Permitted (w : Workflow) : Decision E → Prop
  | .returned r => r.Permitted E w
  | .applied step => step.error.isSome ∨ ∃ r, step.continuation = some r ∧ r.Permitted E w

theorem applyDecision_returns {w : Workflow} {client : Client E} (hclient : client.Responds)
    (config : StateConfig) (job : Job) {d : Decision E} (hd : d.Permitted w) :
    Returns (applyDecision w client config (job, d)) (d.mutations job) := by
  cases d with
  | returned r => exact apply_returns hclient config job hd
  | applied step =>
    obtain ⟨stepJob, error, continuation⟩ := step
    cases error with
    | some e => exact .pure _
    | none =>
      rcases hd with he | ⟨r, rfl, hr⟩
      · cases he
      · exact apply_returns hclient config stepJob hr

theorem sendApplied_returns {w : Workflow} {client : Client E} (hclient : client.Responds)
    (config : StateConfig) {jobs : List Job} {kept : List (Decision E)}
    (hlength : jobs.length = kept.length) (hkept : ∀ d ∈ kept, d.Permitted w) (calls : List Call) :
    ∃ values new, sendApplied w client config jobs kept calls =
        (match kept.findSome? Decision.error with
          | some e => .error (.handler e) (calls++new)
          | none => .ok values (calls++new)) ∧
      new.flatMap Call.mutations = (jobs.zip kept).flatMap fun x => x.2.mutations x.1 := by
  have hzip : (zipStrict jobs kept : Except (Failure E) _) = .ok (jobs.zip kept) := if_pos hlength
  have heach : Returns (each (applyDecision w client config) (jobs.zip kept))
      ((jobs.zip kept).flatMap fun x => x.2.mutations x.1) := by
    refine Returns.each fun x hx => ?_
    exact applyDecision_returns hclient config x.1 (hkept x.2 (List.of_mem_zip hx).2)
  obtain ⟨values, new, hrun, hms⟩ := heach calls
  refine ⟨values, new, ?_, hms⟩
  rw [sendApplied, bind_lift hzip, bind_of_ok hrun]
  cases kept.findSome? Decision.error <;> rfl

theorem mapM_buildJobMutation {w : Workflow} {items : List (Job × Outcome)}
    (h : ∀ x ∈ items, (validateTransitionPolicy w x.2 : Except (Failure E) Unit) = .ok ()) :
    (items.mapM fun item => buildJobMutation w item.1 item.2 : Except (Failure E) _) =
      .ok (items.map fun x => ⟨x.1, x.2.fields x.1.state⟩) := by
  induction items with
  | nil => rfl
  | cons x items ih =>
    rw [List.forall_mem_cons] at h
    rw [List.mapM_cons, ih h.2, buildJobMutation, h.1]
    rfl

theorem sendMixed_sends {w : Workflow} {client : Client E} (hclient : client.Responds)
    (config : StateConfig) {jobs : List Job} {kept : List Returned}
    (hlength : jobs.length = kept.length) (hkept : ∀ r ∈ kept, r.Permitted E w) :
    Sends (sendMixed w client config jobs kept)
      ((jobs.zip kept).map fun x => x.1.mutationOf x.2) := by
  have hzip : (zipStrict jobs (kept.map Returned.normalized) : Except (Failure E) _) =
      .ok (jobs.zip (kept.map Returned.normalized)) := if_pos (by rw [List.length_map, hlength])
  have hpolicy : ∀ x ∈ jobs.zip (kept.map Returned.normalized),
      (validateTransitionPolicy w x.2 : Except (Failure E) Unit) = .ok () := by
    intro x hx
    obtain ⟨r, hr, hx2⟩ := List.mem_map.mp (List.of_mem_zip hx).2
    rw [← hx2]
    exact hkept r hr
  have hms : (jobs.zip kept).map (fun x => x.1.mutationOf x.2) =
      (jobs.zip (kept.map Returned.normalized)).map fun x =>
        x.1.mutation (x.2.fields x.1.state) := by
    rw [List.zip_map_right, List.map_map]
    rfl
  rw [sendMixed, bind_lift hzip, hms]
  split_ifs
  · rw [bind_lift (mapM_buildJobMutation hpolicy)]
    have hsend := sendAll_sends hclient (.applyJobMutations
      ((jobs.zip (kept.map Returned.normalized)).map fun x => ⟨x.1, x.2.fields x.1.state⟩))
    simp only [Call.mutations, List.map_map] at hsend
    exact hsend _
  · have hsend := sendAll_sends hclient (.completeJobMutations
      ((jobs.zip (kept.map Returned.normalized)).map fun x => (x.1, x.2.fields x.1.state)))
    simp only [Call.mutations, List.map_map] at hsend
    exact hsend _
  · have heach : Returns (each (fun item => apply w client config item.1 (.outcome item.2))
        (jobs.zip (kept.map Returned.normalized)))
        ((jobs.zip (kept.map Returned.normalized)).flatMap fun x =>
          [x.1.mutation (x.2.fields x.1.state)]) :=
      Returns.each fun x hx => apply_returns hclient config x.1 (hpolicy x hx)
    rw [← List.map_eq_flatMap] at heach
    exact heach.sends

theorem uniformPartitionKey_or {jobs : List Job} {job : Job} (h : job ∈ jobs) :
    (uniformPartitionKey jobs).or job.partitionKey = job.partitionKey := by
  cases jobs with
  | nil => cases h
  | cons first rest =>
    rw [uniformPartitionKey]
    split_ifs with hall
    · have hsame : job.partitionKey = first.partitionKey := by
        simpa using List.all_eq_true.mp hall job h
      rw [hsame, Option.or_self]
    · rfl

theorem uniformCurrentState_eq {jobs : List Job} {state : Str}
    (h : uniformCurrentState jobs = some state) : ∀ job ∈ jobs, job.state = state := by
  cases jobs with
  | nil => cases h
  | cons first rest =>
    rw [uniformCurrentState] at h
    split_ifs at h with hall
    cases h
    intro job hjob
    simpa using List.all_eq_true.mp hall job hjob

theorem many_mutations {jobs : List Job} {fields : Fields} {r : Returned}
    (h : ∀ job ∈ jobs, r.normalized.fields job.state = fields) :
    (Call.many (uniformPartitionKey jobs) jobs fields).mutations =
      jobs.map fun job => job.mutationOf r := by
  refine List.map_congr_left fun job hjob => ?_
  rw [uniformPartitionKey_or hjob, ← h job hjob]
  rfl

/-- Sending the jobs of a chunk, if there is nothing to be said about its end or if the
client accepts what it is asked. -/
theorem sendUniformChunk_sends {w : Workflow} {client : Client E} (hclient : client.Responds)
    (config : StateConfig) {r : Returned} (hr : r.Permitted E w) (jobs : List Job) :
    Sends (sendUniformChunk w client config r jobs) (jobs.map fun job => job.mutationOf r) ∧
      (client.Accepts → Returns (sendUniformChunk w client config r jobs)
        (jobs.map fun job => job.mutationOf r)) := by
  have hmany : ∀ fields, (∀ job ∈ jobs, r.normalized.fields job.state = fields) →
      Sends (sendMany client jobs fields) (jobs.map fun job => job.mutationOf r) ∧
        (client.Accepts → Returns (sendMany client jobs fields)
          (jobs.map fun job => job.mutationOf r)) := fun fields hfields => by
    rw [← many_mutations hfields]
    exact ⟨sendAll_sends hclient _ _, fun hok => sendAll_returns hclient hok _ _⟩
  rw [sendUniformChunk]
  cases ho : r.normalized with
  | transition toState runAtMs priority e =>
    have hpolicy : (validateTransitionPolicy w (.transition toState runAtMs priority e) :
        Except (Failure E) Unit) = .ok () := by
      rw [← ho]
      exact hr
    simp only
    rw [bind_lift hpolicy]
    cases hstate : uniformCurrentState jobs with
    | none =>
      have heach : Returns (each (fun job => apply w client config job
          (.outcome (.transition toState runAtMs priority e))) jobs)
          (jobs.flatMap fun job => [job.mutationOf r]) := by
        refine Returns.each fun job _ => ?_
        have happly := apply_returns hclient config job (show Returned.Permitted E w
          (.outcome (.transition toState runAtMs priority e)) from hpolicy)
        rw [Job.mutationOf, ho]
        exact happly
      rw [List.map_eq_flatMap]
      exact ⟨heach.sends, fun _ => heach⟩
    | some state =>
      refine hmany _ fun job hjob => ?_
      rw [ho, uniformCurrentState_eq hstate job hjob]
      rfl
  | complete result ttlMs e => exact hmany _ fun job _ => by rw [ho]; rfl
  | retry error runAtMs e => exact hmany _ fun job _ => by rw [ho]; rfl
  | fail error ttlMs e => exact hmany _ fun job _ => by rw [ho]; rfl

theorem flatten_slices {α : Type} {limit : ℕ} (hlimit : 0 < limit) (fuel : ℕ) (xs : List α)
    (h : xs.length ≤ fuel) : (slices limit fuel xs).flatten = xs := by
  induction fuel generalizing xs with
  | zero =>
    obtain rfl := List.eq_nil_of_length_eq_zero (Nat.le_zero.mp h)
    rfl
  | succ fuel ih =>
    cases xs with
    | nil => rfl
    | cons x xs =>
      rw [slices, List.flatten_cons, ih, List.take_append_drop]
      rw [List.length_drop]
      simp only [List.length_cons] at h ⊢
      omega

theorem sendUniform_sends {w : Workflow} {client : Client E} (hclient : client.Responds)
    (config : StateConfig) {r : Returned} (hr : r.Permitted E w) {jobs : List Job}
    (hmany : flowManyBatchLimit < jobs.length → client.Accepts) :
    Sends (sendUniform w client config r jobs) (jobs.map fun job => job.mutationOf r) := by
  rw [sendUniform]
  split_ifs with hlimit
  · have hchunks : Returns (eachChunk (sendUniformChunk w client config r)
        (slices flowManyBatchLimit jobs.length jobs))
        ((slices flowManyBatchLimit jobs.length jobs).flatten.map fun job =>
          job.mutationOf r) :=
      Returns.eachChunk fun chunk _ =>
        (sendUniformChunk_sends hclient config hr chunk).2 (hmany hlimit)
    rw [flatten_slices (by decide) jobs.length jobs (le_refl _)] at hchunks
    exact hchunks.sends
  · exact (sendUniformChunk_sends hclient config hr jobs).1

/-! ## Batches are their jobs -/

theorem policy_same {w : Workflow} {a b : Returned}
    (h : BatchFingerprints.Same a.toObj b.toObj) (ha : a.Permitted E w) : b.Permitted E w := by
  have hfields := Returned.fields_same h []
  unfold Returned.Permitted at ha ⊢
  cases hb : b.normalized with
  | transition t r p e =>
    cases hna : a.normalized with
    | transition t' r' p' e' =>
      rw [hna, hb] at hfields
      rw [hna] at ha
      cases hfields with
      | transition hr hp he =>
        have hnone : isNone p' = isNone p := by cases hp <;> rfl
        rw [validateTransitionPolicy, hnone] at ha
        exact ha
    | _ =>
      rw [hna, hb] at hfields
      cases hfields
  | _ => rfl

theorem Decision.Same.permitted {w : Workflow} {d d' : Decision E} (h : d.Same d')
    (hd : d.Permitted w) : d'.Permitted w := by
  cases h with
  | returned h => exact policy_same h hd
  | applied step => exact hd

theorem Job.mutationOf_same (job : Job) {r r' : Returned}
    (h : BatchFingerprints.Same r.toObj r'.toObj) :
    (job.mutationOf r).Same (job.mutationOf r') :=
  ⟨rfl, rfl, rfl, rfl, Returned.fields_same h job.state⟩

theorem Mutation.same_refl (m : Mutation) : m.Same m :=
  ⟨rfl, rfl, rfl, rfl, Fields.same_refl _⟩

theorem Decision.Same.mutations {d d' : Decision E} (h : d.Same d') (job : Job) :
    List.Forall₂ Mutation.Same (d.mutations job) (d'.mutations job) := by
  cases h with
  | returned h => exact .cons (job.mutationOf_same h) .nil
  | applied step => exact List.forall₂_same.mpr fun m _ => Mutation.same_refl m

theorem Decision.Same.error {d d' : Decision E} (h : d.Same d') : d'.error = d.error := by
  cases h <;> rfl

/-- The decision on a job, and what it sends, are those of the job alone. -/
theorem handlerDecision_alone {w : Workflow} {client : Client E} (hclient : client.Responds)
    {config : StateConfig} {x : Job × Run E} (hhandled : x.2.Handled config)
    (hpolicy : ∀ r, x.2.outcome config = some r → r.Permitted E w) :
    ∃ d : Decision E, handlerDecision config x.2 = .ok d ∧ d.Permitted w ∧
      d.mutations x.1 = sentAlone w client config x ∧ d.error = x.2.error := by
  obtain ⟨job, run⟩ := x
  cases run with
  | returned r =>
    have hr := hpolicy r rfl
    exact ⟨.returned r, rfl, hr, (sentAlone_apply hclient config job hr).symm, rfl⟩
  | applied step =>
    obtain ⟨stepJob, error, continuation⟩ := step
    refine ⟨.applied ⟨stepJob, error, continuation⟩, rfl, ?_, ?_, rfl⟩
    · cases error with
      | some e => exact .inl rfl
      | none =>
        rcases hhandled with he | hc
        · cases he
        · obtain ⟨r, rfl⟩ := Option.isSome_iff_exists.mp hc
          exact .inr ⟨r, rfl, hpolicy r rfl⟩
    · cases error with
      | some e => rfl
      | none =>
        rcases hhandled with he | hc
        · cases he
        · obtain ⟨r, rfl⟩ := Option.isSome_iff_exists.mp hc
          exact (sentAlone_apply hclient config stepJob (hpolicy r rfl)).symm
  | raised message e =>
    have ho : ∃ o, exceptionOutcome config message e = .ok o := by
      unfold exceptionOutcome
      cases hpol : config.onError with
      | raise => exact absurd hpol hhandled
      | fail => exact ⟨_, rfl⟩
      | retry => exact ⟨_, rfl⟩
    obtain ⟨o, ho⟩ := ho
    have hout : Run.outcome config (.raised message e) = some (.outcome o) := by
      simp only [Run.outcome, ho]
    have hr := hpolicy _ hout
    refine ⟨.returned (.outcome o), by rw [handlerDecision, ho]; rfl, hr, ?_, rfl⟩
    simp only [sentAlone, hout]
    exact (sentAlone_apply hclient config job hr).symm

theorem decisions_alone {w : Workflow} {client : Client E} (hclient : client.Responds)
    {config : StateConfig} {runs : List (Job × Run E)}
    (hhandled : ∀ x ∈ runs, x.2.Handled config)
    (hpolicy : ∀ x ∈ runs, ∀ r, x.2.outcome config = some r → r.Permitted E w) :
    ∃ ds : List (Decision E),
      List.Forall₂ (fun run d => handlerDecision config run = .ok d) (runs.map Prod.snd) ds ∧
      (∀ d ∈ ds, d.Permitted w) ∧
      ((runs.map Prod.fst).zip ds).flatMap (fun x => x.2.mutations x.1) =
        runs.flatMap (sentAlone w client config) ∧
      ds.findSome? Decision.error = runs.findSome? fun x => x.2.error := by
  induction runs with
  | nil => exact ⟨[], .nil, by simp, rfl, rfl⟩
  | cons x runs ih =>
    rw [List.forall_mem_cons] at hhandled hpolicy
    obtain ⟨d, hd, hpermitted, hms, herror⟩ := handlerDecision_alone hclient hhandled.1 hpolicy.1
    obtain ⟨ds, hds, hall, hrest, herrors⟩ := ih hhandled.2 hpolicy.2
    refine ⟨d::ds, .cons hd hds, List.forall_mem_cons.mpr ⟨hpermitted, hall⟩, ?_, ?_⟩
    · rw [List.map_cons, List.zip_cons_cons, List.flatMap_cons, List.flatMap_cons, hms, hrest]
    · rw [List.findSome?_cons, List.findSome?_cons, herror, herrors]

theorem kept_mutations {ds kept : List (Decision E)} (h : List.Forall₂ Decision.Same ds kept)
    (jobs : List Job) :
    List.Forall₂ Mutation.Same ((jobs.zip ds).flatMap fun x => x.2.mutations x.1)
      ((jobs.zip kept).flatMap fun x => x.2.mutations x.1) := by
  induction h generalizing jobs with
  | nil => simp
  | cons hd _ ih =>
    cases jobs with
    | nil => exact .nil
    | cons job jobs =>
      simp only [List.zip_cons_cons, List.flatMap_cons]
      exact List.rel_append (hd.mutations job) (ih jobs)

theorem kept_permitted {w : Workflow} {ds kept : List (Decision E)}
    (h : List.Forall₂ Decision.Same ds kept) (hds : ∀ d ∈ ds, d.Permitted w) :
    ∀ d ∈ kept, d.Permitted w := by
  induction h with
  | nil => simp
  | cons hd _ ih =>
    rw [List.forall_mem_cons] at hds ⊢
    exact ⟨hd.permitted hds.1, ih hds.2⟩

theorem kept_error {ds kept : List (Decision E)} (h : List.Forall₂ Decision.Same ds kept) :
    kept.findSome? Decision.error = ds.findSome? Decision.error := by
  induction h with
  | nil => rfl
  | cons hd _ ih => rw [List.findSome?_cons, List.findSome?_cons, hd.error, ih]

theorem returned_error (rs : List Returned) :
    (rs.map Decision.returned).findSome? (Decision.error (E := E)) = none := by
  induction rs with
  | nil => rfl
  | cons r rs ih => exact ih

theorem returned_mutations (jobs : List Job) (rs : List Returned) :
    ((jobs.zip (rs.map (Decision.returned (E := E)))).flatMap fun x => x.2.mutations x.1) =
      (jobs.zip rs).map fun x => x.1.mutationOf x.2 := by
  induction jobs generalizing rs with
  | nil => rfl
  | cons job jobs ih =>
    cases rs with
    | nil => rfl
    | cons r rs =>
      rw [List.map_cons, List.zip_cons_cons, List.flatMap_cons, ih]
      rfl

theorem zip_replicate_mutations (jobs : List Job) (r : Returned) :
    ((jobs.zip (List.replicate jobs.length r)).map fun x => x.1.mutationOf x.2) =
      jobs.map fun job => job.mutationOf r := by
  induction jobs with
  | nil => rfl
  | cons job jobs ih =>
    rw [List.length_cons, List.replicate_succ, List.zip_cons_cons, List.map_cons, ih,
      List.map_cons]

/-- What the computation sends is what the decisions send, and it ends with the error of the
first of them that has one. -/
def SendsAll {α : Type} (x : Exec E α) (jobs : List Job) (ds : List (Decision E)) : Prop :=
  List.Forall₂ Mutation.Same ((jobs.zip ds).flatMap fun x => x.2.mutations x.1)
    ((callsOf (x [])).flatMap Call.mutations) ∧
  ∀ e, ds.findSome? Decision.error = some e → x [] = .error (.handler e) (callsOf (x []))

theorem SendsAll.map {α β : Type} {x : Exec E α} {jobs : List Job} {ds : List (Decision E)}
    (h : SendsAll x jobs ds) (f : α → β) : SendsAll (x >>= fun a => pure (f a)) jobs ds := by
  have hcalls : callsOf ((x >>= fun a => pure (f a)) []) = callsOf (x []) := by
    cases hx : x [] with
    | ok a calls => rw [bind_of_ok hx]; rfl
    | error e calls => rw [bind_of_error hx]; rfl
  refine ⟨by rw [hcalls]; exact h.1, fun e he => ?_⟩
  rw [hcalls, bind_of_error (h.2 e he)]

theorem sendsAll_of_sends {α : Type} {x : Exec E α} {jobs : List Job} {ds : List (Decision E)}
    {rs : List Returned} (h : Sends x ((jobs.zip rs).map fun y => y.1.mutationOf y.2))
    (hkept : List.Forall₂ Decision.Same ds (rs.map .returned)) : SendsAll x jobs ds := by
  obtain ⟨new, hcalls, hms⟩ := h []
  refine ⟨?_, fun e he => ?_⟩
  · have hall := kept_mutations hkept jobs
    rw [returned_mutations, ← hms] at hall
    rw [hcalls]
    exact hall
  · rw [← kept_error hkept, returned_error] at he
    cases he

theorem sendApplied_sendsAll {w : Workflow} {client : Client E} (hclient : client.Responds)
    (config : StateConfig) {jobs : List Job} {ds kept : List (Decision E)}
    (hkept : List.Forall₂ Decision.Same ds kept) (hlength : jobs.length = ds.length)
    (hds : ∀ d ∈ ds, d.Permitted w) : SendsAll (sendApplied w client config jobs kept) jobs ds := by
  obtain ⟨values, new, hrun, hms⟩ := sendApplied_returns hclient config
    (hlength.trans hkept.length_eq) (kept_permitted hkept hds) []
  rw [kept_error hkept] at hrun
  have hcalls : callsOf (sendApplied w client config jobs kept []) = new := by
    rw [hrun]
    cases ds.findSome? Decision.error <;> rfl
  refine ⟨?_, fun e he => ?_⟩
  · rw [hcalls, hms]
    exact kept_mutations hkept jobs
  · rw [hcalls, hrun, he]
    rfl

theorem Plan.Represents.start : ({} : Plan E).Represents [] := ⟨rfl, .inl rfl⟩

/-- Each way of keeping the decisions sends them all. -/
theorem sendPlan_sendsAll {w : Workflow} {client : Client E} (hclient : client.Responds)
    (config : StateConfig) {jobs : List Job} {ds : List (Decision E)} {plan : Plan E}
    (hplan : plan.Represents ds) (hne : ds ≠ []) (hlength : jobs.length = ds.length)
    (hds : ∀ d ∈ ds, d.Permitted w)
    (hmany : flowManyBatchLimit < jobs.length → client.Accepts) :
    SendsAll (sendPlan w client config jobs plan) jobs ds := by
  obtain ⟨-, h⟩ := hplan
  unfold sendPlan
  cases happlied : plan.outcomesWithApplied with
  | some kept =>
    rw [happlied] at h
    exact sendApplied_sendsAll hclient config h hlength hds
  | none =>
    cases hmixed : plan.mixedOutcomes with
    | some kept =>
      rw [happlied, hmixed] at h
      have hkept := kept_permitted h.2 hds
      rw [List.forall_mem_map] at hkept
      refine sendsAll_of_sends (sendMixed_sends hclient config ?_ hkept) h.2
      rw [hlength, h.2.length_eq, List.length_map]
    | none =>
      rw [happlied, hmixed] at h
      obtain ⟨first, hfirst, hall⟩ := h.resolve_left hne
      have hsame : List.Forall₂ Decision.Same ds
          ((List.replicate jobs.length first).map Decision.returned) := by
        rw [List.map_replicate, hlength]
        exact hall
      have hkept := kept_permitted hsame hds
      rw [List.forall_mem_map] at hkept
      have hpos : jobs.length ≠ 0 := by
        rw [hlength]
        exact fun he => hne (List.eq_nil_of_length_eq_zero he)
      have hpermitted := hkept first (List.mem_replicate.mpr ⟨hpos, rfl⟩)
      have hsends := sendUniform_sends hclient config hpermitted hmany
      rw [← zip_replicate_mutations] at hsends
      simp only [hfirst]
      rw [bind_lift (show (requiredFirstOutcome (some first) : Except (Failure E) _) = .ok first
        from rfl)]
      exact sendsAll_of_sends hsends hsame

end Execution

section Sample

/-- A workflow whose state `b` is a queue. -/
def sampleWorkflow : Workflow where
  states := [(lit "a", {}), (lit "b", { fifo := true })]

/-- An item of a many response that has the status of an error. -/
def sampleItemError : Value → Option Unit
  | .list [.str status, _] => if status = lit "error" then some () else none
  | _ => none

/-- A client whose server refuses every item. -/
def failingClient : Client Unit where
  respond _ call := .ok (.list (call.mutations.map fun _ =>
    .list [.str (lit "error"), .str (lit "stale")]))
  manyItemError := sampleItemError

def sampleJob (id : String) : Job := ⟨lit id, [1], 1, none, lit "running"⟩

/-- A transition into the queue with a priority, and a completed job. -/
def refusedTransition : List (Job × Run Unit) :=
  [(sampleJob "x", .returned (.outcome (.transition (lit "b") .none (.int 1) {}))),
    (sampleJob "y", .returned (.outcome (.complete .none .none {})))]

/-- One job more than one call takes. -/
def oneTooMany : List (Job × Run Unit) :=
  List.replicate (flowManyBatchLimit+1)
    (sampleJob "x", .returned (.outcome (.complete .none .none {})))

theorem planRuns_replicate {r : Returned} (hr : matchesValue r.toObj r.toObj = true)
    (config : StateConfig) (n idx : ℕ) :
    planRuns (E := Unit) config { idx := idx+1, firstOutcome := some r }
        (List.replicate n (.returned r)) =
      .ok { idx := idx+1+n, firstOutcome := some r } := by
  induction n generalizing idx with
  | zero => rfl
  | succ n ih =>
    have hadd : Plan.add (E := Unit) { idx := idx+1, firstOutcome := some r } (.returned r) =
        .ok { idx := idx+1+1, firstOutcome := some r } := by
      simp only [Plan.add, Plan.addReturned, if_neg (Nat.succ_ne_zero idx), Option.any_some]
      rw [if_pos hr]
    rw [List.replicate_succ, planRuns, handlerDecision, except_ok_bind, hadd, except_ok_bind,
      ih (idx+1), Nat.add_assoc (idx+1) 1 n, Nat.add_comm 1 n]

theorem planRuns_alike {r : Returned} (hr : matchesValue r.toObj r.toObj = true)
    (config : StateConfig) (n : ℕ) :
    planRuns (E := Unit) config {} (List.replicate (n+1) (.returned r)) =
      .ok { idx := n+1, firstOutcome := some r } := by
  rw [List.replicate_succ, planRuns, handlerDecision, except_ok_bind,
    show Plan.add (E := Unit) {} (.returned r) = .ok { idx := 1, firstOutcome := some r } from rfl,
    except_ok_bind, planRuns_replicate hr config n 0, Nat.zero_add, Nat.add_comm 1 n]

theorem failingClient_refuses (call : Call) (h : call.mutations ≠ []) :
    ∃ v, failingClient.respond [] call = .ok v ∧
      validateManyResult failingClient v call.mutations.length = .error (.item ()) := by
  refine ⟨_, rfl, ?_⟩
  obtain ⟨m, ms, hms⟩ := List.exists_cons_of_ne_nil h
  rw [hms, validateManyResult, expandManyResult, if_pos (List.length_map _), except_ok_bind,
    List.map_cons, List.findSome?_cons]
  rfl

theorem sendMany_stops {jobs : List Job} (hjobs : jobs ≠ []) (fields : Fields) :
    sendMany failingClient jobs fields [] =
      .error (.item ()) [.many (uniformPartitionKey jobs) jobs fields] := by
  obtain ⟨v, hv, hrefused⟩ := failingClient_refuses
    (.many (uniformPartitionKey jobs) jobs fields) (by simpa [Call.mutations] using hjobs)
  rw [Call.mutations, List.length_map] at hrefused
  have hsend : send failingClient (.many (uniformPartitionKey jobs) jobs fields) [] =
      .ok v [.many (uniformPartitionKey jobs) jobs fields] := by rw [send, hv]; rfl
  rw [sendMany, bind_of_ok hsend, hrefused]
  rfl

/-- The first slice is answered with errors, and the second one is never sent. -/
theorem sendUniform_stops {jobs : List Job} (h : flowManyBatchLimit < jobs.length) :
    sendUniform sampleWorkflow failingClient {} (.outcome (.complete .none .none {})) jobs [] =
      .error (.item ()) [.many (uniformPartitionKey (jobs.take flowManyBatchLimit))
        (jobs.take flowManyBatchLimit) (.complete .none .none {})] := by
  rw [sendUniform, if_pos h]
  obtain ⟨job, jobs, rfl⟩ := List.exists_cons_of_ne_nil (List.ne_nil_of_length_pos
    (Nat.zero_lt_of_lt h))
  have hchunk : (job::jobs).take flowManyBatchLimit ≠ [] := by
    rw [flowManyBatchLimit, List.take_succ_cons]
    exact List.cons_ne_nil _ _
  rw [List.length_cons, slices, eachChunk]
  exact bind_of_error (sendMany_stops hchunk _) _

theorem sendPlan_alike (w : Workflow) (client : Client Unit) (config : StateConfig)
    (jobs : List Job) (idx : ℕ) (r : Returned) :
    sendPlan w client config jobs { idx := idx, firstOutcome := some r } =
      sendUniform w client config r jobs := rfl

theorem oneTooMany_stops :
    ((callsOf (handleKnownStateBatch sampleWorkflow failingClient (lit "a") true oneTooMany
      [])).flatMap Call.mutations).length = 1000 := by
  have hruns : oneTooMany.map Prod.snd = List.replicate (flowManyBatchLimit+1)
      (.returned (.outcome (.complete .none .none {}))) := List.map_replicate
  have hplan := planRuns_alike (r := .outcome (.complete .none .none {})) rfl {}
    flowManyBatchLimit
  rw [← hruns] at hplan
  have hlength : flowManyBatchLimit < (oneTooMany.map Prod.fst).length := by
    rw [List.length_map, oneTooMany, List.length_replicate]
    exact Nat.lt_succ_self _
  have hstop := sendUniform_stops hlength
  have hne : oneTooMany ≠ [] := by
    intro hnil
    rw [hnil, List.map_nil, List.length_nil] at hlength
    exact absurd hlength (Nat.not_lt_zero _)
  have hrun : handleKnownStateBatch sampleWorkflow failingClient (lit "a") true oneTooMany [] =
      .error (.item ()) [.many (uniformPartitionKey ((oneTooMany.map Prod.fst).take
        flowManyBatchLimit)) ((oneTooMany.map Prod.fst).take flowManyBatchLimit)
        (.complete .none .none {})] := by
    rw [handleKnownStateBatch, if_neg hne,
      show sampleWorkflow.states.get? (lit "a") = some {} from rfl]
    simp only
    rw [bind_lift hplan, sendPlan_alike, bind_of_error hstop]
  rw [hrun, callsOf, List.flatMap_singleton, Call.mutations, List.length_map, List.length_take,
    min_eq_left (le_of_lt hlength), flowManyBatchLimit]

/-- Two completed jobs, one under an exception that is retried, and an applied step that
failed. -/
def threeRuns : List (Job × Run Unit) :=
  [(sampleJob "x", .returned (.outcome (.complete .none .none {}))),
    (sampleJob "y", .raised (lit "boom") ()),
    (sampleJob "z", .applied ⟨sampleJob "z", some (), none⟩)]

end Sample

end FerricStore.Workflows
