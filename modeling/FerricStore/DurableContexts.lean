import FerricStore.DurableFlows

/-!
# Durable steps on a workflow context

A context keeps the claim of its handler. A call that ended with an unknown outcome is kept
as uncertain, and the calls after it raise its error before they reach the client.
-/

set_option autoImplicit false

namespace FerricStore.DurableSteps

open Text

variable {V : Type}

structure AppliedWorkflowStep (V : Type) where
  job : Claim
  result : Option V
  error : Option StepError
  uncertain : Bool

structure Context (V : Type) where
  job : Claim
  stateName : Str
  applied : Option (AppliedWorkflowStep V)

def Context.raiseIfUncertain (ctx : Context V) : Except StepError Unit :=
  match ctx.applied with
  | none => .ok ()
  | some applied =>
    if applied.uncertain then
      match applied.error with
      | some e => .error e
      | none => .ok ()
    else .ok ()

def Context.recordUncertainStep (ctx : Context V) (e : StepError) : Context V :=
  { ctx with applied := some ⟨ctx.job, none, some e, true⟩ }

def Context.recordAppliedStep (ctx : Context V) (job : Claim) : Context V where
  job := job
  stateName := (optionOr job.runState (some ctx.stateName)).getD ctx.stateName
  applied := some ⟨job, none, none, false⟩

def Context.recordStepResult (ctx : Context V) (previous refreshed : Claim) (result : Option V) :
    Context V where
  job := refreshed
  stateName := (optionOr refreshed.runState (some ctx.stateName)).getD ctx.stateName
  applied :=
    if refreshed.leaseToken ≠ previous.leaseToken ∨
        previous.fencingToken < refreshed.fencingToken then
      some ⟨refreshed, result, none, false⟩
    else ctx.applied

/-- A call on a context, with how the call of the client ends if there is one. -/
structure Attempt (V : Type) where
  kind : Kind
  toState : Str
  outcome : Except Failure (Claim × Option V)

/-- What `advance` and `step` of a context return. -/
inductive Answer (V : Type) where
  | claim (refreshed : Claim)
  | result (result : Option V)

/-- `advance` and `step`: the context afterwards, the calls of the client, and the result. -/
def Context.perform (ctx : Context V) (a : Attempt V) :
    Context V × List Params × Except StepError (Answer V) :=
  match ctx.raiseIfUncertain with
  | .error e => (ctx, [], .error e)
  | .ok _ =>
    let calls := [⟨a.kind, ctx.job, a.toState⟩]
    match a.outcome with
    | .error (.unknown original) => (ctx.recordUncertainStep original, calls, .error original)
    | .error (.raised e) => (ctx, calls, .error e)
    | .ok (refreshed, result) => match a.kind with
      | .advance => (ctx.recordAppliedStep refreshed, calls, .ok (.claim refreshed))
      | .step _ => (ctx.recordStepResult ctx.job refreshed result, calls, .ok (.result result))

/-- The calls of a handler, one after the other. -/
def Context.performAll (ctx : Context V) :
    List (Attempt V) → Context V × List (List Params × Except StepError (Answer V))
  | [] => (ctx, [])
  | a::rest =>
    let next := ctx.perform a
    let later := next.1.performAll rest
    (later.1, next.2::later.2)

theorem Context.perform_uncertain {ctx : Context V} {e : StepError}
    (h : ctx.raiseIfUncertain = .error e) (a : Attempt V) :
    ctx.perform a = (ctx, [], .error e) := by
  simp [Context.perform, h]

theorem Context.performAll_uncertain {ctx : Context V} {e : StepError}
    (h : ctx.raiseIfUncertain = .error e) (attempts : List (Attempt V)) :
    ctx.performAll attempts = (ctx, attempts.map fun _ => ([], .error e)) := by
  induction attempts with
  | nil => rfl
  | cons a rest ih => simp [Context.performAll, Context.perform_uncertain h, ih]

/-- The calls after an unknown outcome. -/
theorem Context.performAll_unknown {ctx : Context V} {a : Attempt V} {e : StepError}
    (hcalled : (ctx.perform a).2.1 ≠ []) (hunknown : a.outcome = .error (.unknown e))
    (attempts : List (Attempt V)) :
    (ctx.perform a).1.performAll attempts =
      ((ctx.perform a).1, attempts.map fun _ => ([], .error e)) := by
  refine Context.performAll_uncertain ?_ attempts
  cases hctx : ctx.raiseIfUncertain with
  | error e => exact absurd (by rw [Context.perform_uncertain hctx]) hcalled
  | ok u =>
    have hnext : (ctx.perform a).1 = ctx.recordUncertainStep e := by
      simp only [Context.perform, hctx, hunknown]
    rw [hnext]
    rfl

end FerricStore.DurableSteps
