import FerricStore.Transitions
import FerricStore.WorkerBatches

/-!
# Claim plans of a queue worker

`drain_claim_plan` claims batches of jobs until its credit is used, a claim comes back short
or something raises. Between two claims it finishes the batch it handled: at once, through
the executor of completions, in the same request as the next claim, or in a request it
submits and whose claim it collects one turn later. A turn is what the server, the handler
and the executor do in one pass of the loop. The lists record what was asked for, granted,
passed to the handler and finished.
-/

set_option autoImplicit false

namespace FerricStore.ClaimPlans
open WorkerBatches BatchFingerprints

variable {J E : Type}

/-- The settings a plan looks at and what the clients support. -/
structure Settings where
  batchSize : ℕ
  claimDrainBatches : ℕ
  completeAsyncDepth : ℕ
  fuseCompleteClaim : Bool
  claimsValues : Bool
  completesAndClaims : Bool
  submitsCompleteAndClaim : Bool
  submitsCommands : Bool
  batchSize_pos : 0 < batchSize
  claimDrainBatches_pos : 0 < claimDrainBatches

/-- What a claim with this limit can grant. -/
abbrev Grant (J : Type) (limit : ℕ) := { jobs : List J // jobs.length ≤ limit }

/-- What the handler does: with the job at each place, or with the batch. -/
inductive Handling (E : Type) where
  | each (outcome : ℕ → Except E Obj)
  | batch (outcome : Except E Obj)

def Handling.run (handling : Handling E) (jobs : List J) : HandledBatch J E :=
  match handling with
  | .each outcome => runHandlers (jobs.mapIdx fun i job => (job, outcome i))
  | .batch outcome => runBatchHandler jobs outcome

structure Turn (J E : Type) where
  /-- How the completion in a request that also claims ends. -/
  completion : Except E Unit
  claim : (limit : ℕ) → Except E (Grant J limit)
  handling : Handling E
  /-- Whether submitting a completion together with a claim raises. -/
  submission : Except E Unit
  /-- How `_finish_batch` ends. -/
  finish : HandledBatch J E → Except E Counts
  /-- How the pending completions end that make room for another one. -/
  room : ℕ → Except E Counts

/-- `pending_complete` or `pending_claim_future`. -/
inductive Carried (J E : Type) where
  | nothing
  | complete (handled : HandledBatch J E)
  | future

structure State (J E : Type) where
  remaining : ℤ
  drainCount : ℕ
  carried : Carried J E
  pendingCompletions : ℕ
  result : Counts
  ended : Option (Except E Counts)
  requested : List ℕ
  granted : List J
  passed : List J
  handled : List (HandledBatch J E)
  finished : List (HandledBatch J E)

/-- `_available_claim_capacity` -/
def availableClaimCapacity (cfg : Settings) (pendingCompletions : ℕ) : ℤ :=
  if cfg.completeAsyncDepth = 0 then cfg.batchSize*max cfg.claimDrainBatches 1
  else
    let completionSlots : ℤ := cfg.completeAsyncDepth-pendingCompletions
    if completionSlots ≤ 0 then 0
    else cfg.batchSize*max 1 (min (cfg.claimDrainBatches : ℤ) completionSlots)

/-- `can_fuse_complete_claim` -/
def canFuseCompleteClaim (enabled hasJobs hasMixedResults hasFailures claimsValues supported : Bool) :
    Bool :=
  enabled && hasJobs && !hasMixedResults && !hasFailures && !claimsValues && supported

namespace State

/-- The state in front of the loop, or behind it if there is no capacity. -/
def start (cfg : Settings) (pendingCompletions : ℕ) (claimCredit : ℤ) (result : Counts) :
    State J E :=
  let capacity := availableClaimCapacity cfg pendingCompletions
  { remaining := min (max claimCredit 1) capacity
    drainCount := 0
    carried := .nothing
    pendingCompletions := pendingCompletions
    result := result
    ended := if capacity ≤ 0 then some (.ok result) else none
    requested := []
    granted := []
    passed := []
    handled := []
    finished := [] }

def limit (cfg : Settings) (s : State J E) : ℕ := (min (cfg.batchSize : ℤ) s.remaining).toNat

def raise (s : State J E) (e : E) : State J E := { s with ended := some (.error e) }

/-- The plan returns, unless it has raised. -/
def ret (s : State J E) : State J E :=
  if s.ended.isSome then s else { s with ended := some (.ok s.result) }

/-- The loop of `_finish_handled_batch` that waits for pending completions. -/
def makeRoom (room : ℕ → Except E Counts) (depth : ℕ) : ℕ → Counts → Except E (ℕ × Counts)
  | 0, result => .ok (0, result)
  | pending+1, result =>
    if pending+1 ≥ depth then
      match room pending with
      | .error e => .error e
      | .ok counts => makeRoom room depth pending (result.merge counts)
    else .ok (pending+1, result)

/-- `_finish_handled_batch` -/
def finishHandledBatch (cfg : Settings) (turn : Turn J E) (handled : HandledBatch J E)
    (s : State J E) : State J E :=
  if cfg.completeAsyncDepth > 0 then
    match makeRoom turn.room cfg.completeAsyncDepth s.pendingCompletions s.result with
    | .error e => s.raise e
    | .ok (pending, result) =>
      { s with
        pendingCompletions := pending+1
        result := result
        finished := s.finished++[handled] }
  else
    match turn.finish handled with
    | .error e => raise { s with finished := s.finished++[handled] } e
    | .ok counts =>
      { s with result := s.result.merge counts, finished := s.finished++[handled] }

/-- What stands behind the loop. -/
def leaveLoop (cfg : Settings) (turn : Turn J E) (s : State J E) : State J E :=
  match s.carried with
  | .complete handled => (finishHandledBatch cfg turn handled { s with carried := .nothing }).ret
  | _ => s.ret

/-- The condition of the loop. -/
def continueLoop (cfg : Settings) (turn : Turn J E) (s : State J E) : State J E :=
  if s.ended.isSome then s
  else if 0 < s.remaining ∧ s.drainCount < cfg.claimDrainBatches then s
  else leaveLoop cfg turn s

def shouldFuse (cfg : Settings) (handled : HandledBatch J E) (s : State J E) : Bool :=
  0 < s.remaining && s.drainCount < cfg.claimDrainBatches && cfg.completeAsyncDepth = 0 &&
    canFuseCompleteClaim cfg.fuseCompleteClaim (!handled.jobs.isEmpty)
      handled.mixedResults.isSome (!handled.failures.isEmpty) cfg.claimsValues
      cfg.completesAndClaims

def shouldAsyncFuse (cfg : Settings) (handled : HandledBatch J E) (s : State J E) : Bool :=
  0 < s.remaining && s.drainCount < cfg.claimDrainBatches && cfg.completeAsyncDepth > 0 &&
    canFuseCompleteClaim cfg.fuseCompleteClaim (!handled.jobs.isEmpty)
      handled.mixedResults.isSome (!handled.failures.isEmpty) cfg.claimsValues
      cfg.submitsCompleteAndClaim

/-- What is done with a handled batch that used its whole limit. -/
def dispose (cfg : Settings) (turn : Turn J E) (handled : HandledBatch J E) (s : State J E) :
    State J E :=
  if shouldFuse cfg handled s then { s with carried := .complete handled }
  else if shouldAsyncFuse cfg handled s then
    if cfg.submitsCommands ∧ handled.jobs ≠ [] then
      match turn.submission with
      | .error e =>
        raise { s with
          requested := s.requested++[s.limit cfg], finished := s.finished++[handled] } e
      | .ok _ =>
        { s with
          requested := s.requested++[s.limit cfg]
          finished := s.finished++[handled]
          pendingCompletions := s.pendingCompletions+1
          carried := .future }
    else finishHandledBatch cfg turn handled s
  else finishHandledBatch cfg turn handled s

/-- What follows a claim that granted jobs. -/
def handleJobs (cfg : Settings) (turn : Turn J E) (limit : ℕ) (jobs : List J) (s : State J E) :
    State J E :=
  let handled := turn.handling.run jobs
  let s := { s with
    passed := s.passed++jobs
    handled := s.handled++[handled]
    result := s.result.merge ⟨jobs.length, 0, 0, 0, 0⟩
    remaining := s.remaining-jobs.length
    drainCount := s.drainCount+1 }
  if jobs.length < limit then (finishHandledBatch cfg turn handled s).ret
  else continueLoop cfg turn (dispose cfg turn handled s)

/-- What follows a claim that came back. -/
def receive (cfg : Settings) (turn : Turn J E) (limit : ℕ) (s : State J E) : State J E :=
  match turn.claim limit with
  | .error e => s.raise e
  | .ok jobs =>
    let s := { s with
      granted := s.granted++jobs.1, result := s.result.merge ⟨0, 0, 0, 0, 1⟩ }
    if jobs.1 = [] then leaveLoop cfg turn s else handleJobs cfg turn limit jobs.1 s

/-- The jobs in a claim response. -/
def grantedBy (turn : Turn J E) (limit : ℕ) : List J :=
  match turn.claim limit with
  | .error _ => []
  | .ok jobs => jobs.1

/-- One pass of the loop. -/
def step (cfg : Settings) (s : State J E) (turn : Turn J E) : State J E :=
  if s.ended.isSome then s
  else
    let limit := s.limit cfg
    match s.carried with
    | .future => receive cfg turn limit { s with carried := .nothing }
    | .nothing => receive cfg turn limit { s with requested := s.requested++[limit] }
    | .complete handled =>
      let s := { s with
        requested := s.requested++[limit]
        finished := s.finished++[handled]
        carried := .nothing }
      -- the completion is validated before the claim response is looked at
      match turn.completion with
      | .error e => raise { s with granted := s.granted++grantedBy turn limit } e
      | .ok _ =>
        receive cfg turn limit
          { s with result := s.result.merge ⟨0, handled.jobs.length, 0, 0, 0⟩ }

end State

/-! ## What is passed on -/

open State

section Lists

variable {cfg : Settings} {turn : Turn J E} {s : State J E}

/-- A step that neither receives nor passes on jobs. -/
def SameJobs (s t : State J E) : Prop := t.passed = s.passed ∧ t.granted = s.granted

theorem sameJobs_ret : SameJobs s s.ret := by
  unfold ret
  split <;> exact ⟨rfl, rfl⟩

theorem sameJobs_finish (handled : HandledBatch J E) :
    SameJobs s (finishHandledBatch cfg turn handled s) := by
  unfold finishHandledBatch
  split
  all_goals split <;> exact ⟨rfl, rfl⟩

theorem SameJobs.trans {s t u : State J E} (h : SameJobs s t) (h' : SameJobs t u) :
    SameJobs s u :=
  ⟨h'.1.trans h.1, h'.2.trans h.2⟩

theorem sameJobs_leaveLoop : SameJobs s (leaveLoop cfg turn s) := by
  unfold leaveLoop
  split
  case h_1 handled _ =>
    have hfinish : SameJobs s (finishHandledBatch cfg turn handled { s with carried := .nothing }) :=
      sameJobs_finish (s := { s with carried := .nothing }) handled
    exact hfinish.trans sameJobs_ret
  case h_2 => exact sameJobs_ret

theorem sameJobs_continueLoop : SameJobs s (continueLoop cfg turn s) := by
  unfold continueLoop
  split
  · exact ⟨rfl, rfl⟩
  · split
    · exact ⟨rfl, rfl⟩
    · exact sameJobs_leaveLoop

theorem sameJobs_dispose (handled : HandledBatch J E) :
    SameJobs s (dispose cfg turn handled s) := by
  unfold dispose
  split
  · exact ⟨rfl, rfl⟩
  · split
    · split
      · split <;> exact ⟨rfl, rfl⟩
      · exact sameJobs_finish handled
    · exact sameJobs_finish handled

theorem handleJobs_lists (limit : ℕ) (jobs : List J) :
    (handleJobs cfg turn limit jobs s).passed = s.passed++jobs ∧
      (handleJobs cfg turn limit jobs s).granted = s.granted := by
  unfold handleJobs
  dsimp only
  split
  · exact (sameJobs_finish _).trans sameJobs_ret
  · exact (sameJobs_dispose _).trans sameJobs_continueLoop

/-- What a claim that came back grants is passed on. -/
theorem receive_lists (limit : ℕ) :
    (receive cfg turn limit s).passed = s.passed++grantedBy turn limit ∧
      (receive cfg turn limit s).granted = s.granted++grantedBy turn limit := by
  unfold receive grantedBy
  split
  case h_1 => simp [raise]
  case h_2 jobs _ =>
    dsimp only
    split
    case isTrue hempty =>
      have hleave := @sameJobs_leaveLoop J E cfg turn { s with
        granted := s.granted++jobs.1, result := s.result.merge ⟨0, 0, 0, 0, 1⟩ }
      rw [hleave.1, hleave.2, hempty]
      simp
    case isFalse =>
      exact handleJobs_lists limit jobs.1

end Lists

end FerricStore.ClaimPlans
