import FerricStore.BatchFingerprints
import FerricStore.FanOutOutcome
import FerricStore.Stateful

/-!
# Handled batches of a queue worker

`_run_handlers` collects what the handlers of claimed jobs return. As long as every result
matches the first one, the batch keeps only that; at the first other result the pairs of the
jobs so far are rebuilt and every further pair is kept. `_finish_batch` completes the
successes and retries or fails the failures, grouped by their error texts. A job is given
together with what its own handler returns or raises.
-/

set_option autoImplicit false

namespace FerricStore.WorkerBatches

open Text BatchFingerprints Stateful

variable {J E : Type}

structure HandledBatch (J E : Type) where
  jobs : List J
  firstResult : Option Obj
  mixedResults : Option (List (J × Obj))
  failures : List (J × E)

def HandledBatch.empty : HandledBatch J E := ⟨[], none, none, []⟩

/-- `record_success`; the first result is set once a job has succeeded. -/
def HandledBatch.recordSuccess (b : HandledBatch J E) (job : J) (result : Obj) :
    HandledBatch J E :=
  match b.firstResult with
  | none => { b with firstResult := some result, jobs := b.jobs++[job] }
  | some first =>
    let mixed := if b.mixedResults.isNone && !matchesValue first result then
        some (b.jobs.map fun existing => (existing, first))
      else b.mixedResults
    { b with
      jobs := b.jobs++[job]
      mixedResults := mixed.map fun pairs => pairs++[(job, result)] }

def HandledBatch.record (b : HandledBatch J E) : J × Except E Obj → HandledBatch J E
  | (job, .ok result) => b.recordSuccess job result
  | (job, .error e) => { b with failures := b.failures++[(job, e)] }

/-- `_run_handlers` without an executor. -/
def runHandlers (calls : List (J × Except E Obj)) : HandledBatch J E :=
  calls.foldl HandledBatch.record .empty

/-- The fan-out of `run_one`, which raises nothing. -/
def handlerFanout (calls : List (J × Except E Obj)) (concurrency : ℕ) (h : 0 < concurrency) :
    FanOut.Fanout (J × Except E Obj) (J × Except E Obj) E :=
  ⟨calls, .ok, concurrency, h, false⟩

/-- `_run_handlers` with an executor, from what the fan-out returns. -/
def collectResults (results : List (Option (J × Except E Obj))) : HandledBatch J E :=
  (results.filterMap id).foldl HandledBatch.record .empty

def runBatchHandler (jobs : List J) : Except E Obj → HandledBatch J E
  | .ok result => ⟨jobs, some result, none, []⟩
  | .error e => ⟨[], none, none, jobs.map fun job => (job, e)⟩

inductive OnError where
  | raise
  | retry
  | fail
  deriving DecidableEq, Repr

/-- The calls of `_finish_batch`, each with its result checked by `validate_many_result`. -/
inductive ClientCall (J : Type) where
  | completeJobs (jobs : List J) (result : Option Obj)
  | completeJobResults (pairs : List (J × Obj))
  | complete (job : J) (result : Obj)
  | failMany (jobs : List J) (error : Str)
  | retryMany (jobs : List J) (error : Str)
  | applyJobMutations (kind : OnError) (mutations : List (J × Str))

/-- The worker's settings, the client's optional methods, the texts of exceptions, and what
the client answers to a call after others. -/
structure Worker (J E : Type) where
  onError : OnError
  hasJobResults : Bool
  hasMutations : Bool
  text : E → Str
  answer : List (ClientCall J) → ClientCall J → Except E Unit

/-- The counts of a `QueueFlowWorkerResult`. -/
@[ext] structure Counts where
  claimed : ℕ
  completed : ℕ
  retried : ℕ
  failed : ℕ
  claimCalls : ℕ
  deriving DecidableEq, Repr

def Counts.zero : Counts := ⟨0, 0, 0, 0, 0⟩

/-- `_merge_results` -/
def Counts.merge (a b : Counts) : Counts :=
  ⟨a.claimed+b.claimed, a.completed+b.completed, a.retried+b.retried, a.failed+b.failed,
    a.claimCalls+b.claimCalls⟩

/-- What was sent stays sent when a call raises. -/
abbrev Sending (J E : Type) := EStateM E (List (ClientCall J))

namespace Worker

variable (w : Worker J E)

def send (call : ClientCall J) : Sending J E Unit := fun sent =>
  match w.answer sent call with
  | .ok _ => .ok () (sent++[call])
  | .error e => .error e (sent++[call])

def sendAll : List (ClientCall J) → Sending J E Unit
  | [] => pure ()
  | call::calls => do
    w.send call
    sendAll calls

def completeSuccesses (handled : HandledBatch J E) : Sending J E ℕ :=
  if handled.jobs.isEmpty then pure 0
  else match handled.mixedResults with
    | none => do
      w.send (.completeJobs handled.jobs handled.firstResult)
      pure handled.jobs.length
    | some pairs => do
      if w.hasJobResults then w.send (.completeJobResults pairs)
      else w.sendAll (pairs.map fun p => .complete p.1 p.2)
      pure handled.jobs.length

/-- `grouped.setdefault(str(exc), []).append(job)` for each failure. -/
def groupFailures (failures : List (J × Str)) : Dict Str (List J) :=
  failures.foldl (fun grouped p =>
    Dict.set grouped p.2 ((Dict.get? grouped p.2).getD []++[p.1])) []

def failureTexts (failures : List (J × E)) : List (J × Str) :=
  failures.map fun p => (p.1, w.text p.2)

def failureCounts (n : ℕ) : ℕ × ℕ := if w.onError = .fail then (0, n) else (n, 0)

def groupCall (group : Str × List J) : ClientCall J :=
  if w.onError = .fail then .failMany group.2 group.1 else .retryMany group.2 group.1

def handleFailures (failures : List (J × E)) : Sending J E (ℕ × ℕ) :=
  match failures with
  | [] => pure (0, 0)
  | first::rest =>
    if w.onError = .raise then throw first.2
    else
      let texts := w.failureTexts (first::rest)
      let grouped := groupFailures texts
      if grouped.length > 1 && w.hasMutations then do
        w.send (.applyJobMutations w.onError texts)
        pure (w.failureCounts texts.length)
      else do
        w.sendAll (grouped.map w.groupCall)
        pure (w.failureCounts texts.length)

def finishBatch (handled : HandledBatch J E) : Sending J E Counts := do
  let completed ← w.completeSuccesses handled
  let (retried, failed) ← w.handleFailures handled.failures
  pure ⟨0, completed, retried, failed, 0⟩

end Worker

/-- The jobs whose handlers returned, with their results, in the order of the claim. -/
def successes (calls : List (J × Except E Obj)) : List (J × Obj) :=
  calls.filterMap fun call => call.2.toOption.map fun result => (call.1, result)

/-- The jobs whose handlers raised, with their exceptions, in the order of the claim. -/
def failures (calls : List (J × Except E Obj)) : List (J × E) :=
  calls.filterMap fun
    | (job, .error e) => some (job, e)
    | _ => none

/-- The results that a batch completes its jobs with. -/
def HandledBatch.results (b : HandledBatch J E) : List (J × Obj) :=
  match b.mixedResults with
  | some pairs => pairs
  | none => b.jobs.map fun job => (job, b.firstResult.getD .none)

/-- The jobs and results that a call completes. -/
def ClientCall.completed : ClientCall J → List (J × Obj)
  | .completeJobs jobs result => jobs.map fun job => (job, result.getD .none)
  | .completeJobResults pairs => pairs
  | .complete job result => [(job, result)]
  | _ => []

/-- The jobs that a call retries or fails, with the error texts. -/
def ClientCall.mutated : ClientCall J → List (OnError × J × Str)
  | .failMany jobs error => jobs.map fun job => (.fail, job, error)
  | .retryMany jobs error => jobs.map fun job => (.retry, job, error)
  | .applyJobMutations kind mutations => mutations.map fun p => (kind, p.1, p.2)
  | _ => []

/-- A completion of the job itself with an equal result. -/
def Own (p q : J × Obj) : Prop := p.1 = q.1 ∧ Same q.2 p.2

theorem own_refl (p : J × Obj) : Own p p := ⟨rfl, .refl _⟩

end FerricStore.WorkerBatches
