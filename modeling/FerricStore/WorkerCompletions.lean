import FerricStore.Transitions
import FerricStore.WorkerBatchSpecs

/-!
# Pending completions of a queue worker

Handled batches are finished by an executor, and the worker collects the finished ones before
it submits more, between its claims and at its end. A completion is named by the order of
its submission. `ends` says how each one ends; when it is done is up to the executor.
-/

set_option autoImplicit false

namespace FerricStore.WorkerCompletions

open WorkerBatches

variable {E : Type}

/-- How `_drain_pending_completions` ends: it returns the sum of what it took, a completion
raises, or the deadline of the worker's close passes. -/
inductive Drained where
  | returned (pending taken : List ℕ)
  | raised (pending taken : List ℕ) (completion : ℕ)
  | timedOut (pending taken : List ℕ)

/-- The loop that waits for the oldest completions. -/
def drainBlocking (ends : ℕ → Except E Counts) (late : ℕ → Bool) :
    ℕ → List ℕ → List ℕ → Drained
  | 0, pending, taken => .returned pending taken
  | _+1, [], taken => .returned [] taken
  | n+1, f::pending, taken =>
    if late f then .timedOut (f::pending) taken
    else match ends f with
      | .ok _ => drainBlocking ends late n pending (taken++[f])
      | .error _ => .raised pending taken f

/-- The loop that takes completions that are done and retains the others. -/
def drainReady (ends : ℕ → Except E Counts) (done : ℕ → Bool) (limit : Option ℕ) :
    List ℕ → List ℕ → List ℕ → Drained
  | [], retained, taken => .returned retained taken
  | f::rest, retained, taken =>
    if done f && limit.all (taken.length < ·) then
      match ends f with
      | .ok _ => drainReady ends done limit rest retained (taken++[f])
      | .error _ => .raised (retained++rest) taken f
    else drainReady ends done limit rest (retained++[f]) taken

/-- The arguments of a drain, with what the executor and the clock do meanwhile. -/
inductive DrainCall where
  | blocking (limit : Option ℕ) (late : ℕ → Bool)
  | ready (limit : Option ℕ) (done : ℕ → Bool)

def drain (ends : ℕ → Except E Counts) (pending : List ℕ) : DrainCall → Drained
  | .blocking limit late =>
    drainBlocking ends late (limit.elim pending.length (min · pending.length)) pending []
  | .ready limit done => drainReady ends done limit pending [] []

/-- `while len(self._pending_completions) >= self._complete_async_depth` -/
def makeRoom (ends : ℕ → Except E Counts) (depth : ℕ) : ℕ → List ℕ → List ℕ → Drained
  | 0, pending, taken => .returned pending taken
  | fuel+1, pending, taken =>
    if pending.length < depth then .returned pending taken
    else match drain ends pending (.blocking (some 1) fun _ => false) with
      | .returned pending more => makeRoom ends depth fuel pending (taken++more)
      | .raised pending more f => .raised pending (taken++more) f
      | .timedOut pending more => .timedOut pending (taken++more)

/-- The completions `0`, …, `next-1` were submitted. `counted` are those whose counts were
returned, with their sum in `total`; `lost` are those that a call took before it raised. -/
structure State where
  next : ℕ
  pending : List ℕ
  counted : List ℕ
  raised : List ℕ
  lost : List ℕ
  total : Counts

def State.init : State := ⟨0, [], [], [], [], .zero⟩

def countsOf (ends : ℕ → Except E Counts) (f : ℕ) : Counts :=
  match ends f with
  | .ok counts => counts
  | .error _ => .zero

def sumCounts (ends : ℕ → Except E Counts) (taken : List ℕ) : Counts :=
  taken.foldl (fun total f => total.merge (countsOf ends f)) .zero

def State.collect (ends : ℕ → Except E Counts) (s : State) : Drained → State
  | .returned pending taken =>
    { s with
      pending := pending
      counted := s.counted++taken
      total := s.total.merge (sumCounts ends taken) }
  | .raised pending taken f =>
    { s with pending := pending, raised := s.raised++[f], lost := s.lost++taken }
  | .timedOut pending taken => { s with pending := pending, lost := s.lost++taken }

/-- `_process_claimed_jobs` after the handlers; without an executor the batch is finished at
once. A completion is submitted only if making room for it raises nothing. -/
def State.process (ends : ℕ → Except E Counts) (depth : ℕ) (s : State) : State :=
  if depth = 0 then
    match ends s.next with
    | .ok counts =>
      { s with
        next := s.next+1
        counted := s.counted++[s.next]
        total := s.total.merge counts }
    | .error _ => { s with next := s.next+1, raised := s.raised++[s.next] }
  else
    match makeRoom ends depth s.pending.length s.pending [] with
    | .returned pending taken =>
      let s' := s.collect ends (.returned pending taken)
      { s' with next := s.next+1, pending := pending++[s.next] }
    | result => s.collect ends result

inductive Event where
  | process
  | drain (call : DrainCall)

def step (ends : ℕ → Except E Counts) (depth : ℕ) (s : State) : Event → State
  | .process => s.process ends depth
  | .drain call => s.collect ends (drain ends s.pending call)

/-- Each submitted completion is pending, counted or raised, exactly once. -/
def Conserved (s : State) : Prop :=
  ∀ f < s.next, s.pending.count f+s.counted.count f+s.raised.count f = 1

/-- The completions that a drain would look at, in order. -/
def looked (pending : List ℕ) : DrainCall → List ℕ
  | .blocking limit _ => pending.take (limit.elim pending.length (min · pending.length))
  | .ready limit done =>
    let ready := pending.filter done
    limit.elim ready ready.take

/-- Taking the completion ends the drain: it raises, or the deadline passes. -/
def stops (ends : ℕ → Except E Counts) : DrainCall → ℕ → Bool
  | .blocking _ late, f => late f || !(ends f).isOk
  | .ready _ _, f => !(ends f).isOk

/-- Nothing stops the drain, or what stops it comes first. -/
def Undivided (ends : ℕ → Except E Counts) (s : State) : Event → Prop
  | .process => True
  | .drain call => ∀ f rest, looked s.pending call = f::rest →
      stops ends call f = true ∨ ∀ g ∈ rest, stops ends call g = false

end FerricStore.WorkerCompletions
