import FerricStore.AdjacentGroups
import FerricStore.Transitions

/-!
# The queue of the autobatching client

Callers put operations into one queue and a dispatcher takes them out in batches. The
callbacks of a completed group run on the dispatcher, and a call they make to the client
cannot wait for it: the dispatcher takes and processes further batches inside the call.
The stack below is that nesting. An operation is known by its place in the order of entry,
and the lists of entered, dispatched and skipped operations record a whole run.
-/

set_option autoImplicit false

namespace FerricStore.AutobatchQueue
open AdjacentGroups

inductive Kind where
  | batch
  | direct
  | flush
  deriving DecidableEq, Repr

structure Op where
  id : ℕ
  kind : Kind
  key : ℕ
  deriving DecidableEq, Repr

/-- The state of the future of an operation. -/
inductive Status where
  | pending
  | cancelled
  | running
  | finished
  deriving DecidableEq, Repr

/-- An operation in the queue, with its `cancelled_while_queued`. -/
structure Entry where
  op : Op
  cancelledWhileQueued : Bool
  deriving DecidableEq, Repr

/-- What the dispatcher is in the middle of. -/
inductive Frame where
  /-- `_process_ops` asks each operation whether it was cancelled. -/
  | activating (active todo : List Op)
  /-- `flush_autobatch_ops` has these groups left. -/
  | flushing (groups : List (List Op))
  /-- The client call of a group runs. -/
  | calling (group : List Op)
  /-- The callbacks of a completed group run. -/
  | callbacks
  /-- A callback is in `_enqueue`. -/
  | submitting (kind : Kind) (key : ℕ)
  /-- A callback is in `drain_reentrant_until`. -/
  | draining (target : ℕ)
  deriving DecidableEq, Repr

structure State where
  pending : List Entry
  cancelledPending : ℤ
  closed : Bool
  status : ℕ → Status
  stack : List Frame
  entered : List Op
  dispatched : List Op
  skipped : List Op

structure Config where
  maxBatch : ℕ
  maxPending : ℕ
  maxBatch_pos : 0 < maxBatch
  maxPending_pos : 0 < maxPending

inductive Action where
  /-- Another thread enters the queue. -/
  | enqueue (kind : Kind) (key : ℕ)
  | cancel (id : ℕ)
  /-- `pending_future_done` runs for a cancelled future. -/
  | notice (id : ℕ)
  | close
  /-- The dispatcher leaves `_take_batch` with a batch. -/
  | take
  /-- The dispatcher goes on with what it is in the middle of. -/
  | turn
  /-- A callback calls the client. -/
  | callback (kind : Kind) (key : ℕ)
  deriving DecidableEq, Repr

namespace State

def initial : State := ⟨[], 0, false, fun _ => .pending, [], [], [], []⟩

/-- An operation is appended to the queue. -/
def enter (s : State) (kind : Kind) (key : ℕ) : State :=
  { s with
    pending := s.pending++[⟨⟨s.entered.length, kind, key⟩, false⟩]
    entered := s.entered++[⟨s.entered.length, kind, key⟩] }

/-- `take_pending_locked`, with what is done with the batch on top of `rest`. -/
def takePending (cfg : Config) (s : State) (rest : List Frame) : State :=
  let ops := s.pending.take cfg.maxBatch
  { s with
    pending := s.pending.drop cfg.maxBatch
    cancelledPending := max (s.cancelledPending-ops.countP Entry.cancelledWhileQueued) 0
    stack := .activating [] (ops.map Entry.op)::rest }

/-- The flag `pending_future_done` sets. -/
def flag (id : ℕ) (entry : Entry) : Entry :=
  if entry.op.id = id then { entry with cancelledWhileQueued := true } else entry

def setStatus (s : State) (id : ℕ) (status : Status) : State :=
  { s with status := Function.update s.status id status }

def finishAll (s : State) (group : List Op) : State :=
  { s with status := fun id => if id ∈ group.map Op.id then .finished else s.status id }

end State

/-- The groups in the order of their calls; flush markers and direct calls are completed one
at a time. -/
def callGroups (ops : List Op) : List (List Op) :=
  (group (fun a b => a.key == b.key) ops).flatMap fun g =>
    if g.head?.any (·.kind = .batch) then [g] else g.map fun op => [op]

/-- The next step of the frame on top of `rest`. -/
def turn (cfg : Config) (s : State) (rest : List Frame) : Frame → Option State
  | .activating active (op::todo) =>
    match s.status op.id with
    | .cancelled =>
      some { s with skipped := s.skipped++[op], stack := .activating active todo::rest }
    | .pending =>
      some { s.setStatus op.id .running with stack := .activating (active++[op]) todo::rest }
    | _ => none
  | .activating active [] =>
    if active = [] then some { s with stack := rest }
    else some { s with stack := .flushing (callGroups active)::rest }
  | .flushing [] => some { s with stack := rest }
  | .flushing (g::gs) =>
    some { s with dispatched := s.dispatched++g, stack := .calling g::.flushing gs::rest }
  | .calling g => some { s.finishAll g with stack := .callbacks::rest }
  | .callbacks => some { s with stack := rest }
  | .submitting kind key =>
    if s.closed then some { s with stack := rest }
    else if s.pending.length ≥ cfg.maxPending then
      some (s.takePending cfg (.submitting kind key::rest))
    else some { s.enter kind key with stack := .draining s.entered.length::rest }
  | .draining target =>
    if s.status target = .finished ∨ s.status target = .cancelled then
      some { s with stack := rest }
    else if s.pending = [] then some { s with stack := rest }
    else some (s.takePending cfg (.draining target::rest))

def advance (cfg : Config) (s : State) : Action → Option State
  | .enqueue kind key =>
    if s.closed ∨ s.pending.length ≥ cfg.maxPending then none else some (s.enter kind key)
  | .cancel id =>
    if s.entered[id]?.any (·.kind ≠ .flush) ∧ s.status id = .pending then
      some (s.setStatus id .cancelled)
    else none
  | .notice id =>
    if s.status id = .cancelled then
      if s.pending.any fun entry => entry.op.id = id ∧ ¬ entry.cancelledWhileQueued then
        some { s with
          pending := s.pending.map (State.flag id)
          cancelledPending := s.cancelledPending+1 }
      else some s
    else none
  | .close => some { s with closed := true }
  | .take =>
    match s.stack, s.pending with
    | [], _::_ => some (s.takePending cfg [])
    | _, _ => none
  | .turn =>
    match s.stack with
    | [] => none
    | frame::rest => turn cfg s rest frame
  | .callback kind key =>
    match s.stack with
    | .callbacks::rest => some { s with stack := .submitting kind key::.callbacks::rest }
    | _ => none

def run (cfg : Config) (s : State) : List Action → Option State
  | [] => some s
  | action::actions => (advance cfg s action).bind fun s => run cfg s actions

/-- The operations a frame still has to process. -/
def Frame.held : Frame → List Op
  | .activating active todo => active++todo
  | .flushing groups => groups.flatten
  | _ => []

def State.held (s : State) : List Op := s.stack.flatMap Frame.held

def State.queued (s : State) : List Op := s.pending.map Entry.op

/-- The group whose call runs. -/
def openCall : List Frame → List Op
  | .calling g::_ => g
  | _ => []

def Frame.isCall : Frame → Bool
  | .calling _ => true
  | _ => false

/-- What a frame knows of the operations it holds. -/
def Frame.Sound (status : ℕ → Status) : Frame → Prop
  | .activating active todo =>
    (∀ op ∈ active, status op.id = .running) ∧
      ∀ op ∈ todo, status op.id = .pending ∨ status op.id = .cancelled
  | .flushing groups => ∀ op ∈ groups.flatten, status op.id = .running
  | _ => True

end FerricStore.AutobatchQueue
