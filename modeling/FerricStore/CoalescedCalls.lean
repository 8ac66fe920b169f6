import FerricStore.CommandCoalescerRuns
import FerricStore.HttpResults

/-!
# Coalesced calls and direct calls

A transport and a server answer every command as they would answer it alone. A coalesced
call then has the outcome of its direct call, unless its size is computed together with a
command that cannot be serialised, its request runs out of the deadline of another call, or
its own result is one that only the direct path checks.
-/

set_option autoImplicit false

namespace FerricStore.CommandCoalescer

open HttpValues HttpResults

variable {I : Type} [DecidableEq I]

/-- The adapter, with the result that the request of a command alone returns or raises and
the error of the JSON serialiser. -/
structure Host (I : Type) where
  cfg : Config I
  rt : Interpreter
  keys : OtherKeys
  binary : Bool
  answer : I → Except CallError Value
  serialiserError : List I → Err

/-- The transport cannot serialise the body of a request. -/
def Host.bodyError (host : Host I) : CallError :=
  .valueError (if host.cfg.compact then
    "HTTP request body must contain MessagePack-compatible values"
  else "HTTP request body must contain JSON-compatible values")

/-- What `_request_body_size` raises: the JSON size is computed by the adapter itself, which
lets the error of the serialiser through. -/
def Host.sizeError (host : Host I) (calls : List I) : CallError :=
  if host.cfg.compact then host.bodyError else .raised (host.serialiserError calls)

def tooLarge : CallError :=
  .request "FerricStore HTTP endpoint request exceeds max_request_bytes" "request_too_large"

def requestTimeout : CallError :=
  .request "FerricStore HTTP endpoint request failed" "transport_timeout"

def outcomeOf : Except CallError Value → Outcome Value CallError
  | .ok v => .answered v
  | .error e => .failed e

/-- `_execute_batch_with_deadline` of the command alone, with time to answer it. -/
def Host.direct (host : Host I) (i : I) : Outcome Value CallError :=
  match host.cfg.bodySize [i] with
  | none => .failed host.bodyError
  | some n =>
    if host.cfg.maxBytes < n then .failed tooLarge
    else outcomeOf (host.answer i >>= batchResult host.rt host.keys host.binary)

structure Calls (I : Type) where
  coalescer : State I Value CallError
  refused : I → Option CallError

def Calls.init : Calls I := ⟨.init, fun _ => none⟩

namespace Calls

def update (s : Calls I) (t : State I Value CallError) : Calls I := { s with coalescer := t }

def live (s : Calls I) (i : I) : Prop :=
  s.coalescer.cancelled i = false ∧ s.coalescer.expired i = false

end Calls

/-- The request of the batch `b` raises. -/
def Calls.fail (s : Calls I) (b : I) (calls : List I) (e : CallError) : Calls I :=
  s.update (s.coalescer.setBatch b (.answering calls (calls.map fun _ => .failed e) 0))

/-- The request of the batch `b` returns results, which `_command_result` reads one by one. -/
def Calls.reply (s : Calls I) (host : Host I) (b : I) (calls : List I) (results : List Value) :
    Calls I :=
  s.update (s.coalescer.setBatch b (.answering calls
    ((results.map (commandResult host.rt host.keys host.binary)).map fun
      | .ok result => .answered result
      | .error e => .failed e) 0))

/-- A call arrives, a request runs out of its deadline, a request is answered, or anything
else happens. -/
inductive Event (I : Type) where
  | arrive (i : I)
  | timeout (b : I)
  | answer (b : I)
  | other

/-- Calls of the coalescer whose requests are answered command by command as they would be
alone. The request has the earliest deadline of its calls. -/
inductive CallStep (host : Host I) : Event I → Calls I → Calls I → Prop where
  /-- A call joins or leads a batch. -/
  | enter {s : Calls I} {t : State I Value CallError} {i : I}
      (hstep : Step host.cfg s.coalescer t) (hfirst : s.refused i = none)
      (hnew : s.coalescer.home i = none) (hentered : t.home i ≠ none) :
      CallStep host (.arrive i) s (s.update t)
  /-- `can_accept` raises. -/
  | refuse {s : Calls I} {i b : I} {calls : List I} (hnew : s.coalescer.home i = none)
      (hfirst : s.refused i = none) (hpending : s.coalescer.pending = some b)
      (hbatch : s.coalescer.batch b = .waiting calls)
      (hsize : host.cfg.canAccept calls i = none) :
      CallStep host (.arrive i) s
        { s with refused := Function.update s.refused i (some (host.sizeError (calls++[i]))) }
  /-- No call arrives and no request ends. -/
  | turn {s : Calls I} {t : State I Value CallError} (hstep : Step host.cfg s.coalescer t)
      (hhome : t.home = s.coalescer.home)
      (hsending : ∀ b calls, s.coalescer.batch b = .sending calls → t.batch b = .sending calls) :
      CallStep host .other s (s.update t)
  | unsendable {s : Calls I} {b : I} {calls : List I}
      (hbatch : s.coalescer.batch b = .sending calls) (hsize : host.cfg.bodySize calls = none) :
      CallStep host (.answer b) s (s.fail b calls host.bodyError)
  | tooLarge {s : Calls I} {b : I} {calls : List I} {n : ℕ}
      (hbatch : s.coalescer.batch b = .sending calls) (hsize : host.cfg.bodySize calls = some n)
      (hlarge : host.cfg.maxBytes < n) : CallStep host (.answer b) s (s.fail b calls tooLarge)
  | timeout {s : Calls I} {b : I} {calls : List I}
      (hbatch : s.coalescer.batch b = .sending calls)
      (hlate : ∃ i ∈ calls, s.coalescer.expired i = true) :
      CallStep host (.timeout b) s (s.fail b calls requestTimeout)
  | broken {s : Calls I} {b : I} {calls : List I} {n : ℕ} {e : CallError}
      (hbatch : s.coalescer.batch b = .sending calls) (hsize : host.cfg.bodySize calls = some n)
      (hfits : n ≤ host.cfg.maxBytes) (hanswer : ∀ i ∈ calls, host.answer i = .error e) :
      CallStep host (.answer b) s (s.fail b calls e)
  | reply {s : Calls I} {b : I} {calls : List I} {n : ℕ} {results : List Value}
      (hbatch : s.coalescer.batch b = .sending calls) (hsize : host.cfg.bodySize calls = some n)
      (hfits : n ≤ host.cfg.maxBytes) (hanswer : calls.map host.answer = results.map .ok) :
      CallStep host (.answer b) s (s.reply host b calls results)

/-- Any interleaving. -/
def CallsReached (host : Host I) (s : Calls I) : Prop :=
  Relation.ReflTransGen (fun s t => ∃ e, CallStep host e s t) .init s

/-- A call meets no command that cannot be serialised, unless bodies are MessagePack and the
command is its own; no deadline passes in a request with a call that has time left; and the
results for such calls are well formed. -/
def Event.Undisturbed (host : Host I) (s : Calls I) : Event I → Prop
  | .arrive i => ∀ b calls, s.coalescer.pending = some b →
      s.coalescer.batch b = .waiting calls → host.cfg.canAccept calls i = none →
      host.cfg.compact = true ∧ host.cfg.encodedSize i = none
  | .timeout b => ∀ calls, s.coalescer.batch b = .sending calls → ∀ i ∈ calls, ¬ s.live i
  | .answer b => ∀ calls, s.coalescer.batch b = .sending calls → ∀ i ∈ calls, s.live i →
      ∀ r, host.answer i = .ok r → wellFormedResult host.keys host.binary r = true
  | .other => True

/-- The interleavings of undisturbed events. -/
def UndisturbedRun (host : Host I) (s : Calls I) : Prop :=
  Relation.ReflTransGen (fun s t => ∃ e, e.Undisturbed host s ∧ CallStep host e s t) .init s

end FerricStore.CommandCoalescer
