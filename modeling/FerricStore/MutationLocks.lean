import FerricStore.LockOrder
import FerricStore.Value
import Mathlib.Data.Finset.Sort

/-!
# The locks of LangGraph mutations

`run_sync_with_locks` locks its keys in ascending order, runs the operation while a thread
renews the leases, and unlocks what it locked in the opposite order. A call stands between
two of its effects; its requests are in flight until the server handles them, also when
the call has given up on them. The clock decides between a retry and a timeout, so both
may follow a refusal.
-/

set_option autoImplicit false

namespace FerricStore.MutationLocks

variable {I K E R : Type}

/-- `_lock_acquired`: the replies that compare equal to `"OK"`, `b"OK"` or `True`. -/
def lockAcquired : Value → Bool
  | .str s => s = Text.lit "OK"
  | .bytes b => b = [79, 75]
  | .bool b => b
  | .int n => n = 1
  | .float bits => bits = 0x3FF0000000000000
  | _ => false

/-- `_try_sync_lock` on a reply; there is none if the command raised `LockHeldError`. -/
def trySyncLock : Option Value → Bool
  | some reply => lockAcquired reply
  | none => false

/-- `_lock_keys` -/
def lockKeys [LinearOrder K] (keys : List K) : List K := keys.toFinset.sort (· ≤ ·)

/-- What a call can raise. -/
inductive Failure (K E : Type) where
  | operation (e : E)
  | timedOut (key : K)
  | command (e : E)
  | leaseLost (key : K) (reason : String)

inductive Request (K : Type) where
  | lock (key : K)
  | unlock (key : K)
  deriving DecidableEq

/-- What a call did: a `LOCK` succeeded, the body of its `try` ended, an `UNLOCK` was sent,
an `UNLOCK` returned. -/
inductive Event (K E R : Type) where
  | locked (key : K)
  | ended (result : Except (Failure K E) R)
  | unlock (key : K)
  | unlocked (key : K)

/-- Where a call stands. `lost` is the error of the heartbeat and `released` the first error
of an `UNLOCK`. -/
inductive Phase (K E R : Type) where
  | fresh
  /-- The operation runs without keys. -/
  | direct
  | acquiring (acquired rest : List K)
  | asking (acquired : List K) (key : K) (rest : List K)
  | answered (acquired : List K) (key : K) (rest : List K) (reply : Option Value)
  | refused (acquired : List K) (key : K) (rest : List K)
  | operating (acquired : List K) (lost : Option (K × String))
  /-- The heartbeat is told to stop. -/
  | joining (acquired : List K) (lost : Option (K × String)) (result : Except (Failure K E) R)
  | releasing (todo : List K) (lost : Option (K × String)) (released : Option E)
      (result : Except (Failure K E) R)
  | unlocking (key : K) (todo : List K) (lost : Option (K × String)) (released : Option E)
      (result : Except (Failure K E) R)
  | finished (result : Except (Failure K E) R)

structure Call (K E R : Type) where
  phase : Phase K E R
  inflight : List (Request K)
  log : List (Event K E R)

def Call.fresh : Call K E R := ⟨.fresh, [], []⟩

/-- What the end of `finally` raises or lets through. -/
def outcome (result : Except (Failure K E) R) (lost : Option (K × String))
    (released : Option E) : Except (Failure K E) R :=
  match result with
  | .error failure => .error failure
  | .ok value =>
    match lost with
    | some (key, reason) => .error (.leaseLost key reason)
    | none =>
      match released with
      | some e => .error (.command e)
      | none => .ok value

/-- A step of a call with these keys. -/
inductive CallStep [LinearOrder K] (keys : List K) : Call K E R → Call K E R → Prop where
  | enterDirect {w : List (Request K)} {log : List (Event K E R)} (h : lockKeys keys = []) :
      CallStep keys ⟨.fresh, w, log⟩ ⟨.direct, w, log⟩
  | enter {w : List (Request K)} {log : List (Event K E R)} (h : lockKeys keys ≠ []) :
      CallStep keys ⟨.fresh, w, log⟩ ⟨.acquiring [] (lockKeys keys), w, log⟩
  | direct {w : List (Request K)} {log : List (Event K E R)} (result : Except E R) :
      CallStep keys ⟨.direct, w, log⟩
        ⟨.finished (result.mapError .operation), w, log++[Event.ended (result.mapError .operation)]⟩
  | ask {w : List (Request K)} {log : List (Event K E R)} {acquired : List K} {key : K}
      {rest : List K} :
      CallStep keys ⟨.acquiring acquired (key::rest), w, log⟩
        ⟨.asking acquired key rest, w++[Request.lock key], log⟩
  | granted {w : List (Request K)} {log : List (Event K E R)} {acquired : List K} {key : K}
      {rest : List K} {reply : Option Value} (h : trySyncLock reply = true) :
      CallStep keys ⟨.answered acquired key rest reply, w, log⟩
        ⟨.acquiring (acquired++[key]) rest, w, log++[Event.locked key]⟩
  | denied {w : List (Request K)} {log : List (Event K E R)} {acquired : List K} {key : K}
      {rest : List K} {reply : Option Value} (h : trySyncLock reply = false) :
      CallStep keys ⟨.answered acquired key rest reply, w, log⟩
        ⟨.refused acquired key rest, w, log⟩
  /-- The command raises although the server may handle it still. -/
  | lockRaised {w : List (Request K)} {log : List (Event K E R)} {acquired : List K} {key : K}
      {rest : List K} (e : E) :
      CallStep keys ⟨.asking acquired key rest, w, log⟩
        ⟨.releasing acquired.reverse none none (.error (.command e)), w,
          log++[Event.ended (.error (.command e))]⟩
  /-- The command raises although the server handled it. -/
  | replyLost {w : List (Request K)} {log : List (Event K E R)} {acquired : List K} {key : K}
      {rest : List K} {reply : Option Value} (e : E) :
      CallStep keys ⟨.answered acquired key rest reply, w, log⟩
        ⟨.releasing acquired.reverse none none (.error (.command e)), w,
          log++[Event.ended (.error (.command e))]⟩
  | expire {w : List (Request K)} {log : List (Event K E R)} {acquired : List K} {key : K}
      {rest : List K} :
      CallStep keys ⟨.refused acquired key rest, w, log⟩
        ⟨.releasing acquired.reverse none none (.error (.timedOut key)), w,
          log++[Event.ended (.error (.timedOut key))]⟩
  | retry {w : List (Request K)} {log : List (Event K E R)} {acquired : List K} {key : K}
      {rest : List K} :
      CallStep keys ⟨.refused acquired key rest, w, log⟩
        ⟨.asking acquired key rest, w++[Request.lock key], log⟩
  | operate {w : List (Request K)} {log : List (Event K E R)} {acquired : List K} :
      CallStep keys ⟨.acquiring acquired [], w, log⟩ ⟨.operating acquired none, w, log⟩
  | loseLease {w : List (Request K)} {log : List (Event K E R)} {acquired : List K} {key : K}
      (h : key ∈ acquired) (reason : String) :
      CallStep keys ⟨.operating acquired none, w, log⟩
        ⟨.operating acquired (some (key, reason)), w, log⟩
  | operated {w : List (Request K)} {log : List (Event K E R)} {acquired : List K}
      {lost : Option (K × String)} (result : Except E R) :
      CallStep keys ⟨.operating acquired lost, w, log⟩
        ⟨.joining acquired lost (result.mapError .operation), w,
          log++[Event.ended (result.mapError .operation)]⟩
  | loseLeaseLate {w : List (Request K)} {log : List (Event K E R)} {acquired : List K}
      {key : K} {result : Except (Failure K E) R} (h : key ∈ acquired) (reason : String) :
      CallStep keys ⟨.joining acquired none result, w, log⟩
        ⟨.joining acquired (some (key, reason)) result, w, log⟩
  | join {w : List (Request K)} {log : List (Event K E R)} {acquired : List K}
      {lost : Option (K × String)} {result : Except (Failure K E) R} :
      CallStep keys ⟨.joining acquired lost result, w, log⟩
        ⟨.releasing acquired.reverse lost none result, w, log⟩
  | unlock {w : List (Request K)} {log : List (Event K E R)} {key : K} {todo : List K}
      {lost : Option (K × String)} {released : Option E} {result : Except (Failure K E) R} :
      CallStep keys ⟨.releasing (key::todo) lost released result, w, log⟩
        ⟨.unlocking key todo lost released result, w++[Request.unlock key], log++[Event.unlock key]⟩
  | unlocked {w : List (Request K)} {log : List (Event K E R)} {key : K} {todo : List K}
      {lost : Option (K × String)} {released : Option E} {result : Except (Failure K E) R}
      (h : Request.unlock key ∉ w) :
      CallStep keys ⟨.unlocking key todo lost released result, w, log⟩
        ⟨.releasing todo lost released result, w, log++[Event.unlocked key]⟩
  | unlockRaised {w : List (Request K)} {log : List (Event K E R)} {key : K} {todo : List K}
      {lost : Option (K × String)} {released : Option E} {result : Except (Failure K E) R}
      (e : E) :
      CallStep keys ⟨.unlocking key todo lost released result, w, log⟩
        ⟨.releasing todo lost (released <|> some e) result, w, log⟩
  | finish {w : List (Request K)} {log : List (Event K E R)} {lost : Option (K × String)}
      {released : Option E} {result : Except (Failure K E) R} :
      CallStep keys ⟨.releasing [] lost released result, w, log⟩
        ⟨.finished (outcome result lost released), w, log⟩

/-- The holders of the keys and the calls; a call is the owner of its locks. -/
structure System (I K E R : Type) where
  holder : K → Option I
  calls : I → Call K E R

def System.init : System I K E R := ⟨fun _ => none, fun _ => .fresh⟩

/-- The server handles a request: the holders after it, and whether it was granted. -/
def handle [DecidableEq I] [DecidableEq K] (holder : K → Option I) (i : I) :
    Request K → Bool × (K → Option I)
  | .lock key =>
    match holder key with
    | none => (true, Function.update holder key (some i))
    | some j => (decide (j = i), holder)
  | .unlock key =>
    if holder key = some i then (true, Function.update holder key none) else (false, holder)

/-- The reply to a request reaches a call that still waits for it. -/
def Call.deliver [DecidableEq K] (c : Call K E R) (request : Request K) (reply : Option Value) :
    Call K E R :=
  { c with
    inflight := c.inflight.erase request
    phase := match c.phase with
      | .asking acquired key rest =>
        if request = .lock key then .answered acquired key rest reply else c.phase
      | phase => phase }

/-- A step of a call or of the server, which may also turn down a key that is free. -/
inductive Step [DecidableEq I] [LinearOrder K] (keys : I → List K) :
    System I K E R → System I K E R → Prop where
  | call {s : System I K E R} {i : I} {c : Call K E R} (h : CallStep (keys i) (s.calls i) c) :
      Step keys s { s with calls := Function.update s.calls i c }
  | serve {s : System I K E R} {i : I} {request : Request K} {reply : Option Value}
      (h : request ∈ (s.calls i).inflight)
      (hreply : trySyncLock reply = (handle s.holder i request).1) :
      Step keys s
        ⟨(handle s.holder i request).2,
          Function.update s.calls i ((s.calls i).deliver request reply)⟩
  | deny {s : System I K E R} {i : I} {key : K} {reply : Option Value}
      (h : Request.lock key ∈ (s.calls i).inflight) (hreply : trySyncLock reply = false) :
      Step keys s
        { s with calls := Function.update s.calls i ((s.calls i).deliver (.lock key) reply) }

/-- Every interleaving of calls with these keys. -/
def Reached [DecidableEq I] [LinearOrder K] (keys : I → List K) (s : System I K E R) : Prop :=
  Relation.ReflTransGen (Step keys) .init s

/-- The operation of a call runs. -/
def Phase.runs : Phase K E R → Bool
  | .direct | .operating _ _ => true
  | _ => false

/-- The key that the loop of a call waits for. -/
def Phase.wants : Phase K E R → Option K
  | .asking _ key _ | .refused _ key _ => some key
  | .answered _ key _ reply => if trySyncLock reply then none else some key
  | _ => none

/-- The keys whose `LOCK` succeeded, in order. -/
def locks (log : List (Event K E R)) : List K :=
  log.filterMap fun | .locked key => some key | _ => none

/-- The keys for which an `UNLOCK` was sent, in order. -/
def unlocks (log : List (Event K E R)) : List K :=
  log.filterMap fun | .unlock key => some key | _ => none

/-- How the body of the `try` ended. -/
def endings (log : List (Event K E R)) : List (Except (Failure K E) R) :=
  log.filterMap fun | .ended result => some result | _ => none

end FerricStore.MutationLocks
