import FerricStore.KeepAlivePool

/-!
# Requests over the keep-alive pool

`_request_http1_once` and `_open_pooled_request` acquire a connection, check the deadline,
send, check it again and wait for the response. The first reads the response and closes it;
the second returns it to a caller that reads and closes. A request stands between two of
these effects. Errors of the URL and of the deadline before `acquire` touch no connection.
-/

set_option autoImplicit false

namespace FerricStore.HttpLeases

open KeepAlivePool

variable {K C : Type}

/-- How far the body of an `HTTPResponse` was read. The library drops its stream at the end
of the body, and also when the stream ends short of it or a chunk is malformed. -/
inductive Body where
  | unread
  | ended
  | broken
  deriving DecidableEq

/-- The response and what its connection's socket is; `contentLength` is the header as a
number. -/
structure Response where
  body : Body
  willClose : Bool
  sockOpen : Bool
  contentLength : Option ℤ

def Response.isclosed (r : Response) : Bool := r.body ≠ .unread

/-- The test of `_PooledResponse.close`. -/
def Response.reusable (r : Response) : Bool := r.isclosed && !r.willClose && r.sockOpen

/-- A connection that can carry another request. -/
def Response.consumed (r : Response) : Prop :=
  r.body = .ended ∧ r.willClose = false ∧ r.sockOpen = true

/-- A read leaves the body unread, or drops the stream; a dropped stream stays dropped. -/
inductive Response.Reads : Response → Response → Prop where
  | same (r : Response) : Reads r r
  | drops (r : Response) (body : Body) (h : r.body = .unread) : Reads r { r with body := body }

/-- Who reads the response: `_request_http1_once` up to its limit, or the caller of
`_open_pooled_request`, with a deadline or without one. -/
inductive Use where
  | once (limit : ℕ)
  | opened (deadline : Bool)

def Use.hasDeadline : Use → Bool
  | .once _ => true
  | .opened deadline => deadline

inductive Phase (K C : Type) where
  | opening (key : K)
  | inPool (call : Call K C)
  /-- Before the deadline check that stands before the `try`. -/
  | acquired (key : K) (c : C)
  | sending (key : K) (c : C)
  /-- Before the deadline check in the `try`. -/
  | sent (key : K) (c : C)
  | awaiting (key : K) (c : C)
  | reading (key : K) (c : C) (response : Response) (size : ℕ)
  /-- Before the `close` of the response at the end of the `with`. -/
  | leaving (key : K) (c : C) (response : Response)
  /-- The request ended with its connection not released. -/
  | lost (key : K) (c : C)
  | done

/-- What a request did with the pool; a release with the response it had. -/
inductive Event (K C : Type) where
  | handed (key : K) (c : C)
  | released (key : K) (c : C) (reusable : Bool) (response : Option Response)

structure Request (K C : Type) where
  use : Use
  phase : Phase K C
  log : List (Event K C)

/-- `pool.release` is called. -/
def Request.release (r : Request K C) (key : K) (c : C) (reusable : Bool)
    (response : Option Response) : Request K C :=
  { r with
    phase := .inPool (.releasing key c reusable false)
    log := r.log++[Event.released key c reusable response] }

/-- What may go wrong: the deadline passes between `acquire` and the `try`, or a response
whose body broke off is closed as reusable. -/
inductive Fault where
  | lateDeadline
  | brokenBody
  deriving DecidableEq

def Response.fault (r : Response) : Option Fault :=
  if r.reusable && r.body = .broken then some .brokenBody else none

/-- A step of a request outside the pool. -/
inductive RequestStep : Option Fault → Request K C → Request K C → Prop where
  | refused {use : Use} {log : List (Event K C)} {key : K} :
      RequestStep none ⟨use, .opening key, log⟩ ⟨use, .done, log⟩
  | enter {use : Use} {log : List (Event K C)} {key : K} :
      RequestStep none ⟨use, .opening key, log⟩ ⟨use, .inPool (.acquiring key), log⟩
  | late {use : Use} {log : List (Event K C)} {key : K} {c : C} (h : use.hasDeadline = true) :
      RequestStep (some .lateDeadline) ⟨use, .acquired key c, log⟩ ⟨use, .lost key c, log⟩
  | inTime {use : Use} {log : List (Event K C)} {key : K} {c : C} :
      RequestStep none ⟨use, .acquired key c, log⟩ ⟨use, .sending key c, log⟩
  | requestRaised {use : Use} {log : List (Event K C)} {key : K} {c : C} :
      RequestStep none ⟨use, .sending key c, log⟩
        (Request.release ⟨use, .sending key c, log⟩ key c false none)
  | requested {use : Use} {log : List (Event K C)} {key : K} {c : C} :
      RequestStep none ⟨use, .sending key c, log⟩ ⟨use, .sent key c, log⟩
  | expired {use : Use} {log : List (Event K C)} {key : K} {c : C}
      (h : use.hasDeadline = true) :
      RequestStep none ⟨use, .sent key c, log⟩
        (Request.release ⟨use, .sent key c, log⟩ key c false none)
  | await {use : Use} {log : List (Event K C)} {key : K} {c : C} :
      RequestStep none ⟨use, .sent key c, log⟩ ⟨use, .awaiting key c, log⟩
  | responseRaised {use : Use} {log : List (Event K C)} {key : K} {c : C} :
      RequestStep none ⟨use, .awaiting key c, log⟩
        (Request.release ⟨use, .awaiting key c, log⟩ key c false none)
  | responded {use : Use} {log : List (Event K C)} {key : K} {c : C} (response : Response) :
      RequestStep none ⟨use, .awaiting key c, log⟩ ⟨use, .reading key c response 0, log⟩
  /-- `_read_bounded` refuses the declared length. -/
  | declaredTooLong {limit : ℕ} {log : List (Event K C)} {key : K} {c : C}
      {response : Response} {n : ℤ} (hlength : response.contentLength = some n)
      (hlimit : n > limit) :
      RequestStep none ⟨.once limit, .reading key c response 0, log⟩
        ⟨.once limit, .leaving key c response, log⟩
  /-- The deadline of a read has passed, or the read raises. -/
  | readRaised {limit : ℕ} {log : List (Event K C)} {key : K} {c : C}
      {response response' : Response} {size : ℕ} (h : response.Reads response')
      (hsize : size ≤ limit) :
      RequestStep none ⟨.once limit, .reading key c response size, log⟩
        ⟨.once limit, .leaving key c response', log⟩
  | readChunk {limit : ℕ} {log : List (Event K C)} {key : K} {c : C}
      {response response' : Response} {size n : ℕ} (h : response.Reads response')
      (hsize : size ≤ limit) (hchunk : 0 < n ∧ n ≤ min (64*1024) (limit+1-size)) :
      RequestStep none ⟨.once limit, .reading key c response size, log⟩
        ⟨.once limit, .reading key c response' (size+n), log⟩
  | readEmpty {limit : ℕ} {log : List (Event K C)} {key : K} {c : C}
      {response response' : Response} {size : ℕ} (h : response.Reads response')
      (hsize : size ≤ limit) :
      RequestStep none ⟨.once limit, .reading key c response size, log⟩
        ⟨.once limit, .leaving key c response', log⟩
  | tooLong {limit : ℕ} {log : List (Event K C)} {key : K} {c : C}
      {response : Response} {size : ℕ} (hsize : limit < size) :
      RequestStep none ⟨.once limit, .reading key c response size, log⟩
        ⟨.once limit, .leaving key c response, log⟩
  /-- A caller reads, whatever comes of it. -/
  | callerReads {deadline : Bool} {log : List (Event K C)} {key : K} {c : C}
      {response response' : Response} {size : ℕ} (h : response.Reads response') :
      RequestStep none ⟨.opened deadline, .reading key c response size, log⟩
        ⟨.opened deadline, .reading key c response' size, log⟩
  | callerCloses {deadline : Bool} {log : List (Event K C)} {key : K} {c : C}
      {response : Response} {size : ℕ} :
      RequestStep none ⟨.opened deadline, .reading key c response size, log⟩
        ⟨.opened deadline, .leaving key c response, log⟩
  /-- `_PooledResponse.close`; a later call of it returns at once. -/
  | close {use : Use} {log : List (Event K C)} {key : K} {c : C} {response : Response} :
      RequestStep response.fault ⟨use, .leaving key c response, log⟩
        (Request.release ⟨use, .leaving key c response, log⟩ key c response.reusable
          (some response))

/-- Where a request stands after a step in the pool, and what it was handed out. -/
def settle : List (Call K C) → Phase K C
  | [] => .done
  | .holding key c::_ => .acquired key c
  | call::_ => .inPool call

def handouts : List (Call K C) → List (Event K C)
  | .holding key c::_ => [.handed key c]
  | _ => []

structure Net (K C : Type) where
  pool : Pool K C
  requests : List (Request K C)
  created : List (K × C)
  closed : List (K × C)

/-- A request arrives, the pool is closed, or a request takes a step. -/
inductive Step [DecidableEq K] : Option Fault → Net K C → Net K C → Prop where
  | arrive {p : Pool K C} {before after : List (Request K C)} {created closed : List (K × C)}
      (use : Use) (key : K) :
      Step none ⟨p, before++after, created, closed⟩
        ⟨p, before++⟨use, .opening key, []⟩::after, created, closed⟩
  | shutDown {p : Pool K C} {before after : List (Request K C)} {created closed : List (K × C)}
      (use : Use) :
      Step none ⟨p, before++after, created, closed⟩
        ⟨p, before++⟨use, .inPool .shutting, []⟩::after, created, closed⟩
  | pool {p q : Pool K C} {before after : List (Request K C)}
      {created new closed gone : List (K × C)} {use : Use} {call : Call K C}
      {calls : List (Call K C)} {log : List (Event K C)} (h : Move p call q calls new gone)
      (hnew : ∀ e ∈ new, e.2 ∉ created.map Prod.snd) :
      Step none ⟨p, before++⟨use, .inPool call, log⟩::after, created, closed⟩
        ⟨q, before++⟨use, settle calls, log++handouts calls⟩::after, created++new,
          closed++gone⟩
  | request {p : Pool K C} {before after : List (Request K C)} {created closed : List (K × C)}
      {fault : Option Fault} {r r' : Request K C} (h : RequestStep fault r r') :
      Step fault ⟨p, before++r::after, created, closed⟩
        ⟨p, before++r'::after, created, closed⟩

def Net.init (maxConnections : ℕ) : Net K C := ⟨.init maxConnections, [], [], []⟩

/-- Every run, and the runs without a fault. -/
def Reached [DecidableEq K] (maxConnections : ℕ) (s : Net K C) : Prop :=
  Relation.ReflTransGen (fun a b => ∃ fault, Step fault a b) (.init maxConnections) s

def ReachedCleanly [DecidableEq K] (maxConnections : ℕ) (s : Net K C) : Prop :=
  Relation.ReflTransGen (Step none) (.init maxConnections) s

/-- The request returned or raised, and its response is closed. -/
def Request.ended (r : Request K C) : Bool :=
  match r.phase with
  | .lost _ _ | .done => true
  | _ => false

def Request.handed (r : Request K C) : List (K × C) :=
  r.log.filterMap fun | .handed key c => some (key, c) | _ => none

def Request.released (r : Request K C) : List (K × C) :=
  r.log.filterMap fun | .released key c _ _ => some (key, c) | _ => none

/-- The call that the pool sees of a request. -/
def Phase.calls : Phase K C → List (Call K C)
  | .inPool call => [call]
  | .acquired key c | .sending key c | .sent key c | .awaiting key c | .reading key c _ _
  | .leaving key c _ | .lost key c => [.holding key c]
  | .opening _ | .done => []

/-- The pool with the calls that it sees. -/
def Net.state (s : Net K C) : State K C :=
  ⟨s.pool, s.requests.flatMap fun r => r.phase.calls, s.created, s.closed⟩

/-- What the pool hands out to callers that ask one after the other and keep what they get;
each one's constructor would return this connection. -/
def handOut [DecidableEq K] : Pool K C → List (K × C) → List (Taken C)
  | _, [] => []
  | p, (key, c)::rest =>
    (takeOrCreate p key (some c)).taken::handOut (takeOrCreate p key (some c)).pool rest

/-- A caller got a connection. -/
def granted : Taken C → Bool
  | .reused _ | .created _ => true
  | _ => false

end FerricStore.HttpLeases
