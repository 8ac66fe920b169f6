import FerricStore.Dict
import FerricStore.Transitions

/-!
# The keep-alive pool and its callers

`_KeepAlivePool` keeps idle connections by key and counts those it has handed out. A method
is one step between two points where it does not hold the condition's lock; connections are
closed outside of the lock, except for evicted ones. A call in progress stands at such a
point, and a state is the pool with all calls in progress, every connection that was
created and every `close` of a connection.
-/

set_option autoImplicit false

namespace FerricStore.KeepAlivePool

variable {K C : Type}

/-- `_idle`: a deque of connections for each key, in insertion order. -/
abbrev Table (K C : Type) := Dict K (List C)

/-- Pop from the right of a deque; its entry is deleted with its last connection. -/
def popEntry (key : K) (connections : List C) (rest : Table K C) : Option (C × Table K C) :=
  connections.getLast?.map fun c =>
    (c, if connections.length = 1 then rest else (key, connections.dropLast)::rest)

/-- The idle connection that `_take_or_create` takes for a key. -/
def takeIdle [DecidableEq K] (key : K) : Table K C → Option (C × Table K C)
  | [] => none
  | (k, connections)::rest =>
    if k = key then popEntry k connections rest
    else (takeIdle key rest).map fun r => (r.1, (k, connections)::r.2)

/-- `_pop_idle_connection`, with the key of the connection. -/
def popIdleConnection : Table K C → Option ((K × C) × Table K C)
  | [] => none
  | (k, connections)::rest =>
    match popEntry k connections rest with
    | some r => some ((k, r.1), r.2)
    | none => (popIdleConnection rest).map fun r => (r.1, (k, connections)::r.2)

def idleConnections (table : Table K C) : List (K × C) :=
  table.flatMap fun e => e.2.map (e.1, ·)

/-- The fields that the condition protects. -/
structure Pool (K C : Type) where
  maxConnections : ℕ
  idle : Table K C
  totalConnections : ℤ
  closed : Bool

def Pool.init (maxConnections : ℕ) : Pool K C := ⟨maxConnections, [], 0, false⟩

/-- How a pass of `_take_or_create` ends. -/
inductive Taken (C : Type) where
  | poolClosed
  | reused (c : C)
  | created (c : C)
  | createRaised
  | full

structure Pass (K C : Type) where
  taken : Taken C
  pool : Pool K C
  evicted : List (K × C)

theorem popEntry_length {key : K} {connections : List C} {rest table : Table K C} {c : C}
    (h : popEntry key connections rest = some (c, table)) :
    (idleConnections table).length < (idleConnections ((key, connections)::rest)).length := by
  cases connections using List.reverseRecOn with
  | nil => cases h
  | append_singleton front last =>
    simp only [popEntry, List.getLast?_append, List.getLast?_singleton, Option.some_or,
      Option.map_some, Option.some.injEq, Prod.mk.injEq] at h
    obtain ⟨-, rfl⟩ := h
    split_ifs
    · simp only [idleConnections, List.flatMap_cons, List.length_append, List.length_map,
        List.length_singleton]
      omega
    · simp [idleConnections]

theorem popIdleConnection_length {table table' : Table K C} {e : K × C}
    (h : popIdleConnection table = some (e, table')) :
    (idleConnections table').length < (idleConnections table).length := by
  induction table generalizing table' with
  | nil => cases h
  | cons entry rest ih =>
    obtain ⟨k, connections⟩ := entry
    cases hpop : popEntry k connections rest with
    | some r =>
      obtain ⟨c, rest'⟩ := r
      simp only [popIdleConnection, hpop, Option.some.injEq, Prod.mk.injEq] at h
      obtain ⟨-, rfl⟩ := h
      exact popEntry_length hpop
    | none =>
      simp only [popIdleConnection, hpop, Option.map_eq_some_iff, Prod.mk.injEq] at h
      obtain ⟨⟨e', rest'⟩, hrest, rfl, rfl⟩ := h
      have hlt := ih hrest
      simp only [idleConnections, List.flatMap_cons, List.length_append] at hlt ⊢
      omega

/-- The loop of `_take_or_create` up to a wait; `create` is what the constructor returns if
it is called, and nothing if it raises. -/
def takeOrCreate [DecidableEq K] (p : Pool K C) (key : K) (create : Option C) : Pass K C :=
  if p.closed then ⟨.poolClosed, p, []⟩
  else
    match takeIdle key p.idle with
    | some (c, idle) => ⟨.reused c, { p with idle := idle }, []⟩
    | none =>
      if p.totalConnections < p.maxConnections then
        match create with
        | some c => ⟨.created c, { p with totalConnections := p.totalConnections+1 }, []⟩
        | none => ⟨.createRaised, p, []⟩
      else
        match _h : popIdleConnection p.idle with
        | some (e, idle) =>
          let pass := takeOrCreate
            { p with idle := idle, totalConnections := p.totalConnections-1 } key create
          ⟨pass.taken, pass.pool, e::pass.evicted⟩
        | none => ⟨.full, p, []⟩
termination_by (idleConnections p.idle).length
decreasing_by exact popIdleConnection_length _h

/-- The locked part of `release`, and whether the connection is closed after it. -/
def Pool.release [DecidableEq K] (p : Pool K C) (key : K) (c : C) (reusable : Bool) :
    Bool × Pool K C :=
  if reusable && !p.closed then
    (false, { p with idle := Dict.set p.idle key ((Dict.get? p.idle key).getD []++[c]) })
  else (true, { p with totalConnections := p.totalConnections-1 })

/-- The locked part of `close`, and the connections that it closes. -/
def Pool.close (p : Pool K C) : List (K × C) × Pool K C :=
  if p.closed then ([], p)
  else (idleConnections p.idle,
    { p with
      closed := true
      idle := []
      totalConnections := p.totalConnections-(idleConnections p.idle).length })

/-- A call in progress. -/
inductive Call (K C : Type) where
  /-- In `acquire`, before a pass of `_take_or_create`. -/
  | acquiring (key : K)
  /-- In `acquire`, before `_connection_is_stale`. -/
  | checking (key : K) (c : C)
  /-- The connection was handed out. -/
  | holding (key : K) (c : C)
  /-- Before the lock of `release`, which `acquire` goes on after if it was stale. -/
  | releasing (key : K) (c : C) (reusable stale : Bool)
  /-- Before the `close` of the connection in `release`. -/
  | closing (key : K) (c : C) (stale : Bool)
  /-- Before the lock of `close`. -/
  | shutting
  /-- In the loop of `close`. -/
  | closingAll (connections : List (K × C))

/-- What `acquire` does after it released a stale connection. -/
def again (key : K) (stale : Bool) : List (Call K C) := if stale then [.acquiring key] else []

/-- One step of a call: the pool after it, what is left of the call, and the connections that
it created and closed. -/
inductive Move [DecidableEq K] : Pool K C → Call K C → Pool K C → List (Call K C) →
    List (K × C) → List (K × C) → Prop where
  | raised {p : Pool K C} {key : K} {create : Option C}
      (h : (takeOrCreate p key create).taken = .poolClosed ∨
        (takeOrCreate p key create).taken = .createRaised) :
      Move p (.acquiring key) (takeOrCreate p key create).pool [] []
        (takeOrCreate p key create).evicted
  | reused {p : Pool K C} {key : K} {create : Option C} {c : C}
      (h : (takeOrCreate p key create).taken = .reused c) :
      Move p (.acquiring key) (takeOrCreate p key create).pool [.checking key c] []
        (takeOrCreate p key create).evicted
  | created {p : Pool K C} {key : K} {create : Option C} {c : C}
      (h : (takeOrCreate p key create).taken = .created c) :
      Move p (.acquiring key) (takeOrCreate p key create).pool [.holding key c] [(key, c)]
        (takeOrCreate p key create).evicted
  | waits {p : Pool K C} {key : K} {create : Option C}
      (h : (takeOrCreate p key create).taken = .full) :
      Move p (.acquiring key) (takeOrCreate p key create).pool [.acquiring key] []
        (takeOrCreate p key create).evicted
  | timedOut {p : Pool K C} {key : K} {create : Option C}
      (h : (takeOrCreate p key create).taken = .full) :
      Move p (.acquiring key) (takeOrCreate p key create).pool [] []
        (takeOrCreate p key create).evicted
  | fresh (p : Pool K C) (key : K) (c : C) : Move p (.checking key c) p [.holding key c] [] []
  | stale (p : Pool K C) (key : K) (c : C) :
      Move p (.checking key c) p [.releasing key c false true] [] []
  | done (p : Pool K C) (key : K) (c : C) (reusable : Bool) :
      Move p (.holding key c) p [.releasing key c reusable false] [] []
  | kept {p : Pool K C} {key : K} {c : C} {reusable stale : Bool}
      (h : (p.release key c reusable).1 = false) :
      Move p (.releasing key c reusable stale) (p.release key c reusable).2 (again key stale)
        [] []
  | dropped {p : Pool K C} {key : K} {c : C} {reusable stale : Bool}
      (h : (p.release key c reusable).1 = true) :
      Move p (.releasing key c reusable stale) (p.release key c reusable).2
        [.closing key c stale] [] []
  | closed (p : Pool K C) (key : K) (c : C) (stale : Bool) :
      Move p (.closing key c stale) p (again key stale) [] [(key, c)]
  | shut (p : Pool K C) : Move p .shutting p.close.2 [.closingAll p.close.1] [] []
  | closedNext (p : Pool K C) (e : K × C) (rest : List (K × C)) :
      Move p (.closingAll (e::rest)) p [.closingAll rest] [] [e]
  | closedAll (p : Pool K C) : Move p (.closingAll []) p [] [] []

/-- The calls that a thread can make. -/
def Call.starts : Call K C → Bool
  | .acquiring _ | .shutting => true
  | _ => false

structure State (K C : Type) where
  pool : Pool K C
  calls : List (Call K C)
  created : List (K × C)
  closed : List (K × C)

/-- A thread makes a call, or a call takes a step. A connection that is created is a new
object. -/
inductive Step [DecidableEq K] : State K C → State K C → Prop where
  | start {p : Pool K C} {call : Call K C} {before after : List (Call K C)}
      {created closed : List (K × C)} (h : call.starts = true) :
      Step ⟨p, before++after, created, closed⟩ ⟨p, before++call::after, created, closed⟩
  | move {p q : Pool K C} {call : Call K C} {calls before after : List (Call K C)}
      {created new closed gone : List (K × C)} (h : Move p call q calls new gone)
      (hnew : ∀ e ∈ new, e.2 ∉ created.map Prod.snd) :
      Step ⟨p, before++call::after, created, closed⟩
        ⟨q, before++calls++after, created++new, closed++gone⟩

/-- The states of a pool with this bound. -/
def Reachable [DecidableEq K] (maxConnections : ℕ) (s : State K C) : Prop :=
  Relation.ReflTransGen Step ⟨.init maxConnections, [], [], []⟩ s

/-- The connections which a call has been handed out. -/
def Call.leased : Call K C → List (K × C)
  | .checking key c | .holding key c | .releasing key c _ _ => [(key, c)]
  | _ => []

/-- The connections which a call is about to close. -/
def Call.leaving : Call K C → List (K × C)
  | .closing key c _ => [(key, c)]
  | .closingAll connections => connections
  | _ => []

def State.idle (s : State K C) : List (K × C) := idleConnections s.pool.idle

def State.leased (s : State K C) : List (K × C) := s.calls.flatMap Call.leased

def State.leaving (s : State K C) : List (K × C) := s.calls.flatMap Call.leaving

end FerricStore.KeepAlivePool
