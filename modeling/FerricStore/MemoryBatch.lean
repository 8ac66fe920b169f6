import FerricStore.MemoryStore

/-!
# Batches of the memory store

A batch reads as it stands, keeps the last put of each item, removes the items whose last
put has no value, and writes the others with the time at which each was first written.
-/

set_option autoImplicit false

namespace FerricStore.MemoryStore
open Text OrderedKeys StorageKeys CommandPlans KeyedDatabase

section Writing

variable {T : Type} (σ : Storage T)

/-- `_PendingPut`. -/
structure PendingPut (T : Type) where
  op : PutOp
  timestamp : T

def validatePuts : List PutOp → Except StorageError Unit
  | [] => .ok ()
  | op::ops => do
    σ.validatePut op
    validatePuts ops

/-- The prefixes of a namespace, the empty one and itself included. -/
def namespacePrefixes (namespace_ : List Str) : List (List Str) :=
  (List.range (namespace_.length+1)).map fun depth => namespace_.take depth

def memberOf (path : List Str × Str) : Except StorageError Bytes :=
  match catalogMember path.1 path.2 with
  | .ok member => .ok member
  | .error e => .error (.key e)

def Storage.deleteItem (op : PutOp) : Except StorageError Cmd := do
  let key ← namespaceKey σ.sha256 σ.keyPrefix op.namespace_
  let field ← itemField op.key
  .ok (.hdel key field)

/-- A command for the member of an item in the catalog of each prefix. -/
def Storage.indexCommands (command : Str → Bytes → Cmd) (op : PutOp) :
    Except StorageError (List Cmd) :=
  (namespacePrefixes op.namespace_).mapM fun namespacePrefix => do
    let key ← prefixCatalogKey σ.sha256 σ.keyPrefix namespacePrefix
    let member ← memberOf op.path
    .ok (command key member)

def Storage.deleteIndexes (op : PutOp) : Except StorageError (List Cmd) :=
  σ.indexCommands (fun key member => .zrem key [member]) op

def Storage.publishIndexes (op : PutOp) : Except StorageError (List Cmd) :=
  σ.indexCommands .zadd op

def unlessEmpty (commands : List Cmd) : StorePlan Unit :=
  match commands with
  | [] => pure ()
  | _ => do
    let _ ← .batch commands
    pure ()

def stamps (pending : List (PendingPut T)) : Dict (List Str × Str) T :=
  pending.foldl (fun created item => Dict.set created item.op.path item.timestamp) []

/-- The items that exist keep the time of their creation. -/
def Storage.createdTimes : List (PendingPut T) → List Answer → Dict (List Str × Str) T →
    Except StorageError (Dict (List Str × Str) T)
  | item::pending, response::responses, created => do
    match ← σ.expectItem "FerricStore LangGraph item key mismatch" item.op.path response with
    | none => Storage.createdTimes pending responses created
    | some existing =>
      Storage.createdTimes pending responses (Dict.set created item.op.path existing.createdAt)
  | _, _, created => .ok created

def Storage.writeItem (created : Dict (List Str × Str) T) (item : PendingPut T) :
    Except StorageError Cmd := do
  let key ← namespaceKey σ.sha256 σ.keyPrefix item.op.namespace_
  let field ← itemField item.op.key
  match Dict.get? created item.op.path with
  | none => .error (.key (.valueError "missing creation time"))
  | some createdAt =>
    let record ← σ.itemRecord item.op createdAt item.timestamp
    .ok (.hset key [(field, record)])

def Storage.readCreated (pending : List (PendingPut T)) :
    StorePlan (Dict (List Str × Str) T) := do
  let reads ← .lift (pending.mapM fun item => σ.itemCommand item.op.path)
  let responses ← .batch reads
  let responses ← .lift (batchItems pending.length responses)
  .lift (σ.createdTimes pending responses (stamps pending))

def Storage.writePending (pending : List (PendingPut T)) : StorePlan Unit := do
  let created ← σ.readCreated pending
  let indexes ← .lift (pending.mapM fun item => σ.publishIndexes item.op)
  let _ ← .batch indexes.flatten
  let records ← .lift (pending.mapM (σ.writeItem created))
  let _ ← .batch records
  pure ()

def pendingPuts (clock : ℕ → T) (ops : List PutOp) : List (PendingPut T) :=
  (ops.filter fun op => !op.value.isNone).mapIdx fun i op => ⟨op, clock i⟩

def removals (ops : List PutOp) : List PutOp := ops.filter fun op => op.value.isNone

/-- `_apply_puts`; `clock` gives the times that it reads. -/
def Storage.applyPuts (clock : ℕ → T) (ops : List PutOp) : StorePlan Unit :=
  if ops.isEmpty then pure ()
  else do
    .lift (validatePuts σ ops)
    let deleteItems ← .lift ((removals ops).mapM σ.deleteItem)
    unlessEmpty deleteItems
    let deleteIndexes ← .lift ((removals ops).mapM σ.deleteIndexes)
    unlessEmpty deleteIndexes.flatten
    if (pendingPuts clock ops).isEmpty then pure ()
    else σ.writePending (pendingPuts clock ops)

end Writing

section Batch

variable {T : Type} (σ : Storage T)

/-- What the first loop of `batch` has gathered. -/
structure Gathered (T : Type) where
  results : List (Result T)
  puts : Dict (List Str × Str) PutOp
  gets : List (ℕ × Cmd)

def Storage.gather (fuel : ℕ) : ℕ → List Op → Gathered T → StorePlan (Gathered T)
  | _, [], g => pure g
  | i, .get op::ops, g => do
    let command ← .lift (σ.itemCommand (op.namespace_, op.key))
    Storage.gather fuel (i+1) ops { g with gets := g.gets++[(i, command)] }
  | i, .search op::ops, g => do
    let items ← σ.search fuel op
    Storage.gather fuel (i+1) ops { g with results := g.results.set i (.items items) }
  | i, .listNamespaces op::ops, g => do
    let namespaces ← σ.listNamespaces fuel op
    Storage.gather fuel (i+1) ops { g with results := g.results.set i (.namespaces namespaces) }
  | i, .put op::ops, g =>
    Storage.gather fuel (i+1) ops { g with puts := Dict.set g.puts op.path op }

/-- The result of a get, whose item is not compared with the one asked for. -/
def Storage.itemResult (response : Answer) : Except StorageError (Result T) := do
  match ← storedValue response with
  | none => .ok .nothing
  | some value =>
    let item ← σ.decodeItem value
    .ok (.item item)

def Storage.fillResults : List ℕ → List Answer → List (Result T) →
    Except StorageError (List (Result T))
  | i::indices, response::responses, results => do
    let result ← σ.itemResult response
    Storage.fillResults indices responses (results.set i result)
  | _, _, results => .ok results

def Storage.readGets (g : Gathered T) : StorePlan (List (Result T)) :=
  if g.gets.isEmpty then pure g.results
  else do
    let responses ← .batch (g.gets.map Prod.snd)
    let responses ← .lift (batchItems g.gets.length responses)
    .lift (σ.fillResults (g.gets.map Prod.fst) responses g.results)

/-- `_FerricStoreMemoryStorage.batch`. -/
def Storage.batch (fuel : ℕ) (clock : ℕ → T) (ops : List Op) : StorePlan (List (Result T)) := do
  let g ← σ.gather fuel 0 ops ⟨List.replicate ops.length .nothing, [], []⟩
  let results ← σ.readGets g
  σ.applyPuts clock (g.puts.map Prod.snd)
  pure results

/-- `FerricStoreStore.batch` between its locks, which it derives from the puts first. -/
def Storage.lockedBatch (fuel : ℕ) (clock : ℕ → T) (ops : List Op) :
    StorePlan (List (Result T)) := do
  let _ ← .lift (σ.mutationLockKeys ops)
  σ.batch fuel clock ops

end Batch

end FerricStore.MemoryStore
