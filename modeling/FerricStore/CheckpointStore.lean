import FerricStore.CheckpointKeys
import FerricStore.MemoryStore

/-!
# The LangGraph checkpoint store

The checkpoints of a thread in a namespace and the pending writes of their tasks are fields
of one hash. A put publishes the hash and the checkpoint in four places before it stores the
record, readers pass over what has no record, and a deletion follows the places back. Loops
over an index end when a page is short; their fuel only bounds a run over an index that
others keep growing.
-/

set_option autoImplicit false

namespace FerricStore.CheckpointStore
open Text OrderedKeys StorageKeys CheckpointKeys CommandPlans KeyedDatabase
open MemoryStore (Db Cmd Answer StorePlan field isFormatVersion)

/-- A configuration; its identifiers are under `configurable`. -/
abbrev Config := Dict Key Value

/-- What the interpreter, the digest and the libraries of LangGraph compute. -/
structure Libraries where
  runtime : Runtime
  sha256 : Bytes → Str
  dumpsTyped : Value → Except StorageError (Str × Bytes)
  loadsTyped : Str × Bytes → Except StorageError Value
  writesIndex : Str → Option ℤ
  checkpointId : Config → Option Str
  checkpointMetadata : Config → Dict Key Value → Dict Key Value

/-- `_FerricStoreCheckpointStorage`. -/
structure Storage extends Libraries where
  keyPrefix : Str
  scanCount : ℕ
  scanCount_pos : 0 < scanCount

/-- `CheckpointTuple`. -/
structure CheckpointTuple where
  threadId : Str
  checkpointNs : Str
  checkpointId : Str
  checkpoint : Dict Key Value
  metadata : Dict Key Value
  parentId : Option Str
  pendingWrites : List (Str × Str × Value)

section Records

variable (σ : Storage)

def invalidText : StorageError := valueError "'utf-8' codec can't decode bytes"

/-- `_text`. -/
def Storage.text (name : String) : Value → Except StorageError Str
  | .str s => .ok s
  | .bytes b | .bytearray b => (decode b).elim (.error invalidText) .ok
  | .none => .error (valueError (name++" is required"))
  | v => .ok (σ.runtime.str v)

def entry (d : Dict Key Value) (name : String) : Option Value := Dict.get? d (.str (lit name))

/-- `_identity`. -/
def Storage.identity (config : Config) : Except StorageError (Str × Str) :=
  match entry config "configurable" with
  | some (.dict configurable) => do
    let threadId ← σ.text "thread_id" (field configurable "thread_id")
    let checkpointNs ← σ.text "checkpoint_ns"
      ((entry configurable "checkpoint_ns").getD (.str []))
    .ok (threadId, checkpointNs)
  | _ => .error (valueError "LangGraph config must contain a configurable mapping")

/-- `_pack_typed`. -/
def packTyped (value : Str × Bytes) : Except StorageError Bytes := do
  let encodedType ← payload value.1
  if encodedType.length > 65535 then
    .error (valueError "serialized LangGraph type name exceeds 65535 bytes")
  else .ok (BigEndian.encode 2 encodedType.length++encodedType++value.2)

/-- `_unpack_typed`. -/
def unpackTyped (payload : Bytes) : Except StorageError (Str × Bytes) :=
  if payload.length < 2 then .error (valueError "invalid FerricStore LangGraph payload")
  else
    let typeEnd := 2+BigEndian.decode (payload.take 2)
    if payload.length < typeEnd then
      .error (valueError "truncated FerricStore LangGraph payload")
    else match decode ((payload.take typeEnd).drop 2) with
      | some typeName => .ok (typeName, payload.drop typeEnd)
      | none => .error invalidText

/-- `_serialize`. -/
def Storage.serialize (value : Value) : Except StorageError Bytes := do
  let typed ← σ.dumpsTyped value
  packTyped typed

/-- `_deserialize`. -/
def Storage.deserialize (value : Bytes) : Except StorageError Value := do
  let typed ← unpackTyped value
  σ.loadsTyped typed

/-- `_descriptor`. -/
def Storage.descriptor (threadId checkpointNs : Str) : Except StorageError Bytes :=
  σ.serialize (.dict [
    (.str (lit "format_version"), .int 1),
    (.str (lit "thread_id"), .str threadId),
    (.str (lit "checkpoint_ns"), .str checkpointNs)])

structure Record where
  threadId : Str
  checkpointNs : Str
  checkpointId : Str
  parentId : Option Str
  checkpoint : Dict Key Value
  metadata : Dict Key Value

def Record.value (r : Record) : Value :=
  .dict [
    (.str (lit "format_version"), .int 1),
    (.str (lit "thread_id"), .str r.threadId),
    (.str (lit "checkpoint_ns"), .str r.checkpointNs),
    (.str (lit "checkpoint_id"), .str r.checkpointId),
    (.str (lit "parent_checkpoint_id"), r.parentId.elim .none .str),
    (.str (lit "checkpoint"), .dict r.checkpoint),
    (.str (lit "metadata"), .dict r.metadata)]

/-- `_record`. -/
def Storage.record (config : Config) (checkpoint metadata : Dict Key Value) :
    Except StorageError Record := do
  let (threadId, checkpointNs) ← σ.identity config
  let checkpointId ← σ.text "checkpoint id" (field checkpoint "id")
  .ok ⟨threadId, checkpointNs, checkpointId, σ.checkpointId config, checkpoint,
    σ.checkpointMetadata config metadata⟩

/-- `_tuple_from_record`. -/
def Storage.tupleFromRecord (record : Dict Key Value) (pendingWrites : List (Str × Str × Value)) :
    Except StorageError CheckpointTuple :=
  if !isFormatVersion (field record "format_version") then
    .error (valueError "unsupported FerricStore LangGraph checkpoint format")
  else do
    let threadId ← σ.text "stored thread_id" (field record "thread_id")
    let checkpointNs ← σ.text "stored checkpoint_ns"
      ((entry record "checkpoint_ns").getD (.str []))
    let checkpointId ← σ.text "stored checkpoint_id" (field record "checkpoint_id")
    match field record "checkpoint", field record "metadata" with
    | .dict checkpoint, .dict metadata =>
      if (field record "parent_checkpoint_id").isNone then
        .ok ⟨threadId, checkpointNs, checkpointId, checkpoint, metadata, none, pendingWrites⟩
      else do
        let parentId ← σ.text "parent checkpoint id" (field record "parent_checkpoint_id")
        .ok ⟨threadId, checkpointNs, checkpointId, checkpoint, metadata, some parentId,
          pendingWrites⟩
    | .dict _, _ => .error (typeError "stored LangGraph checkpoint metadata must be a mapping")
    | _, _ => .error (typeError "stored LangGraph checkpoint must be a mapping")

/-- A write of a task to a channel, under the index of the channel or its own place. -/
structure WriteEntry where
  taskId : Str
  channel : Str
  value : Value
  taskPath : Str
  index : ℤ

/-- `_write_record`. -/
def Storage.writeRecord (w : WriteEntry) : Except StorageError Bytes :=
  σ.serialize (.dict [
    (.str (lit "format_version"), .int 1),
    (.str (lit "task_id"), .str w.taskId),
    (.str (lit "channel"), .str w.channel),
    (.str (lit "value"), w.value),
    (.str (lit "task_path"), .str w.taskPath),
    (.str (lit "index"), .int w.index)])

def Storage.decodePendingWrite (value : Bytes) : Except StorageError (Dict Key Value) := do
  match ← σ.deserialize value with
  | .dict record =>
    if isFormatVersion (field record "format_version") then .ok record
    else .error (valueError "unsupported FerricStore LangGraph pending-write format")
  | _ => .error (typeError "stored LangGraph pending write must be a mapping")

def Storage.integer (v : Value) : Except StorageError ℤ :=
  match σ.runtime.toInt v with
  | .ok n => .ok n
  | .error .typeError => .error (typeError "int() argument must be a string or a number")
  | .error _ => .error (valueError "invalid literal for int() with base 10")

/-- The task and the index that pending writes are sorted by. -/
def Storage.writeKey (record : Dict Key Value) : Except StorageError (Lex (Str × ℤ)) := do
  let taskId ← σ.text "stored task_id" (field record "task_id")
  let index ← σ.integer ((entry record "index").getD (.int 0))
  .ok (toLex (taskId, index))

def Storage.pendingWrite (record : Dict Key Value) : Except StorageError (Str × Str × Value) := do
  let taskId ← σ.text "stored task_id" (field record "task_id")
  let channel ← σ.text "stored channel" (field record "channel")
  .ok (taskId, channel, field record "value")

/-- `_decode_pending_writes`. -/
def Storage.decodePendingWrites (values : List Bytes) :
    Except StorageError (List (Str × Str × Value)) := do
  let records ← values.mapM σ.decodePendingWrite
  let keys ← records.mapM σ.writeKey
  let sorted := (keys.zip records).mergeSort fun a b => a.1 ≤ b.1
  sorted.mapM fun x => σ.pendingWrite x.2

end Records

section Reading

variable (σ : Storage)

/-- `_scan_page`. -/
def scanPage : Answer → Except StorageError (ℕ × List (Str × Bytes))
  | .page cursor fields => .ok (cursor, fields)
  | _ => .error (typeError "FerricStore HSCAN returned an invalid response")

/-- `_scan_hash`, from a cursor on. -/
def Storage.scanHash (key pattern : Str) : ℕ → ℕ → StorePlan (List (Str × Bytes))
  | 0, _ => .lift (.error .unfinished)
  | fuel+1, cursor => do
    let response ← .command (.hscan key cursor pattern σ.scanCount)
    let (next, page) ← .lift (scanPage response)
    if next = 0 then pure page
    else do
      let rest ← Storage.scanHash key pattern fuel next
      pure (page++rest)

/-- `_pending_writes`. -/
def Storage.pendingWrites (fuel : ℕ) (key checkpointId : Str) :
    StorePlan (List (Str × Str × Value)) := do
  let pattern ← .lift (writesPattern checkpointId)
  let items ← σ.scanHash key pattern fuel 0
  .lift (σ.decodePendingWrites (items.map Prod.snd))

def storedRecord : Answer → Except StorageError (Option Bytes)
  | .value v => .ok v
  | _ => .error (typeError "FerricStore returned a non-binary checkpoint payload")

/-- `_read_record`. -/
def Storage.readRecord (key checkpointId : Str) : StorePlan (Option (Dict Key Value)) := do
  let name ← .lift (checkpointField checkpointId)
  let response ← .command (.hget key name)
  match ← .lift (storedRecord response) with
  | none => pure none
  | some value =>
    match ← .lift (σ.deserialize value) with
    | .dict record => pure (some record)
    | _ => .lift (.error (typeError "stored LangGraph checkpoint record must be a mapping"))

def rangeMembers (command : String) : Answer → Except StorageError (List Bytes)
  | .members members => .ok members
  | .value none => .ok []
  | _ => .error (typeError ("FerricStore "++command++" returned an invalid response"))

/-- The loop of `get_tuple` over the index, newest first, up to a record. -/
def Storage.latestRecord (key : Str) : ℕ → ℕ → StorePlan (Option (Str × Dict Key Value))
  | 0, _ => .lift (.error .unfinished)
  | fuel+1, offset => do
    let response ← .command (.zrevrange (checkpointIndexKey key) offset offset)
    match ← .lift (rangeMembers "ZREVRANGE" response) with
    | [] => pure none
    | member::_ => do
      let checkpointId ← .lift (σ.text "latest checkpoint id" (.bytes member))
      match ← σ.readRecord key checkpointId with
      | some record => pure (some (checkpointId, record))
      | none => Storage.latestRecord key fuel (offset+1)

/-- `get_tuple`. -/
def Storage.getTuple (fuel : ℕ) (config : Config) : StorePlan (Option CheckpointTuple) := do
  let (threadId, checkpointNs) ← .lift (σ.identity config)
  let key ← .lift (threadKey σ.sha256 σ.keyPrefix threadId checkpointNs)
  let found ← match σ.checkpointId config with
    | some checkpointId => do
      let record ← σ.readRecord key checkpointId
      pure (record.map fun record => (checkpointId, record))
    | none => σ.latestRecord key fuel 0
  match found with
  | none => pure none
  | some (checkpointId, record) => do
    let pendingWrites ← σ.pendingWrites fuel key checkpointId
    let tuple ← .lift (σ.tupleFromRecord record pendingWrites)
    pure (some tuple)

/-- `_thread_keys`. -/
def Storage.threadKeys (threadId : Str) : StorePlan (List Str) := do
  let catalog ← .lift (threadCatalogKey σ.sha256 σ.keyPrefix threadId)
  let response ← .command (.smembers catalog)
  let members ← .lift (rangeMembers "SMEMBERS" response)
  let keys ← .lift (members.mapM fun b => σ.text "thread checkpoint key" (.bytes b))
  pure (keys.mergeSort fun a b => a ≤ b)

/-- `_candidate_keys`, of a configuration. -/
def Storage.candidateKeys (config : Config) : StorePlan (List Str) :=
  match entry config "configurable" with
  | some (.dict configurable) => do
    let threadId ← .lift (σ.text "thread_id" (field configurable "thread_id"))
    match entry configurable "checkpoint_ns" with
    | some ns => do
      let checkpointNs ← .lift (σ.text "checkpoint_ns" ns)
      let key ← .lift (threadKey σ.sha256 σ.keyPrefix threadId checkpointNs)
      pure [key]
    | none => σ.threadKeys threadId
  | _ => .lift (.error (valueError "LangGraph config must contain a configurable mapping"))

/-- `_checkpoint_ids`. -/
def Storage.checkpointIds (key : Str) (start : ℕ) (count : Option ℕ) : StorePlan (List Str) := do
  let stop : ℤ := count.elim (-1) fun n => start+n-1
  let response ← .command (.zrevrange (checkpointIndexKey key) start stop)
  let members ← .lift (rangeMembers "ZREVRANGE" response)
  .lift (members.mapM fun b => σ.text "checkpoint id" (.bytes b))

def decodeLocator (member : Bytes) : Except StorageError (Str × Str) :=
  match decodeCheckpointLocator member with
  | .ok locator => .ok locator
  | .error e => .error (.key e)

/-- `_global_locator_page`. -/
def Storage.globalLocatorPage (start : ℕ) : StorePlan (List (Str × Str)) := do
  let response ← .command
    (.zrevrange (CheckpointKeys.catalogKey σ.keyPrefix) start (start+σ.scanCount-1))
  let members ← .lift (rangeMembers "ZREVRANGE" response)
  .lift (members.mapM decodeLocator)

/-- The conditions of a listing; `filter` is the test of the metadata by a filter. -/
structure Selection where
  filter : Option (Dict Key Value → Bool)
  beforeId : Option Str
  limit : Option ℕ

/-- A checkpoint found, its id and its key. -/
structure Found where
  checkpointId : Str
  key : Str
  record : Dict Key Value

/-- The checkpoints of a page in turn, up to the limit. -/
def Storage.visit (selection : Selection) : List (Str × Str) → List Found → StorePlan (List Found)
  | [], found => pure found
  | (checkpointId, key)::rest, found =>
    if selection.beforeId.any fun before => before ≤ checkpointId then
      Storage.visit selection rest found
    else do
      match ← σ.readRecord key checkpointId with
      | none => Storage.visit selection rest found
      | some record =>
        match field record "metadata" with
        | .dict metadata =>
          if selection.filter.any fun accepts => !accepts metadata then
            Storage.visit selection rest found
          else if selection.limit = some (found.length+1) then
            pure (found++[⟨checkpointId, key, record⟩])
          else Storage.visit selection rest (found++[⟨checkpointId, key, record⟩])
        | _ => .lift (.error (typeError "stored LangGraph checkpoint metadata must be a mapping"))

def Storage.tuples (fuel : ℕ) : List Found → StorePlan (List CheckpointTuple)
  | [] => pure []
  | x::found => do
    let pendingWrites ← σ.pendingWrites fuel x.key x.checkpointId
    let tuple ← .lift (σ.tupleFromRecord x.record pendingWrites)
    let tuples ← Storage.tuples fuel found
    pure (tuple::tuples)

/-- The first loop of `_list_global`. -/
def Storage.globalPages (selection : Selection) : ℕ → ℕ → List Found → StorePlan (List Found)
  | 0, _, _ => .lift (.error .unfinished)
  | fuel+1, start, found => do
    let locators ← σ.globalLocatorPage start
    if locators = [] then pure found
    else do
      let found ← σ.visit selection locators found
      if selection.limit = some found.length ∨ locators.length < σ.scanCount then pure found
      else Storage.globalPages selection fuel (start+locators.length) found

/-- The size of the next page of an index. -/
def Storage.pageCount (selection : Selection) (matched : ℕ) : Option ℕ :=
  selection.limit.map fun n =>
    if selection.filter.isNone ∧ selection.beforeId.isNone then max (n-matched) 1
    else σ.scanCount

/-- The loop of `list` over the index of a key. -/
def Storage.indexPages (selection : Selection) (key : Str) :
    ℕ → ℕ → List Found → StorePlan (List Found)
  | 0, _, _ => .lift (.error .unfinished)
  | fuel+1, start, found => do
    let count := σ.pageCount selection found.length
    let ids ← σ.checkpointIds key start count
    if ids = [] then pure found
    else do
      let found ← σ.visit selection (ids.map fun id => (id, key)) found
      if selection.limit = some found.length ∨ count.all fun n => ids.length < n then pure found
      else Storage.indexPages selection key fuel (start+ids.length) found

def Storage.keysPages (fuel : ℕ) (selection : Selection) (expectedId : Option Str) :
    List Str → StorePlan (List Found)
  | [] => pure []
  | key::keys => do
    let found ← match expectedId with
      | some checkpointId => σ.visit selection [(checkpointId, key)] []
      | none => σ.indexPages selection key fuel 0 []
    let rest ← Storage.keysPages fuel selection expectedId keys
    pure (found++rest)

/-- `list`. -/
def Storage.list (fuel : ℕ) (config : Option Config) (filter : Option (Dict Key Value → Bool))
    (before : Option Config) (limit : Option ℤ) : StorePlan (List CheckpointTuple) :=
  if limit.any fun n => n ≤ 0 then pure []
  else do
    let selection := ⟨filter, before.bind σ.checkpointId, limit.map Int.toNat⟩
    match config with
    | none => do
      let found ← σ.globalPages selection fuel 0 []
      σ.tuples fuel found
    | some config => do
      let keys ← σ.candidateKeys config
      let found ← σ.keysPages fuel selection (σ.checkpointId config) keys
      let sorted := found.mergeSort fun a b => b.checkpointId ≤ a.checkpointId
      σ.tuples fuel (selection.limit.elim sorted fun n => sorted.take n)

end Reading

section Writing

variable (σ : Storage)

def storedLocator (checkpointId key : Str) : Except StorageError Bytes :=
  match checkpointLocator checkpointId key with
  | .ok member => .ok member
  | .error e => .error (.key e)

/-- `put`. -/
def Storage.put (config : Config) (checkpoint metadata : Dict Key Value) :
    StorePlan (Str × Str × Str) := do
  let record ← .lift (σ.record config checkpoint metadata)
  let key ← .lift (threadKey σ.sha256 σ.keyPrefix record.threadId record.checkpointNs)
  let locator ← .lift (storedLocator record.checkpointId key)
  let catalog ← .lift (threadCatalogKey σ.sha256 σ.keyPrefix record.threadId)
  let _ ← .command (.sadd catalog (utf8 key))
  let locators ← .lift (threadLocatorCatalogKey σ.sha256 σ.keyPrefix record.threadId)
  let _ ← .command (.zadd locators locator)
  let _ ← .command (.zadd (CheckpointKeys.catalogKey σ.keyPrefix) locator)
  let _ ← .command (.zadd (checkpointIndexKey key) (utf8 record.checkpointId))
  let descriptor ← .lift (σ.descriptor record.threadId record.checkpointNs)
  let name ← .lift (checkpointField record.checkpointId)
  let value ← .lift (σ.serialize record.value)
  let _ ← .command (.hset key [(descriptorField, descriptor), (name, value)])
  pure (record.threadId, record.checkpointNs, record.checkpointId)

/-- The index of a write: that of its channel, or its place among the writes of the call. -/
def Storage.writeEntries (writes : List (Str × Value)) (taskId taskPath : Str) :
    List WriteEntry :=
  writes.mapIdx fun i w => ⟨taskId, w.1, w.2, taskPath, (σ.writesIndex w.1).getD i⟩

def Storage.writeCommand (key checkpointId : Str) (w : WriteEntry) : Except StorageError Cmd := do
  let name ← writeField checkpointId w.taskId w.index
  let value ← σ.writeRecord w
  .ok (if w.index < 0 then .hset key [(name, value)] else .hsetnx key name value)

def Storage.putEntries (key checkpointId : Str) : List WriteEntry → StorePlan Unit
  | [] => pure ()
  | w::ws => do
    let command ← .lift (σ.writeCommand key checkpointId w)
    let _ ← .command command
    Storage.putEntries key checkpointId ws

/-- `put_writes`. -/
def Storage.putWrites (config : Config) (writes : List (Str × Value)) (taskId taskPath : Str) :
    StorePlan Unit := do
  let (threadId, checkpointNs) ← .lift (σ.identity config)
  match σ.checkpointId config with
  | none => .lift (.error (valueError "put_writes requires checkpoint_id in configurable"))
  | some checkpointId => do
    let key ← .lift (threadKey σ.sha256 σ.keyPrefix threadId checkpointNs)
    let catalog ← .lift (threadCatalogKey σ.sha256 σ.keyPrefix threadId)
    let _ ← .command (.sadd catalog (utf8 key))
    let descriptor ← .lift (σ.descriptor threadId checkpointNs)
    let _ ← .command (.hsetnx key descriptorField descriptor)
    σ.putEntries key checkpointId (σ.writeEntries writes taskId taskPath)

def Storage.deleteKeys : List Str → StorePlan Unit
  | [] => pure ()
  | key::keys => do
    let _ ← .command (.del [key, checkpointIndexKey key])
    Storage.deleteKeys keys

/-- The loop of `delete_thread` over the locators. -/
def Storage.drainLocators (locators : Str) : ℕ → StorePlan Unit
  | 0 => .lift (.error .unfinished)
  | fuel+1 => do
    let response ← .command (.zrange locators 0 (σ.scanCount-1))
    let members ← .lift (rangeMembers "ZRANGE" response)
    if members = [] then pure ()
    else do
      let _ ← .command (.zrem (CheckpointKeys.catalogKey σ.keyPrefix) members)
      let _ ← .command (.zrem locators members)
      Storage.drainLocators locators fuel

/-- `delete_thread`. -/
def Storage.deleteThread (fuel : ℕ) (threadId : Value) : StorePlan Unit := do
  let threadId ← .lift (σ.text "thread_id" threadId)
  let locators ← .lift (threadLocatorCatalogKey σ.sha256 σ.keyPrefix threadId)
  let keys ← σ.threadKeys threadId
  Storage.deleteKeys keys
  σ.drainLocators locators fuel
  let catalog ← .lift (threadCatalogKey σ.sha256 σ.keyPrefix threadId)
  let _ ← .command (.del [catalog, locators])
  pure ()

end Writing

end FerricStore.CheckpointStore
