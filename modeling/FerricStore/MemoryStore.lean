import FerricStore.KeyedDatabase
import FerricStore.StorageKeys

/-!
# The LangGraph memory store

An item of a namespace is a field of the namespace's hash, and a member of the catalog of
every prefix of the namespace. A batch reads first, then removes, then writes, and each
write publishes the catalogs before the item. Loops over a catalog end when a page is
short; their fuel only bounds a run over a catalog that others keep growing.
-/

set_option autoImplicit false

namespace FerricStore.MemoryStore
open Text OrderedKeys StorageKeys CommandPlans KeyedDatabase

abbrev Db := Database Str Str Bytes Bytes

abbrev Cmd := KeyedDatabase.Command Str Str Bytes Bytes Str

abbrev Answer := Reply Str Bytes Bytes

abbrev StorePlan := Plan Cmd Answer StorageError

/-- What the standard library computes: the digest, JSON text and ISO time stamps. -/
structure Libraries (T : Type) where
  sha256 : Bytes → Str
  dumps : Value → Option Bytes
  loads : Bytes → Option Value
  isoformat : T → Str
  fromisoformat : Str → Option T

/-- `_FerricStoreMemoryStorage`. -/
structure Storage (T : Type) extends Libraries T where
  keyPrefix : Str
  scanCount : ℕ
  scanCount_pos : 0 < scanCount

structure PutOp where
  namespace_ : List Str
  key : Str
  value : Value
  ttl : Value

structure GetOp where
  namespace_ : List Str
  key : Str

/-- A search; `accepts` is `_matches_filter` with the filter of the search. -/
structure SearchOp where
  namespacePrefix : List Str
  accepts : Value → Except StorageError Bool
  limit : ℤ
  offset : ℤ

inductive MatchType where
  | prefixed
  | suffixed
  | other (name : String)

structure MatchCondition where
  matchType : MatchType
  path : List Str

structure ListNamespacesOp where
  matchConditions : List MatchCondition
  maxDepth : Option ℤ
  limit : ℤ
  offset : ℤ

inductive Op where
  | get (op : GetOp)
  | search (op : SearchOp)
  | listNamespaces (op : ListNamespacesOp)
  | put (op : PutOp)

structure Item (T : Type) where
  namespace_ : List Str
  key : Str
  value : Value
  createdAt : T
  updatedAt : T

inductive Result (T : Type) where
  | nothing
  | item (item : Item T)
  | items (items : List (Item T))
  | namespaces (namespaces : List (List Str))

def PutOp.path (op : PutOp) : List Str × Str := (op.namespace_, op.key)

section Validation

def validateLabels : List Str → Except StorageError Unit
  | [] => .ok ()
  | label::labels =>
    if label = [] then .error (.invalidNamespace "Namespace labels cannot be empty strings.")
    else if (46 : CodePoint) ∈ label then
      .error (.invalidNamespace "Namespace labels cannot contain periods ('.').")
    else validateLabels labels

/-- `_validate_namespace`. -/
def validateNamespace (namespace_ : List Str) : Except StorageError Unit :=
  if namespace_ = [] then .error (.invalidNamespace "Namespace cannot be empty.")
  else do
    validateLabels namespace_
    if namespace_.head? = some (lit "langgraph") then
      .error (.invalidNamespace "Root namespace label cannot be \"langgraph\".")
    else .ok ()

def isText : Key → Bool
  | .str _ => true
  | _ => false

mutual

/-- `_validate_json_keys`: every key of the value is text. -/
def textKeys : Value → Bool
  | .dict entries => textEntries entries
  | .list items => textItems items
  | .tuple items => textItems items
  | _ => true

def textItems : List Value → Bool
  | [] => true
  | v::vs => textKeys v && textItems vs

def textEntries : List (Key × Value) → Bool
  | [] => true
  | (k, v)::rest => isText k && textKeys v && textEntries rest

end

variable {T : Type} (σ : Storage T)

/-- `_serialize`. -/
def Storage.serialize (value : Value) : Except StorageError Bytes :=
  (σ.dumps value).elim (.error (typeError "LangGraph store values must be JSON serializable")) .ok

def notDictionary : StorageError :=
  typeError "LangGraph store values must be dictionaries with string keys"

/-- `_validate_put`. -/
def Storage.validatePut (op : PutOp) : Except StorageError Unit := do
  validateNamespace op.namespace_
  if !op.ttl.isNone then .error (.notImplemented "TTL is not supported by FerricStoreStore")
  else if op.value.isNone then .ok ()
  else match op.value with
    | .dict entries =>
      if !entries.all fun e => isText e.1 then .error notDictionary
      else if !textKeys op.value then
        .error (typeError "LangGraph store JSON object keys must be strings")
      else do
        let _ ← σ.serialize op.value
        .ok ()
    | _ => .error notDictionary

/-- `mutation_lock_keys`. -/
def Storage.mutationLockKeys : List Op → Except StorageError (List Str)
  | [] => .ok []
  | .put op::ops => do
    σ.validatePut op
    let key ← itemLockKey σ.sha256 σ.keyPrefix op.namespace_ op.key
    let keys ← Storage.mutationLockKeys ops
    .ok (key::keys)
  | _::ops => Storage.mutationLockKeys ops

end Validation

section Records

variable {T : Type} (σ : Storage T)

/-- `_item_record`. -/
def Storage.itemRecord (op : PutOp) (createdAt updatedAt : T) : Except StorageError Bytes :=
  match op.value with
  | .dict entries =>
    if !entries.all fun e => isText e.1 then .error notDictionary
    else σ.serialize (.dict [
      (.str (lit "format_version"), .int 1),
      (.str (lit "namespace"), .list (op.namespace_.map .str)),
      (.str (lit "key"), .str op.key),
      (.str (lit "value"), op.value),
      (.str (lit "created_at"), .str (σ.isoformat createdAt)),
      (.str (lit "updated_at"), .str (σ.isoformat updatedAt))])
  | _ => .error notDictionary

/-- `_deserialize`. -/
def Storage.deserialize (value : Bytes) : Except StorageError (List (Key × Value)) :=
  match σ.loads value with
  | none => .error (valueError "invalid FerricStore LangGraph store item")
  | some (.dict entries) => .ok entries
  | some _ => .error (typeError "stored LangGraph store item must be a mapping")

/-- Equal to the number one. -/
def isFormatVersion : Value → Bool
  | .int n => n == 1
  | .bool b => b
  | .float bits => bits == 0x3FF0000000000000#64
  | _ => false

def textList : List Value → Option (List Str)
  | [] => some []
  | .str s::values => (textList values).map (s::·)
  | _::_ => none

def field (record : List (Key × Value)) (name : String) : Value :=
  (Dict.get? record (.str (lit name))).getD .none

def labelsField : Value → Except StorageError (List Str)
  | .list labels =>
    match textList labels with
    | some labels => .ok labels
    | none => .error (typeError "stored LangGraph item namespace must be a list of strings")
  | _ => .error (typeError "stored LangGraph item namespace must be a list of strings")

def keyField : Value → Except StorageError Str
  | .str key => .ok key
  | _ => .error (typeError "stored LangGraph item key must be text")

def valueField : Value → Except StorageError Value
  | .dict entries =>
    if entries.all fun e => isText e.1 then .ok (.dict entries)
    else .error (typeError "stored LangGraph item value must be a dictionary")
  | _ => .error (typeError "stored LangGraph item value must be a dictionary")

def timestampText : Value → Except StorageError Str
  | .str s => .ok s
  | _ => .error (typeError "stored LangGraph item timestamps must be text")

def Storage.timestamp (text : Str) : Except StorageError T :=
  (σ.fromisoformat text).elim (.error (valueError "Invalid isoformat string")) .ok

/-- `_decode_item`. -/
def Storage.decodeItem (value : Bytes) : Except StorageError (Item T) := do
  let record ← σ.deserialize value
  if !isFormatVersion (field record "format_version") then
    .error (valueError "unsupported FerricStore LangGraph store format")
  else
    let namespace_ ← labelsField (field record "namespace")
    let key ← keyField (field record "key")
    let itemValue ← valueField (field record "value")
    let createdText ← timestampText (field record "created_at")
    let updatedText ← timestampText (field record "updated_at")
    let createdAt ← σ.timestamp createdText
    let updatedAt ← σ.timestamp updatedText
    .ok ⟨namespace_, key, itemValue, createdAt, updatedAt⟩

end Records

section Reading

variable {T : Type} (σ : Storage T)

/-- `_batch_items`. -/
def batchItems (expected : ℕ) (responses : List Answer) : Except StorageError (List Answer) :=
  if responses.length = expected then .ok responses
  else .error (valueError ("FerricStore command batch returned "++toString responses.length++
    " responses for "++toString expected++" commands"))

def storedValue : Answer → Except StorageError (Option Bytes)
  | .value v => .ok v
  | _ => .error (typeError "FerricStore returned a non-binary store item")

def Storage.itemCommand (locator : List Str × Str) : Except StorageError Cmd := do
  let key ← namespaceKey σ.sha256 σ.keyPrefix locator.1
  let field ← itemField locator.2
  .ok (.hget key field)

/-- An item that must be the one asked for. -/
def Storage.expectItem (mismatch : String) (locator : List Str × Str) (response : Answer) :
    Except StorageError (Option (Item T)) := do
  match ← storedValue response with
  | none => .ok none
  | some value =>
    let item ← σ.decodeItem value
    if item.namespace_ = locator.1 ∧ item.key = locator.2 then .ok (some item)
    else .error (valueError mismatch)

def catalogMembers : Answer → Except StorageError (List Bytes)
  | .members members => .ok members
  | .value none => .ok []
  | _ => .error (typeError "FerricStore ZRANGE returned an invalid response")

def decodeMember (member : Bytes) : Except StorageError (List Str × Str) :=
  match decodeCatalogMember member with
  | .ok locator => .ok locator
  | .error e => .error (.key e)

/-- `_catalog_page`. -/
def Storage.catalogPage (namespacePrefix : List Str) (start count : ℕ) :
    StorePlan (List (List Str × Str)) := do
  let key ← .lift (prefixCatalogKey σ.sha256 σ.keyPrefix namespacePrefix)
  let response ← .command (.zrange key start (start+count-1))
  let members ← .lift (catalogMembers response)
  .lift (members.mapM decodeMember)

def Storage.readResponses : List (List Str × Str) → List Answer →
    Except StorageError (List (Option (Item T)))
  | locator::locators, response::responses => do
    let item ← σ.expectItem "FerricStore LangGraph item/catalog mismatch" locator response
    let items ← Storage.readResponses locators responses
    .ok (item::items)
  | _, _ => .ok []

/-- `_read_catalog_items`. -/
def Storage.readCatalogItems (locators : List (List Str × Str)) :
    StorePlan (List (Option (Item T))) :=
  if locators = [] then pure []
  else do
    let commands ← .lift (locators.mapM σ.itemCommand)
    let responses ← .batch commands
    let responses ← .lift (batchItems locators.length responses)
    .lift (σ.readResponses locators responses)

/-- `_get`. -/
def Storage.get (op : GetOp) : StorePlan (Option (Item T)) := do
  let command ← .lift (σ.itemCommand (op.namespace_, op.key))
  let value ← .command command
  .lift (σ.expectItem "FerricStore LangGraph item key mismatch" (op.namespace_, op.key) value)

/-- The items of a page in turn; a visit that returns `true` ends the search. -/
def visitItems {ρ : Type} (visit : ρ → Item T → Except StorageError (Bool × ρ)) :
    List (Option (Item T)) → ρ → Except StorageError (Bool × ρ)
  | [], found => .ok (false, found)
  | none::items, found => visitItems visit items found
  | some item::items, found => do
    let (full, found) ← visit found item
    if full then .ok (true, found) else visitItems visit items found

/-- The loop of `_search` and `_list_namespaces` over the pages of a catalog. -/
def Storage.scanCatalog {ρ : Type} (visit : ρ → Item T → Except StorageError (Bool × ρ))
    (namespacePrefix : List Str) : ℕ → ℕ → ρ → StorePlan ρ
  | 0, _, _ => .lift (.error .unfinished)
  | fuel+1, start, found => do
    let locators ← σ.catalogPage namespacePrefix start σ.scanCount
    if locators = [] then pure found
    else
      let items ← σ.readCatalogItems locators
      let (full, found) ← .lift (visitItems visit items found)
      if full ∨ locators.length < σ.scanCount then pure found
      else Storage.scanCatalog visit namespacePrefix fuel (start+locators.length) found

/-- The results so far and the matches that were skipped. -/
structure Found (ρ : Type) where
  results : List ρ
  matched : ℕ

def Found.add {ρ : Type} (limit offset : ℤ) (found : Found ρ) (result : ρ) : Bool × Found ρ :=
  if found.matched < offset then (false, { found with matched := found.matched+1 })
  else ((found.results.length+1 : ℤ) = limit, { found with results := found.results++[result] })

def visitMatch (op : SearchOp) (found : Found (Item T)) (item : Item T) :
    Except StorageError (Bool × Found (Item T)) := do
  let accepted ← op.accepts item.value
  if accepted then .ok (found.add op.limit op.offset item) else .ok (false, found)

/-- `_search`. -/
def Storage.search (fuel : ℕ) (op : SearchOp) : StorePlan (List (Item T)) :=
  if op.limit ≤ 0 then pure []
  else do
    let found ← σ.scanCatalog (visitMatch op) op.namespacePrefix fuel 0 ⟨[], 0⟩
    pure found.results

def wildcard : Str := lit "*"

/-- `_matches_namespace`. -/
def matchesNamespace (condition : MatchCondition) (namespace_ : List Str) :
    Except StorageError Bool :=
  if namespace_.length < condition.path.length then .ok false
  else match condition.matchType with
    | .prefixed => .ok ((namespace_.zip condition.path).all fun p => p.2 = wildcard ∨ p.1 = p.2)
    | .suffixed => .ok ((namespace_.reverse.zip condition.path.reverse).all
      fun p => p.2 = wildcard ∨ p.1 = p.2)
    | .other name => .error (valueError ("Unsupported namespace match type: "++name))

def matchesAll (namespace_ : List Str) : List MatchCondition → Except StorageError Bool
  | [] => .ok true
  | condition::conditions => do
    let matched ← matchesNamespace condition namespace_
    if matched then matchesAll namespace_ conditions else .ok false

/-- `_catalog_prefix`: the first of the longest prefixes without a wildcard. -/
def catalogPrefix (op : ListNamespacesOp) : List Str :=
  op.matchConditions.foldl (fun longest condition =>
    match condition.matchType with
    | .prefixed => if wildcard ∉ condition.path ∧ longest.length < condition.path.length
      then condition.path else longest
    | _ => longest) []

/-- `namespace[:max_depth]`. -/
def truncated (maxDepth : Option ℤ) (namespace_ : List Str) : List Str :=
  match maxDepth with
  | none => namespace_
  | some depth => namespace_.take (if depth < 0 then depth+namespace_.length else depth).toNat

/-- The namespaces found and the last one selected. -/
structure Listed where
  found : Found (List Str)
  last : Option (List Str)

def visitNamespace (op : ListNamespacesOp) (listed : Listed) (item : Item T) :
    Except StorageError (Bool × Listed) := do
  let matched ← matchesAll item.namespace_ op.matchConditions
  if !matched then .ok (false, listed)
  else
    let selected := truncated op.maxDepth item.namespace_
    if listed.last = some selected then .ok (false, listed)
    else
      let added := listed.found.add op.limit op.offset selected
      .ok (added.1, ⟨added.2, some selected⟩)

/-- `_list_namespaces`. -/
def Storage.listNamespaces (fuel : ℕ) (op : ListNamespacesOp) : StorePlan (List (List Str)) :=
  if op.limit ≤ 0 then pure []
  else do
    let listed ← σ.scanCatalog (visitNamespace op) (catalogPrefix op) fuel 0 ⟨⟨[], 0⟩, none⟩
    pure listed.found.results

end Reading

end FerricStore.MemoryStore
