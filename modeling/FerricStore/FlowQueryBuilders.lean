import FerricStore.FlowQueryFaithful

/-!
# Convenience query builders

The list, search, terminal, lineage and stuck queries are built without the query builder:
predicates are appended as text beside their parameters, and metadata predicates are numbered
after their names are sorted. The mappings given for attributes and state metadata have an
order of their own, which no outcome depends on.
-/

set_option autoImplicit false

namespace FerricStore.FlowQueries
open FerricStore.Text FerricStore.Dict FerricStore.TokenScanner

/-! ### Collection queries -/

def maxTime : ℤ := 9007199254740991
def maxStateNameBytes : ℕ := 64

/-- The entries of a mapping argument, in its order. -/
abbrev Mapping := List (Key × Value)

/-- `_FlowCollectionQuery`; `partition_key` is kept in the parameters only. -/
structure FlowCollectionQuery where
  limit : ℕ
  reverse : Bool
  orderField : Builtin := .updatedAtMs
  predicates : List Str
  params : Dict Str Value

namespace FlowCollectionQuery

variable (b : FlowCollectionQuery)

def remainingPredicates : ℤ := maxPredicates-b.predicates.length

def ensurePredicateCapacity (additional : ℤ) : Except QueryError Unit :=
  if b.remainingPredicates < additional then atMost maxPredicates " predicates" else .ok ()

/-- The length of a field value before and after its encoding. -/
def checkFieldValue (size : Value → ℕ) (v : Value) : Except QueryError Unit :=
  if maxFieldValueBytes < size v then
    .error (.value [.text "FLOW.QUERY field values must not exceed ", .number maxFieldValueBytes,
      .text " bytes"])
  else .ok ()

def valueLength : Value → ℕ
  | .str s => s.length
  | .bytes b => b.length
  | _ => 0

def valueBytes : Value → ℕ
  | .str s => (utf8 s).length
  | .bytes b => b.length
  | _ => 0

def equality (selector parameter : Str) (v : Value) : Except QueryError FlowCollectionQuery := do
  b.ensurePredicateCapacity 1
  checkFieldValue valueLength v
  let normalized ← normalizeFlowQueryParameter parameter v
  checkFieldValue valueBytes normalized
  .ok { b with
    params := set b.params parameter normalized
    predicates := b.predicates++[selector++lit " = "++placeholder parameter] }

end FlowCollectionQuery

def boundedTime (n : ℤ) (name : String) : Except QueryError ℤ :=
  if 0 ≤ n ∧ n ≤ maxTime then .ok n
  else .error (.value [.text name, .text " must be between 0 and ", .number maxTime.toNat])

def optionalTime (n : Option ℤ) (default : ℤ) (name : String) : Except QueryError ℤ :=
  match n with
  | none => .ok default
  | some n => boundedTime n name

def requiredText (s : Str) (name : String) : Except QueryError Str :=
  if s = [] then .error (.value [.text name, .text " must be a non-empty string"]) else .ok s

def normalizedSegment (context : String) (maximumBytes : ℕ) (rejectReserved : Bool) :
    Key → Except QueryError Str
  | .str s => normalizeFlowSelectorSegment s context maximumBytes rejectReserved
  | _ => .error (.type [.text "Flow query ", .text context, .text " must be text"])

/-- `_normalized_metadata_name`. -/
def normalizedMetadataName (context : String) : Key → Except QueryError Str :=
  normalizedSegment (context++" metadata key") maxMetadataNameBytes true

/-- `_normalized_state_name`. -/
def normalizedStateName : Key → Except QueryError Str :=
  normalizedSegment "state_meta state name" maxStateNameBytes false

/-- The loop of `_metadata_entries`; a mapping has as many entries as its length says. -/
def metadataNames (context : String) :
    Mapping → List (Str × Value) → Except QueryError (List (Str × Value))
  | [], entries => .ok entries
  | (rawName, v)::rest, entries => do
    let name ← normalizedMetadataName context rawName
    if name ∈ entries.map Prod.fst then
      .error (.value [.text context, .text " key is duplicated after normalization"])
    else metadataNames context rest (entries++[(name, v)])

/-- `_metadata_entries`. -/
def metadataEntries (context : String) (values : Mapping) (maximum : ℤ) :
    Except QueryError (List (Str × Value)) := do
  if maximum < values.length then atMost maxPredicates " predicates"
  let entries ← metadataNames context values []
  .ok (entries.mergeSort fun a b => a.1 ≤ b.1)

/-- The loop of `state_metadata`. -/
def stateEntries (remaining : ℤ) : Mapping → List Str → List ((Str × Str) × Value) →
    Except QueryError (List ((Str × Str) × Value))
  | [], _, entries => .ok entries
  | (rawState, metadata)::rest, states, entries => do
    let state ← normalizedStateName rawState
    if state ∈ states then valueError "state_meta state is duplicated after normalization"
    else match metadata with
      | .dict values => do
        let named ← metadataEntries "state_meta" values (remaining-entries.length)
        stateEntries remaining rest (states++[state])
          (entries++named.map fun e => ((state, e.1), e.2))
      | _ => typeError "state_meta must map states to metadata mappings"

/-- The parameter of the predicate with a number. -/
def numbered (root : String) (i : ℕ) : Str := lit root++lit "_"++lit (toString i)

namespace FlowCollectionQuery

/-- One equality after another, numbered from `k`. -/
def equalities (root : String) : ℕ → List (List Str × Value) → FlowCollectionQuery →
    Except QueryError FlowCollectionQuery
  | _, [], b => .ok b
  | k, (segments, v)::rest, b => do
    let b ← b.equality (flowMetadataSelector root segments) (numbered root k) v
    equalities root (k+1) rest b

variable (b : FlowCollectionQuery)

def metadata (root : String) (values : Mapping) : Except QueryError FlowCollectionQuery := do
  let entries ← metadataEntries root values b.remainingPredicates
  equalities root 0 (entries.map fun e => ([e.1], e.2)) b

/-- The order of entries by state and name. -/
def entryLe (a b : (Str × Str) × Value) : Bool :=
  a.1.1 < b.1.1 ∨ a.1.1 = b.1.1 ∧ a.1.2 ≤ b.1.2

def stateMetadata (values : Mapping) : Except QueryError FlowCollectionQuery := do
  let entries ← stateEntries b.remainingPredicates values [] []
  equalities "state_meta" 0 ((entries.mergeSort entryLe).map fun e => ([e.1.1, e.1.2], e.2)) b

/-- A range over two parameters. -/
def between (field lower upper : String) (low high : ℤ) : FlowCollectionQuery :=
  { b with
    predicates := b.predicates++[lit field++lit " BETWEEN "++placeholder (lit lower)++lit " AND "++
      placeholder (lit upper)]
    params := set (set b.params (lit lower) (.int low)) (lit upper) (.int high) }

def window (fromMs toMs : Option ℤ) : Except QueryError FlowCollectionQuery :=
  if fromMs = none ∧ toMs = none then .ok b
  else do
    b.ensurePredicateCapacity 1
    let lower ← optionalTime fromMs 0 "from_ms"
    let upper ← optionalTime toMs maxTime "to_ms"
    if upper < lower then valueError "from_ms must not exceed to_ms"
    else .ok (b.between "updated_at_ms" "from_ms" "to_ms" lower upper)

def build : Except QueryError (Str × Dict Str Value) := do
  b.ensurePredicateCapacity 0
  let direction : Direction := if b.reverse then .desc else .asc
  let query := lit "FROM runs WHERE "++(lit " AND ").intercalate b.predicates++lit " ORDER BY "++
    lit b.orderField.name++lit " "++lit direction.name++lit " LIMIT "++lit (toString b.limit)++
    lit " RETURN RECORDS"
  validateFlowQueryText query
  .ok (query, b.params)

end FlowCollectionQuery

/-! ### The builders -/

/-- The options every builder takes. -/
structure Scope where
  partitionKey : Value
  count : Option ℤ := none
  rev : Option Bool := none
  includeCold : Option Bool := none
  consistentProjection : Option Bool := none

structure Window where
  fromMs : Option ℤ := none
  toMs : Option ℤ := none

/-- `_required_partition`. -/
def requiredPartition : Value → Except QueryError Value
  | .str s =>
    if maxPartitionBytes < s.length then size
    else match encode s with
      | none => valueError "partition_key must be valid UTF-8"
      | some encoded =>
        if encoded.length = 0 ∨ maxPartitionBytes < encoded.length then size else .ok (.str s)
  | .bytes b => if b.length = 0 ∨ maxPartitionBytes < b.length then size else .ok (.bytes b)
  | _ => valueError "FLOW.QUERY convenience methods require partition_key"
where
  size : Except QueryError Value := .error (.value [.text "partition_key must be 1..",
    .number maxPartitionBytes, .text " bytes"])

/-- `_bounded_count` and its default. -/
def boundedCount : Option ℤ → Except QueryError ℕ
  | none => .ok maxResults
  | some n =>
    if 1 ≤ n ∧ n ≤ maxResults then .ok n.toNat
    else .error (.value [.text "count must be between 1 and ", .number maxResults])

/-- `_builder`. -/
def builder (s : Scope) : Except QueryError FlowCollectionQuery := do
  let partition ← requiredPartition s.partitionKey
  let limit ← boundedCount s.count
  if s.includeCold = some true then valueError "FLOW.QUERY does not expose include_cold"
  else if s.consistentProjection = some true then
    valueError "FLOW.QUERY does not expose consistent_projection"
  else .ok {
    limit := limit
    reverse := s.rev.getD false
    predicates := [lit "partition_key"++lit " = "++placeholder (lit "partition_key")]
    params := [(lit "partition_key", partition)] }

/-- `_add_type`. -/
def addType (b : FlowCollectionQuery) (flowType : Str) : Except QueryError FlowCollectionQuery := do
  let flowType ← requiredText flowType "flow type"
  if flowType ≠ lit "any" then b.equality (lit "type") (lit "type") (.str flowType) else .ok b

def equalState (b : FlowCollectionQuery) (state : Str) : Except QueryError FlowCollectionQuery := do
  let state ← requiredText state "state"
  b.equality (lit "state") (lit "state") (.str state)

/-- `state in {None, "", "any"}`. -/
def anyState (state : Option Str) : Bool :=
  state = none ∨ state = some [] ∨ state = some (lit "any")

def terminalStates : List String := ["completed", "failed", "cancelled"]

def terminalNames : List String := ["terminal_0", "terminal_1", "terminal_2"]

/-- `_add_terminal_state`. -/
def addTerminalState (b : FlowCollectionQuery) (state : Option Str) :
    Except QueryError FlowCollectionQuery :=
  if anyState state then
    .ok { b with
      predicates := b.predicates++[lit "state"++lit " IN ("++
        (lit ", ").intercalate (terminalNames.map fun n => placeholder (lit n))++lit ")"]
      params := (terminalNames.zip terminalStates).foldl
        (fun params e => set params (lit e.1) (.str (lit e.2))) b.params }
  else match state with
    | some s =>
      if s ∈ terminalStates.map lit then b.equality (lit "state") (lit "state") (.str s)
      else valueError "terminal state must be completed, failed, cancelled, or any"
    | none => .ok b

/-- `_add_search_state`. -/
def addSearchState (b : FlowCollectionQuery) (state : Option Str) (terminalOnly : Option Bool) :
    Except QueryError FlowCollectionQuery :=
  if terminalOnly = some true then addTerminalState b state
  else if anyState state then .ok b
  else equalState b (state.getD [])

def isMapping : Value → Bool
  | .dict _ => true
  | _ => false

/-- `not value_is_nested or value`. -/
def keepsEntry : Value → Bool
  | .dict entries => !entries.isEmpty
  | _ => true

/-- `_normalize_state_meta`. -/
def normalizeStateMeta (stateMeta : Option Mapping) (state : Option Str) :
    Except QueryError Mapping :=
  match stateMeta.getD [] with
  | [] => .ok []
  | e::rest =>
    let entries := e::rest
    if maxPredicates < entries.length then atMost maxPredicates " predicates"
    else if entries.any fun other => isMapping other.2 ≠ isMapping e.2 then
      typeError "state_meta cannot mix nested and flat values"
    else
      let filtered := entries.filter fun entry => keepsEntry entry.2
      if isMapping e.2 then
        if filtered = [] then valueError "state_meta must contain at least one metadata predicate"
        else .ok filtered
      else if anyState state then valueError "flat state_meta requires a concrete state"
      else do
        let state ← requiredText (state.getD []) "state"
        .ok [(.str state, .dict filtered)]

/-- The builders with the arguments that are not mappings. -/
inductive Kind where
  | list (flowType : Str) (scope : Scope) (state : Option Str) (window : Window)
  | search (flowType : Str) (scope : Scope) (state : Option Str) (window : Window)
    (terminalOnly : Option Bool)
  | terminal (flowType : Str) (scope : Scope) (state : Option Str) (window : Window)
  | failure (flowType : Str) (scope : Scope) (window : Window)
  | lineage (selector identifier : Str) (scope : Scope) (state : Option Str) (window : Window)
    (terminalOnly : Option Bool)
  | stuck (flowType : Str) (partitionKey : Value) (count olderThanMs nowMs : Option ℤ)

structure Call where
  kind : Kind
  attributes : Option Mapping := none
  stateMeta : Option Mapping := none

/-- `build_flow_list_query`. -/
def buildFlowListQuery (flowType : Str) (scope : Scope) (state : Option Str) (window : Window)
    (attributes : Option Mapping) : Except QueryError (Str × Dict Str Value) := do
  if flowType = lit "any" ∧ attributes.getD [] = [] then
    valueError "FLOW.QUERY list requires a concrete flow type or an attribute predicate"
  else if state = some (lit "any") ∧ attributes.getD [] = [] then
    valueError "FLOW.QUERY list state any requires an attribute predicate"
  else do
    let b ← builder scope
    let b ← addType b flowType
    let b ← (match state with
      | none => b.equality (lit "state") (lit "state") (.str (lit "queued"))
      | some s => if s ≠ lit "any" then equalState b s else .ok b)
    let b ← b.metadata "attribute" (attributes.getD [])
    let b ← b.window window.fromMs window.toMs
    b.build

/-- `build_flow_search_query`. -/
def buildFlowSearchQuery (flowType : Str) (scope : Scope) (state : Option Str) (window : Window)
    (terminalOnly : Option Bool) (attributes stateMeta : Option Mapping) :
    Except QueryError (Str × Dict Str Value) := do
  let normalized ← normalizeStateMeta stateMeta state
  if attributes.getD [] = [] ∧ normalized = [] then
    valueError "FLOW.QUERY search requires an attribute or state_meta predicate"
  else if (flowType = [] ∨ flowType = lit "any") ∧ normalized ≠ [] then
    valueError "FLOW.QUERY state_meta predicates require a concrete flow type"
  else do
    let b ← builder scope
    let b ← (if flowType = [] ∨ flowType = lit "any" then .ok b
      else b.equality (lit "type") (lit "type") (.str flowType))
    let b ← addSearchState b state terminalOnly
    let b ← b.metadata "attribute" (attributes.getD [])
    let b ← b.stateMetadata normalized
    let b ← b.window window.fromMs window.toMs
    b.build

/-- `build_flow_terminal_query`. -/
def buildFlowTerminalQuery (flowType : Str) (scope : Scope) (state : Option Str)
    (window : Window) : Except QueryError (Str × Dict Str Value) := do
  let b ← builder scope
  let flowType ← requiredText flowType "flow type"
  if flowType = lit "any" then valueError "FLOW.QUERY terminals require a concrete flow type"
  else do
    let b ← addType b flowType
    let b ← addTerminalState b state
    let b ← b.window window.fromMs window.toMs
    b.build

/-- `build_flow_failure_query`. -/
def buildFlowFailureQuery (flowType : Str) (scope : Scope) (window : Window) :
    Except QueryError (Str × Dict Str Value) :=
  buildFlowListQuery flowType scope (some (lit "failed")) window none

def lineageSelectors : List Builtin := [.parentFlowId, .rootFlowId, .correlationId]

/-- `build_flow_lineage_query`. -/
def buildFlowLineageQuery (selector identifier : Str) (scope : Scope) (state : Option Str)
    (window : Window) (terminalOnly : Option Bool) (attributes : Option Mapping) :
    Except QueryError (Str × Dict Str Value) := do
  if selector ∉ lineageSelectors.map fun f => lit f.name then
    valueError "lineage selector must be parent_flow_id, root_flow_id, or correlation_id"
  else if terminalOnly = some true then
    valueError "terminal_only cannot be combined with a lineage query"
  else if attributes.getD [] ≠ [] then
    valueError "FLOW.QUERY lineage does not support attribute predicates"
  else do
    let b ← builder scope
    let identifier ← requiredText identifier "lineage id"
    let b ← b.equality selector (lit "lineage_id") (.str identifier)
    let b ← (match state with
      | none => .ok b
      | some s => if s ≠ lit "any" then equalState b s else .ok b)
    let b ← b.metadata "attribute" (attributes.getD [])
    let b ← b.window window.fromMs window.toMs
    b.build

/-- `build_flow_stuck_query`; the clock is read when `now_ms` is not given. -/
def buildFlowStuckQuery (clock : ℤ) (flowType : Str) (partitionKey : Value)
    (count olderThanMs nowMs : Option ℤ) : Except QueryError (Str × Dict Str Value) := do
  let flowType ← requiredText flowType "flow type"
  if flowType = lit "any" then valueError "FLOW.QUERY stuck requires a concrete flow type"
  else do
    let now ← optionalTime nowMs clock "now_ms"
    let older ← optionalTime olderThanMs 0 "older_than_ms"
    if now-older < 0 then valueError "older_than_ms must not exceed now_ms"
    else do
      let b ← builder { partitionKey := partitionKey, count := count, rev := some false }
      let b : FlowCollectionQuery := { b with orderField := .leaseDeadlineMs }
      let b ← b.equality (lit "type") (lit "type") (.str flowType)
      let b ← b.equality (lit "state") (lit "state") (.str (lit "running"))
      (b.between "lease_deadline_ms" "lease_from_ms" "lease_to_ms" 0 (now-older)).build

def Call.build (clock : ℤ) (c : Call) : Except QueryError (Str × Dict Str Value) :=
  match c.kind with
  | .list flowType scope state window => buildFlowListQuery flowType scope state window c.attributes
  | .search flowType scope state window terminalOnly =>
    buildFlowSearchQuery flowType scope state window terminalOnly c.attributes c.stateMeta
  | .terminal flowType scope state window => buildFlowTerminalQuery flowType scope state window
  | .failure flowType scope window => buildFlowFailureQuery flowType scope window
  | .lineage selector identifier scope state window terminalOnly =>
    buildFlowLineageQuery selector identifier scope state window terminalOnly c.attributes
  | .stuck flowType partitionKey count olderThanMs nowMs =>
    buildFlowStuckQuery clock flowType partitionKey count olderThanMs nowMs

/-! ### The order of the mappings -/

section Sorting

variable {α : Type} {le : α → α → Bool}

/-- Sorting forgets the order of what no two of which compare equal. -/
theorem mergeSort_perm_eq (htrans : ∀ a b c, le a b = true → le b c = true → le a c = true)
    (htotal : ∀ a b, (le a b || le b a) = true) {xs ys : List α} (hperm : xs.Perm ys)
    (hanti : ∀ a ∈ xs, ∀ b ∈ xs, le a b = true → le b a = true → a = b) :
    xs.mergeSort le = ys.mergeSort le := by
  have hsorted := ((xs.mergeSort_perm le).trans hperm).trans (ys.mergeSort_perm le).symm
  refine hsorted.eq_of_pairwise ?_
    (List.pairwise_mergeSort htrans htotal xs) (List.pairwise_mergeSort htrans htotal ys)
  intro a b ha hb
  rw [List.mem_mergeSort] at ha hb
  exact hanti a ha b (hperm.mem_iff.mpr hb)

end Sorting

theorem nameLe_trans (a b c : Str × Value) (hab : decide (a.1 ≤ b.1) = true)
    (hbc : decide (b.1 ≤ c.1) = true) : decide (a.1 ≤ c.1) = true := by
  rw [decide_eq_true_iff] at *
  exact hab.trans hbc

theorem nameLe_total (a b : Str × Value) : (decide (a.1 ≤ b.1) || decide (b.1 ≤ a.1)) = true := by
  simpa using le_total a.1 b.1

theorem entryLe_iff {a b : (Str × Str) × Value} :
    FlowCollectionQuery.entryLe a b = true ↔ toLex a.1 ≤ toLex b.1 := by
  rw [Prod.Lex.le_iff]
  simp [FlowCollectionQuery.entryLe]

section Outcomes

variable {α β : Type}

/-- Both succeed with related results, or both fail. -/
def Agree (R : α → α → Prop) : Except QueryError α → Except QueryError α → Prop
  | .ok a, .ok b => R a b
  | .error _, .error _ => True
  | _, _ => False

theorem Agree.refl (x : Except QueryError α) : Agree Eq x x := by
  cases x with
  | error e => trivial
  | ok a => exact rfl

theorem Agree.toOption {x y : Except QueryError α} (h : Agree Eq x y) :
    x.toOption = y.toOption := by
  cases x <;> cases y <;> simp_all [Agree, Except.toOption]

theorem Agree.bind {R : α → α → Prop} {S : β → β → Prop} {x y : Except QueryError α}
    {f g : α → Except QueryError β} (h : Agree R x y) (hfg : ∀ a b, R a b → Agree S (f a) (g b)) :
    Agree S (x >>= f) (y >>= g) := by
  cases x with
  | error e =>
    cases y with
    | error e' => trivial
    | ok b => exact h.elim
  | ok a =>
    cases y with
    | error e => exact h.elim
    | ok b => exact hfg a b h

/-- The same first step, and outcomes that agree after it. -/
theorem Agree.after {S : β → β → Prop} (x : Except QueryError α) {f g : α → Except QueryError β}
    (hfg : ∀ a, Agree S (f a) (g a)) : Agree S (x >>= f) (x >>= g) :=
  (Agree.refl x).bind fun a _ h => h ▸ hfg a

theorem agree_of_ok {R : α → α → Prop} {x y : Except QueryError α}
    (hxy : ∀ a, x = .ok a → ∃ b, y = .ok b ∧ R a b) (hyx : ∀ b, y = .ok b → ∃ a, x = .ok a) :
    Agree R x y := by
  cases x with
  | ok a =>
    obtain ⟨b, rfl, hab⟩ := hxy a rfl
    exact hab
  | error e =>
    cases y with
    | error e' => trivial
    | ok b =>
      obtain ⟨a, ha⟩ := hyx b rfl
      cases ha

end Outcomes

/-- An entry under its normalised name. -/
def NamedAs (context : String) (e : Key × Value) (o : Str × Value) : Prop :=
  normalizedMetadataName context e.1 = .ok o.1 ∧ e.2 = o.2

theorem metadataNames_ok {context : String} {values : Mapping} {entries out : List (Str × Value)}
    (h : (entries.map Prod.fst).Nodup) : metadataNames context values entries = .ok out ↔
      ∃ named, List.Forall₂ (NamedAs context) values named ∧ out = entries++named ∧
        (out.map Prod.fst).Nodup := by
  induction values generalizing entries with
  | nil =>
    rw [metadataNames]
    constructor
    · rintro ⟨⟩
      exact ⟨[], .nil, by simp, h⟩
    · rintro ⟨named, hnamed, rfl, -⟩
      cases hnamed
      rw [List.append_nil]
  | cons e values ih =>
    obtain ⟨rawName, v⟩ := e
    rw [metadataNames, bind_eq_ok]
    constructor
    · rintro ⟨name, hname, hrest⟩
      by_cases hmem : name ∈ entries.map Prod.fst
      · rw [if_pos hmem] at hrest
        cases hrest
      · rw [if_neg hmem] at hrest
        have hnodup : ((entries++[(name, v)]).map Prod.fst).Nodup := by
          rw [List.map_append, List.nodup_append]
          refine ⟨h, List.nodup_singleton _, fun w hw x hx heq => hmem ?_⟩
          obtain rfl : x = name := by simpa using hx
          exact heq ▸ hw
        obtain ⟨named, hnamed, rfl, hall⟩ := (ih hnodup).mp hrest
        exact ⟨(name, v)::named, .cons ⟨hname, rfl⟩ hnamed, by simp, hall⟩
    · rintro ⟨named, hnamed, rfl, hall⟩
      cases hnamed with
      | @cons _ o _ named hhead htail =>
        obtain ⟨name, w⟩ := o
        obtain ⟨hname, rfl⟩ := hhead
        have hfirst : ((entries++[(name, v)]).map Prod.fst).Nodup := by
          refine hall.sublist (List.Sublist.map _ ?_)
          simp
        have hmem : name ∉ entries.map Prod.fst := by
          rw [List.map_append, List.nodup_append] at hfirst
          exact fun hmem => hfirst.2.2 _ hmem name (by simp) rfl
        refine ⟨name, hname, ?_⟩
        rw [if_neg hmem]
        exact (ih hfirst).mpr ⟨named, htail, by simp, hall⟩

theorem metadataNames_nil {context : String} {values : Mapping} {out : List (Str × Value)} :
    metadataNames context values [] = .ok out ↔
      ∃ named, List.Forall₂ (NamedAs context) values named ∧ out = named ∧
        (named.map Prod.fst).Nodup := by
  refine (@metadataNames_ok context values [] out List.nodup_nil).trans ?_
  constructor
  · rintro ⟨named, hnamed, rfl, hall⟩
    exact ⟨_, hnamed, rfl, hall⟩
  · rintro ⟨named, hnamed, rfl, hall⟩
    exact ⟨_, hnamed, rfl, hall⟩

theorem metadataEntries_ok {context : String} {values : Mapping} {maximum : ℤ}
    {out : List (Str × Value)} : metadataEntries context values maximum = .ok out ↔
      values.length ≤ maximum ∧ ∃ named, List.Forall₂ (NamedAs context) values named ∧
        (named.map Prod.fst).Nodup ∧ out = named.mergeSort fun a b => a.1 ≤ b.1 := by
  unfold metadataEntries
  by_cases hmax : maximum < values.length
  · simp only [if_pos hmax]
    exact ⟨fun h => (by cases h), fun h => absurd h.1 (by omega)⟩
  · simp only [if_neg hmax]
    show (metadataNames context values [] >>= _) = _ ↔ _
    rw [bind_eq_ok]
    constructor
    · rintro ⟨entries, hentries, hout⟩
      cases hout
      obtain ⟨named, hnamed, heq, hall⟩ := metadataNames_nil.mp hentries
      exact ⟨by omega, named, hnamed, hall, by rw [heq]⟩
    · rintro ⟨-, named, hnamed, hall, rfl⟩
      exact ⟨named, metadataNames_nil.mpr ⟨named, hnamed, rfl, hall⟩, rfl⟩

/-- Sorting by name forgets the order of entries of different names. -/
theorem sortNames_perm {xs ys : List (Str × Value)} (hperm : xs.Perm ys)
    (hnodup : (xs.map Prod.fst).Nodup) :
    xs.mergeSort (fun a b => decide (a.1 ≤ b.1)) = ys.mergeSort fun a b => a.1 ≤ b.1 := by
  refine mergeSort_perm_eq nameLe_trans nameLe_total hperm fun a ha b hb hab hba => ?_
  rw [decide_eq_true_iff] at hab hba
  exact List.inj_on_of_nodup_map hnodup ha hb (le_antisymm hab hba)

theorem metadataEntries_perm {context : String} {values values' : Mapping} {maximum : ℤ}
    {out : List (Str × Value)} (hperm : values.Perm values')
    (h : metadataEntries context values maximum = .ok out) :
    metadataEntries context values' maximum = .ok out := by
  obtain ⟨hmax, named, hnamed, hnodup, rfl⟩ := metadataEntries_ok.mp h
  obtain ⟨named', hnamed', hperm'⟩ := List.perm_comp_forall₂ hperm.symm hnamed
  rw [metadataEntries_ok]
  exact ⟨by rwa [← hperm.length_eq], named', hnamed', (hperm'.map _).nodup_iff.mpr hnodup,
    sortNames_perm hperm'.symm hnodup⟩

/-- A state under its normalised name, with its entries sorted. -/
def GroupedAs (e : Key × Value) (g : Str × List (Str × Value)) : Prop :=
  normalizedStateName e.1 = .ok g.1 ∧
    ∃ values, e.2 = .dict values ∧ metadataEntries "state_meta" values values.length = .ok g.2

/-- The entries of all states. -/
def flatten (groups : List (Str × List (Str × Value))) : List ((Str × Str) × Value) :=
  groups.flatMap fun g => g.2.map fun e => ((g.1, e.1), e.2)

/-- The limit only matters against the number of entries. -/
theorem metadataEntries_limit {context : String} {values : Mapping} {maximum : ℤ}
    {out : List (Str × Value)} : metadataEntries context values maximum = .ok out ↔
      values.length ≤ maximum ∧ metadataEntries context values values.length = .ok out := by
  rw [metadataEntries_ok, metadataEntries_ok]
  simp

theorem metadataEntries_length {context : String} {values : Mapping} {maximum : ℤ}
    {out : List (Str × Value)} (h : metadataEntries context values maximum = .ok out) :
    out.length = values.length := by
  obtain ⟨-, named, hnamed, -, rfl⟩ := metadataEntries_ok.mp h
  rw [List.length_mergeSort, hnamed.length_eq]

theorem stateEntries_ok {remaining : ℤ} {values : Mapping} {states : List Str}
    {entries out : List ((Str × Str) × Value)} (h : states.Nodup) :
    stateEntries remaining values states entries = .ok out ↔
      ∃ groups, List.Forall₂ GroupedAs values groups ∧ (states++groups.map Prod.fst).Nodup ∧
        out = entries++flatten groups ∧ (values = [] ∨ (out.length : ℤ) ≤ remaining) := by
  induction values generalizing states entries with
  | nil =>
    rw [stateEntries]
    constructor
    · rintro ⟨⟩
      exact ⟨[], .nil, by simpa using h, by simp [flatten], .inl rfl⟩
    · rintro ⟨groups, hgroups, -, rfl, -⟩
      cases hgroups
      simp [flatten]
  | cons e values ih =>
    obtain ⟨rawState, metadata⟩ := e
    rw [stateEntries, bind_eq_ok]
    constructor
    · rintro ⟨state, hstate, hrest⟩
      by_cases hmem : state ∈ states
      · rw [if_pos hmem] at hrest
        cases hrest
      · rw [if_neg hmem] at hrest
        cases metadata with
        | dict inner =>
          obtain ⟨named, hnamed, hrest⟩ := bind_eq_ok.mp hrest
          have hnodup : (states++[state]).Nodup := by
            simpa [List.nodup_append] using ⟨h, fun s hs heq => hmem (heq ▸ hs)⟩
          obtain ⟨groups, hgroups, hall, rfl, hlimit⟩ := (ih hnodup).mp hrest
          obtain ⟨hmax, hsorted⟩ := metadataEntries_limit.mp hnamed
          refine ⟨(state, named)::groups, .cons ⟨hstate, inner, rfl, hsorted⟩ hgroups,
            by simpa using hall, by simp [flatten], .inr ?_⟩
          rcases hlimit with rfl | hlimit
          · cases hgroups
            have hlen := metadataEntries_length hnamed
            simp only [flatten, List.flatMap_nil, List.append_nil, List.length_append,
              List.length_map]
            omega
          · exact hlimit
        | _ => cases hrest
    · rintro ⟨groups, hgroups, hall, rfl, hlimit⟩
      cases hgroups with
      | @cons _ g _ groups hhead htail =>
        obtain ⟨state, named⟩ := g
        obtain ⟨hstate, inner, rfl, hsorted⟩ := hhead
        have hfirst : (states++[state]).Nodup := hall.sublist (by simp)
        have hmem : state ∉ states := by
          rw [List.nodup_append] at hfirst
          exact fun hmem => hfirst.2.2 _ hmem state (by simp) rfl
        have hlen := metadataEntries_length hsorted
        have htotal : ((entries++flatten ((state, named)::groups)).length : ℤ) ≤ remaining :=
          hlimit.resolve_left (by simp)
        refine ⟨state, hstate, ?_⟩
        rw [if_neg hmem]
        refine bind_eq_ok.mpr ⟨named, metadataEntries_limit.mpr ⟨?_, hsorted⟩, ?_⟩
        · simp only [flatten, List.flatMap_cons, List.length_append, List.length_map] at htotal hlen
          omega
        · exact (ih hfirst).mpr ⟨groups, htail, by simpa using hall, by simp [flatten], .inr htotal⟩

/-! ### Reordered mappings -/

/-- The same entry, an inner mapping in another order. -/
def SameEntry (e e' : Key × Value) : Prop :=
  e.1 = e'.1 ∧ (e.2 = e'.2 ∨ ∃ inner inner', e.2 = .dict inner ∧ e'.2 = .dict inner' ∧
    inner.Perm inner')

/-- The same mapping, its entries and its inner mappings in another order. -/
def Mapping.Reordered (m m' : Mapping) : Prop := ∃ k, m.Perm k ∧ List.Forall₂ SameEntry k m'

structure Call.Reordered (c c' : Call) : Prop where
  kind : c.kind = c'.kind
  attributes : Option.Rel List.Perm c.attributes c'.attributes
  stateMeta : Option.Rel Mapping.Reordered c.stateMeta c'.stateMeta

theorem SameEntry.symm {e e' : Key × Value} (h : SameEntry e e') : SameEntry e' e := by
  obtain ⟨hkey, heq | ⟨inner, inner', he, he', hperm⟩⟩ := h
  · exact ⟨hkey.symm, .inl heq.symm⟩
  · exact ⟨hkey.symm, .inr ⟨inner', inner, he', he, hperm.symm⟩⟩

theorem Mapping.Reordered.symm {m m' : Mapping} (h : m.Reordered m') : Mapping.Reordered m' m := by
  obtain ⟨k, hperm, hsame⟩ := h
  have hback : List.Forall₂ SameEntry m' k := hsame.flip.imp fun _ _ h => SameEntry.symm h
  have hcomp : Relation.Comp (List.Forall₂ SameEntry) List.Perm m' m := ⟨k, hback, hperm.symm⟩
  rw [List.forall₂_comp_perm_eq_perm_comp_forall₂] at hcomp
  exact hcomp

theorem SameEntry.grouped {e e' : Key × Value} {g : Str × List (Str × Value)} (h : SameEntry e e')
    (hg : GroupedAs e g) : GroupedAs e' g := by
  obtain ⟨hstate, values, hvalues, hnamed⟩ := hg
  obtain ⟨hkey, heq | ⟨inner, inner', he, he', hperm⟩⟩ := h
  · exact ⟨hkey ▸ hstate, values, heq ▸ hvalues, hnamed⟩
  · obtain rfl : inner = values := by simpa [he] using hvalues
    refine ⟨hkey ▸ hstate, inner', he', ?_⟩
    rw [← hperm.length_eq]
    exact metadataEntries_perm hperm hnamed

theorem flatten_nodup {groups : List (Str × List (Str × Value))}
    (hstates : (groups.map Prod.fst).Nodup) (hnames : ∀ g ∈ groups, (g.2.map Prod.fst).Nodup) :
    ((flatten groups).map Prod.fst).Nodup := by
  rw [flatten, List.map_flatMap]
  refine List.nodup_flatMap.mpr ⟨fun g hg => ?_, ?_⟩
  · rw [List.map_map]
    have h := (hnames g hg).map (f := fun n => (g.1, n)) fun a b hab => (Prod.mk.inj hab).2
    rwa [List.map_map] at h
  · refine (List.pairwise_map.mp hstates).imp fun {g g'} hne => ?_
    intro x hx hx'
    simp only [List.map_map, List.mem_map, Function.comp_apply] at hx hx'
    obtain ⟨e, -, rfl⟩ := hx
    obtain ⟨e', -, he'⟩ := hx'
    exact hne (Prod.mk.inj he').1.symm

theorem grouped_nodup {values : Mapping} {groups : List (Str × List (Str × Value))}
    (h : List.Forall₂ GroupedAs values groups) : ∀ g ∈ groups, (g.2.map Prod.fst).Nodup := by
  induction h with
  | nil => exact fun g hg => absurd hg List.not_mem_nil
  | cons hhead htail ih =>
    intro g hg
    rcases List.mem_cons.mp hg with rfl | hg
    · obtain ⟨-, inner, -, hnamed⟩ := hhead
      obtain ⟨-, named, -, hnodup, hsorted⟩ := metadataEntries_ok.mp hnamed
      rw [hsorted, ((List.mergeSort_perm _ _).map Prod.fst).nodup_iff]
      exact hnodup
    · exact ih g hg

/-- The sorted entries of state metadata, whatever order it is given in. -/
theorem stateEntries_reordered {remaining : ℤ} {m m' : Mapping} {out : List ((Str × Str) × Value)}
    (hm : m.Reordered m') (h : stateEntries remaining m [] [] = .ok out) :
    ∃ out', stateEntries remaining m' [] [] = .ok out' ∧
      out.mergeSort FlowCollectionQuery.entryLe = out'.mergeSort FlowCollectionQuery.entryLe := by
  obtain ⟨groups, hgroups, hnodup, rfl, hlimit⟩ := (stateEntries_ok List.nodup_nil).mp h
  obtain ⟨k, hperm, hsame⟩ := hm
  obtain ⟨groups', hgroups', hperm'⟩ := List.perm_comp_forall₂ hperm.symm hgroups
  have hlast : List.Forall₂ GroupedAs m' groups' := by
    clear hlimit hperm hperm' hgroups hnodup h
    induction hsame generalizing groups' with
    | nil => exact hgroups'
    | cons hhead htail ih =>
      cases hgroups' with
      | cons hhead' htail' => exact .cons (hhead.grouped hhead') (ih _ htail')
  have hflat : (flatten groups').Perm (flatten groups) := hperm'.flatMap_right _
  refine ⟨flatten groups', (stateEntries_ok List.nodup_nil).mpr ⟨groups', hlast, ?_, rfl, ?_⟩, ?_⟩
  · exact (hperm'.map _).nodup_iff.mpr hnodup
  · have hlen : m.length = m'.length := by rw [hperm.length_eq, hsame.length_eq]
    rcases hlimit with rfl | hlimit
    · exact .inl (List.length_eq_zero_iff.mp hlen.symm)
    · right
      rw [hflat.length_eq]
      exact hlimit
  · have hkeys := flatten_nodup hnodup (grouped_nodup hgroups)
    refine (mergeSort_perm_eq (fun a b c hab hbc => ?_) (fun a b => ?_) hflat.symm ?_)
    · rw [entryLe_iff] at *
      exact hab.trans hbc
    · rw [Bool.or_eq_true, entryLe_iff, entryLe_iff]
      exact le_total _ _
    · intro a ha b hb hab hba
      rw [entryLe_iff] at hab hba
      exact List.inj_on_of_nodup_map hkeys ha hb (toLex_inj.mp (le_antisymm hab hba))

theorem Agree.metadata {b : FlowCollectionQuery} {root : String} {m m' : Mapping} (h : m.Perm m') :
    Agree Eq (b.metadata root m) (b.metadata root m') := by
  refine Agree.bind (R := Eq) (agree_of_ok ?_ ?_) fun _ _ heq => heq ▸ Agree.refl _
  · exact fun out hout => ⟨out, metadataEntries_perm h hout, rfl⟩
  · exact fun out hout => ⟨out, metadataEntries_perm h.symm hout⟩

theorem Agree.stateMetadata {b : FlowCollectionQuery} {m m' : Mapping} (h : m.Reordered m') :
    Agree Eq (b.stateMetadata m) (b.stateMetadata m') := by
  refine Agree.bind (R := fun x y => x.mergeSort FlowCollectionQuery.entryLe =
    y.mergeSort FlowCollectionQuery.entryLe) (agree_of_ok ?_ ?_) fun x y hxy => ?_
  · exact fun out hout => stateEntries_reordered h hout
  · intro out hout
    obtain ⟨out', hout', -⟩ := stateEntries_reordered h.symm hout
    exact ⟨out', hout'⟩
  · rw [hxy]
    exact Agree.refl _

theorem Mapping.Reordered.refl (m : Mapping) : m.Reordered m :=
  ⟨m, .refl m, List.forall₂_same.mpr fun _ _ => ⟨rfl, .inl rfl⟩⟩

theorem Mapping.Reordered.length_eq {m m' : Mapping} (h : m.Reordered m') :
    m.length = m'.length := by
  obtain ⟨k, hperm, hsame⟩ := h
  rw [hperm.length_eq, hsame.length_eq]

theorem Mapping.Reordered.eq_nil {m m' : Mapping} (h : m.Reordered m') : m = [] ↔ m' = [] := by
  rw [← List.length_eq_zero_iff, h.length_eq, List.length_eq_zero_iff]

theorem SameEntry.isMapping {e e' : Key × Value} (h : SameEntry e e') :
    isMapping e.2 = isMapping e'.2 := by
  obtain ⟨-, heq | ⟨inner, inner', he, he', -⟩⟩ := h
  · rw [heq]
  · rw [he, he']
    rfl

theorem SameEntry.keepsEntry {e e' : Key × Value} (h : SameEntry e e') :
    keepsEntry e.2 = keepsEntry e'.2 := by
  obtain ⟨-, heq | ⟨inner, inner', he, he', hperm⟩⟩ := h
  · rw [heq]
  · rw [he, he', FlowQueries.keepsEntry, FlowQueries.keepsEntry, hperm.isEmpty_eq]

theorem Mapping.Reordered.any {m m' : Mapping} (h : m.Reordered m') (p : Bool → Bool) :
    m.any (fun e => p (isMapping e.2)) = m'.any fun e => p (isMapping e.2) := by
  obtain ⟨k, hperm, hsame⟩ := h
  rw [hperm.any_eq]
  clear hperm
  induction hsame with
  | nil => rfl
  | cons hhead htail ih => rw [List.any_cons, List.any_cons, ih, hhead.isMapping]

theorem Mapping.Reordered.filter {m m' : Mapping} (h : m.Reordered m') :
    Mapping.Reordered (m.filter fun e => keepsEntry e.2) (m'.filter fun e => keepsEntry e.2) := by
  obtain ⟨k, hperm, hsame⟩ := h
  refine ⟨k.filter _, hperm.filter _, ?_⟩
  clear hperm
  induction hsame with
  | nil => exact .nil
  | @cons e e' _ _ hhead htail ih =>
    rw [List.filter_cons, List.filter_cons, hhead.keepsEntry]
    split
    · exact .cons hhead ih
    · exact ih

/-- Without inner mappings, only the entries change places. -/
theorem Mapping.Reordered.perm {m m' : Mapping} (h : m.Reordered m')
    (hflat : m.any (fun e => isMapping e.2) = false) : m.Perm m' := by
  obtain ⟨k, hperm, hsame⟩ := h
  rw [hperm.any_eq] at hflat
  suffices heq : k = m' from heq ▸ hperm
  clear hperm
  induction hsame with
  | nil => rfl
  | @cons e e' _ _ hhead htail ih =>
    rw [List.any_cons, Bool.or_eq_false_iff] at hflat
    obtain ⟨hkey, heq | ⟨inner, inner', he, -, -⟩⟩ := hhead
    · rw [ih hflat.2, Prod.ext hkey heq]
    · rw [he] at hflat
      exact absurd hflat.1 Bool.true_eq_false_eq_False

/-- The checks of `_normalize_state_meta` do not single out the first entry. -/
theorem normalizeStateMeta_eq {m : Mapping} (hne : m ≠ []) (stateMeta : Option Mapping)
    (hm : stateMeta.getD [] = m) (state : Option Str) :
    normalizeStateMeta stateMeta state =
      if maxPredicates < m.length then atMost maxPredicates " predicates"
      else if m.any (fun e => isMapping e.2) && m.any (fun e => !isMapping e.2) then
        typeError "state_meta cannot mix nested and flat values"
      else if m.any fun e => isMapping e.2 then
        if m.filter (fun e => keepsEntry e.2) = [] then
          valueError "state_meta must contain at least one metadata predicate"
        else .ok (m.filter fun e => keepsEntry e.2)
      else if anyState state then valueError "flat state_meta requires a concrete state"
      else (requiredText (state.getD []) "state").bind fun state =>
        .ok [(.str state, .dict (m.filter fun e => keepsEntry e.2))] := by
  obtain ⟨e, rest, rfl⟩ := List.exists_cons_of_ne_nil hne
  have hmixed : (e::rest).any (fun other => isMapping other.2 ≠ isMapping e.2) =
      ((e::rest).any (fun e => isMapping e.2) && (e::rest).any fun e => !isMapping e.2) := by
    rw [Bool.eq_iff_iff]
    cases hfirst : isMapping e.2 <;> simp [hfirst]
  unfold normalizeStateMeta
  rw [hm]
  simp only [hmixed]
  by_cases hlen : maxPredicates < (e::rest).length
  · rw [if_pos hlen, if_pos hlen]
  rw [if_neg hlen, if_neg hlen]
  by_cases hmix : ((e::rest).any (fun e => isMapping e.2) &&
      (e::rest).any fun e => !isMapping e.2) = true
  · rw [if_pos hmix, if_pos hmix]
  rw [if_neg hmix, if_neg hmix]
  have hall : (e::rest).any (fun e => isMapping e.2) = isMapping e.2 := by
    rw [Bool.not_eq_true] at hmix
    cases hfirst : isMapping e.2
    · simpa [hfirst] using hmix
    · simp [hfirst]
  rw [hall]
  rfl

theorem Agree.normalizeStateMeta {stateMeta stateMeta' : Option Mapping} (state : Option Str)
    (h : Mapping.Reordered (stateMeta.getD []) (stateMeta'.getD [])) :
    Agree Mapping.Reordered (normalizeStateMeta stateMeta state)
      (normalizeStateMeta stateMeta' state) := by
  by_cases hnil : stateMeta.getD [] = []
  · have hnil' := h.eq_nil.mp hnil
    unfold FlowQueries.normalizeStateMeta
    rw [hnil, hnil']
    exact Mapping.Reordered.refl []
  have hnil' : stateMeta'.getD [] ≠ [] := fun h' => hnil (h.eq_nil.mpr h')
  have hany := h.any id
  simp only [id_eq] at hany
  rw [normalizeStateMeta_eq hnil _ rfl, normalizeStateMeta_eq hnil' _ rfl, h.length_eq, hany,
    h.any not]
  have hfilter := h.filter
  split
  · trivial
  split
  · trivial
  by_cases hmapping : (stateMeta'.getD []).any (fun e => isMapping e.2) = true
  · rw [if_pos hmapping, if_pos hmapping]
    by_cases hempty : (stateMeta.getD []).filter (fun e => keepsEntry e.2) = []
    · rw [if_pos hempty, if_pos (hfilter.eq_nil.mp hempty)]
      trivial
    · rw [if_neg hempty, if_neg fun h' => hempty (hfilter.eq_nil.mpr h')]
      exact hfilter
  · rw [if_neg hmapping, if_neg hmapping]
    have hperm := h.perm (hany.trans (by simpa using hmapping))
    split
    · trivial
    · refine Agree.after _ fun state => ⟨_, .refl _, .cons ⟨rfl, .inr ⟨_, _, rfl, rfl, ?_⟩⟩ .nil⟩
      exact hperm.filter _

/-! ### The outcome of a reordered call -/

theorem perm_getD {m m' : Option Mapping} (h : Option.Rel List.Perm m m') :
    (m.getD []).Perm (m'.getD []) := by
  cases h with
  | some h => exact h
  | none => exact .refl []

theorem reordered_getD {m m' : Option Mapping} (h : Option.Rel Mapping.Reordered m m') :
    Mapping.Reordered (m.getD []) (m'.getD []) := by
  cases h with
  | some h => exact h
  | none => exact .refl []

theorem agree_ite {α : Type} {c : Prop} [Decidable c] {R : α → α → Prop}
    {x y x' y' : Except QueryError α} (h : Agree R x x') (h' : Agree R y y') :
    Agree R (if c then x else y) (if c then x' else y') := by
  by_cases hc : c
  · rwa [if_pos hc, if_pos hc]
  · rwa [if_neg hc, if_neg hc]

/-- The outcome of a builder does not depend on the order of the mappings. -/
theorem Call.Reordered.agree {c c' : Call} (clock : ℤ) (h : c.Reordered c') :
    Agree Eq (c.build clock) (c'.build clock) := by
  obtain ⟨hkind, hattributes, hmeta⟩ := h
  replace hattributes := perm_getD hattributes
  replace hmeta := reordered_getD hmeta
  have hnil : c.attributes.getD [] = [] ↔ c'.attributes.getD [] = [] := by
    rw [← List.length_eq_zero_iff, hattributes.length_eq, List.length_eq_zero_iff]
  unfold Call.build
  rw [← hkind]
  cases c.kind with
  | list flowType scope state window =>
    simp only [buildFlowListQuery, hnil]
    refine agree_ite (Agree.refl _) (agree_ite (Agree.refl _) ?_)
    refine Agree.after _ fun b => Agree.after _ fun b => Agree.after _ fun b => ?_
    exact (Agree.metadata hattributes).bind fun b _ h => h ▸ Agree.refl _
  | search flowType scope state window terminalOnly =>
    refine (Agree.normalizeStateMeta state hmeta).bind fun m m' hm => ?_
    simp only [hnil, hm.eq_nil, Ne]
    refine agree_ite (Agree.refl _) (agree_ite (Agree.refl _) ?_)
    refine Agree.after _ fun b => Agree.after _ fun b => Agree.after _ fun b => ?_
    refine (Agree.metadata hattributes).bind fun b b' h => ?_
    subst h
    exact (Agree.stateMetadata hm).bind fun b _ h => h ▸ Agree.refl _
  | terminal flowType scope state window => exact Agree.refl _
  | failure flowType scope window => exact Agree.refl _
  | lineage selector identifier scope state window terminalOnly =>
    simp only [buildFlowLineageQuery, hnil, Ne]
    refine agree_ite (Agree.refl _) (agree_ite (Agree.refl _) (agree_ite (Agree.refl _) ?_))
    refine Agree.after _ fun b => Agree.after _ fun _ => Agree.after _ fun b => ?_
    refine Agree.after _ fun b => ?_
    exact (Agree.metadata hattributes).bind fun b _ h => h ▸ Agree.refl _
  | stuck flowType partitionKey count olderThanMs nowMs => exact Agree.refl _

end FerricStore.FlowQueries
