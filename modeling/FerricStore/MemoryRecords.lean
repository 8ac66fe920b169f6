import FerricStore.MemoryViews

/-!
# Records of the memory store read back

JSON text of a document reads back as the document with its tuples as lists, and a time
stamp as itself. The record of a put then decodes to the item that was put.
-/

set_option autoImplicit false

namespace FerricStore.MemoryStore
open Text OrderedKeys StorageKeys CommandPlans KeyedDatabase

mutual

/-- The value that JSON text of a value reads back as. -/
def plain : Value → Value
  | .list items => .list (plainItems items)
  | .tuple items => .list (plainItems items)
  | .dict entries => .dict (plainEntries entries)
  | v => v

def plainItems : List Value → List Value
  | [] => []
  | v::vs => plain v::plainItems vs

def plainEntries : List (Key × Value) → List (Key × Value)
  | [] => []
  | (k, v)::rest => (k, plain v)::plainEntries rest

end

/-- What the store relies on: JSON text of a document whose keys are text reads back, and
so does a time stamp. -/
structure Lawful {T : Type} (σ : Storage T) : Prop where
  loads_dumps : ∀ document b, textKeys document = true → σ.dumps document = some b →
    σ.loads b = some (plain document)
  fromisoformat_isoformat : ∀ t, σ.fromisoformat (σ.isoformat t) = some t

variable {T : Type} {σ : Storage T}

theorem plainItems_str (labels : List Str) : plainItems (labels.map .str) = labels.map .str := by
  induction labels with
  | nil => rfl
  | cons s labels ih =>
    rw [List.map_cons, plainItems, ih]
    rfl

theorem textItems_str (labels : List Str) : textItems (labels.map .str) = true := by
  induction labels with
  | nil => rfl
  | cons s labels ih =>
    rw [List.map_cons, textItems, ih]
    rfl

theorem textList_str (labels : List Str) : textList (labels.map .str) = some labels := by
  induction labels with
  | nil => rfl
  | cons s labels ih =>
    rw [List.map_cons, textList, ih]
    rfl

theorem textEntries_all {entries : List (Key × Value)} (h : textEntries entries = true) :
    entries.all (fun e => isText e.1) = true := by
  induction entries with
  | nil => rfl
  | cons e entries ih =>
    obtain ⟨k, v⟩ := e
    simp only [textEntries, Bool.and_eq_true] at h
    rw [List.all_cons, ih h.2, h.1.1]
    rfl

theorem plainEntries_all {entries : List (Key × Value)}
    (h : entries.all (fun e => isText e.1) = true) :
    (plainEntries entries).all (fun e => isText e.1) = true := by
  induction entries with
  | nil => rfl
  | cons e entries ih =>
    obtain ⟨k, v⟩ := e
    rw [List.all_cons, Bool.and_eq_true] at h
    rw [plainEntries, List.all_cons, ih h.2, h.1]
    rfl

theorem serialize_ok {v : Value} {b : Bytes} (h : σ.serialize v = .ok b) : σ.dumps v = some b := by
  unfold Storage.serialize at h
  cases hd : σ.dumps v with
  | none =>
    rw [hd] at h
    cases h
  | some c =>
    rw [hd] at h
    exact congrArg some (Except.ok.inj h)

/-- The record of a put decodes to the item. -/
theorem Lawful.decodeItem_record (hσ : Lawful σ) {op : PutOp} {createdAt updatedAt : T} {b : Bytes}
    (hkeys : textKeys op.value = true) (h : σ.itemRecord op createdAt updatedAt = .ok b) :
    σ.decodeItem b = .ok ⟨op.namespace_, op.key, plain op.value, createdAt, updatedAt⟩ := by
  unfold Storage.itemRecord at h
  cases hvalue : op.value with
  | dict entries =>
    rw [hvalue] at h hkeys
    simp only [textKeys] at hkeys
    have hall := textEntries_all hkeys
    simp only [hall, Bool.not_true, Bool.false_eq_true, if_false] at h
    have hload := hσ.loads_dumps _ b (by
      simp only [textKeys, textEntries, textItems_str, hkeys, isText, Bool.and_self])
      (serialize_ok h)
    simp only [plain, plainEntries, plainItems_str] at hload
    have hrecord : σ.deserialize b = .ok [
        (.str (lit "format_version"), .int 1),
        (.str (lit "namespace"), .list (op.namespace_.map .str)),
        (.str (lit "key"), .str op.key),
        (.str (lit "value"), .dict (plainEntries entries)),
        (.str (lit "created_at"), .str (σ.isoformat createdAt)),
        (.str (lit "updated_at"), .str (σ.isoformat updatedAt))] := by
      rw [Storage.deserialize, hload]
    have hlabels : labelsField (.list (op.namespace_.map .str)) = .ok op.namespace_ := by
      rw [labelsField, textList_str]
    have hdict : valueField (.dict (plainEntries entries)) = .ok (.dict (plainEntries entries)) := by
      rw [valueField, if_pos (plainEntries_all hall)]
    have hcreated : σ.timestamp (σ.isoformat createdAt) = .ok createdAt := by
      rw [Storage.timestamp, hσ.fromisoformat_isoformat]
      rfl
    have hupdated : σ.timestamp (σ.isoformat updatedAt) = .ok updatedAt := by
      rw [Storage.timestamp, hσ.fromisoformat_isoformat]
      rfl
    simp only [Storage.decodeItem, hrecord, bind, Except.bind, field, Dict.get?, Key.str.injEq,
      lit_inj, String.reduceEq, if_true, if_false, Option.getD_some, isFormatVersion, beq_self_eq_true,
      Bool.not_true, Bool.false_eq_true, hlabels, keyField, hdict, timestampText, hcreated,
      hupdated, plain]
  | _ =>
    rw [hvalue] at h
    cases h

theorem validateLabels_ok {labels : List Str} (h : validateLabels labels = .ok ()) :
    ∀ s ∈ labels, s ≠ [] := by
  induction labels with
  | nil => exact fun s hs => absurd hs List.not_mem_nil
  | cons label labels ih =>
    unfold validateLabels at h
    split_ifs at h with hempty hperiod
    intro s hs
    rcases List.mem_cons.mp hs with rfl | hs
    · exact hempty
    · exact ih h s hs

theorem validatePut_ok {op : PutOp} (h : σ.validatePut op = .ok ()) :
    op.namespace_ ≠ [] ∧ (∀ s ∈ op.namespace_, s ≠ []) ∧
      (op.value.isNone = true ∨ textKeys op.value = true) := by
  obtain ⟨u, hnamespace, h⟩ := except_bind_eq_ok h
  have hlabels : op.namespace_ ≠ [] ∧ ∀ s ∈ op.namespace_, s ≠ [] := by
    unfold validateNamespace at hnamespace
    by_cases hempty : op.namespace_ = []
    · rw [if_pos hempty] at hnamespace
      cases hnamespace
    · rw [if_neg hempty] at hnamespace
      obtain ⟨w, hw, -⟩ := except_bind_eq_ok hnamespace
      exact ⟨hempty, validateLabels_ok hw⟩
  refine ⟨hlabels.1, hlabels.2, ?_⟩
  by_cases hnone : op.value.isNone = true
  · exact .inl hnone
  · by_cases hkeys : textKeys op.value = true
    · exact .inr hkeys
    · cases hvalue : op.value with
      | dict entries =>
        rw [hvalue] at h hkeys hnone
        simp only [hkeys, hnone, Bool.not_false, if_true, Bool.false_eq_true, if_false] at h
        split_ifs at h
      | none =>
        rw [hvalue] at hnone
        exact absurd rfl hnone
      | _ =>
        rw [hvalue] at h
        simp only [Value.isNone, Bool.false_eq_true, if_false] at h
        split_ifs at h

theorem validatePuts_ok {ops : List PutOp} (h : validatePuts σ ops = .ok ()) :
    ∀ op ∈ ops, σ.validatePut op = .ok () := by
  induction ops with
  | nil => exact fun op hop => absurd hop List.not_mem_nil
  | cons op ops ih =>
    obtain ⟨u, hop, hrest⟩ := except_bind_eq_ok h
    intro op' hop'
    rcases List.mem_cons.mp hop' with rfl | hop'
    · exact hop
    · exact ih hrest op' hop'

def putsOf : List Op → List PutOp
  | [] => []
  | .put op::ops => op::putsOf ops
  | _::ops => putsOf ops

/-- The puts of a batch that was admitted are valid, and their items can be spelled. -/
theorem mutationLockKeys_ok {ops : List Op} {keys : List Str}
    (h : σ.mutationLockKeys ops = .ok keys) : ∀ op ∈ putsOf ops, σ.validatePut op = .ok () ∧
      (∀ s ∈ op.namespace_, Storable s) ∧ Storable op.key := by
  induction ops generalizing keys with
  | nil => exact fun op hop => absurd hop List.not_mem_nil
  | cons o ops ih =>
    cases o with
    | put op =>
      unfold Storage.mutationLockKeys at h
      obtain ⟨u, hvalid, h⟩ := except_bind_eq_ok h
      obtain ⟨key, hkey, h⟩ := except_bind_eq_ok h
      obtain ⟨rest, hrest, -⟩ := except_bind_eq_ok h
      obtain ⟨identity, hidentity, -⟩ := except_bind_eq_ok hkey
      obtain ⟨bytes, hbytes, hidentity⟩ := except_bind_eq_ok hidentity
      obtain ⟨keyBytes, hkeyBytes, -⟩ := except_bind_eq_ok hidentity
      intro op' hop'
      rcases List.mem_cons.mp hop' with rfl | hop'
      · exact ⟨hvalid, (namespaceIdentity_ok hbytes).1, (measured_ok hkeyBytes).1⟩
      · exact ih hrest op' hop'
    | get op => exact ih h
    | search op => exact ih h
    | listNamespaces op => exact ih h

/-- The item of an admitted put in a namespace in use. -/
def placeOf {U : Set (List Str)} (op : PutOp) (hused : op.namespace_ ∈ U)
    (hvalid : σ.validatePut op = .ok ()) (hns : ∀ s ∈ op.namespace_, Storable s)
    (hkey : Storable op.key) : Place U where
  namespace_ := op.namespace_
  key := op.key
  used := hused
  nonempty := (validatePut_ok hvalid).1
  labels s hs := ⟨(validatePut_ok hvalid).2.1 s hs, hns s hs⟩
  storable := hkey

end FerricStore.MemoryStore
