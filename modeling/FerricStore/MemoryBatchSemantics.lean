import FerricStore.MemoryBatchResults

/-!
# Snapshot semantics of a batch

A batch that nothing interferes with reads the state before it and then writes the last
put of each item, or raises and writes nothing.
-/

set_option autoImplicit false

namespace FerricStore.MemoryStore
open Text OrderedKeys StorageKeys CommandPlans KeyedDatabase

variable {T : Type} {σ : Storage T} {U : Set (List Str)} {scanner : Scanner Str Bytes Str} {db : Db}

theorem mutationLockKeys_of_invalid {ops : List Op} {op : PutOp} (hop : op ∈ putsOf ops)
    (h : σ.validatePut op ≠ .ok ()) : ∃ e, σ.mutationLockKeys ops = .error e := by
  cases hkeys : σ.mutationLockKeys ops with
  | error e => exact ⟨e, rfl⟩
  | ok keys => exact absurd (mutationLockKeys_ok hkeys op hop).1 h

/-- What the state after a batch holds of an item, given the last put of the item. -/
def Storage.Written (σ : Storage T) (db : Db) (clock : ℕ → T) (path : List Str × Str) :
    Option PutOp → Option (Item T) → Prop
  | none, item => item = σ.itemIn db path
  | some op, item =>
    if op.value.isNone then item = none
    else ∃ i, item = some ⟨path.1, path.2, plain op.value,
      ((σ.itemIn db path).map Item.createdAt).getD (clock i), clock i⟩

/-- The puts of an admitted batch, the last one of each item, run to their end. -/
theorem puts_run (hσ : Lawful σ) (hU : CollisionFree σ U) (hdb : σ.Consistent U db)
    {ops : List Op} (hused : ∀ op ∈ putsOf ops, op.namespace_ ∈ U)
    (hserial : ∀ op ∈ putsOf ops, σ.Serializes op) {keys : List Str}
    (hkeys : σ.mutationLockKeys ops = .ok keys) (clock : ℕ → T) :
    ∃ db', run (exec scanner)
        (σ.applyPuts clock ((lastPuts [] (putsOf ops)).map Prod.snd)) db = (.ok (), db') ∧
      (∀ key field, (∀ op ∈ putsOf ops, ¬(σ.hashKey op.namespace_ = key ∧
        fieldCode op.key = field)) → db'.get key field = db.get key field) ∧
      ∀ x : Place U, σ.Written db clock x.path (lastPut (putsOf ops) x.path)
        (σ.itemIn db' x.path) := by
  let puts := (lastPuts [] (putsOf ops)).map Prod.snd
  have hmem : ∀ op ∈ puts, op ∈ putsOf ops := by
    intro op hop
    rcases mem_lastPuts hop with hop | hop
    · exact absurd hop List.not_mem_nil
    · exact hop
  have hvalid : ∀ op ∈ puts, σ.validatePut op = .ok () :=
    fun op hop => (mutationLockKeys_ok hkeys op (hmem op hop)).1
  have hplaced : Placed U puts := by
    intro op hop
    obtain ⟨hvalid, hns, hkey⟩ := mutationLockKeys_ok hkeys op (hmem op hop)
    exact ⟨placeOf op (hused op (hmem op hop)) hvalid hns hkey, rfl⟩
  have hown : σ.OwnRecords db (puts.map PutOp.path) := by
    intro p hp b hb
    obtain ⟨op, hop, rfl⟩ := List.mem_map.mp hp
    obtain ⟨y, hy⟩ := hplaced op hop
    rw [hy] at hb ⊢
    exact (hdb.covered y b hb).1
  obtain ⟨db', hrun, hother, hdeleted, hwritten⟩ := @applyPuts_run T σ U scanner db clock puts hU
    hplaced hvalid (lastPuts_nodup _) (fun op hop => hserial op (hmem op hop)) hown
  refine ⟨db', hrun, fun key field h => hother key field fun op hop => h op (hmem op hop), ?_⟩
  intro x
  cases hlast : lastPut (putsOf ops) x.path with
  | none =>
    have hcell : db'.get (σ.hashKey x.path.1) (fieldCode x.path.2) =
        db.get (σ.hashKey x.path.1) (fieldCode x.path.2) := by
      refine hother _ _ fun op hop hcell => ?_
      obtain ⟨y, hy⟩ := hplaced op hop
      obtain ⟨hns, hkey⟩ := Prod.mk.inj hy
      rw [hns, hkey] at hcell
      have hyx := hU.cell_inj hcell.1 hcell.2
      have hput := lastPut_of_mem hop
      rw [hy, hyx, hlast] at hput
      cases hput
    change σ.itemIn db' x.path = σ.itemIn db x.path
    rw [Storage.itemIn, hcell]
    rfl
  | some op =>
    obtain ⟨hop, hpath⟩ := mem_of_lastPut hlast
    obtain ⟨hns, hkey⟩ := Prod.mk.inj hpath
    change if op.value.isNone then _ else _
    cases hvalue : op.value.isNone with
    | true =>
      rw [if_pos rfl, Storage.itemIn, ← hpath]
      rw [show db'.get (σ.hashKey op.path.1) (fieldCode op.path.2) = none from
        hdeleted op hop hvalue]
      rfl
    | false =>
      rw [if_neg Bool.false_ne_true]
      obtain ⟨i, b, hb, hrecord⟩ := hwritten op hop hvalue
      have htext := (validatePut_ok (hvalid op hop)).2.2
      rw [hvalue] at htext
      have hdecoded := hσ.decodeItem_record (htext.resolve_left Bool.false_ne_true) hrecord
      refine ⟨i, ?_⟩
      rw [Storage.itemIn, ← hpath]
      rw [show db'.get (σ.hashKey op.path.1) (fieldCode op.path.2) = some b from hb,
        Option.bind_some, hdecoded]
      rfl

def sampleBatch : List Op := [.put samplePut, .get ⟨[lit "a"], lit "k"⟩]

theorem sample_serializes : sampleStorage.Serializes samplePut := by
  rintro _ ⟨⟩ ⟨⟩
  have hrecord : (sampleStorage.itemRecord samplePut () ()).isOk = true := by decide +kernel
  cases h : sampleStorage.itemRecord samplePut () () with
  | ok b => exact ⟨b, rfl⟩
  | error e =>
    rw [h] at hrecord
    cases hrecord

end FerricStore.MemoryStore
