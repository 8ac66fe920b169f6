import FerricStore.MemoryBatchReads

/-!
# What a batch of the memory store does

Run without interference, a batch answers its reads from the state before it, and leaves
each item that it puts with the value of its last put.
-/

set_option autoImplicit false

namespace FerricStore.MemoryStore
open Text OrderedKeys StorageKeys CommandPlans KeyedDatabase

variable {T : Type} {σ : Storage T} {U : Set (List Str)} {scanner : Scanner Str Bytes Str} {db : Db}

section Writes

variable {clock : ℕ → T} {ops : List PutOp}

/-- A value that can be serialized can be serialized as a part of its record. -/
def Storage.Serializes (σ : Storage T) (op : PutOp) : Prop :=
  (σ.dumps op.value).isSome = true → ∀ createdAt updatedAt,
    ∃ b, σ.itemRecord op createdAt updatedAt = .ok b

theorem validatePut_dumps {op : PutOp} (h : σ.validatePut op = .ok ())
    (hvalue : op.value.isNone = false) : (σ.dumps op.value).isSome = true := by
  obtain ⟨u, -, h⟩ := except_bind_eq_ok h
  cases hop : op.value with
  | dict entries =>
    rw [hop] at h hvalue
    simp only [hvalue, Bool.false_eq_true, if_false] at h
    split_ifs at h
    obtain ⟨b, hb, -⟩ := except_bind_eq_ok h
    rw [serialize_ok hb]
    rfl
  | none =>
    rw [hop] at hvalue
    cases hvalue
  | _ =>
    rw [hop] at h
    simp only [Value.isNone, Bool.false_eq_true, if_false] at h
    split_ifs at h

/-- The time of creation that a put writes: the one of the item before the batch, or its own. -/
def Storage.creation (σ : Storage T) (db : Db) (op : PutOp) (now : T) : T :=
  ((σ.itemIn db op.path).map Item.createdAt).getD now

/-- The reads of a batch that has removed other items answer as before. -/
theorem readCreated_run {pending : List (PendingPut T)}
    (hplaced : ∀ item ∈ pending, ∃ y : Place U, item.op.path = y.path)
    (hown : σ.OwnRecords db (pathsOf pending)) (hnodup : (pathsOf pending).Nodup) :
    ∃ created, run (exec scanner) (σ.readCreated pending) db = (.ok created, db) ∧
      ∀ item ∈ pending, Dict.get? created item.op.path =
        some (σ.creation db item.op item.timestamp) := by
  have hcommands : pending.mapM (fun item => σ.itemCommand item.op.path) =
      .ok (pending.map fun item => σ.cellRead item.op.path) := by
    refine mapM_eq_ok fun item hitem => ?_
    obtain ⟨y, hy⟩ := hplaced item hitem
    rw [hy, itemCommand_eq y]
    rfl
  have hreads : ∀ c ∈ pending.map (fun item => σ.cellRead item.op.path),
      (exec scanner c db).2 = db := by
    intro c hc
    obtain ⟨item, -, rfl⟩ := List.mem_map.mp hc
    rfl
  obtain ⟨created, hcreated, hget⟩ := createdTimes_run hown (stamps pending)
  refine ⟨created, ?_, fun item hitem => ?_⟩
  · unfold Storage.readCreated
    rw [hcommands]
    change run (exec scanner) (do
      let responses ← .batch (pending.map fun item => σ.cellRead item.op.path)
      let responses ← .lift (batchItems pending.length responses)
      .lift (σ.createdTimes pending responses (stamps pending)) : StorePlan _) db = _
    rw [run_bind_ok (run_batch _ _), execAll_reading hreads, List.map_map]
    have hitems : batchItems pending.length (pending.map
        ((fun c => (exec scanner c db).1) ∘ fun item => σ.cellRead item.op.path)) =
          .ok (pending.map fun item =>
            .value (db.get (σ.hashKey item.op.path.1) (fieldCode item.op.path.2))) :=
      if_pos (List.length_map _)
    rw [hitems]
    exact congrArg (·, db) hcreated
  · have hmem : item.op.path ∈ pathsOf pending := List.mem_map.mpr ⟨item, hitem, rfl⟩
    rw [hget, if_pos hmem, get?_stamps hnodup hitem]
    unfold Storage.creation
    cases σ.itemIn db item.op.path with
    | none => rfl
    | some existing => rfl

theorem writeItem_eq {created : Dict (List Str × Str) T} {item : PendingPut T} {y : Place U}
    (hpath : item.op.path = y.path) {createdAt : T} {b : Bytes}
    (hcreated : Dict.get? created item.op.path = some createdAt)
    (hb : σ.itemRecord item.op createdAt item.timestamp = .ok b) :
    σ.writeItem created item =
      .ok (.hset (σ.hashKey item.op.namespace_) [(fieldCode item.op.key, b)]) := by
  obtain ⟨hns, hkey⟩ := Prod.mk.inj hpath
  have hnskey : namespaceKey σ.sha256 σ.keyPrefix item.op.namespace_ =
      .ok (σ.hashKey item.op.namespace_) := namespaceKey_eq σ (hns ▸ y.storable_labels)
  have hfield : itemField item.op.key = .ok (fieldCode item.op.key) :=
    itemField_eq (hkey ▸ y.storable.1)
  simp only [Storage.writeItem, hnskey, hfield, bind, Except.bind, hcreated, hb]

/-- The records that the pending puts leave. -/
theorem writePending_run (hU : CollisionFree σ U) {pending : List (PendingPut T)}
    (hplaced : ∀ item ∈ pending, ∃ y : Place U, item.op.path = y.path)
    (hown : σ.OwnRecords db (pathsOf pending)) (hnodup : (pathsOf pending).Nodup)
    (hserial : ∀ item ∈ pending, ∀ createdAt, ∃ b,
      σ.itemRecord item.op createdAt item.timestamp = .ok b) :
    ∃ db', run (exec scanner) (σ.writePending pending) db = (.ok (), db') ∧
      (∀ key field, (∀ item ∈ pending, ¬(σ.hashKey item.op.namespace_ = key ∧
        fieldCode item.op.key = field)) → db'.get key field = db.get key field) ∧
      ∀ item ∈ pending, ∃ b,
        db'.get (σ.hashKey item.op.namespace_) (fieldCode item.op.key) = some b ∧
        σ.itemRecord item.op (σ.creation db item.op item.timestamp) item.timestamp = .ok b := by
  obtain ⟨created, hread, hcreated⟩ := @readCreated_run T σ U scanner db pending hplaced hown hnodup
  obtain ⟨indexes, hindexes⟩ : ∃ cs,
      pending.mapM (fun item => σ.indexCommands .zadd item.op) = .ok cs :=
    indexCommands_exist hplaced
  have hrecord : ∀ item ∈ pending, ∃ c, σ.writeItem created item = .ok c := by
    intro item hitem
    obtain ⟨y, hy⟩ := hplaced item hitem
    obtain ⟨b, hb⟩ := hserial item hitem (σ.creation db item.op item.timestamp)
    exact ⟨_, writeItem_eq hy (hcreated item hitem) hb⟩
  obtain ⟨records, hrecords⟩ := mapM_exists hrecord
  have hwritten : ∀ c ∈ records, ∃ item ∈ pending, ∃ b,
      c = .hset (σ.hashKey item.op.namespace_) [(fieldCode item.op.key, b)] ∧
        σ.itemRecord item.op (σ.creation db item.op item.timestamp) item.timestamp = .ok b := by
    intro c hc
    obtain ⟨item, hitem, hwrite⟩ := forall₂_mem_right (mapM_forall₂ hrecords) hc
    obtain ⟨y, hy⟩ := hplaced item hitem
    obtain ⟨b, hb⟩ := hserial item hitem (σ.creation db item.op item.timestamp)
    rw [writeItem_eq hy (hcreated item hitem) hb] at hwrite
    exact ⟨item, hitem, b, (Except.ok.inj hwrite).symm, hb⟩
  let published := (execAll (exec scanner) indexes.flatten db).2
  have hzadd : ∀ k m key field, ¬(KeyedDatabase.Command.zadd k m : Cmd).writesAt key field := fun _ _ _ _ h => h
  have hpublished : ∀ key field, published.get key field = db.get key field :=
    indexCommands_get hzadd hindexes db
  refine ⟨(execAll (exec scanner) records published).2, ?_, fun key field hother => ?_,
    fun item hitem => ?_⟩
  · unfold Storage.writePending
    rw [run_bind_ok hread]
    change run (exec scanner) (do
      let indexes ← .lift (pending.mapM fun item => σ.indexCommands .zadd item.op)
      let _ ← .batch indexes.flatten
      let records ← .lift (pending.mapM (σ.writeItem created))
      let _ ← .batch records
      pure () : StorePlan _) db = _
    rw [hindexes]
    change run (exec scanner) (do
      let records ← .lift (pending.mapM (σ.writeItem created))
      let _ ← .batch records
      pure () : StorePlan _) published = _
    rw [hrecords]
    rfl
  · rw [get_execAll, hpublished]
    refine foldl_writes_unchanged fun c hc => ?_
    obtain ⟨item, hitem, b, rfl, -⟩ := hwritten c hc
    rintro ⟨hkey, p, hp, hfield⟩
    obtain rfl := List.mem_singleton.mp hp
    exact hother item hitem ⟨hkey, hfield⟩
  · obtain ⟨b, hb⟩ := hserial item hitem (σ.creation db item.op item.timestamp)
    refine ⟨b, ?_, hb⟩
    rw [get_execAll]
    refine foldl_writes_same (fun c hc hwrites old => ?_) ?_
    · obtain ⟨item', hitem', b', rfl, hb'⟩ := hwritten c hc
      obtain ⟨hkey, p, hp, hfield⟩ := hwrites
      obtain rfl := List.mem_singleton.mp hp
      have hpaths := hU.path_inj (hplaced item' hitem') (hplaced item hitem) hkey hfield
      obtain rfl := List.inj_on_of_nodup_map hnodup hitem' hitem hpaths
      rw [hb] at hb'
      cases hb'
      simp [KeyedDatabase.Command.writes]
    · obtain ⟨c, hc, hwrite⟩ := forall₂_mem_left (mapM_forall₂ hrecords) hitem
      obtain ⟨y, hy⟩ := hplaced item hitem
      rw [writeItem_eq hy (hcreated item hitem) hb] at hwrite
      cases hwrite
      exact ⟨_, hc, rfl, _, List.mem_singleton_self _, rfl⟩

/-- The fields that the removals of a batch leave. -/
theorem removals_get (db : Db) :
    (∀ key field, (∀ op ∈ removals ops, ¬(σ.hashKey op.namespace_ = key ∧
      fieldCode op.key = field)) →
        (execAll (exec scanner) ((removals ops).map σ.removalOf) db).2.get key field =
          db.get key field) ∧
    ∀ op ∈ removals ops, (execAll (exec scanner) ((removals ops).map σ.removalOf) db).2.get
      (σ.hashKey op.namespace_) (fieldCode op.key) = none := by
  constructor
  · intro key field hother
    rw [get_execAll]
    refine foldl_writes_unchanged fun c hc => ?_
    obtain ⟨op, hop, rfl⟩ := List.mem_map.mp hc
    exact hother op hop
  · intro op hop
    rw [get_execAll]
    refine foldl_writes_same (fun c hc hwrites old => ?_) ?_
    · obtain ⟨op', -, rfl⟩ := List.mem_map.mp hc
      exact if_pos hwrites
    · exact ⟨_, List.mem_map.mpr ⟨op, hop, rfl⟩, rfl, rfl⟩

/-- The fields that the puts of a batch leave. -/
theorem applyPuts_run (hU : CollisionFree σ U) (hplaced : Placed U ops)
    (hvalid : ∀ op ∈ ops, σ.validatePut op = .ok ()) (hnodup : (ops.map PutOp.path).Nodup)
    (hserial : ∀ op ∈ ops, σ.Serializes op) (hown : σ.OwnRecords db (ops.map PutOp.path)) :
    ∃ db', run (exec scanner) (σ.applyPuts clock ops) db = (.ok (), db') ∧
      (∀ key field, (∀ op ∈ ops, ¬(σ.hashKey op.namespace_ = key ∧ fieldCode op.key = field)) →
        db'.get key field = db.get key field) ∧
      (∀ op ∈ ops, op.value.isNone = true →
        db'.get (σ.hashKey op.namespace_) (fieldCode op.key) = none) ∧
      ∀ op ∈ ops, op.value.isNone = false → ∃ i b,
        db'.get (σ.hashKey op.namespace_) (fieldCode op.key) = some b ∧
        σ.itemRecord op (σ.creation db op (clock i)) (clock i) = .ok b := by
  by_cases hempty : ops.isEmpty = true
  · obtain rfl := List.isEmpty_iff.mp hempty
    exact ⟨db, rfl, fun _ _ _ => rfl, fun op hop => absurd hop List.not_mem_nil,
      fun op hop => absurd hop List.not_mem_nil⟩
  have hinj : ∀ op ∈ ops, ∀ op' ∈ ops, σ.hashKey op.namespace_ = σ.hashKey op'.namespace_ →
      fieldCode op.key = fieldCode op'.key → op = op' := by
    intro op hop op' hop' hkey hfield
    exact List.inj_on_of_nodup_map hnodup hop hop'
      (hU.path_inj (hplaced op hop) (hplaced op' hop') hkey hfield)
  have hvalidPuts : validatePuts σ ops = .ok () := by
    clear hplaced hnodup hserial hown hempty hinj
    induction ops with
    | nil => rfl
    | cons op ops ih =>
      rw [validatePuts, hvalid op List.mem_cons_self]
      exact ih fun op' hop' => hvalid op' (List.mem_cons_of_mem op hop')
  obtain ⟨indexes, hindexes⟩ : ∃ cs, (removals ops).mapM
      (fun op => σ.indexCommands (fun key member => .zrem key [member]) op) = .ok cs :=
    indexCommands_exist fun op hop => hplaced op (mem_removals hop)
  have hzrem : ∀ k m key field, ¬(KeyedDatabase.Command.zrem k [m] : Cmd).writesAt key field :=
    fun _ _ _ _ h => h
  let removed := (execAll (exec scanner) ((removals ops).map σ.removalOf) db).2
  let cleared := (execAll (exec scanner) indexes.flatten removed).2
  have hcleared : ∀ key field, cleared.get key field = removed.get key field :=
    indexCommands_get hzrem hindexes removed
  obtain ⟨hkept, hgone⟩ := @removals_get T σ scanner ops db
  have hrun : run (exec scanner) (σ.applyPuts clock ops) db = run (exec scanner)
      (if (pendingPuts clock ops).isEmpty then pure ()
        else σ.writePending (pendingPuts clock ops)) cleared := by
    unfold Storage.applyPuts
    rw [if_neg hempty, hvalidPuts, deleteItems_eq hplaced]
    change run (exec scanner) (unlessEmpty ((removals ops).map σ.removalOf) >>= fun _ => _) db = _
    rw [run_bind_ok (unlessEmpty_run _ _)]
    change run (exec scanner) (.lift ((removals ops).mapM
      fun op => σ.indexCommands (fun key member => .zrem key [member]) op) >>= fun _ => _) removed = _
    rw [hindexes]
    change run (exec scanner) (unlessEmpty indexes.flatten >>= fun _ => _) removed = _
    rw [run_bind_ok (unlessEmpty_run _ _)]
  have hdeleted : ∀ op ∈ ops, op.value.isNone = true →
      cleared.get (σ.hashKey op.namespace_) (fieldCode op.key) = none := by
    intro op hop hvalue
    rw [hcleared]
    exact hgone op (List.mem_filter.mpr ⟨hop, hvalue⟩)
  have hpendingKept : ∀ op ∈ ops, op.value.isNone = false →
      cleared.get (σ.hashKey op.namespace_) (fieldCode op.key) =
        db.get (σ.hashKey op.namespace_) (fieldCode op.key) := by
    intro op hop hvalue
    rw [hcleared]
    refine hkept _ _ fun op' hop' hcell => ?_
    obtain rfl := hinj op' (mem_removals hop') op hop hcell.1 hcell.2
    rw [(List.mem_filter.mp hop').2] at hvalue
    cases hvalue
  have hother : ∀ key field, (∀ op ∈ ops, ¬(σ.hashKey op.namespace_ = key ∧
      fieldCode op.key = field)) → cleared.get key field = db.get key field := by
    intro key field hcells
    rw [hcleared]
    exact hkept key field fun op hop => hcells op (mem_removals hop)
  rw [hrun]
  by_cases hnone : (pendingPuts clock ops).isEmpty = true
  · rw [if_pos hnone]
    refine ⟨cleared, rfl, hother, hdeleted, fun op hop hvalue => ?_⟩
    obtain ⟨item, hitem, -⟩ := @exists_pendingPut T clock ops _ hop hvalue
    rw [List.isEmpty_iff.mp hnone] at hitem
    exact absurd hitem List.not_mem_nil
  · rw [if_neg hnone]
    have hitems : ∀ item ∈ pendingPuts clock ops, item.op ∈ ops ∧ item.op.value.isNone = false :=
      fun item hitem => mem_pendingPuts hitem
    have hpendingOwn : σ.OwnRecords cleared (pathsOf (pendingPuts clock ops)) := by
      intro p hp b hb
      obtain ⟨item, hitem, rfl⟩ := List.mem_map.mp hp
      obtain ⟨hop, hvalue⟩ := hitems item hitem
      have hsame := hpendingKept item.op hop hvalue
      exact hown item.op.path (List.mem_map.mpr ⟨item.op, hop, rfl⟩) b (hsame.symm.trans hb)
    obtain ⟨db', hwrites, hunchanged, hwritten⟩ := @writePending_run T σ U scanner cleared hU _
      (fun item hitem => hplaced _ (hitems item hitem).1) hpendingOwn
      (pathsOf_pendingPuts_nodup hnodup) fun item hitem createdAt =>
        hserial item.op (hitems item hitem).1 (validatePut_dumps
          (hvalid _ (hitems item hitem).1) (hitems item hitem).2) createdAt item.timestamp
    refine ⟨db', hwrites, fun key field hcells => ?_, fun op hop hvalue => ?_,
      fun op hop hvalue => ?_⟩
    · rw [hunchanged key field fun item hitem => hcells _ (hitems item hitem).1]
      exact hother key field hcells
    · rw [hunchanged _ _ fun item hitem hcell => ?_]
      · exact hdeleted op hop hvalue
      · have heq := hinj item.op (hitems item hitem).1 op hop hcell.1 hcell.2
        rw [← heq, (hitems item hitem).2] at hvalue
        cases hvalue
    · obtain ⟨item, hitem, rfl⟩ := @exists_pendingPut T clock ops _ hop hvalue
      obtain ⟨i, hi⟩ := pendingPut_time hitem
      obtain ⟨b, hb, hrecord⟩ := hwritten item hitem
      refine ⟨i, b, hb, ?_⟩
      have hsame : σ.creation cleared item.op item.timestamp =
          σ.creation db item.op item.timestamp := by
        unfold Storage.creation Storage.itemIn
        rw [show cleared.get (σ.hashKey item.op.path.1) (fieldCode item.op.path.2) =
          db.get (σ.hashKey item.op.path.1) (fieldCode item.op.path.2) from
            hpendingKept item.op hop hvalue]
      rw [hsame, hi] at hrecord
      exact hrecord

end Writes

section LastPuts

theorem lastPuts_paths (ops : List PutOp) : ∀ e ∈ lastPuts [] ops, e.1 = e.2.path := by
  have hset : ∀ (d : Dict (List Str × Str) PutOp) (op : PutOp), (∀ e ∈ d, e.1 = e.2.path) →
      ∀ e ∈ Dict.set d op.path op, e.1 = e.2.path := by
    intro d op hd
    induction d with
    | nil =>
      intro e he
      rw [List.mem_singleton.mp he]
    | cons first d ih =>
      obtain ⟨k, op'⟩ := first
      intro e he
      unfold Dict.set at he
      split_ifs at he with hk
      · rcases List.mem_cons.mp he with rfl | he
        · exact hk
        · exact hd e (List.mem_cons_of_mem _ he)
      · rcases List.mem_cons.mp he with rfl | he
        · exact hd _ List.mem_cons_self
        · exact ih (fun e he => hd e (List.mem_cons_of_mem _ he)) e he
  have hfold : ∀ d : Dict (List Str × Str) PutOp, (∀ e ∈ d, e.1 = e.2.path) →
      ∀ e ∈ lastPuts d ops, e.1 = e.2.path := by
    induction ops with
    | nil => exact fun d hd => hd
    | cons op ops ih => exact fun d hd => ih _ (hset d op hd)
  exact hfold [] fun e he => absurd he List.not_mem_nil

theorem lastPuts_nodup (ops : List PutOp) :
    (((lastPuts [] ops).map Prod.snd).map PutOp.path).Nodup := by
  have hkeys : ∀ d : Dict (List Str × Str) PutOp, (d.map Prod.fst).Nodup →
      ((lastPuts d ops).map Prod.fst).Nodup := by
    induction ops with
    | nil => exact fun d hd => hd
    | cons op ops ih => exact fun d hd => ih _ (Dict.nodup_set d op.path op hd)
  have hpaths : ((lastPuts [] ops).map Prod.snd).map PutOp.path = (lastPuts [] ops).map Prod.fst := by
    rw [List.map_map]
    exact List.map_congr_left fun e he => (lastPuts_paths ops e he).symm
  rw [hpaths]
  exact hkeys [] List.nodup_nil

/-- The last put of an item. -/
def lastPut (ops : List PutOp) (path : List Str × Str) : Option PutOp :=
  ops.reverse.find? fun op => op.path = path

theorem get?_lastPuts (ops : List PutOp) (path : List Str × Str) :
    Dict.get? (lastPuts [] ops) path = lastPut ops path := by
  induction ops using List.reverseRecOn with
  | nil => rfl
  | append_singleton ops op ih =>
    have hlast : lastPuts [] (ops++[op]) = Dict.set (lastPuts [] ops) op.path op := by
      rw [lastPuts, List.foldl_append]
      rfl
    rw [hlast, Dict.get?_set, lastPut, List.reverse_append]
    by_cases h : op.path = path
    · rw [if_pos h]
      exact (List.find?_cons_of_pos (by simpa using h)).symm
    · rw [if_neg h, ih]
      exact (List.find?_cons_of_neg (by simpa using h)).symm

theorem mem_of_lastPut {ops : List PutOp} {path : List Str × Str} {op : PutOp}
    (h : lastPut ops path = some op) : op ∈ (lastPuts [] ops).map Prod.snd ∧ op.path = path := by
  rw [← get?_lastPuts] at h
  have hmem := Dict.mem_of_get? h
  exact ⟨List.mem_map.mpr ⟨_, hmem, rfl⟩, (lastPuts_paths ops _ hmem).symm⟩

theorem lastPut_of_mem {ops : List PutOp} {op : PutOp}
    (h : op ∈ (lastPuts [] ops).map Prod.snd) : lastPut ops op.path = some op := by
  obtain ⟨e, he, rfl⟩ := List.mem_map.mp h
  have hkeys := lastPuts_nodup ops
  rw [List.map_map] at hkeys
  have hfst : (lastPuts [] ops).map Prod.fst = (lastPuts [] ops).map (PutOp.path ∘ Prod.snd) :=
    List.map_congr_left fun e he => lastPuts_paths ops e he
  rw [← hfst] at hkeys
  rw [← get?_lastPuts]
  refine Dict.get?_of_mem hkeys ?_
  rw [← lastPuts_paths ops e he]
  exact he

end LastPuts

end FerricStore.MemoryStore
