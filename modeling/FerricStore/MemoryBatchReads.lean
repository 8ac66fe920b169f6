import FerricStore.MemoryHistories

/-!
# The reads of a batch

The reads of a batch are answered before its first write, each at its own position and as
it would be answered alone.
-/

set_option autoImplicit false

namespace FerricStore.MemoryStore
open Text OrderedKeys StorageKeys CommandPlans KeyedDatabase

variable {T : Type} {σ : Storage T} {scanner : Scanner Str Bytes Str} {db : Db}

def itemOrNothing : Option (Item T) → Result T
  | none => .nothing
  | some item => .item item

/-- The result of an operation that runs alone; a put has none. -/
def Storage.ReadsTo (σ : Storage T) (scanner : Scanner Str Bytes Str) (fuel : ℕ) (db : Db) :
    Op → Result T → Prop
  | .get op, r => ∃ item, run (exec scanner) (σ.get op) db = (.ok item, db) ∧ r = itemOrNothing item
  | .search op, r => ∃ items, run (exec scanner) (σ.search fuel op) db = (.ok items, db) ∧
    r = .items items
  | .listNamespaces op, r => ∃ nss,
    run (exec scanner) (σ.listNamespaces fuel op) db = (.ok nss, db) ∧ r = .namespaces nss
  | .put _, r => r = .nothing

theorem Reading.unchanged {α : Type} {A : α → Prop} {p : StorePlan α} (h : Reading A p) (db : Db) :
    (run (exec scanner) p db).2 = db :=
  Asks.run_unchanged (fun (c : Cmd) _ (hc : c.reads = true) => exec_reads hc) h db

/-- A get and the command that a batch sends for it. -/
theorem get_ok {op : GetOp} {item : Option (Item T)} {t : Db}
    (h : run (exec scanner) (σ.get op) db = (.ok item, t)) :
    ∃ c, σ.itemCommand (op.namespace_, op.key) = .ok c ∧
      σ.itemResult (exec scanner c db).1 = .ok (itemOrNothing item) := by
  unfold Storage.get at h
  cases hcommand : σ.itemCommand (op.namespace_, op.key) with
  | error e =>
    rw [hcommand] at h
    cases h
  | ok c =>
    rw [hcommand] at h
    have hresult : σ.expectItem "FerricStore LangGraph item key mismatch"
        (op.namespace_, op.key) (exec scanner c db).1 = .ok item := congrArg Prod.fst h
    refine ⟨c, rfl, ?_⟩
    obtain ⟨value, hvalue, hresult⟩ := except_bind_eq_ok hresult
    unfold Storage.itemResult
    rw [hvalue]
    cases value with
    | none =>
      cases hresult
      rfl
    | some b =>
      obtain ⟨decoded, hdecoded, hresult⟩ := except_bind_eq_ok hresult
      split_ifs at hresult
      cases hresult
      simp only [bind, Except.bind, hdecoded]
      rfl

/-- What the first loop of a batch leaves in the results: the gets are still open. -/
def earlyResult : Op → Result T → Result T
  | .get _, _ => .nothing
  | _, r => r

theorem set_middle {α : Type} (done rest : List α) (a b : α) :
    (done++a::rest).set done.length b = done++b::rest := by
  induction done with
  | nil => rfl
  | cons d done ih => exact congrArg (d::·) ih

theorem gather_run {fuel : ℕ} {ops : List Op} {rs : List (Result T)}
    (h : List.Forall₂ (σ.ReadsTo scanner fuel db) ops rs) (done : List (Result T)) (g : Gathered T)
    (hg : g.results = done++List.replicate ops.length Result.nothing) :
    ∃ new, run (exec scanner) (σ.gather fuel done.length ops g) db =
        (.ok ⟨done++List.zipWith earlyResult ops rs, lastPuts g.puts (putsOf ops), g.gets++new⟩,
          db) ∧
      (∀ x ∈ new, x.2.reads = true) ∧
      ∀ before : List (Result T), before.length = done.length →
        σ.fillResults (new.map Prod.fst) (new.map fun x => (exec scanner x.2 db).1)
          (before++List.zipWith earlyResult ops rs) = .ok (before++rs) := by
  induction h generalizing done g with
  | nil =>
    refine ⟨[], ?_, fun x hx => absurd hx List.not_mem_nil, fun before _ => rfl⟩
    obtain ⟨results, puts, gets⟩ := g
    simp only at hg
    subst hg
    simp only [List.append_nil]
    rfl
  | @cons op r ops rs hop _ ih =>
    obtain ⟨results, puts, gets⟩ := g
    simp only at hg
    subst hg
    have hlength : ∀ r : Result T, (done++[r]).length = done.length+1 :=
      fun r => List.length_append
    have hset : ∀ r : Result T,
        (done++List.replicate (ops.length+1) (Result.nothing : Result T)).set done.length r =
          (done++[r])++List.replicate ops.length Result.nothing := by
      intro r
      rw [List.replicate_succ, set_middle, List.append_assoc]
      rfl
    have hopen : done++List.replicate (ops.length+1) (Result.nothing : Result T) =
        (done++[Result.nothing])++List.replicate ops.length Result.nothing := by
      rw [List.replicate_succ, List.append_assoc]
      rfl
    -- A result that is known at once is left as it is when the gets are filled in.
    have hkept : ∀ (r : Result T) (new : List (ℕ × Cmd)), earlyResult op r = r →
        (∀ before : List (Result T), before.length = (done++[r]).length →
          σ.fillResults (new.map Prod.fst) (new.map fun x => (exec scanner x.2 db).1)
            (before++List.zipWith earlyResult ops rs) = .ok (before++rs)) →
        ∀ before : List (Result T), before.length = done.length →
          σ.fillResults (new.map Prod.fst) (new.map fun x => (exec scanner x.2 db).1)
            (before++List.zipWith earlyResult (op::ops) (r::rs)) = .ok (before++r::rs) := by
      intro r new hr hfill before hbefore
      have hnext := hfill (before++[r]) (by rw [List.length_append, hbefore, List.length_append])
      rw [List.zipWith_cons_cons, hr]
      simpa only [List.append_assoc, List.singleton_append] using hnext
    cases op with
    | get op =>
      obtain ⟨item, hrun, rfl⟩ := hop
      obtain ⟨c, hc, hresult⟩ := get_ok hrun
      obtain ⟨new, hgather, hreads, hfill⟩ := ih (done++[Result.nothing])
        ⟨done++List.replicate (ops.length+1) Result.nothing, puts, gets++[(done.length, c)]⟩ hopen
      refine ⟨(done.length, c)::new, ?_, ?_, ?_⟩
      · rw [Storage.gather, hc]
        rw [hlength] at hgather
        refine hgather.trans ?_
        simp only [List.zipWith_cons_cons, List.append_assoc, List.singleton_append, earlyResult]
        rfl
      · intro x hx
        rcases List.mem_cons.mp hx with rfl | hx
        · exact itemCommand_reads hc
        · exact hreads x hx
      · intro before hbefore
        simp only [List.map_cons, Storage.fillResults, hresult, bind, Except.bind,
          List.zipWith_cons_cons, earlyResult]
        rw [← hbefore, set_middle]
        have hnext := hfill (before++[itemOrNothing item]) (by
          rw [List.length_append, hbefore, List.length_append]
          rfl)
        simpa only [List.append_assoc, List.singleton_append] using hnext
    | search op =>
      obtain ⟨items, hrun, rfl⟩ := hop
      obtain ⟨new, hgather, hreads, hfill⟩ := ih (done++[Result.items items])
        ⟨(done++[Result.items items])++List.replicate ops.length Result.nothing, puts, gets⟩ rfl
      refine ⟨new, ?_, hreads, hkept _ new rfl hfill⟩
      rw [Storage.gather, run_bind_ok hrun, List.length_cons, hset]
      rw [hlength] at hgather
      refine hgather.trans ?_
      simp only [List.zipWith_cons_cons, List.append_assoc, List.singleton_append, earlyResult]
      rfl
    | listNamespaces op =>
      obtain ⟨nss, hrun, rfl⟩ := hop
      obtain ⟨new, hgather, hreads, hfill⟩ := ih (done++[Result.namespaces nss])
        ⟨(done++[Result.namespaces nss])++List.replicate ops.length Result.nothing, puts, gets⟩ rfl
      refine ⟨new, ?_, hreads, hkept _ new rfl hfill⟩
      rw [Storage.gather, run_bind_ok hrun, List.length_cons, hset]
      rw [hlength] at hgather
      refine hgather.trans ?_
      simp only [List.zipWith_cons_cons, List.append_assoc, List.singleton_append, earlyResult]
      rfl
    | put op =>
      cases hop
      obtain ⟨new, hgather, hreads, hfill⟩ := ih (done++[Result.nothing])
        ⟨done++List.replicate (ops.length+1) Result.nothing, Dict.set puts op.path op, gets⟩ hopen
      refine ⟨new, ?_, hreads, hkept _ new rfl hfill⟩
      rw [Storage.gather]
      rw [hlength] at hgather
      refine hgather.trans ?_
      simp only [List.zipWith_cons_cons, List.append_assoc, List.singleton_append, earlyResult]
      rfl

theorem readGets_run {g : Gathered T} {rs : List (Result T)} (hreads : ∀ x ∈ g.gets, x.2.reads = true)
    (hfill : σ.fillResults (g.gets.map Prod.fst) (g.gets.map fun x => (exec scanner x.2 db).1)
      g.results = .ok rs) :
    run (exec scanner) (σ.readGets g) db = (.ok rs, db) := by
  unfold Storage.readGets
  by_cases hempty : g.gets.isEmpty = true
  · rw [if_pos hempty]
    rw [List.isEmpty_iff.mp hempty] at hfill
    exact congrArg (·, db) hfill
  · rw [if_neg hempty]
    have hexec : execAll (exec scanner) (g.gets.map Prod.snd) db =
        ((g.gets.map Prod.snd).map fun c => (exec scanner c db).1, db) := by
      refine execAll_reading fun c hc => ?_
      obtain ⟨x, hx, rfl⟩ := List.mem_map.mp hc
      exact exec_reads (hreads x hx)
    rw [run_bind_ok (run_batch _ _), hexec, List.map_map]
    have hitems : batchItems g.gets.length
        (g.gets.map ((fun c => (exec scanner c db).1) ∘ Prod.snd)) =
          .ok (g.gets.map fun x => (exec scanner x.2 db).1) := if_pos (List.length_map _)
    rw [hitems]
    exact congrArg (·, db) hfill

/-- The part of a batch before its writes. -/
theorem reads_run {fuel : ℕ} {ops : List Op} {rs : List (Result T)}
    (h : List.Forall₂ (σ.ReadsTo scanner fuel db) ops rs) :
    ∃ g, run (exec scanner) (σ.gather fuel 0 ops
        ⟨List.replicate ops.length Result.nothing, [], []⟩) db = (.ok g, db) ∧
      g.puts = lastPuts [] (putsOf ops) ∧
      run (exec scanner) (σ.readGets g) db = (.ok rs, db) := by
  obtain ⟨new, hgather, hreads, hfill⟩ := gather_run h []
    ⟨List.replicate ops.length Result.nothing, [], []⟩ rfl
  exact ⟨_, hgather, rfl, readGets_run hreads (hfill [] rfl)⟩

/-!
## The writes of a batch

The removals and the writes of a batch concern different items. A written item keeps the
time at which it was created if it was there before the batch.
-/

variable {T : Type} {σ : Storage T} {U : Set (List Str)} {scanner : Scanner Str Bytes Str} {db : Db}

section Times

/-- The item that is stored at a path. -/
def Storage.itemIn (σ : Storage T) (db : Db) (path : List Str × Str) : Option (Item T) :=
  (db.get (σ.hashKey path.1) (fieldCode path.2)).bind fun b => (σ.decodeItem b).toOption

def pathsOf (pending : List (PendingPut T)) : List (List Str × Str) :=
  pending.map fun item => item.op.path

/-- The items of the paths, where they are present, have their own records. -/
def Storage.OwnRecords (σ : Storage T) (db : Db) (paths : List (List Str × Str)) : Prop :=
  ∀ p ∈ paths, ∀ b, db.get (σ.hashKey p.1) (fieldCode p.2) = some b → σ.OwnRecord p b

theorem pathsOf_cons (item : PendingPut T) (pending : List (PendingPut T)) :
    pathsOf (item::pending) = item.op.path::pathsOf pending := rfl

theorem expectItem_own {db : Db} {p : List Str × Str} (message : String)
    (h : ∀ b, db.get (σ.hashKey p.1) (fieldCode p.2) = some b → σ.OwnRecord p b) :
    σ.expectItem message p (.value (db.get (σ.hashKey p.1) (fieldCode p.2))) =
      .ok (σ.itemIn db p) := by
  unfold Storage.itemIn
  cases hcell : db.get (σ.hashKey p.1) (fieldCode p.2) with
  | none => rfl
  | some b =>
    obtain ⟨item, hitem, hns, hkey⟩ := h b hcell
    change (do
      let item ← σ.decodeItem b
      if item.namespace_ = p.1 ∧ item.key = p.2 then .ok (some item)
      else .error (valueError message)) = _
    rw [Option.bind_some, hitem]
    have hsame : item.namespace_ = p.1 ∧ item.key = p.2 := ⟨hns, hkey⟩
    exact if_pos hsame

theorem createdTimes_run {db : Db} {pending : List (PendingPut T)}
    (h : σ.OwnRecords db (pathsOf pending)) (created : Dict (List Str × Str) T) :
    ∃ created', σ.createdTimes pending (pending.map fun item =>
        .value (db.get (σ.hashKey item.op.path.1) (fieldCode item.op.path.2))) created =
          .ok created' ∧
      ∀ p, Dict.get? created' p = if p ∈ pathsOf pending then
        ((σ.itemIn db p).map Item.createdAt).or (Dict.get? created p) else Dict.get? created p := by
  induction pending generalizing created with
  | nil => exact ⟨created, rfl, fun p => rfl⟩
  | cons item pending ih =>
    have hrest : σ.OwnRecords db (pathsOf pending) :=
      fun p hp => h p (List.mem_cons_of_mem _ hp)
    have hitem := expectItem_own "FerricStore LangGraph item key mismatch"
      (h item.op.path List.mem_cons_self)
    cases hexisting : σ.itemIn db item.op.path with
    | none =>
      obtain ⟨created', hrun, hget⟩ := ih hrest created
      refine ⟨created', ?_, fun p => ?_⟩
      · rw [hexisting] at hitem
        simp only [List.map_cons, Storage.createdTimes, hitem, bind, Except.bind]
        exact hrun
      · rw [hget p, pathsOf_cons]
        by_cases hp : p ∈ pathsOf pending
        · rw [if_pos hp, if_pos (List.mem_cons_of_mem _ hp)]
        · rw [if_neg hp]
          by_cases heq : p = item.op.path
          · rw [if_pos (heq ▸ List.mem_cons_self), heq, hexisting]
            rfl
          · rw [if_neg fun hmem => (List.mem_cons.mp hmem).elim heq hp]
    | some existing =>
      obtain ⟨created', hrun, hget⟩ :=
        ih hrest (Dict.set created item.op.path existing.createdAt)
      refine ⟨created', ?_, fun p => ?_⟩
      · rw [hexisting] at hitem
        simp only [List.map_cons, Storage.createdTimes, hitem, bind, Except.bind]
        exact hrun
      · rw [hget p, Dict.get?_set, pathsOf_cons]
        by_cases heq : item.op.path = p
        · subst heq
          have hmem : item.op.path ∈ item.op.path::pathsOf pending := List.mem_cons_self
          rw [if_pos rfl, if_pos hmem, hexisting]
          split_ifs <;> rfl
        · rw [if_neg heq]
          by_cases hp : p ∈ pathsOf pending
          · rw [if_pos hp, if_pos (List.mem_cons_of_mem _ hp)]
          · rw [if_neg hp, if_neg fun hmem => (List.mem_cons.mp hmem).elim (Ne.symm heq) hp]

theorem get?_stamps {pending : List (PendingPut T)} (hnodup : (pathsOf pending).Nodup)
    {item : PendingPut T} (hitem : item ∈ pending) :
    Dict.get? (stamps pending) item.op.path = some item.timestamp := by
  have hupdate : stamps pending = Dict.update []
      (pending.map fun item => (item.op.path, item.timestamp)) := by
    rw [stamps, Dict.update, List.foldl_map]
  have hkeys : ((pending.map fun item => (item.op.path, item.timestamp)).map Prod.fst).Nodup := by
    rw [List.map_map]
    exact hnodup
  rw [hupdate, Dict.get?_update _ _ _ hkeys,
    Dict.get?_of_mem hkeys (List.mem_map.mpr ⟨item, hitem, rfl⟩)]
  rfl

end Times

section Pending

variable {clock : ℕ → T} {ops : List PutOp}

theorem map_op_pendingPuts :
    (pendingPuts clock ops).map PendingPut.op = ops.filter fun op => !op.value.isNone := by
  refine List.ext_getElem (by simp [pendingPuts]) fun i hi hi' => ?_
  simp [pendingPuts]

theorem pathsOf_pendingPuts_nodup (h : (ops.map PutOp.path).Nodup) :
    (pathsOf (pendingPuts clock ops)).Nodup := by
  have hpaths : pathsOf (pendingPuts clock ops) =
      (ops.filter fun op => !op.value.isNone).map PutOp.path := by
    rw [← @map_op_pendingPuts T clock ops, List.map_map]
    rfl
  rw [hpaths]
  exact h.sublist (List.filter_sublist.map _)

theorem exists_pendingPut {op : PutOp} (hop : op ∈ ops) (hvalue : op.value.isNone = false) :
    ∃ item ∈ pendingPuts clock ops, item.op = op := by
  have hmem : op ∈ (pendingPuts clock ops).map PendingPut.op := by
    rw [map_op_pendingPuts]
    exact List.mem_filter.mpr ⟨hop, by rw [hvalue]; rfl⟩
  obtain ⟨item, hitem, rfl⟩ := List.mem_map.mp hmem
  exact ⟨item, hitem, rfl⟩

theorem pendingPut_time {item : PendingPut T} (h : item ∈ pendingPuts clock ops) :
    ∃ i, item.timestamp = clock i := by
  obtain ⟨i, hi, rfl⟩ := List.mem_mapIdx.mp h
  exact ⟨i, rfl⟩

end Pending

section Commands

variable {ops : List PutOp}

theorem mapM_exists {γ δ ε : Type} {f : γ → Except ε δ} {xs : List γ}
    (h : ∀ x ∈ xs, ∃ y, f x = .ok y) : ∃ ys, xs.mapM f = .ok ys := by
  induction xs with
  | nil => exact ⟨[], rfl⟩
  | cons x xs ih =>
    obtain ⟨y, hy⟩ := h x List.mem_cons_self
    obtain ⟨ys, hys⟩ := ih fun z hz => h z (List.mem_cons_of_mem x hz)
    refine ⟨y::ys, ?_⟩
    rw [List.mapM_cons, hy, hys]
    rfl

/-- The puts concern items that the store can hold. -/
def Placed (U : Set (List Str)) (ops : List PutOp) : Prop :=
  ∀ op ∈ ops, ∃ y : Place U, op.path = y.path

theorem unlessEmpty_run (cs : List Cmd) (db : Db) :
    run (exec scanner) (unlessEmpty cs) db = (.ok (), (execAll (exec scanner) cs db).2) := by
  cases cs with
  | nil => rfl
  | cons c cs => rfl

def Storage.removalOf (σ : Storage T) (op : PutOp) : Cmd :=
  .hdel (σ.hashKey op.namespace_) (fieldCode op.key)

theorem deleteItems_eq (h : Placed U ops) :
    (removals ops).mapM σ.deleteItem = .ok ((removals ops).map σ.removalOf) := by
  refine mapM_eq_ok fun op hop => ?_
  obtain ⟨y, hy⟩ := h op (mem_removals hop)
  rw [deleteItem_eq y hy]
  obtain ⟨hns, hkey⟩ := Prod.mk.inj hy
  rw [Storage.removalOf, hns, hkey]

/-- Commands on catalogs leave the fields as they are. -/
theorem indexCommands_get {command : Str → Bytes → Cmd} {γ : Type} {f : γ → PutOp} {xs : List γ}
    (hcommand : ∀ k m key field, ¬(command k m).writesAt key field) {cs : List (List Cmd)}
    (hcs : xs.mapM (fun x => σ.indexCommands command (f x)) = .ok cs) (db : Db) (key field : Str) :
    (execAll (exec scanner) cs.flatten db).2.get key field = db.get key field := by
  rw [get_execAll]
  refine foldl_writes_unchanged fun c hc => ?_
  obtain ⟨commands, hcommands, hc⟩ := List.mem_flatten.mp hc
  obtain ⟨x, -, hx⟩ := forall₂_mem_right (mapM_forall₂ hcs) hcommands
  obtain ⟨q, -, hq⟩ := forall₂_mem_right (mapM_forall₂ hx) hc
  obtain ⟨k, -, hq⟩ := except_bind_eq_ok hq
  obtain ⟨m, -, hq⟩ := except_bind_eq_ok hq
  cases hq
  exact hcommand k m key field

theorem indexCommands_exist {command : Str → Bytes → Cmd} {γ : Type} {f : γ → PutOp}
    {xs : List γ} (h : ∀ x ∈ xs, ∃ y : Place U, (f x).path = y.path) :
    ∃ cs, xs.mapM (fun x => σ.indexCommands command (f x)) = .ok cs := by
  refine mapM_exists fun x hx => ?_
  obtain ⟨y, hy⟩ := h x hx
  exact ⟨_, indexCommands_eq y hy command⟩

/-- Two puts of one cell are puts of one item. -/
theorem CollisionFree.path_inj (hU : CollisionFree σ U) {op op' : PutOp}
    (h : ∃ y : Place U, op.path = y.path) (h' : ∃ y : Place U, op'.path = y.path)
    (hkey : σ.hashKey op.namespace_ = σ.hashKey op'.namespace_)
    (hfield : fieldCode op.key = fieldCode op'.key) : op.path = op'.path := by
  obtain ⟨y, hy⟩ := h
  obtain ⟨y', hy'⟩ := h'
  obtain ⟨hns, hk⟩ := Prod.mk.inj hy
  obtain ⟨hns', hk'⟩ := Prod.mk.inj hy'
  rw [hns, hns'] at hkey
  rw [hk, hk'] at hfield
  rw [hy, hy', hU.cell_inj hkey hfield]

end Commands

end FerricStore.MemoryStore
