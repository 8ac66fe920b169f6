import FerricStore.MemoryJobs

/-!
# Searches of the memory store

A loop over a catalog reads the items of all its members in their order, whatever the
page size, and skips a member whose item is absent. A search returns a slice of the items
that match.
-/

set_option autoImplicit false

namespace FerricStore.MemoryStore
open Text OrderedKeys StorageKeys CommandPlans KeyedDatabase

variable {T : Type} {σ : Storage T} {U : Set (List Str)} {scanner : Scanner Str Bytes Str} {db : Db}

section Pages

def pathAt (m : Bytes) : List Str × Str :=
  match decodeMember m with
  | .ok path => path
  | .error _ => ([], [])

/-- The item of a catalog member, if it is present. -/
def Storage.itemAt (σ : Storage T) (db : Db) (m : Bytes) : Option (Item T) :=
  (db.get (σ.hashKey (pathAt m).1) (fieldCode (pathAt m).2)).bind fun b => (σ.decodeItem b).toOption

theorem pathAt_memberCode (x : Place U) : pathAt (memberCode x.path) = x.path := by
  rw [pathAt, decodeMember_memberCode x.itemPath]

/-- The members belong to items whose records, where they are present, are their own. -/
def Storage.Legible (σ : Storage T) (U : Set (List Str)) (db : Db) (ms : List Bytes) : Prop :=
  ∀ m ∈ ms, ∃ x : Place U, m = memberCode x.path ∧
    ∀ b, db.get (σ.hashKey x.namespace_) (fieldCode x.key) = some b → σ.OwnRecord x.path b

theorem decodeMembers {ms : List Bytes} (h : σ.Legible U db ms) :
    ms.mapM decodeMember = .ok (ms.map pathAt) := by
  refine mapM_eq_ok fun m hm => ?_
  obtain ⟨x, rfl, -⟩ := h m hm
  rw [decodeMember_memberCode x.itemPath, pathAt_memberCode]

def Storage.cellRead (σ : Storage T) (path : List Str × Str) : Cmd :=
  .hget (σ.hashKey path.1) (fieldCode path.2)

theorem itemCommands {ms : List Bytes} (h : σ.Legible U db ms) :
    (ms.map pathAt).mapM σ.itemCommand = .ok ((ms.map pathAt).map σ.cellRead) := by
  refine mapM_eq_ok fun path hpath => ?_
  obtain ⟨m, hm, rfl⟩ := List.mem_map.mp hpath
  obtain ⟨x, rfl, -⟩ := h m hm
  rw [pathAt_memberCode, itemCommand_eq x]
  rfl

theorem readResponses_eq {ms : List Bytes} (h : σ.Legible U db ms) :
    σ.readResponses (ms.map pathAt)
      (((ms.map pathAt).map σ.cellRead).map fun c => (exec scanner c db).1) =
        .ok (ms.map (σ.itemAt db)) := by
  induction ms with
  | nil => rfl
  | cons m ms ih =>
    obtain ⟨x, rfl, hown⟩ := h m List.mem_cons_self
    have hrest := ih fun m' hm' => h m' (List.mem_cons_of_mem _ hm')
    have hitem : σ.expectItem "FerricStore LangGraph item/catalog mismatch"
        (pathAt (memberCode x.path)) (exec scanner (σ.cellRead (pathAt (memberCode x.path))) db).1 =
          .ok (σ.itemAt db (memberCode x.path)) := by
      rw [pathAt_memberCode]
      have hvalue : (exec scanner (σ.cellRead x.path) db).1 =
          .value (db.get (σ.hashKey x.namespace_) (fieldCode x.key)) := rfl
      rw [Storage.itemAt, pathAt_memberCode, hvalue]
      change _ = Except.ok
        ((db.get (σ.hashKey x.namespace_) (fieldCode x.key)).bind fun b => (σ.decodeItem b).toOption)
      cases hget : db.get (σ.hashKey x.namespace_) (fieldCode x.key) with
      | none => rfl
      | some b =>
        obtain ⟨item, hitem, hns, hkey⟩ := hown b hget
        simp only [Storage.expectItem, storedValue, hitem, bind, Except.bind, hns, hkey, and_self,
          if_true, Option.bind_some]
        rfl
    simp only [List.map_cons, Storage.readResponses, hitem, hrest, bind, Except.bind]

theorem readCatalogItems_run {ms : List Bytes} (h : σ.Legible U db ms) :
    run (exec scanner) (σ.readCatalogItems (ms.map pathAt)) db =
      (.ok (ms.map (σ.itemAt db)), db) := by
  unfold Storage.readCatalogItems
  by_cases hempty : ms.map pathAt = []
  · rw [if_pos hempty, List.map_eq_nil_iff.mp hempty]
    rfl
  · rw [if_neg hempty, itemCommands h]
    have hreads : ∀ c ∈ (ms.map pathAt).map σ.cellRead, (exec scanner c db).2 = db := by
      intro c hc
      obtain ⟨path, -, rfl⟩ := List.mem_map.mp hc
      rfl
    have hexec := execAll_reading hreads
    change run (exec scanner) (do
      let responses ← .lift (batchItems (ms.map pathAt).length
        (execAll (exec scanner) ((ms.map pathAt).map σ.cellRead) db).1)
      .lift (σ.readResponses (ms.map pathAt) responses) : StorePlan _)
        (execAll (exec scanner) ((ms.map pathAt).map σ.cellRead) db).2 = _
    rw [hexec, batchItems, if_pos (by simp)]
    change (σ.readResponses _ _, db) = _
    rw [readResponses_eq h]

theorem catalogPage_run {q : List Str} (hq : ∀ s ∈ q, Storable s)
    (h : σ.Legible U db (db.zsets (σ.catalogCode q)).members) (start : ℕ) :
    run (exec scanner) (σ.catalogPage q start σ.scanCount) db =
      (.ok ((((db.zsets (σ.catalogCode q)).members.drop start).take σ.scanCount).map pathAt),
        db) := by
  have hpage : σ.Legible U db
      (((db.zsets (σ.catalogCode q)).members.drop start).take σ.scanCount) :=
    fun m hm => h m (List.drop_subset _ _ (List.take_subset _ _ hm))
  unfold Storage.catalogPage
  rw [prefixCatalogKey_eq σ hq]
  change (List.mapM decodeMember (slice start (start+σ.scanCount-1 : ℤ)
    (db.zsets (σ.catalogCode q)).members), db) = _
  rw [slice_page _ _ σ.scanCount_pos, decodeMembers hpage]

end Pages

section Loop

variable {ρ : Type} (visit : ρ → Item T → Except StorageError (Bool × ρ))

theorem visitItems_append (xs ys : List (Option (Item T))) (found : ρ) :
    visitItems visit (xs++ys) found = (do
      let (full, found) ← visitItems visit xs found
      if full then .ok (true, found) else visitItems visit ys found) := by
  induction xs generalizing found with
  | nil => rfl
  | cons x xs ih =>
    cases x with
    | none => exact ih found
    | some item =>
      simp only [List.cons_append, visitItems]
      cases visit found item with
      | error e => rfl
      | ok r =>
        obtain ⟨full, found'⟩ := r
        cases full with
        | true => rfl
        | false => exact ih found'

/-- A loop over a catalog visits the items of its members, page after page. -/
theorem scanCatalog_run {q : List Str} (hq : ∀ s ∈ q, Storable s)
    (h : σ.Legible U db (db.zsets (σ.catalogCode q)).members) (fuel start : ℕ) (found : ρ)
    (hfuel : (db.zsets (σ.catalogCode q)).members.length-start < fuel) :
    run (exec scanner) (σ.scanCatalog visit q fuel start found) db =
      ((visitItems visit (((db.zsets (σ.catalogCode q)).members.drop start).map (σ.itemAt db))
        found).map Prod.snd, db) := by
  induction fuel generalizing start found with
  | zero => exact absurd hfuel (Nat.not_lt_zero _)
  | succ fuel ih =>
    let ms := (db.zsets (σ.catalogCode q)).members
    let page := (ms.drop start).take σ.scanCount
    have hpage : σ.Legible U db page :=
      fun m hm => h m (List.drop_subset _ _ (List.take_subset _ _ hm))
    have hsplit : ms.drop start = page++ms.drop (start+page.length) := by
      rw [← List.drop_drop]
      exact (List.prefix_iff_eq_append.mp (List.take_prefix σ.scanCount (ms.drop start))).symm
    unfold Storage.scanCatalog
    rw [run_bind_ok (catalogPage_run hq h start)]
    by_cases hempty : page.map pathAt = []
    · rw [if_pos hempty]
      have hnil : page = [] := List.map_eq_nil_iff.mp hempty
      have hdrop : ms.drop start = [] := by
        rcases List.take_eq_nil_iff.mp hnil with hzero | hdrop
        · exact absurd hzero σ.scanCount_pos.ne'
        · exact hdrop
      change _ = ((visitItems visit ((ms.drop start).map (σ.itemAt db)) found).map Prod.snd, db)
      rw [hdrop]
      rfl
    · rw [if_neg hempty, run_bind_ok (readCatalogItems_run hpage)]
      have hwhole : visitItems visit ((ms.drop start).map (σ.itemAt db)) found = (do
          let (full, found) ← visitItems visit (page.map (σ.itemAt db)) found
          if full then .ok (true, found)
          else visitItems visit ((ms.drop (start+page.length)).map (σ.itemAt db)) found) := by
        rw [← visitItems_append, ← List.map_append, ← hsplit]
      change _ = ((visitItems visit ((ms.drop start).map (σ.itemAt db)) found).map Prod.snd, db)
      rw [hwhole]
      cases hvisit : visitItems visit (page.map (σ.itemAt db)) found with
      | error e => rfl
      | ok r =>
        obtain ⟨full, found'⟩ := r
        rw [Plan.lift_bind]
        simp only [bind, Except.bind]
        cases full with
        | true => rfl
        | false =>
          rw [List.length_map]
          simp only [Bool.false_eq_true, false_or, if_false]
          have hpos : 0 < page.length :=
            List.length_pos_iff.mpr fun hnil => hempty (List.map_eq_nil_iff.mpr hnil)
          have hstart : start < ms.length := by
            have hlength : page.length ≤ (ms.drop start).length := List.length_take_le' _ _
            rw [List.length_drop] at hlength
            omega
          by_cases hshort : page.length < σ.scanCount
          · rw [if_pos hshort]
            have hlast : ms.drop (start+page.length) = [] := by
              rw [List.drop_eq_nil_iff]
              have hlength : page.length = min σ.scanCount (ms.drop start).length :=
                List.length_take
              rw [List.length_drop] at hlength
              omega
            rw [hlast]
            rfl
          · rw [if_neg hshort]
            have hless : ms.length-(start+page.length) < fuel := by
              have hold : ms.length-start < fuel+1 := hfuel
              omega
            exact ih (start+page.length) found' hless

/-- A loop that ended ends with more fuel. -/
theorem scanCatalog_more {q : List Str} {fuel start : ℕ} {found r : ρ} {t : Db}
    (h : run (exec scanner) (σ.scanCatalog visit q fuel start found) db = (.ok r, t)) :
    run (exec scanner) (σ.scanCatalog visit q (fuel+1) start found) db = (.ok r, t) := by
  induction fuel generalizing start found db with
  | zero => cases h
  | succ fuel ih =>
    unfold Storage.scanCatalog at h ⊢
    rw [run_bind] at h ⊢
    cases hpage : run (exec scanner) (σ.catalogPage q start σ.scanCount) db with
    | mk result s =>
      rw [hpage] at h
      cases result with
      | error e => cases h
      | ok locators =>
        simp only at h ⊢
        by_cases hempty : locators = []
        · rw [if_pos hempty] at h ⊢
          exact h
        · rw [if_neg hempty, run_bind] at h ⊢
          cases hread : run (exec scanner) (σ.readCatalogItems locators) s with
          | mk result' s' =>
            rw [hread] at h
            cases result' with
            | error e => cases h
            | ok items =>
              simp only [Plan.lift_bind] at h ⊢
              cases hvisit : visitItems visit items found with
              | error e =>
                rw [hvisit] at h
                cases h
              | ok visited =>
                rw [hvisit] at h
                simp only at h ⊢
                by_cases hdone : visited.1 = true ∨ locators.length < σ.scanCount
                · rw [if_pos hdone] at h ⊢
                  exact h
                · rw [if_neg hdone] at h ⊢
                  exact ih h

end Loop

section Matches

variable {op : SearchOp}

/-- The items of the members that the filter accepts. -/
def matching (accepts : Value → Bool) (items : List (Option (Item T))) : List (Item T) :=
  (items.filterMap id).filter fun item => accepts item.value

/-- One more result keeps the slice that the results and what is still to come make up. -/
theorem Found.add_slice {ρ : Type} {limit offset : ℤ} {found : Found ρ} (r : ρ)
    (hlimit : (found.results.length : ℤ) < limit)
    (hoffset : found.results = [] ∨ offset ≤ found.matched) (rest : List ρ) :
    let next := found.add limit offset r
    let slice := found.results++((r::rest).drop (offset-found.matched).toNat).take
      (limit-found.results.length).toNat
    (next.1 = true ∧ next.2.results = slice) ∨
      (next.1 = false ∧ (next.2.results.length : ℤ) < limit ∧
        (next.2.results = [] ∨ offset ≤ next.2.matched) ∧
        next.2.results++(rest.drop (offset-next.2.matched).toNat).take
          (limit-next.2.results.length).toNat = slice) := by
  simp only [Found.add]
  by_cases hskip : (found.matched : ℤ) < offset
  · have hnil : found.results = [] := hoffset.resolve_right (not_le.mpr hskip)
    have hdrop : (offset-found.matched).toNat = (offset-(found.matched+1 : ℕ)).toNat+1 := by omega
    rw [if_pos hskip, hdrop, List.drop_succ_cons]
    exact .inr ⟨rfl, hlimit, .inl hnil, rfl⟩
  · have hdrop : (offset-found.matched).toNat = 0 := by omega
    rw [if_neg hskip, hdrop, List.drop_zero]
    by_cases hfull : (found.results.length+1 : ℤ) = limit
    · have hone : (limit-found.results.length).toNat = 0+1 := by omega
      rw [hone, List.take_succ_cons, List.take_zero]
      exact .inl ⟨decide_eq_true hfull, rfl⟩
    · have hmore : (limit-found.results.length).toNat =
          (limit-(found.results++[r]).length).toNat+1 := by
        simp only [List.length_append, List.length_singleton]
        omega
      refine .inr ⟨decide_eq_false hfull, ?_, .inr (not_lt.mp hskip), ?_⟩
      · simp only [List.length_append, List.length_singleton]
        omega
      · rw [hmore, List.take_succ_cons, List.drop_zero, List.append_assoc]
        rfl

theorem visitMatch_slice {accepts : Value → Bool} (hop : ∀ v, op.accepts v = .ok (accepts v))
    (items : List (Option (Item T))) (found : Found (Item T))
    (hlimit : (found.results.length : ℤ) < op.limit)
    (hoffset : found.results = [] ∨ op.offset ≤ found.matched) :
    ∃ full found', visitItems (visitMatch op) items found = .ok (full, found') ∧
      found'.results = found.results++((matching accepts items).drop
        (op.offset-found.matched).toNat).take (op.limit-found.results.length).toNat := by
  induction items generalizing found with
  | nil => exact ⟨false, found, rfl, by simp [matching]⟩
  | cons x items ih =>
    cases x with
    | none => exact ih found hlimit hoffset
    | some item =>
      have hvisit : visitMatch op found item =
          if accepts item.value then .ok (found.add op.limit op.offset item)
          else .ok (false, found) := by
        rw [visitMatch, hop]
        rfl
      have hmatching : matching accepts (some item::items) =
          if accepts item.value then item::matching accepts items else matching accepts items := by
        change (item::items.filterMap id).filter (fun item => accepts item.value) = _
        rw [List.filter_cons]
        rfl
      rw [hmatching]
      cases haccepts : accepts item.value with
      | false =>
        rw [haccepts] at hvisit
        simp only [Bool.false_eq_true, if_false] at hvisit ⊢
        simp only [visitItems, hvisit, bind, Except.bind, Bool.false_eq_true, if_false]
        exact ih found hlimit hoffset
      | true =>
        rw [haccepts] at hvisit
        simp only [if_true] at hvisit ⊢
        simp only [visitItems, hvisit, bind, Except.bind]
        rcases found.add_slice item hlimit hoffset (matching accepts items) with
          ⟨hfull, hresults⟩ | ⟨hmore, hlimit', hoffset', hslice⟩
        · rw [hfull]
          exact ⟨true, _, rfl, hresults⟩
        · rw [hmore]
          obtain ⟨full, found', hrun, hresults⟩ := ih _ hlimit' hoffset'
          exact ⟨full, found', hrun, hresults.trans hslice⟩

theorem visitMatch_found {items : List (Option (Item T))} {found found' : Found (Item T)}
    {full : Bool} (h : visitItems (visitMatch op) items found = .ok (full, found')) :
    ∀ item ∈ found'.results, item ∈ found.results ∨ some item ∈ items := by
  induction items generalizing found with
  | nil =>
    cases h
    exact fun item hitem => .inl hitem
  | cons x items ih =>
    cases x with
    | none =>
      intro item hitem
      exact (ih h item hitem).imp_right (List.mem_cons_of_mem _)
    | some y =>
      simp only [visitItems] at h
      obtain ⟨⟨stop, next⟩, hvisit, h⟩ := except_bind_eq_ok h
      have hnext : ∀ item ∈ next.results, item ∈ found.results ∨ item = y := by
        obtain ⟨accepted, -, hvisit⟩ := except_bind_eq_ok hvisit
        intro item hitem
        split_ifs at hvisit
        · have heq := congrArg Prod.snd (Except.ok.inj hvisit)
          simp only [Found.add] at heq
          split_ifs at heq
          · subst heq
            exact .inl hitem
          · subst heq
            exact (List.mem_append.mp hitem).imp_right List.mem_singleton.mp
        · cases hvisit
          exact .inl hitem
      have hhead : ∀ item ∈ next.results, item ∈ found.results ∨ some item ∈ some y::items :=
        fun item hitem => (hnext item hitem).imp_right fun (heq : item = y) =>
          heq ▸ List.mem_cons_self
      intro item hitem
      simp only at h
      split_ifs at h
      · cases h
        exact hhead item hitem
      · rcases ih h item hitem with hitem | hitem
        · exact hhead item hitem
        · exact .inr (List.mem_cons_of_mem _ hitem)

end Matches

end FerricStore.MemoryStore
