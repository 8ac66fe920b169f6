import FerricStore.MemorySearch

/-!
# Coverage of the memory store in every history

An item that a get returns is found by every search and every listing that its namespace
matches, and what these return is the namespace or the item of such a get. This holds in
every state of a history of batches, however far each of them came.
-/

set_option autoImplicit false

namespace FerricStore.MemoryStore
open Text OrderedKeys StorageKeys CommandPlans KeyedDatabase

variable {T : Type} {σ : Storage T} {U : Set (List Str)} {scanner : Scanner Str Bytes Str} {db : Db}

section Namespaces

variable {op : ListNamespacesOp}

/-- Conditions of the two types that the store knows. -/
def Supported (conditions : List MatchCondition) : Prop :=
  ∀ c ∈ conditions, c.matchType = .prefixed ∨ c.matchType = .suffixed

theorem matchesAll_supported {conditions : List MatchCondition} (h : Supported conditions)
    (ns : List Str) : ∃ b, matchesAll ns conditions = .ok b := by
  induction conditions with
  | nil => exact ⟨true, rfl⟩
  | cons c conditions ih =>
    have hc : ∃ b, matchesNamespace c ns = .ok b := by
      unfold matchesNamespace
      split_ifs
      · exact ⟨_, rfl⟩
      · rcases h c List.mem_cons_self with htype | htype
        · rw [htype]
          exact ⟨_, rfl⟩
        · rw [htype]
          exact ⟨_, rfl⟩
    obtain ⟨b, hb⟩ := hc
    rw [matchesAll, hb]
    cases b with
    | true => exact ih fun d hd => h d (List.mem_cons_of_mem c hd)
    | false => exact ⟨false, rfl⟩

theorem matchesAll_each {conditions : List MatchCondition} {ns : List Str}
    (h : matchesAll ns conditions = .ok true) : ∀ c ∈ conditions, matchesNamespace c ns = .ok true := by
  induction conditions with
  | nil => exact fun c hc => absurd hc List.not_mem_nil
  | cons c conditions ih =>
    obtain ⟨b, hb, h⟩ := except_bind_eq_ok h
    cases b with
    | false => cases h
    | true =>
      intro d hd
      rcases List.mem_cons.mp hd with rfl | hd
      · exact hb
      · exact ih h d hd

theorem prefix_of_zip {ns path : List Str} (hlength : path.length ≤ ns.length)
    (hwild : wildcard ∉ path)
    (h : (ns.zip path).all (fun p => p.2 = wildcard ∨ p.1 = p.2) = true) : path <+: ns := by
  induction path generalizing ns with
  | nil => exact List.nil_prefix
  | cons s path ih =>
    cases ns with
    | nil => exact absurd hlength (Nat.not_succ_le_zero _)
    | cons t ns =>
      simp only [List.zip_cons_cons, List.all_cons, Bool.and_eq_true, decide_eq_true_eq] at h
      have hs : s ≠ wildcard := fun heq => hwild (heq ▸ List.mem_cons_self)
      have hts : t = s := h.1.resolve_left hs
      subst hts
      have hrest := ih (Nat.le_of_succ_le_succ hlength)
        (fun hmem => hwild (List.mem_cons_of_mem _ hmem)) h.2
      exact List.cons_prefix_cons.mpr ⟨rfl, hrest⟩

/-- The catalog that a listing reads is one of a prefix of each namespace that it selects. -/
theorem catalogPrefix_starts {ns : List Str}
    (h : matchesAll ns op.matchConditions = .ok true) : catalogPrefix op <+: ns := by
  have hall := matchesAll_each h
  unfold catalogPrefix
  generalize op.matchConditions = conditions at hall
  have hl : ([] : List Str) <+: ns := List.nil_prefix
  generalize ([] : List Str) = longest at hl ⊢
  induction conditions generalizing longest with
  | nil => exact hl
  | cons c conditions ih =>
    rw [List.foldl_cons]
    refine ih (fun d hd => hall d (List.mem_cons_of_mem c hd)) _ ?_
    cases htype : c.matchType with
    | prefixed =>
      simp only
      split_ifs with hif
      · have hc := hall c List.mem_cons_self
        unfold matchesNamespace at hc
        split_ifs at hc with hshort
        · cases hc
        · rw [htype] at hc
          exact prefix_of_zip (not_lt.mp hshort) hif.1 (Except.ok.inj hc)
      · exact hl
    | suffixed => exact hl
    | other name => exact hl

theorem visitNamespace_eq {listed : Listed} {item : Item T} {matched : Bool}
    (h : matchesAll item.namespace_ op.matchConditions = .ok matched) :
    visitNamespace op listed item =
      if matched = true ∧ listed.last ≠ some (truncated op.maxDepth item.namespace_) then
        .ok ((listed.found.add op.limit op.offset (truncated op.maxDepth item.namespace_)).1,
          ⟨(listed.found.add op.limit op.offset (truncated op.maxDepth item.namespace_)).2,
            some (truncated op.maxDepth item.namespace_)⟩)
      else .ok (false, listed) := by
  unfold visitNamespace
  rw [h]
  cases matched with
  | false => rfl
  | true =>
    by_cases hsame : listed.last = some (truncated op.maxDepth item.namespace_)
    · simp only [bind, Except.bind, Bool.not_true, Bool.false_eq_true, if_false, hsame, if_true,
        ne_eq, not_true, and_false]
    · simp only [bind, Except.bind, Bool.not_true, Bool.false_eq_true, if_false, hsame, ne_eq,
        not_false_eq_true, and_self, if_true]

/-- A listing with room for every item lists the namespace of every item that matches. -/
theorem visitNamespace_reaches (hsupported : Supported op.matchConditions)
    (hoffset : op.offset ≤ 0) (items : List (Option (Item T))) (listed : Listed)
    (hlast : ∀ s, listed.last = some s → s ∈ listed.found.results)
    (hlimit : (listed.found.results.length+items.length : ℤ) < op.limit) :
    ∃ listed', visitItems (visitNamespace op) items listed = .ok (false, listed') ∧
      (∀ s ∈ listed.found.results, s ∈ listed'.found.results) ∧
      ∀ item, some item ∈ items → matchesAll item.namespace_ op.matchConditions = .ok true →
        truncated op.maxDepth item.namespace_ ∈ listed'.found.results := by
  induction items generalizing listed with
  | nil => exact ⟨listed, rfl, fun s hs => hs, fun item hitem => absurd hitem List.not_mem_nil⟩
  | cons x items ih =>
    simp only [List.length_cons] at hlimit
    cases x with
    | none =>
      obtain ⟨listed', hrun, hkeep, hreach⟩ := ih listed hlast (by push_cast at hlimit; omega)
      refine ⟨listed', hrun, hkeep, fun item hitem hmatch => hreach item ?_ hmatch⟩
      exact (List.mem_cons.mp hitem).resolve_left (fun h => nomatch h)
    | some y =>
      obtain ⟨b, hb⟩ := matchesAll_supported hsupported y.namespace_
      have hstep : ∃ next, visitNamespace op listed y = .ok (false, next) ∧
          (∀ s, next.last = some s → s ∈ next.found.results) ∧
          (next.found.results.length+items.length : ℤ) < op.limit ∧
          (∀ s ∈ listed.found.results, s ∈ next.found.results) ∧
          (b = true → truncated op.maxDepth y.namespace_ ∈ next.found.results) := by
        rw [visitNamespace_eq hb]
        by_cases hnew : b = true ∧ listed.last ≠ some (truncated op.maxDepth y.namespace_)
        · have hnot : ¬(listed.found.matched : ℤ) < op.offset := by omega
          have hroom : ¬(listed.found.results.length+1 : ℤ) = op.limit := by
            push_cast at hlimit
            omega
          have hadd : listed.found.add op.limit op.offset (truncated op.maxDepth y.namespace_) =
              (false, ⟨listed.found.results++[truncated op.maxDepth y.namespace_],
                listed.found.matched⟩) := by
            rw [Found.add, if_neg hnot]
            simp only [hroom, decide_false]
          rw [if_pos hnew, hadd]
          refine ⟨_, rfl, ?_, ?_, ?_, ?_⟩
          · intro s hs
            cases hs
            exact List.mem_append_right _ List.mem_cons_self
          · simp only [List.length_append, List.length_singleton]
            push_cast at hlimit ⊢
            omega
          · exact fun s hs => List.mem_append_left _ hs
          · exact fun _ => List.mem_append_right _ List.mem_cons_self
        · rw [if_neg hnew]
          refine ⟨listed, rfl, hlast, by push_cast at hlimit; omega, fun s hs => hs, fun hbt => ?_⟩
          exact hlast _ (not_not.mp fun hne => hnew ⟨hbt, hne⟩)
      obtain ⟨next, hvisit, hnlast, hnlimit, hnkeep, hnew⟩ := hstep
      obtain ⟨listed', hrun, hkeep, hreach⟩ := ih next hnlast hnlimit
      refine ⟨listed', ?_, fun s hs => hkeep s (hnkeep s hs), fun item hitem hmatch => ?_⟩
      · simp only [visitItems, hvisit, bind, Except.bind, Bool.false_eq_true, if_false]
        exact hrun
      · rcases List.mem_cons.mp hitem with heq | hitem
        · cases heq
          rw [hb] at hmatch
          exact hkeep _ (hnew (Except.ok.inj hmatch))
        · exact hreach item hitem hmatch

theorem visitNamespace_found {items : List (Option (Item T))} {listed listed' : Listed}
    {full : Bool} (h : visitItems (visitNamespace op) items listed = .ok (full, listed')) :
    ∀ s ∈ listed'.found.results, s ∈ listed.found.results ∨
      ∃ item, some item ∈ items ∧ s = truncated op.maxDepth item.namespace_ := by
  induction items generalizing listed with
  | nil =>
    cases h
    exact fun s hs => .inl hs
  | cons x items ih =>
    cases x with
    | none =>
      intro s hs
      rcases ih h s hs with hs | ⟨item, hitem, heq⟩
      · exact .inl hs
      · exact .inr ⟨item, List.mem_cons_of_mem _ hitem, heq⟩
    | some y =>
      simp only [visitItems] at h
      obtain ⟨⟨stop, next⟩, hvisit, h⟩ := except_bind_eq_ok h
      have hnext : ∀ s ∈ next.found.results, s ∈ listed.found.results ∨
          s = truncated op.maxDepth y.namespace_ := by
        obtain ⟨matched, hmatched, -⟩ := except_bind_eq_ok hvisit
        rw [visitNamespace_eq hmatched] at hvisit
        intro s hs
        by_cases hnew : matched = true ∧ listed.last ≠ some (truncated op.maxDepth y.namespace_)
        · rw [if_pos hnew] at hvisit
          have heq : (listed.found.add op.limit op.offset
              (truncated op.maxDepth y.namespace_)).2 = next.found :=
            congrArg (fun r : Bool × Listed => r.2.found) (Except.ok.inj hvisit)
          rw [← heq, Found.add] at hs
          split_ifs at hs
          · exact .inl hs
          · exact (List.mem_append.mp hs).imp_right List.mem_singleton.mp
        · rw [if_neg hnew] at hvisit
          cases hvisit
          exact .inl hs
      have hhead : ∀ s ∈ next.found.results, s ∈ listed.found.results ∨
          ∃ item, some item ∈ some y::items ∧ s = truncated op.maxDepth item.namespace_ := by
        intro s hs
        rcases hnext s hs with hs | hs
        · exact .inl hs
        · exact .inr ⟨y, List.mem_cons_self, hs⟩
      intro s hs
      simp only at h
      split_ifs at h
      · cases h
        exact hhead s hs
      · rcases ih h s hs with hs | ⟨item, hitem, heq⟩
        · exact hhead s hs
        · exact .inr ⟨item, List.mem_cons_of_mem _ hitem, heq⟩

end Namespaces

section Coverage

theorem Storage.Consistent.legible (h : σ.Consistent U db) (key : Str) :
    σ.Legible U db (db.zsets key).members := by
  intro m hm
  obtain ⟨x, q, -, -, rfl⟩ := h.sound.members key m hm
  exact ⟨x, rfl, fun b hb => (h.covered x b hb).1⟩

theorem get_run (x : Place U) :
    run (exec scanner) (σ.get ⟨x.namespace_, x.key⟩) db =
      (σ.expectItem "FerricStore LangGraph item key mismatch" x.path
        (.value (db.get (σ.hashKey x.namespace_) (fieldCode x.key))), db) := by
  have hcommand := itemCommand_eq (σ := σ) x
  unfold Storage.get
  change run (exec scanner) (do
    let command ← .lift (σ.itemCommand x.path)
    let value ← .command command
    .lift (σ.expectItem "FerricStore LangGraph item key mismatch" x.path value)) db = _
  rw [hcommand]
  rfl

/-- An item that a get returns is one that can be stored, and is the item of its member. -/
theorem Storage.Consistent.of_get (h : σ.Consistent U db) {op : GetOp} {item : Item T} {t : Db}
    (hget : run (exec scanner) (σ.get op) db = (.ok (some item), t)) :
    ∃ x : Place U, x.namespace_ = op.namespace_ ∧ x.key = op.key ∧ item.namespace_ = op.namespace_ ∧
      item.key = op.key ∧ σ.itemAt db (memberCode x.path) = some item ∧
      ∃ b, db.get (σ.hashKey x.namespace_) (fieldCode x.key) = some b := by
  unfold Storage.get at hget
  cases hcommand : σ.itemCommand (op.namespace_, op.key) with
  | error e =>
    rw [hcommand] at hget
    cases hget
  | ok c =>
    rw [hcommand] at hget
    obtain ⟨key, hkey, hcommand⟩ := except_bind_eq_ok hcommand
    obtain ⟨field, hfield, hcommand⟩ := except_bind_eq_ok hcommand
    cases hcommand
    have hresult : σ.expectItem "FerricStore LangGraph item key mismatch" (op.namespace_, op.key)
        (.value (db.get key field)) = .ok (some item) := congrArg Prod.fst hget
    cases hcell : db.get key field with
    | none =>
      rw [hcell] at hresult
      cases hresult
    | some b =>
      rw [hcell] at hresult
      obtain ⟨decoded, hdecoded, hresult⟩ := except_bind_eq_ok (show (do
        let item ← σ.decodeItem b
        if item.namespace_ = op.namespace_ ∧ item.key = op.key then .ok (some item)
        else .error (valueError "FerricStore LangGraph item key mismatch")) = _ from hresult)
      split_ifs at hresult with hsame
      cases hresult
      obtain ⟨x, rfl, rfl⟩ := h.sound.cells key field b hcell
      obtain ⟨own, hown, hns, hkey'⟩ := (h.covered x b hcell).1
      rw [hdecoded] at hown
      cases hown
      have hxns : x.namespace_ = op.namespace_ := hns.symm.trans hsame.1
      have hxkey : x.key = op.key := hkey'.symm.trans hsame.2
      refine ⟨x, hxns, hxkey, hsame.1, hsame.2, ?_, b, hcell⟩
      rw [Storage.itemAt, pathAt_memberCode]
      change (db.get (σ.hashKey x.namespace_) (fieldCode x.key)).bind _ = _
      rw [hcell, Option.bind_some, hdecoded]
      rfl

/-- The item of a catalog member is returned by its get. -/
theorem Storage.Consistent.get_itemAt (h : σ.Consistent U db) {key : Str} {m : Bytes}
    {item : Item T} (hm : m ∈ db.zsets key) (hitem : σ.itemAt db m = some item) :
    run (exec scanner) (σ.get ⟨item.namespace_, item.key⟩) db = (.ok (some item), db) := by
  obtain ⟨x, hx, hown⟩ := h.legible key m hm
  subst hx
  rw [Storage.itemAt, pathAt_memberCode] at hitem
  change (db.get (σ.hashKey x.namespace_) (fieldCode x.key)).bind _ = _ at hitem
  cases hcell : db.get (σ.hashKey x.namespace_) (fieldCode x.key) with
  | none =>
    rw [hcell] at hitem
    cases hitem
  | some b =>
    obtain ⟨own, hdecoded, hns, hkey⟩ := hown b hcell
    rw [hcell, Option.bind_some, hdecoded] at hitem
    cases hitem
    change item.namespace_ = x.namespace_ at hns
    change item.key = x.key at hkey
    rw [hns, hkey, get_run x, hcell]
    refine Prod.ext ?_ rfl
    change (do
      let item ← σ.decodeItem b
      if item.namespace_ = x.namespace_ ∧ item.key = x.key then .ok (some item)
      else .error (valueError "FerricStore LangGraph item key mismatch")) = _
    rw [hdecoded]
    exact if_pos ⟨hns, hkey⟩

/-- A search without a limit in its way finds every item under the prefix. -/
theorem Storage.Consistent.search_finds (h : σ.Consistent U db) {x : Place U} {item : Item T}
    (hitem : σ.itemAt db (memberCode x.path) = some item) {q : List Str} (hq : q <+: x.namespace_)
    (hmember : memberCode x.path ∈ db.zsets (σ.catalogCode q)) {accepts : Value → Bool}
    (haccepts : accepts item.value = true) {fuel : ℕ} {limit : ℤ}
    (hfuel : (db.zsets (σ.catalogCode q)).members.length < fuel)
    (hlimit : ((db.zsets (σ.catalogCode q)).members.length : ℤ) < limit) :
    ∃ items, run (exec scanner) (σ.search fuel ⟨q, fun v => .ok (accepts v), limit, 0⟩) db =
      (.ok items, db) ∧ item ∈ items := by
  let op : SearchOp := ⟨q, fun v => .ok (accepts v), limit, 0⟩
  let entries := (db.zsets (σ.catalogCode q)).members.map (σ.itemAt db)
  have hpositive : 0 < limit := by omega
  obtain ⟨full, found, hvisit, hresults⟩ := @visitMatch_slice T op accepts (fun _ => rfl) entries
    ⟨[], 0⟩ hpositive (.inl rfl)
  have hrun := @scanCatalog_run T σ U scanner db _ (visitMatch op) q (x.usedPrefix hq).2
    (h.legible _) fuel 0 ⟨[], 0⟩ (by omega)
  rw [List.drop_zero, hvisit] at hrun
  refine ⟨found.results, ?_, ?_⟩
  · unfold Storage.search
    rw [if_neg (not_le.mpr hpositive), run_bind_ok hrun]
    rfl
  · have hshort : (matching accepts entries).length ≤ limit.toNat := by
      have hmatches : (matching accepts entries).length ≤ entries.length :=
        (List.length_filter_le _ _).trans (List.length_filterMap_le _ _)
      rw [List.length_map] at hmatches
      omega
    rw [hresults]
    change item ∈ []++((matching accepts entries).drop 0).take (limit-0).toNat
    rw [List.nil_append, List.drop_zero, Int.sub_zero, List.take_of_length_le hshort]
    refine List.mem_filter.mpr ⟨List.mem_filterMap.mpr ⟨some item, ?_, rfl⟩, haccepts⟩
    exact List.mem_map.mpr ⟨_, hmember, hitem⟩

/-- A listing without a limit in its way lists the namespace of every item that matches. -/
theorem Storage.Consistent.listing_finds (h : σ.Consistent U db) {x : Place U} {item : Item T}
    (hitem : σ.itemAt db (memberCode x.path) = some item) (hns : item.namespace_ = x.namespace_)
    {op : ListNamespacesOp} (hsupported : Supported op.matchConditions)
    (hmatch : matchesAll x.namespace_ op.matchConditions = .ok true) (hoffset : op.offset ≤ 0)
    (hmember : memberCode x.path ∈ db.zsets (σ.catalogCode (catalogPrefix op))) {fuel : ℕ}
    (hfuel : (db.zsets (σ.catalogCode (catalogPrefix op))).members.length < fuel)
    (hlimit : ((db.zsets (σ.catalogCode (catalogPrefix op))).members.length : ℤ) < op.limit) :
    ∃ nss, run (exec scanner) (σ.listNamespaces fuel op) db = (.ok nss, db) ∧
      truncated op.maxDepth x.namespace_ ∈ nss := by
  let entries := (db.zsets (σ.catalogCode (catalogPrefix op))).members.map (σ.itemAt db)
  obtain ⟨listed, hvisit, -, hreach⟩ := visitNamespace_reaches hsupported hoffset entries
    ⟨⟨[], 0⟩, none⟩ (fun s hs => nomatch hs) (by simpa [entries] using hlimit)
  have hrun := @scanCatalog_run T σ U scanner db _ (visitNamespace op) _
    (x.usedPrefix (catalogPrefix_starts hmatch)).2 (h.legible _) fuel 0 ⟨⟨[], 0⟩, none⟩ (by omega)
  rw [List.drop_zero, hvisit] at hrun
  refine ⟨listed.found.results, ?_, ?_⟩
  · unfold Storage.listNamespaces
    rw [if_neg (show ¬op.limit ≤ 0 by omega), run_bind_ok hrun]
    rfl
  · have hfound := hreach item (List.mem_map.mpr ⟨_, hmember, hitem⟩) (hns ▸ hmatch)
    rwa [hns] at hfound

end Coverage

end FerricStore.MemoryStore
