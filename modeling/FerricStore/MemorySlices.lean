import FerricStore.MemoryHistories

/-!
# Searches and listings are slices

In a state whose catalogs cover its items, the live items under a prefix stand in the
order of their namespaces and keys, whatever members without an item stand between them.
A search returns a slice of those that match, and a listing a slice of their namespaces
without repetition. Pages only decide how much is read at once.
-/

set_option autoImplicit false

namespace FerricStore.MemoryStore
open Text OrderedKeys StorageKeys CommandPlans KeyedDatabase

variable {T : Type} {σ : Storage T} {U : Set (List Str)} {scanner : Scanner Str Bytes Str} {db : Db}

section Changes

variable {α : Type} [DecidableEq α]

/-- The elements that differ from the one before them. -/
def changes : Option α → List α → List α
  | _, [] => []
  | last, a::as => if last = some a then changes last as else a::changes (some a) as

theorem mem_changes {last : Option α} {as : List α} (a : α) :
    a ∈ as → last = some a ∨ a ∈ changes last as := by
  induction as generalizing last with
  | nil => exact fun h => absurd h List.not_mem_nil
  | cons b as ih =>
    intro h
    unfold changes
    split_ifs with hlast
    · rcases List.mem_cons.mp h with rfl | h
      · exact .inl hlast
      · exact ih h
    · rcases List.mem_cons.mp h with rfl | h
      · exact .inr List.mem_cons_self
      · have hrest : some b = some a ∨ a ∈ changes (some b) as := ih h
        rcases hrest with heq | h
        · cases heq
          exact .inr List.mem_cons_self
        · exact .inr (List.mem_cons_of_mem _ h)

theorem changes_subset {last : Option α} {as : List α} : changes last as ⊆ as := by
  induction as generalizing last with
  | nil => exact List.Subset.refl _
  | cons b as ih =>
    unfold changes
    split_ifs
    · exact List.subset_cons_of_subset _ ih
    · exact List.cons_subset_cons _ ih

variable [LinearOrder α]

/-- The changes of an increasing list strictly increase. -/
theorem changes_sorted {last : Option α} {as : List α} (h : as.Pairwise (· ≤ ·))
    (hlast : ∀ b ∈ last, ∀ a ∈ as, b ≤ a) :
    (changes last as).Pairwise (· < ·) ∧ ∀ b ∈ last, ∀ a ∈ changes last as, b < a := by
  induction as generalizing last with
  | nil => exact ⟨.nil, fun _ _ a ha => absurd ha List.not_mem_nil⟩
  | cons a as ih =>
    obtain ⟨ha, has⟩ := List.pairwise_cons.mp h
    unfold changes
    split_ifs with hsame
    · exact ih has fun b hb x hx => hlast b hb x (List.mem_cons_of_mem _ hx)
    · have hrest : ∀ b ∈ some a, ∀ x ∈ as, b ≤ x := by
        intro b hb x hx
        cases hb
        exact ha x hx
      obtain ⟨hsorted, habove⟩ := ih has hrest
      refine ⟨List.pairwise_cons.mpr ⟨habove a rfl, hsorted⟩, fun b hb x hx => ?_⟩
      have hba : b < a := lt_of_le_of_ne (hlast b hb a List.mem_cons_self) fun heq =>
        hsame (by rw [← heq]; exact hb)
      rcases List.mem_cons.mp hx with rfl | hx
      · exact hba
      · exact hba.trans (habove a rfl x hx)

omit [DecidableEq α] in
theorem take_le_take {as bs : List α} (h : as ≤ bs) (n : ℕ) : as.take n ≤ bs.take n := by
  rcases h.eq_or_lt with rfl | hlt
  · exact le_refl _
  · induction n generalizing as bs with
    | zero => simp
    | succ n ih =>
      cases as with
      | nil => exact not_lt.mp (List.not_lt_nil _)
      | cons a as =>
        cases bs with
        | nil => exact absurd hlt (List.not_lt_nil _)
        | cons b bs =>
          rw [List.take_succ_cons, List.take_succ_cons]
          rcases List.cons_lt_cons_iff.mp hlt with hab | ⟨rfl, hrest⟩
          · exact (List.cons_lt_cons_iff.mpr (.inl hab)).le
          · rcases (ih hrest.le hrest).eq_or_lt with heq | hlt
            · rw [heq]
            · exact (List.cons_lt_cons_iff.mpr (.inr ⟨rfl, hlt⟩)).le

end Changes

section Live

/-- What a get returns for its namespace and key. -/
def Storage.Live (σ : Storage T) (scanner : Scanner Str Bytes Str) (db : Db) (item : Item T) :
    Prop :=
  run (exec scanner) (σ.get ⟨item.namespace_, item.key⟩) db = (.ok (some item), db)

/-- The order of namespaces and keys as code points. -/
def Item.Before (a b : Item T) : Prop :=
  a.namespace_ < b.namespace_ ∨ a.namespace_ = b.namespace_ ∧ a.key < b.key

/-- The items of a catalog in the order of its members. -/
def Storage.entries (σ : Storage T) (db : Db) (q : List Str) : List (Item T) :=
  (db.zsets (σ.catalogCode q)).members.filterMap (σ.itemAt db)

theorem Storage.Consistent.itemAt_place (h : σ.Consistent U db) {key : Str} {m : Bytes}
    {item : Item T} (hm : m ∈ db.zsets key) (hitem : σ.itemAt db m = some item) :
    ∃ x : Place U, m = memberCode x.path ∧ item.namespace_ = x.namespace_ ∧ item.key = x.key := by
  obtain ⟨x, rfl, hown⟩ := h.legible key m hm
  refine ⟨x, rfl, ?_⟩
  rw [Storage.itemAt, pathAt_memberCode] at hitem
  obtain ⟨b, hcell, hdecoded⟩ := Option.bind_eq_some_iff.mp hitem
  obtain ⟨own, hown, hns, hkey⟩ := hown b hcell
  rw [hown] at hdecoded
  cases hdecoded
  exact ⟨hns, hkey⟩

theorem Storage.Consistent.entries_sorted (h : σ.Consistent U db) (q : List Str) :
    (σ.entries db q).Pairwise Item.Before := by
  refine List.pairwise_filterMap.mpr ((db.zsets (σ.catalogCode q)).sorted.imp_of_mem ?_)
  intro m m' hm hm' hlt item hitem item' hitem'
  obtain ⟨x, rfl, hns, hkey⟩ := h.itemAt_place hm hitem
  obtain ⟨x', rfl, hns', hkey'⟩ := h.itemAt_place hm' hitem'
  rw [Item.Before, hns, hkey, hns', hkey']
  exact (member_lt x.itemPath.2.1 x'.itemPath.2.1).mp hlt

/-- The entries of a catalog are the live items under its prefix. -/
theorem Storage.Consistent.mem_entries (h : σ.Consistent U db) (hU : CollisionFree σ U)
    {q : List Str} (hq : UsedPrefix U q) (item : Item T) :
    item ∈ σ.entries db q ↔ σ.Live scanner db item ∧ q <+: item.namespace_ := by
  rw [Storage.entries, List.mem_filterMap]
  constructor
  · rintro ⟨m, hm, hitem⟩
    obtain ⟨x, hcode, hns, -⟩ := h.itemAt_place hm hitem
    refine ⟨h.get_itemAt hm hitem, ?_⟩
    obtain ⟨y, q', hq', hkey, hm'⟩ := h.sound.members _ m hm
    have hxy : x = y := Place.ext_path (memberCode_inj x.itemPath y.itemPath (hcode.symm.trans hm'))
    have hqq : q = q' := hU.catalogCode_inj hq (y.usedPrefix hq') hkey
    rw [hns, hxy, hqq]
    exact hq'
  · rintro ⟨hlive, hstart⟩
    obtain ⟨x, hns, hkey, -, -, hitem, b, hb⟩ := h.of_get hlive
    refine ⟨memberCode x.path, (h.covered x b hb).2 q ?_, hitem⟩
    rw [hns]
    exact hstart

/-- The same store with pages of another size. -/
def Storage.paged (σ : Storage T) (scanCount : ℕ) (h : 0 < scanCount) : Storage T :=
  { σ with scanCount := scanCount, scanCount_pos := h }

theorem Storage.Consistent.paged (h : σ.Consistent U db) {scanCount : ℕ} (hpos : 0 < scanCount) :
    (σ.paged scanCount hpos).Consistent U db :=
  ⟨⟨h.sound.members, h.sound.cells⟩, h.covered⟩

theorem visitItems_congr {ρ : Type} {visit visit' : ρ → Item T → Except StorageError (Bool × ρ)}
    {items : List (Option (Item T))} (h : ∀ item, some item ∈ items → ∀ found,
      visit found item = visit' found item) (found : ρ) :
    visitItems visit items found = visitItems visit' items found := by
  induction items generalizing found with
  | nil => rfl
  | cons x items ih =>
    have hrest := ih fun item hitem => h item (List.mem_cons_of_mem _ hitem)
    cases x with
    | none => exact hrest found
    | some item =>
      simp only [visitItems, h item List.mem_cons_self, hrest]

end Live

section Slices

/-- Search is independent of the page size: the live items under the prefix stand in one
order, and every search ends with the slice of those that the filter accepts. -/
theorem search_is_slice (σ : Storage T) (U : Set (List Str)) (scanner : Scanner Str Bytes Str)
    (db : Db) (hU : CollisionFree σ U) (h : σ.Consistent U db) (op : SearchOp)
    (hstart : UsedPrefix U op.namespacePrefix) :
    ∃ live : List (Item T), live.Pairwise Item.Before ∧
      (∀ item, item ∈ live ↔ σ.Live scanner db item ∧ op.namespacePrefix <+: item.namespace_) ∧
      ∀ accepts : Value → Bool, (∀ item ∈ live, op.accepts item.value = .ok (accepts item.value)) →
        ∀ scanCount (hpos : 0 < scanCount) fuel,
          (db.zsets (σ.catalogCode op.namespacePrefix)).members.length < fuel →
          run (exec scanner) ((σ.paged scanCount hpos).search fuel op) db =
            (.ok (((live.filter fun item => accepts item.value).drop op.offset.toNat).take
              op.limit.toNat), db) := by
  refine ⟨σ.entries db op.namespacePrefix, h.entries_sorted _, h.mem_entries hU hstart, ?_⟩
  intro accepts haccepts scanCount hpos fuel hfuel
  unfold Storage.search
  by_cases hlimit : op.limit ≤ 0
  · rw [if_pos hlimit, Int.toNat_of_nonpos hlimit, List.take_zero]
    rfl
  · let entries := (db.zsets (σ.catalogCode op.namespacePrefix)).members.map (σ.itemAt db)
    let total : SearchOp := { op with accepts := fun v => .ok (accepts v) }
    have hsame : ∀ item, some item ∈ entries → ∀ found,
        visitMatch op found item = visitMatch total found item := by
      intro item hitem found
      obtain ⟨m, hm, hitem⟩ := List.mem_map.mp hitem
      have hmem : item ∈ σ.entries db op.namespacePrefix := List.mem_filterMap.mpr ⟨m, hm, hitem⟩
      simp only [visitMatch, haccepts item hmem, total]
    have hcongr := visitItems_congr hsame ⟨[], 0⟩
    obtain ⟨full, found, hvisit, hresults⟩ := @visitMatch_slice T total accepts (fun _ => rfl)
      entries ⟨[], 0⟩ (not_le.mp hlimit) (.inl rfl)
    have hrun := @scanCatalog_run T (σ.paged scanCount hpos) U scanner db _ (visitMatch op)
      op.namespacePrefix hstart.2 ((h.paged hpos).legible _) fuel 0 ⟨[], 0⟩ hfuel
    have hvisited : visitItems (visitMatch op) (((db.zsets (σ.catalogCode op.namespacePrefix)).members.drop
        0).map (σ.itemAt db)) ⟨[], 0⟩ = .ok (full, found) := hcongr.trans hvisit
    have hrun' : run (exec scanner) ((σ.paged scanCount hpos).scanCatalog (visitMatch op)
        op.namespacePrefix fuel 0 ⟨[], 0⟩) db = ((visitItems (visitMatch op)
          (((db.zsets (σ.catalogCode op.namespacePrefix)).members.drop 0).map (σ.itemAt db))
          ⟨[], 0⟩).map Prod.snd, db) := hrun
    rw [hvisited] at hrun'
    rw [if_neg hlimit, run_bind_ok hrun']
    have hmatching : matching accepts entries =
        (σ.entries db op.namespacePrefix).filter fun item => accepts item.value := by
      rw [matching, Storage.entries, List.filterMap_map]
      rfl
    have hfound : found.results = ((matching accepts entries).drop op.offset.toNat).take
        op.limit.toNat := by simpa [total] using hresults
    rw [← hmatching, ← hfound]
    rfl

/-- The state that one stored item leaves. -/
def sampleDb : Db := (run (exec sampleScanner) (sampleStorage.batchPlan sampleRun) Database.empty).2

theorem sampleDb_consistent : sampleStorage.Consistent sampleUsed sampleDb := by
  have hadmits : ∀ op ∈ putsOf sampleRun.ops, op.namespace_ ∈ sampleUsed := by
    intro op hop
    rw [List.mem_singleton.mp hop]
    rfl
  have hreach : sampleStorage.Reachable sampleUsed sampleScanner Database.empty
      ⟨sampleDb, [⟨sampleRun, .ready (.finish (run (exec sampleScanner)
        (sampleStorage.batchPlan sampleRun) Database.empty).1)⟩]⟩ := by
    refine Relation.ReflTransGen.head
      ⟨sampleRun, .start hadmits fun j hj => absurd hj List.not_mem_nil⟩ ?_
    exact Reached.of_run _ _
  exact Storage.Reachable.consistent sample_lawful sample_collisionFree
    (empty_consistent sampleStorage sampleUsed) hreach

theorem sample_usedPrefix : UsedPrefix sampleUsed [] :=
  ⟨⟨[lit "a"], rfl, List.nil_prefix⟩, fun _ hs => absurd hs List.not_mem_nil⟩

theorem search_is_slice_stored : ∃ live : List (Item Unit), live.Pairwise Item.Before ∧
    run (exec sampleScanner) ((sampleStorage.paged 1 (by decide)).search 2
      ⟨[], fun _ => .ok true, 10, 0⟩) sampleDb =
        (.ok (((live.filter fun _ => true).drop 0).take 10), sampleDb) := by
  obtain ⟨live, hsorted, -, hsearch⟩ := search_is_slice sampleStorage sampleUsed sampleScanner
    sampleDb sample_collisionFree sampleDb_consistent ⟨[], fun _ => .ok true, 10, 0⟩
    sample_usedPrefix
  exact ⟨live, hsorted, hsearch (fun _ => true) (fun _ _ => rfl) 1 (by decide) 2
    (by decide +kernel)⟩

end Slices

section Namespaces

/-- A label that a label of a condition names or leaves open. -/
def Fits (pattern actual : Str) : Prop := pattern = wildcard ∨ actual = pattern

/-- What a condition asks of a namespace. -/
def MatchCondition.Holds (c : MatchCondition) (ns : List Str) : Prop :=
  match c.matchType with
  | .prefixed => ∃ start rest, ns = start++rest ∧ List.Forall₂ Fits c.path start
  | .suffixed => ∃ rest last, ns = rest++last ∧ List.Forall₂ Fits c.path last
  | .other _ => False

theorem zip_fits {path ns : List Str} (h : path.length ≤ ns.length) :
    (ns.zip path).all (fun p => p.2 = wildcard ∨ p.1 = p.2) = true ↔
      ∃ start rest, ns = start++rest ∧ List.Forall₂ Fits path start := by
  induction path generalizing ns with
  | nil => exact ⟨fun _ => ⟨[], ns, rfl, .nil⟩, fun _ => by rw [List.zip_nil_right]; rfl⟩
  | cons p path ih =>
    cases ns with
    | nil => exact absurd h (Nat.not_succ_le_zero _)
    | cons s ns =>
      simp only [List.zip_cons_cons, List.all_cons, Bool.and_eq_true, decide_eq_true_eq,
        ih (Nat.le_of_succ_le_succ h)]
      constructor
      · rintro ⟨hfits, start, rest, rfl, hall⟩
        exact ⟨s::start, rest, rfl, .cons hfits hall⟩
      · rintro ⟨start, rest, hns, hall⟩
        cases hall with
        | cons hfits hall =>
          cases hns
          exact ⟨hfits, _, rest, rfl, hall⟩

theorem matchesNamespace_holds {c : MatchCondition}
    (hc : c.matchType = .prefixed ∨ c.matchType = .suffixed) (ns : List Str) :
    matchesNamespace c ns = .ok true ↔ c.Holds ns := by
  have hshort : ns.length < c.path.length → ∀ start, List.Forall₂ Fits c.path start →
      ∀ rest, start.length+rest ≠ ns.length := by
    intro hlt start hall rest heq
    have := hall.length_eq
    omega
  unfold matchesNamespace MatchCondition.Holds
  rcases hc with htype | htype <;> rw [htype] <;> simp only
  · split_ifs with hlt
    · refine ⟨fun h => (nomatch h), ?_⟩
      rintro ⟨start, rest, rfl, hall⟩
      exact absurd List.length_append.symm (hshort hlt start hall rest.length)
    · exact ⟨fun h => (zip_fits (not_lt.mp hlt)).mp (Except.ok.inj h),
        fun h => congrArg _ ((zip_fits (not_lt.mp hlt)).mpr h)⟩
  · split_ifs with hlt
    · refine ⟨fun h => (nomatch h), ?_⟩
      rintro ⟨rest, last, rfl, hall⟩
      exact absurd (by rw [List.length_append, Nat.add_comm]) (hshort hlt last hall rest.length)
    · have hreversed := @zip_fits c.path.reverse ns.reverse (by simpa using not_lt.mp hlt)
      refine Iff.trans ⟨Except.ok.inj, congrArg _⟩ (hreversed.trans ⟨?_, ?_⟩)
      · rintro ⟨start, rest, hns, hall⟩
        refine ⟨rest.reverse, start.reverse, ?_, ?_⟩
        · rw [← List.reverse_append, ← hns, List.reverse_reverse]
        · rw [← List.reverse_reverse c.path]
          exact List.forall₂_reverse_iff.mpr hall
      · rintro ⟨rest, last, rfl, hall⟩
        exact ⟨last.reverse, rest.reverse, List.reverse_append, List.forall₂_reverse_iff.mpr hall⟩

theorem matchesAll_holds {conditions : List MatchCondition} (h : Supported conditions)
    (ns : List Str) : matchesAll ns conditions = .ok true ↔ ∀ c ∈ conditions, c.Holds ns := by
  induction conditions with
  | nil => exact ⟨fun _ c hc => absurd hc List.not_mem_nil, fun _ => rfl⟩
  | cons c conditions ih =>
    have hrest := ih fun d hd => h d (List.mem_cons_of_mem c hd)
    rw [List.forall_mem_cons, ← hrest, ← matchesNamespace_holds (h c List.mem_cons_self) ns,
      matchesAll]
    cases hc : matchesNamespace c ns with
    | error e => exact ⟨fun h => (by cases h), fun h => (by cases h.1)⟩
    | ok b =>
      cases b with
      | true => exact ⟨fun h => ⟨rfl, h⟩, fun h => h.2⟩
      | false => exact ⟨fun h => (by cases h), fun h => (by cases h.1)⟩

variable {op : ListNamespacesOp} {selects : List Str → Bool}

/-- The truncated namespaces of the items whose namespace is selected. -/
def selections (op : ListNamespacesOp) (selects : List Str → Bool)
    (items : List (Option (Item T))) : List (List Str) :=
  ((items.filterMap id).filter fun item => selects item.namespace_).map
    fun item => truncated op.maxDepth item.namespace_

theorem visitNamespace_slice (hselects : ∀ ns, matchesAll ns op.matchConditions = .ok (selects ns))
    (items : List (Option (Item T))) (listed : Listed)
    (hlimit : (listed.found.results.length : ℤ) < op.limit)
    (hoffset : listed.found.results = [] ∨ op.offset ≤ listed.found.matched) :
    ∃ full listed', visitItems (visitNamespace op) items listed = .ok (full, listed') ∧
      listed'.found.results = listed.found.results++((changes listed.last
        (selections op selects items)).drop (op.offset-listed.found.matched).toNat).take
          (op.limit-listed.found.results.length).toNat := by
  induction items generalizing listed with
  | nil => exact ⟨false, listed, rfl, by simp [selections, changes]⟩
  | cons x items ih =>
    cases x with
    | none => exact ih listed hlimit hoffset
    | some item =>
      let selected := truncated op.maxDepth item.namespace_
      have hvisit := @visitNamespace_eq T op listed item _ (hselects item.namespace_)
      have hselections : selections op selects (some item::items) =
          if selects item.namespace_ then selected::selections op selects items
          else selections op selects items := by
        change ((item::items.filterMap id).filter (fun item => selects item.namespace_)).map _ = _
        rw [List.filter_cons]
        split_ifs <;> rfl
      rw [hselections]
      by_cases hnew : selects item.namespace_ = true ∧ listed.last ≠ some selected
      · rw [if_pos hnew] at hvisit
        rw [if_pos hnew.1, changes, if_neg hnew.2]
        simp only [visitItems, hvisit, bind, Except.bind]
        rcases listed.found.add_slice selected hlimit hoffset
          (changes (some selected) (selections op selects items)) with
          ⟨hfull, hresults⟩ | ⟨hmore, hlimit', hoffset', hslice⟩
        · rw [hfull]
          exact ⟨true, _, rfl, hresults⟩
        · rw [hmore]
          obtain ⟨full, listed', hrun, hresults⟩ := ih
            ⟨(listed.found.add op.limit op.offset selected).2, some selected⟩ hlimit' hoffset'
          exact ⟨full, listed', hrun, hresults.trans hslice⟩
      · rw [if_neg hnew] at hvisit
        have hchanges : changes listed.last (if selects item.namespace_
            then selected::selections op selects items else selections op selects items) =
              changes listed.last (selections op selects items) := by
          split_ifs with hs
          · rw [changes, if_pos (not_not.mp fun hne => hnew ⟨hs, hne⟩)]
          · rfl
        rw [hchanges]
        simp only [visitItems, hvisit, bind, Except.bind, Bool.false_eq_true, if_false]
        exact ih listed hlimit hoffset

theorem truncated_le {maxDepth : Option ℤ} (h : ∀ d ∈ maxDepth, 0 ≤ d) {ns ns' : List Str}
    (hle : ns ≤ ns') : truncated maxDepth ns ≤ truncated maxDepth ns' := by
  cases maxDepth with
  | none => exact hle
  | some d =>
    have hd : ¬d < 0 := not_lt.mpr (h d rfl)
    simp only [truncated, hd, if_false]
    exact take_le_take hle _

theorem Storage.Consistent.selections_sorted (h : σ.Consistent U db) (q : List Str)
    (hdepth : ∀ d ∈ op.maxDepth, 0 ≤ d) :
    (selections op selects ((db.zsets (σ.catalogCode q)).members.map (σ.itemAt db))).Pairwise
      (· ≤ ·) := by
  rw [selections, List.filterMap_map]
  refine List.pairwise_map.mpr (((h.entries_sorted q).filter _).imp ?_)
  intro item item' hbefore
  refine truncated_le hdepth ?_
  rcases hbefore with hlt | ⟨heq, -⟩
  · exact hlt.le
  · exact heq.le

/-- Listing gives each namespace once: the truncated namespaces of the live items that meet
every condition stand in one strictly increasing list, and every listing ends with a slice of
it, though it reads the catalog of one prefix only and compares with the last one alone. -/
theorem listing_is_slice (σ : Storage T) (U : Set (List Str)) (scanner : Scanner Str Bytes Str)
    (db : Db) (hU : CollisionFree σ U) (h : σ.Consistent U db) (op : ListNamespacesOp)
    (hsupported : Supported op.matchConditions) (hdepth : ∀ d ∈ op.maxDepth, 0 ≤ d)
    (hstart : UsedPrefix U (catalogPrefix op)) :
    ∃ listed : List (List Str), listed.Pairwise (· < ·) ∧
      (∀ s, s ∈ listed ↔ ∃ item : Item T, σ.Live scanner db item ∧
        (∀ c ∈ op.matchConditions, c.Holds item.namespace_) ∧
          s = truncated op.maxDepth item.namespace_) ∧
      ∀ scanCount (hpos : 0 < scanCount) fuel,
        (db.zsets (σ.catalogCode (catalogPrefix op))).members.length < fuel →
        run (exec scanner) ((σ.paged scanCount hpos).listNamespaces fuel op) db =
          (.ok ((listed.drop op.offset.toNat).take op.limit.toNat), db) := by
  choose selects hselects using matchesAll_supported hsupported
  let entries := (db.zsets (σ.catalogCode (catalogPrefix op))).members.map (σ.itemAt db)
  have hholds : ∀ ns, selects ns = true ↔ ∀ c ∈ op.matchConditions, c.Holds ns := by
    intro ns
    rw [← matchesAll_holds hsupported, hselects, Except.ok.injEq]
  refine ⟨changes none (selections op selects entries), ?_, fun s => ?_, ?_⟩
  · exact (changes_sorted (h.selections_sorted _ hdepth) fun b hb =>
      (Option.not_mem_none b hb).elim).1
  · have hlisted : s ∈ changes none (selections op selects entries) ↔
        s ∈ selections op selects entries :=
      ⟨fun hs => changes_subset hs, fun hs => (mem_changes s hs).resolve_left fun hnone =>
        Option.some_ne_none s hnone.symm⟩
    have hentries : entries.filterMap id = σ.entries db (catalogPrefix op) := List.filterMap_map
    rw [hlisted, selections, hentries, List.mem_map]
    constructor
    · rintro ⟨item, hitem, rfl⟩
      obtain ⟨hmem, hselected⟩ := List.mem_filter.mp hitem
      exact ⟨item, ((h.mem_entries hU hstart item).mp hmem).1, (hholds _).mp hselected, rfl⟩
    · rintro ⟨item, hlive, hall, rfl⟩
      have hselected := (hholds _).mpr hall
      have hstarts : catalogPrefix op <+: item.namespace_ :=
        catalogPrefix_starts (by rw [hselects, hselected])
      exact ⟨item, List.mem_filter.mpr
        ⟨(h.mem_entries hU hstart item).mpr ⟨hlive, hstarts⟩, hselected⟩, rfl⟩
  · intro scanCount hpos fuel hfuel
    unfold Storage.listNamespaces
    by_cases hlimit : op.limit ≤ 0
    · rw [if_pos hlimit, Int.toNat_of_nonpos hlimit, List.take_zero]
      rfl
    · obtain ⟨full, listed, hvisit, hresults⟩ := visitNamespace_slice hselects entries
        ⟨⟨[], 0⟩, none⟩ (not_le.mp hlimit) (.inl rfl)
      have hrun := @scanCatalog_run T (σ.paged scanCount hpos) U scanner db _ (visitNamespace op)
        (catalogPrefix op) hstart.2 ((h.paged hpos).legible _) fuel 0 ⟨⟨[], 0⟩, none⟩ hfuel
      have hrun' : run (exec scanner) ((σ.paged scanCount hpos).scanCatalog (visitNamespace op)
          (catalogPrefix op) fuel 0 ⟨⟨[], 0⟩, none⟩) db =
            ((visitItems (visitNamespace op) entries ⟨⟨[], 0⟩, none⟩).map Prod.snd, db) := hrun
      rw [hvisit] at hrun'
      have hfound : listed.found.results = ((changes none (selections op selects entries)).drop
          op.offset.toNat).take op.limit.toNat := by simpa using hresults
      rw [if_neg hlimit, run_bind_ok hrun', ← hfound]
      rfl

theorem listing_is_slice_stored : ∃ listed : List (List Str), listed.Pairwise (· < ·) ∧
    run (exec sampleScanner) ((sampleStorage.paged 1 (by decide)).listNamespaces 2
      ⟨[⟨.prefixed, [wildcard]⟩, ⟨.suffixed, [lit "a"]⟩], some 1, 10, 0⟩) sampleDb =
        (.ok ((listed.drop 0).take 10), sampleDb) := by
  obtain ⟨listed, hsorted, -, hlisting⟩ := listing_is_slice sampleStorage sampleUsed sampleScanner
    sampleDb sample_collisionFree sampleDb_consistent
    ⟨[⟨.prefixed, [wildcard]⟩, ⟨.suffixed, [lit "a"]⟩], some 1, 10, 0⟩
    (by
      intro c hc
      rcases List.mem_cons.mp hc with rfl | hc
      · exact .inl rfl
      · exact .inr (by rw [List.mem_singleton.mp hc]))
    (fun d hd => by cases hd; decide) sample_usedPrefix
  exact ⟨listed, hsorted, hlisting 1 (by decide) 2 (by decide +kernel)⟩

end Namespaces

end FerricStore.MemoryStore
