import FerricStore.MemoryListing

/-!
# Crash consistency of the memory store

From an empty database, after any history of batches that stop anywhere and interleave
except on common items, the catalogs cover the items, and gets, searches and listings
agree on which items there are.
-/

set_option autoImplicit false

namespace FerricStore.MemoryStore
open Text OrderedKeys StorageKeys CommandPlans KeyedDatabase

variable {T : Type} {σ : Storage T} {U : Set (List Str)} {scanner : Scanner Str Bytes Str} {db : Db}

section Loops

variable {ρ : Type} {visit : ρ → Item T → Except StorageError (Bool × ρ)}

theorem prefixCatalogKey_ok {q : List Str} {key : Str}
    (h : prefixCatalogKey σ.sha256 σ.keyPrefix q = .ok key) : ∀ s ∈ q, Storable s := by
  unfold prefixCatalogKey at h
  by_cases hq : q = []
  · rw [hq]
    exact fun s hs => absurd hs List.not_mem_nil
  · rw [if_neg hq] at h
    obtain ⟨identity, hidentity, -⟩ := except_bind_eq_ok h
    exact (namespaceIdentity_ok hidentity).1

theorem scanCatalog_storable {q : List Str} {fuel start : ℕ} {found r : ρ} {t : Db}
    (h : run (exec scanner) (σ.scanCatalog visit q fuel start found) db = (.ok r, t)) :
    ∀ s ∈ q, Storable s := by
  cases fuel with
  | zero => cases h
  | succ fuel =>
    unfold Storage.scanCatalog Storage.catalogPage at h
    cases hkey : prefixCatalogKey σ.sha256 σ.keyPrefix q with
    | ok key => exact prefixCatalogKey_ok hkey
    | error e =>
      rw [hkey] at h
      cases h

/-- A loop that ended has visited the items of the catalog. -/
theorem Storage.Consistent.scanned (hdb : σ.Consistent U db) {q : List Str} {fuel : ℕ}
    {found r : ρ} {t : Db}
    (h : run (exec scanner) (σ.scanCatalog visit q fuel 0 found) db = (.ok r, t)) :
    ∃ full, visitItems visit ((db.zsets (σ.catalogCode q)).members.map (σ.itemAt db)) found =
      .ok (full, r) := by
  have hmore : ∀ k, run (exec scanner) (σ.scanCatalog visit q (fuel+k) 0 found) db = (.ok r, t) := by
    intro k
    induction k with
    | zero => exact h
    | succ k ih => exact scanCatalog_more visit ih
  have hlong := hmore ((db.zsets (σ.catalogCode q)).members.length+1)
  rw [scanCatalog_run visit (scanCatalog_storable h) (hdb.legible _) _ 0 found (by omega),
    List.drop_zero] at hlong
  cases hvisit : visitItems visit ((db.zsets (σ.catalogCode q)).members.map (σ.itemAt db)) found with
  | error e =>
    rw [hvisit] at hlong
    cases hlong
  | ok visited =>
    rw [hvisit] at hlong
    cases hlong
    exact ⟨visited.1, rfl⟩

end Loops

/-- What a search returns is returned by a get. -/
theorem Storage.Consistent.search_live (hdb : σ.Consistent U db) {fuel : ℕ} {op : SearchOp}
    {items : List (Item T)} {t : Db}
    (h : run (exec scanner) (σ.search fuel op) db = (.ok items, t)) : ∀ item ∈ items,
      run (exec scanner) (σ.get ⟨item.namespace_, item.key⟩) db = (.ok (some item), db) := by
  unfold Storage.search at h
  by_cases hlimit : op.limit ≤ 0
  · rw [if_pos hlimit] at h
    cases h
    exact fun item hitem => absurd hitem List.not_mem_nil
  · rw [if_neg hlimit, run_bind] at h
    cases hscan : run (exec scanner)
      (σ.scanCatalog (visitMatch op) op.namespacePrefix fuel 0 ⟨[], 0⟩) db with
    | mk result s =>
      rw [hscan] at h
      cases result with
      | error e => cases h
      | ok found =>
        cases h
        obtain ⟨full, hvisit⟩ := hdb.scanned hscan
        intro item hitem
        rcases visitMatch_found hvisit item hitem with hmem | hmem
        · exact absurd hmem List.not_mem_nil
        · obtain ⟨m, hm, hitem⟩ := List.mem_map.mp hmem
          exact hdb.get_itemAt hm hitem

/-- What a listing returns is the namespace of an item that a get returns. -/
theorem Storage.Consistent.listing_live (hdb : σ.Consistent U db) {fuel : ℕ}
    {op : ListNamespacesOp} {nss : List (List Str)} {t : Db}
    (h : run (exec scanner) (σ.listNamespaces fuel op) db = (.ok nss, t)) : ∀ ns ∈ nss,
      ∃ item, run (exec scanner) (σ.get ⟨item.namespace_, item.key⟩) db = (.ok (some item), db) ∧
        ns = truncated op.maxDepth item.namespace_ := by
  unfold Storage.listNamespaces at h
  by_cases hlimit : op.limit ≤ 0
  · rw [if_pos hlimit] at h
    cases h
    exact fun ns hns => absurd hns List.not_mem_nil
  · rw [if_neg hlimit, run_bind] at h
    cases hscan : run (exec scanner)
      (σ.scanCatalog (visitNamespace op) (catalogPrefix op) fuel 0 ⟨⟨[], 0⟩, none⟩) db with
    | mk result s =>
      rw [hscan] at h
      cases result with
      | error e => cases h
      | ok listed =>
        cases h
        obtain ⟨full, hvisit⟩ := hdb.scanned hscan
        intro ns hns
        rcases visitNamespace_found hvisit ns hns with hmem | ⟨item, hmem, heq⟩
        · exact absurd hmem List.not_mem_nil
        · obtain ⟨m, hm, hitem⟩ := List.mem_map.mp hmem
          exact ⟨item, hdb.get_itemAt hm hitem, heq⟩

/-- In every state that a history of batches reaches, wherever they stopped and however
they interleaved, an item whose field is present has its member in the catalog of every
prefix of its namespace. An item that a get returns is found by a search under each of these
prefixes, and its namespace is listed by every listing whose conditions it meets; and what a
search or a listing returns belongs to an item that a get returns. -/
theorem catalogs_cover_items (hσ : Lawful σ) (hU : CollisionFree σ U)
    {a : Config Db Cmd Answer StorageError (List (Result T)) (BatchRun T)}
    (h : σ.Reachable U scanner Database.empty a) :
    (∀ (x : Place U) (b : Bytes),
      a.state.get (σ.hashKey x.namespace_) (fieldCode x.key) = some b →
        ∀ q, q <+: x.namespace_ → memberCode x.path ∈ a.state.zsets (σ.catalogCode q)) ∧
    (∀ op item t, run (exec scanner) (σ.get op) a.state = (.ok (some item), t) →
      (∀ q, q <+: op.namespace_ → ∀ accepts : Value → Bool, accepts item.value = true →
        ∃ n : ℕ, ∀ fuel : ℕ, n ≤ fuel → ∀ limit : ℤ, n ≤ limit → ∃ items,
          run (exec scanner) (σ.search fuel ⟨q, fun v => .ok (accepts v), limit, 0⟩) a.state =
            (.ok items, a.state) ∧ item ∈ items) ∧
      (∀ conditions depth, Supported conditions →
        matchesAll op.namespace_ conditions = .ok true →
        ∃ n : ℕ, ∀ fuel : ℕ, n ≤ fuel → ∀ limit : ℤ, n ≤ limit → ∃ nss,
          run (exec scanner) (σ.listNamespaces fuel ⟨conditions, depth, limit, 0⟩) a.state =
            (.ok nss, a.state) ∧ truncated depth op.namespace_ ∈ nss)) ∧
    (∀ fuel op items t, run (exec scanner) (σ.search fuel op) a.state = (.ok items, t) →
      ∀ item ∈ items, run (exec scanner) (σ.get ⟨item.namespace_, item.key⟩) a.state =
        (.ok (some item), a.state)) ∧
    (∀ fuel op nss t, run (exec scanner) (σ.listNamespaces fuel op) a.state = (.ok nss, t) →
      ∀ ns ∈ nss, ∃ item, run (exec scanner) (σ.get ⟨item.namespace_, item.key⟩) a.state =
        (.ok (some item), a.state) ∧ ns = truncated op.maxDepth item.namespace_) := by
  have hdb := Storage.Reachable.consistent hσ hU (empty_consistent σ U) h
  have hcover : ∀ (x : Place U) (b : Bytes),
      a.state.get (σ.hashKey x.namespace_) (fieldCode x.key) = some b →
        ∀ q, q <+: x.namespace_ → memberCode x.path ∈ a.state.zsets (σ.catalogCode q) :=
    fun x b hb => (hdb.covered x b hb).2
  refine ⟨hcover, fun op item t hget => ?_, fun fuel op items t => hdb.search_live,
    fun fuel op nss t => hdb.listing_live⟩
  obtain ⟨x, hxns, hxkey, hns, hkey, hitem, b, hb⟩ := hdb.of_get hget
  constructor
  · intro q hq accepts haccepts
    rw [← hxns] at hq
    refine ⟨(a.state.zsets (σ.catalogCode q)).members.length+1, fun fuel hfuel limit hlimit => ?_⟩
    exact hdb.search_finds hitem hq (hcover x b hb q hq) haccepts hfuel (by omega)
  · intro conditions depth hsupported hmatch
    let listing : ListNamespacesOp := ⟨conditions, depth, 0, 0⟩
    rw [← hxns] at hmatch
    have hq : catalogPrefix listing <+: x.namespace_ := catalogPrefix_starts hmatch
    refine ⟨(a.state.zsets (σ.catalogCode (catalogPrefix listing))).members.length+1,
      fun fuel hfuel limit hlimit => ?_⟩
    have hroom : ((a.state.zsets (σ.catalogCode (catalogPrefix listing))).members.length : ℤ) <
        limit := by omega
    rw [← hxns]
    exact @Storage.Consistent.listing_finds T σ U scanner a.state hdb x item hitem
      (hns.trans hxns.symm) ⟨conditions, depth, limit, 0⟩ hsupported hmatch le_rfl
      (hcover x b hb _ hq) fuel hfuel hroom

section Sample

def sampleTime : Str := lit "2024-01-01T00:00:00+00:00"

def samplePut : PutOp := ⟨[lit "a"], lit "k", .dict [], .none⟩

def sampleRecord : Value := .dict [
  (.str (lit "format_version"), .int 1),
  (.str (lit "namespace"), .list [.str (lit "a")]),
  (.str (lit "key"), .str (lit "k")),
  (.str (lit "value"), .dict []),
  (.str (lit "created_at"), .str sampleTime),
  (.str (lit "updated_at"), .str sampleTime)]

def sampleText : Bytes := utf8 (lit ("\x7b\"format_version\":1,\"namespace\":[\"a\"],\"key\":\"k\","++
  "\"value\":\x7b\x7d,\"created_at\":\"2024-01-01T00:00:00+00:00\","++
  "\"updated_at\":\"2024-01-01T00:00:00+00:00\"\x7d"))

def sampleLoads (b : Bytes) : Option Value :=
  if b = utf8 (lit "\x7b\x7d") then some (.dict [])
  else if b = sampleText then some sampleRecord else none

/-- The libraries on one item: its digests, its JSON text and one time. -/
def sampleStorage : Storage Unit where
  sha256 identity :=
    if identity = [] then
      lit "e3b0c44298fc1c149afbf4c8996fb92427ae41e4649b934ca495991b7852b855"
    else if identity = [0, 0, 0, 0, 0, 0, 0, 1, 97] then
      lit "3b196fd4907bedf51c3090e9835f2f7cb61e7ee1b2299ea3b8fed9b4183a822a"
    else lit "83d12f28d81736013f54d534a68a1fc6657e9ba11fa61c7a2da0940ce02680ed"
  dumps v := if v.same (.dict []) then some (utf8 (lit "\x7b\x7d"))
    else if v.same sampleRecord then some sampleText else none
  loads := sampleLoads
  isoformat _ := sampleTime
  fromisoformat s := if s = sampleTime then some () else none
  keyPrefix := lit "langgraph:store"
  scanCount := 256
  scanCount_pos := scanCount_default_pos

def sampleScanner : Scanner Str Bytes Str where
  selects _ _ := false
  page _ _ _ := (0, [])

def sampleRun : BatchRun Unit := ⟨[.put samplePut], 1, fun _ => ()⟩

def sampleUsed : Set (List Str) := { [lit "a"] }

theorem sampleLoads_text : sampleLoads sampleText = some sampleRecord := by
  have hne : sampleText ≠ utf8 (lit "\x7b\x7d") := by decide +kernel
  rw [sampleLoads, if_neg hne, if_pos rfl]

theorem sample_lawful : Lawful sampleStorage := by
  constructor
  · intro document b _ h
    simp only [sampleStorage] at h
    split_ifs at h with hempty hrecord
    · obtain rfl := Option.some.inj h
      rw [(Value.same_iff _ _).mp hempty]
      simp only [sampleStorage, sampleLoads, if_true, plain, plainEntries]
    · obtain rfl := Option.some.inj h
      rw [(Value.same_iff _ _).mp hrecord]
      simp only [sampleStorage, sampleLoads_text]
      simp only [sampleRecord, plain, plainEntries, plainItems]
  · intro t
    simp only [sampleStorage, if_true]

theorem sample_collisionFree : CollisionFree sampleStorage sampleUsed := by
  have hused : ∀ q, UsedPrefix sampleUsed q → q = [] ∨ q = [lit "a"] := by
    rintro q ⟨⟨ns, rfl, hq⟩, -⟩
    cases q with
    | nil => exact .inl rfl
    | cons s q =>
      obtain ⟨rfl, hrest⟩ := List.cons_prefix_cons.mp hq
      rw [List.prefix_nil.mp hrest]
      exact .inr rfl
  have hne : sampleStorage.sha256 [] ≠ sampleStorage.sha256 [0, 0, 0, 0, 0, 0, 0, 1, 97] := by
    decide +kernel
  have hidentity : ∀ q b, UsedPrefix sampleUsed q → namespaceIdentity q = .ok b →
      b = [] ∨ b = [0, 0, 0, 0, 0, 0, 0, 1, 97] := by
    intro q b hq hb
    rcases hused q hq with rfl | rfl
    · cases hb
      exact .inl rfl
    · have hcode : namespaceIdentity [lit "a"] = .ok [0, 0, 0, 0, 0, 0, 0, 1, 97] := by
        decide +kernel
      rw [hcode] at hb
      cases hb
      exact .inr rfl
  rintro b ⟨q, hq, hb⟩ c ⟨p, hp, hc⟩ heq
  rcases hidentity q b hq hb with rfl | rfl <;> rcases hidentity p c hp hc with rfl | rfl
  · rfl
  · exact absurd heq hne
  · exact absurd heq.symm hne
  · rfl

def samplePlace : Place sampleUsed where
  namespace_ := [lit "a"]
  key := lit "k"
  used := rfl
  nonempty := by simp
  labels s hs := by
    rw [List.mem_singleton.mp hs]
    decide +kernel
  storable := by decide +kernel

theorem catalogs_cover_items_stored :
    ∃ a, sampleStorage.Reachable sampleUsed sampleScanner Database.empty a ∧
      ∀ q, q <+: [lit "a"] →
        memberCode ([lit "a"], lit "k") ∈ a.state.zsets (sampleStorage.catalogCode q) := by
  let db := (run (exec sampleScanner) (sampleStorage.batchPlan sampleRun) Database.empty).2
  have hstored : db.get (sampleStorage.hashKey [lit "a"]) (fieldCode (lit "k")) =
      some sampleText := by decide +kernel
  have hadmits : ∀ op ∈ putsOf sampleRun.ops, op.namespace_ ∈ sampleUsed := by
    intro op hop
    rw [List.mem_singleton.mp hop]
    rfl
  have hreach : sampleStorage.Reachable sampleUsed sampleScanner Database.empty
      ⟨db, [⟨sampleRun, .ready (.finish (run (exec sampleScanner)
        (sampleStorage.batchPlan sampleRun) Database.empty).1)⟩]⟩ := by
    refine Relation.ReflTransGen.head
      ⟨sampleRun, .start hadmits fun j hj => absurd hj List.not_mem_nil⟩ ?_
    exact Reached.of_run _ _
  exact ⟨_, hreach, (catalogs_cover_items sample_lawful sample_collisionFree hreach).1
    samplePlace sampleText hstored⟩

end Sample

end FerricStore.MemoryStore
