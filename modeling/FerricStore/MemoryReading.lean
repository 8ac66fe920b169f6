import FerricStore.MemoryRecords

/-!
# Reading plans of the memory store

A search, a listing and a get ask for reading commands only, whatever they are answered,
and the first part of a batch keeps the last put of each item.
-/

set_option autoImplicit false

namespace FerricStore.MemoryStore
open Text OrderedKeys StorageKeys CommandPlans KeyedDatabase

variable {T : Type} {σ : Storage T}

/-- A plan of reading commands. -/
def Reading {α : Type} (A : α → Prop) (p : StorePlan α) : Prop :=
  Asks (fun c : Cmd => c.reads = true) A p

theorem itemCommand_reads {locator : List Str × Str} {c : Cmd}
    (h : σ.itemCommand locator = .ok c) : c.reads = true := by
  obtain ⟨key, -, h⟩ := except_bind_eq_ok h
  obtain ⟨field, -, h⟩ := except_bind_eq_ok h
  cases h
  rfl

theorem itemCommands_read {γ : Type} {f : γ → List Str × Str} {xs : List γ} {cs : List Cmd}
    (h : xs.mapM (fun x => σ.itemCommand (f x)) = .ok cs) : ∀ c ∈ cs, c.reads = true := by
  intro c hc
  obtain ⟨x, -, hx⟩ := forall₂_mem_right (mapM_forall₂ h) hc
  exact itemCommand_reads hx

theorem catalogPage_reading (q : List Str) (start count : ℕ) :
    Reading (fun _ => True) (σ.catalogPage q start count) := by
  refine Asks.bind (Asks.lift _) fun key _ => ?_
  refine Asks.bind (Asks.command rfl) fun response _ => ?_
  refine Asks.bind (Asks.lift _) fun members _ => ?_
  exact fun _ _ => trivial

theorem readCatalogItems_reading (locators : List (List Str × Str)) :
    Reading (fun _ => True) (σ.readCatalogItems locators) := by
  unfold Storage.readCatalogItems
  split_ifs
  · exact Asks.pure trivial
  · refine Asks.bind (Asks.lift _) fun cs hcs => ?_
    refine Asks.bind (Asks.batch (itemCommands_read hcs)) fun responses _ => ?_
    refine Asks.bind (Asks.lift _) fun responses _ => ?_
    exact fun _ _ => trivial

theorem scanCatalog_reading {ρ : Type} (visit : ρ → Item T → Except StorageError (Bool × ρ))
    (q : List Str) (fuel start : ℕ) (found : ρ) :
    Reading (fun _ => True) (σ.scanCatalog visit q fuel start found) := by
  induction fuel generalizing start found with
  | zero => exact fun _ h => nomatch h
  | succ fuel ih =>
    unfold Storage.scanCatalog
    refine (catalogPage_reading q start σ.scanCount).bind fun locators _ => ?_
    split_ifs
    · exact Asks.pure trivial
    · refine (readCatalogItems_reading locators).bind fun items _ => ?_
      refine Asks.bind (Asks.lift _) fun result _ => ?_
      obtain ⟨full, found⟩ := result
      simp only
      split_ifs
      · exact Asks.pure trivial
      · exact ih _ _

theorem search_reading (fuel : ℕ) (op : SearchOp) :
    Reading (fun _ => True) (σ.search fuel op) := by
  unfold Storage.search
  split_ifs
  · exact Asks.pure trivial
  · exact (scanCatalog_reading _ _ _ _ _).bind fun _ _ => Asks.pure trivial

theorem listNamespaces_reading (fuel : ℕ) (op : ListNamespacesOp) :
    Reading (fun _ => True) (σ.listNamespaces fuel op) := by
  unfold Storage.listNamespaces
  split_ifs
  · exact Asks.pure trivial
  · exact (scanCatalog_reading _ _ _ _ _).bind fun _ _ => Asks.pure trivial

theorem get_reading (op : GetOp) : Reading (fun _ => True) (σ.get op) := by
  refine Asks.bind (Asks.lift _) fun c hc => ?_
  refine Asks.bind (Asks.command (itemCommand_reads hc)) fun value _ => ?_
  exact fun _ _ => trivial

/-- The last put of each item, in the order of the first. -/
def lastPuts (puts : Dict (List Str × Str) PutOp) (ops : List PutOp) :
    Dict (List Str × Str) PutOp :=
  ops.foldl (fun puts op => Dict.set puts op.path op) puts

theorem gather_reading (fuel i : ℕ) (ops : List Op) (g : Gathered T)
    (hg : ∀ x ∈ g.gets, x.2.reads = true) :
    Reading (fun g' : Gathered T => g'.puts = lastPuts g.puts (putsOf ops) ∧
      ∀ x ∈ g'.gets, x.2.reads = true) (σ.gather fuel i ops g) := by
  induction ops generalizing i g with
  | nil => exact Asks.pure ⟨rfl, hg⟩
  | cons op ops ih =>
    cases op with
    | get op =>
      refine Asks.bind (Asks.lift _) fun c hc => ?_
      refine ih (i+1) { g with gets := g.gets++[(i, c)] } fun x hx => ?_
      rcases List.mem_append.mp hx with hx | hx
      · exact hg x hx
      · obtain rfl := List.mem_singleton.mp hx
        exact itemCommand_reads hc
    | search op =>
      refine Asks.bind (search_reading fuel op) fun items _ => ?_
      exact ih (i+1) { g with results := g.results.set i (.items items) } hg
    | listNamespaces op =>
      refine Asks.bind (listNamespaces_reading fuel op) fun ns _ => ?_
      exact ih (i+1) { g with results := g.results.set i (.namespaces ns) } hg
    | put op => exact ih (i+1) { g with puts := Dict.set g.puts op.path op } hg

theorem readGets_reading (g : Gathered T) (hg : ∀ x ∈ g.gets, x.2.reads = true) :
    Reading (fun _ => True) (σ.readGets g) := by
  unfold Storage.readGets
  split_ifs
  · exact Asks.pure trivial
  · have hreads : ∀ c ∈ g.gets.map Prod.snd, c.reads = true := by
      intro c hc
      obtain ⟨x, hx, rfl⟩ := List.mem_map.mp hc
      exact hg x hx
    refine Asks.bind (Asks.batch hreads) fun responses _ => ?_
    refine Asks.bind (Asks.lift _) fun responses _ => ?_
    exact fun _ _ => trivial

theorem mem_set_values {d : Dict (List Str × Str) PutOp} {k : List Str × Str} {op p : PutOp}
    (h : p ∈ (Dict.set d k op).map Prod.snd) : p = op ∨ p ∈ d.map Prod.snd := by
  induction d with
  | nil => exact .inl (List.mem_singleton.mp h)
  | cons e d ih =>
    obtain ⟨k', op'⟩ := e
    unfold Dict.set at h
    split_ifs at h with heq
    · rcases List.mem_cons.mp h with h | h
      · exact .inl h
      · exact .inr (List.mem_cons_of_mem _ h)
    · rcases List.mem_cons.mp h with h | h
      · exact .inr (h ▸ List.mem_cons_self)
      · rcases ih h with h | h
        · exact .inl h
        · exact .inr (List.mem_cons_of_mem _ h)

theorem mem_lastPuts {puts : Dict (List Str × Str) PutOp} {ops : List PutOp} {p : PutOp}
    (h : p ∈ (lastPuts puts ops).map Prod.snd) : p ∈ puts.map Prod.snd ∨ p ∈ ops := by
  induction ops generalizing puts with
  | nil => exact .inl h
  | cons op ops ih =>
    rcases ih h with h | h
    · rcases mem_set_values h with rfl | h
      · exact .inr List.mem_cons_self
      · exact .inl h
    · exact .inr (List.mem_cons_of_mem _ h)

end FerricStore.MemoryStore
