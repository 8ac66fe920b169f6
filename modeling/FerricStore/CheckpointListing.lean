import FerricStore.CheckpointHistories
import FerricStore.Leading

/-!
# Listing the checkpoint store

An index and the global catalog are read page by page from the greatest id down, and what has
no record is passed over. Whatever the pages, the rows found are the leading ones of the stored
records that match, and the rows of the hashes of a thread are merged by their ids.
-/

set_option autoImplicit false

namespace FerricStore.CheckpointStore
open Text OrderedKeys StorageKeys CheckpointKeys CommandPlans KeyedDatabase Leading
open MemoryStore (Db Cmd Answer StorePlan field isFormatVersion)

/-- A stored record and the hash that holds it. -/
abbrev Row := Str × Record

def Row.found (x : Row) : Found := ⟨x.2.checkpointId, x.1, x.2.fields⟩

section Rows

variable {σ : Storage} {U : Set (Str × Str)} {scanner : Scanner Str Bytes Str} {db : Db}

/-- What the record must satisfy besides its hash. -/
def Selection.accepts (selection : Selection) (r : Record) : Bool :=
  !(selection.beforeId.any fun before => before ≤ r.checkpointId) &&
    !(selection.filter.any fun accepts => !accepts r.metadata)

theorem record_value (r : Record) : r.value = .dict r.fields := rfl

theorem Record.fields_inj {r r' : Record} (h : r.fields = r'.fields) : r = r' := by
  obtain ⟨t, ns, id, parent, checkpoint, metadata⟩ := r
  obtain ⟨t', ns', id', parent', checkpoint', metadata'⟩ := r'
  simp only [Record.fields, List.cons.injEq, Prod.mk.injEq, Value.str.injEq, Value.dict.injEq,
    true_and, and_true] at h
  obtain ⟨rfl, rfl, rfl, hparent, rfl, rfl⟩ := h
  cases parent <;> cases parent' <;> simp_all

/-- A hash holds one record of a checkpoint. -/
theorem Lawful.committed_inj (hσ : Lawful σ U) {key : Str} {r r' : Record}
    (h : σ.Committed db key r) (h' : σ.Committed db key r')
    (hid : r.checkpointId = r'.checkpointId) : r = r' := by
  obtain ⟨name, value, hname, hvalue, hget⟩ := h
  obtain ⟨name', value', hname', hvalue', hget'⟩ := h'
  obtain rfl := Except.ok.inj (hname.symm.trans (hid ▸ hname'))
  obtain rfl := Option.some.inj (hget.symm.trans hget')
  have hsame := (hσ.deserialize_serialize hvalue).symm.trans (hσ.deserialize_serialize hvalue')
  exact Record.fields_inj (Value.dict.inj (Except.ok.inj hsame))

open Classical in
/-- The record that the hash holds of the checkpoint. -/
noncomputable def Storage.stored (σ : Storage) (db : Db) (key id : Str) : Option Record :=
  if h : ∃ r, σ.Committed db key r ∧ r.checkpointId = id then some h.choose else none

theorem stored_some {key id : Str} {r : Record} (hσ : Lawful σ U) :
    σ.stored db key id = some r ↔ σ.Committed db key r ∧ r.checkpointId = id := by
  unfold Storage.stored
  split_ifs with h
  · rw [Option.some.injEq]
    constructor
    · rintro rfl
      exact h.choose_spec
    · exact fun hr => hσ.committed_inj h.choose_spec.1 hr.1 (h.choose_spec.2.trans hr.2.symm)
  · exact ⟨fun hr => (nomatch hr), fun hr => (h ⟨r, hr⟩).elim⟩

theorem readRecord_stored (hσ : Lawful σ U) (hdb : σ.Sane U db) {t ns key id : Str}
    (hU : (t, ns) ∈ U) (hkey : threadKey σ.sha256 σ.keyPrefix t ns = .ok key)
    (hid : encodable id = true) : run (exec scanner) (σ.readRecord key id) db =
      (.ok ((σ.stored db key id).map Record.fields), db) := by
  obtain ⟨found, hrun, hsome, hnone⟩ :=
    @readRecord_read σ U scanner db t ns key id hσ hdb hU hkey hid
  have hfound : found = σ.stored db key id := by
    cases hr : found with
    | some r =>
      obtain ⟨hc, -, -, hrid⟩ := hsome r hr
      exact ((stored_some hσ).mpr ⟨hc, hrid⟩).symm
    | none =>
      cases hstored : σ.stored db key id with
      | none => rfl
      | some r =>
        obtain ⟨hc, hrid⟩ := (stored_some hσ).mp hstored
        exact absurd hrid (hnone hr r hc)
  rw [hrun, hfound]

/-- The rows of some places that are selected. -/
noncomputable def Storage.rows (σ : Storage) (db : Db) (selection : Selection)
    (places : List (Str × Str)) : List Row :=
  places.filterMap fun p => ((σ.stored db p.2 p.1).filter selection.accepts).map (p.2, ·)

/-- A checkpoint id and a hash in use. -/
def Storage.Readable (σ : Storage) (U : Set (Str × Str)) (p : Str × Str) : Prop :=
  encodable p.1 = true ∧ ∃ t, σ.HashOf U t p.2

theorem rows_cons (selection : Selection) (p : Str × Str) (places : List (Str × Str)) :
    σ.rows db selection (p::places) =
      (((σ.stored db p.2 p.1).filter selection.accepts).map (p.2, ·)).toList++
        σ.rows db selection places := by
  rw [Storage.rows, List.filterMap_cons]
  cases ((σ.stored db p.2 p.1).filter selection.accepts).map fun r => (p.2, r) <;> rfl

theorem rows_append (selection : Selection) (before after : List (Str × Str)) :
    σ.rows db selection (before++after) =
      σ.rows db selection before++σ.rows db selection after :=
  List.filterMap_append

/-- The places of a page in turn. -/
theorem visit_rows (hσ : Lawful σ U) (hdb : σ.Sane U db) (selection : Selection)
    {places : List (Str × Str)} (hplaces : ∀ p ∈ places, σ.Readable U p) (found : List Row)
    (hroom : ∀ n, selection.limit = some n → found.length < n) :
    run (exec scanner) (σ.visit selection places (found.map Row.found)) db =
      (.ok ((upTo selection.limit (found++σ.rows db selection places)).map Row.found), db) := by
  induction places generalizing found with
  | nil =>
    have hall : upTo selection.limit found = found := upTo_of_lt hroom
    rw [Storage.visit, Storage.rows, List.filterMap_nil, List.append_nil, hall]
    rfl
  | cons p places ih =>
    obtain ⟨id, key⟩ := p
    have hrest := fun q hq => hplaces q (List.mem_cons_of_mem (id, key) hq)
    obtain ⟨hid, t, ns, hU, hkey⟩ := hplaces (id, key) List.mem_cons_self
    have hread := @readRecord_stored σ U scanner db hσ hdb t ns key id hU hkey hid
    have hskip := ih hrest found hroom
    rw [rows_cons, Storage.visit]
    by_cases hbefore : (selection.beforeId.any fun before => before ≤ id) = true
    · have hnone : (σ.stored db key id).filter selection.accepts = none := by
        refine Option.filter_eq_none_iff.mpr fun r hr => ?_
        obtain ⟨-, rfl⟩ := (stored_some hσ).mp hr
        simp [Selection.accepts, hbefore]
      rw [if_pos hbefore, hnone]
      exact hskip
    rw [if_neg hbefore, run_bind_ok hread]
    cases hstored : σ.stored db key id with
    | none => exact hskip
    | some r =>
      obtain ⟨-, hrid⟩ := (stored_some hσ).mp hstored
      have hmetadata : field r.fields "metadata" = .dict r.metadata := by
        rw [field_entry, r.entry_fields.2.2.2.2.2.2]
        rfl
      simp only [Option.map_some, hmetadata]
      by_cases hfilter : (selection.filter.any fun accepts => !accepts r.metadata) = true
      · have hnone : (some r).filter selection.accepts = none := by
          simp [Option.filter, Selection.accepts, hfilter]
        rw [if_pos hfilter, hnone]
        exact hskip
      · have haccepts : selection.accepts r = true := by
          rw [Selection.accepts, hrid]
          simp [hbefore, hfilter]
        have hrow : ((⟨id, key, r.fields⟩ : Found)) = Row.found (key, r) := by
          rw [Row.found, hrid]
        rw [if_neg hfilter, Option.filter_some, if_pos haccepts, List.length_map, hrow]
        simp only [Option.map_some, Option.toList_some, List.singleton_append]
        by_cases hfull : selection.limit = some (found.length+1)
        · rw [if_pos hfull]
          have hstop := @upTo_append Row selection.limit (found++[(key, r)])
            (σ.rows db selection places) (by simpa using hfull)
          rw [List.append_assoc, List.singleton_append] at hstop
          rw [hstop, List.map_append]
          rfl
        · rw [if_neg hfull]
          have hmore := ih hrest (found++[(key, r)]) fun n hn => by
            have hlt := hroom n hn
            rw [List.length_append, List.length_singleton]
            by_contra hle
            exact hfull (by rw [hn]; congr 1; omega)
          rw [List.map_append, List.append_assoc] at hmore
          exact hmore

end Rows

section Pages

variable {σ : Storage} {U : Set (Str × Str)} {scanner : Scanner Str Bytes Str} {db : Db}
  {selection : Selection}

/-- The places of an index, from the greatest id down. -/
def Storage.indexPlaces (db : Db) (key : Str) : List (Str × Str) :=
  (db.zsets (checkpointIndexKey key)).members.reverse.map fun m => ((decode m).getD [], key)

/-- The places of the global catalog, from the greatest id down. -/
def Storage.globalPlaces (σ : Storage) (db : Db) : List (Str × Str) :=
  (db.zsets (CheckpointKeys.catalogKey σ.keyPrefix)).members.reverse.map fun m =>
    (decodeLocator m).toOption.getD ([], [])

theorem page_room {found : List Row} {limit : Option ℕ}
    (h : limit ≠ some (upTo limit found).length) (n : ℕ) (hn : limit = some n) :
    (upTo limit found).length < n := by
  refine lt_of_le_of_ne (upTo_length limit found n hn) fun heq => h ?_
  rw [heq, hn]

/-- One turn of a loop over pages: the page is empty at the end only, the loop may stop once the
limit is reached or the page is short, and else goes on with less. -/
theorem page_turn {α : Type} (place : α → Str × Str) (xs : List α) {count : Option ℕ}
    (hcount : ∀ n, count = some n → 0 < n) (start : ℕ) (found : List Row) {page : List α}
    (hpage : page = upTo count (xs.drop start)) :
    (page = [] → xs.drop start = []) ∧
    (selection.limit = some (upTo selection.limit
        (found++σ.rows db selection (page.map place))).length ∨
        (count.all fun n => page.length < n) = true →
      upTo selection.limit (found++σ.rows db selection ((xs.drop start).map place)) =
        upTo selection.limit (found++σ.rows db selection (page.map place))) ∧
    upTo selection.limit (upTo selection.limit (found++σ.rows db selection (page.map place))++
        σ.rows db selection ((xs.drop (start+page.length)).map place)) =
      upTo selection.limit (found++σ.rows db selection ((xs.drop start).map place)) ∧
    (page ≠ [] → (xs.drop (start+page.length)).length < (xs.drop start).length) := by
  have hsplit : page++xs.drop (start+page.length) = xs.drop start := by
    rw [← List.drop_drop, hpage]
    exact upTo_page count _
  have hrows : σ.rows db selection ((xs.drop start).map place) =
      σ.rows db selection (page.map place)++
        σ.rows db selection ((xs.drop (start+page.length)).map place) := by
    rw [← rows_append, ← List.map_append, hsplit]
  refine ⟨fun hempty => ?_, fun hdone => ?_, ?_, fun hne => ?_⟩
  · cases hcases : count with
    | none => exact hpage.symm.trans hempty ▸ by rw [hcases]; rfl
    | some n =>
      rw [hpage, hcases, upTo, Option.elim_some] at hempty
      exact (List.take_eq_nil_iff.mp hempty).resolve_left (hcount n hcases).ne'
  · rw [hrows]
    rcases hdone with hfull | hshort
    · rw [← List.append_assoc, ← upTo_upTo, upTo_append _ hfull]
    · have hrest : xs.drop (start+page.length) = [] := by
        cases hcases : count with
        | none =>
          have hall : page = xs.drop start := by rw [hpage, hcases]; rfl
          rw [← List.drop_drop, hall, List.drop_length]
        | some n =>
          rw [hcases, Option.all_some, decide_eq_true_eq] at hshort
          rw [hpage, hcases, upTo, Option.elim_some, List.length_take, List.length_drop] at hshort ⊢
          exact List.drop_eq_nil_of_le (by omega)
      rw [hrest, List.map_nil, Storage.rows, Storage.rows, List.filterMap_nil, List.append_nil]
  · rw [upTo_upTo, List.append_assoc, hrows]
  · have hpos := List.length_pos_iff.mpr hne
    have hlength := congrArg List.length hsplit
    rw [List.length_append] at hlength
    omega

variable {t ns key : Str}

theorem index_places (hσ : Lawful σ U) (hdb : σ.Sane U db) (hhash : σ.HashOf U t key) :
    ∃ ids : List Str, (db.zsets (checkpointIndexKey key)).members.reverse = ids.map utf8 ∧
      (∀ id ∈ ids, encodable id = true) ∧ Storage.indexPlaces db key = ids.map (·, key) := by
  obtain ⟨ids, hids, htext⟩ := index_ids hσ hdb hhash
  have hreverse : (db.zsets (checkpointIndexKey key)).members.reverse = ids.reverse.map utf8 := by
    rw [hids, List.map_reverse]
  refine ⟨ids.reverse, hreverse, fun id hid => htext id (List.mem_reverse.mp hid), ?_⟩
  rw [Storage.indexPlaces, hreverse, List.map_map]
  refine List.map_congr_left fun id hid => ?_
  simp only [Function.comp, decode_utf8 (htext id (List.mem_reverse.mp hid)), Option.getD_some]

/-- A page of the index. -/
theorem checkpointIds_read {ids : List Str}
    (hids : (db.zsets (checkpointIndexKey key)).members.reverse = ids.map utf8)
    (htext : ∀ id ∈ ids, encodable id = true) (start : ℕ) {count : Option ℕ}
    (hcount : ∀ n, count = some n → 0 < n) :
    run (exec scanner) (σ.checkpointIds key start count) db =
      (.ok (upTo count (ids.drop start)), db) := by
  have hslice : slice (start : ℤ) (count.elim (-1) fun n => start+n-1) (ids.map utf8) =
      (upTo count (ids.drop start)).map utf8 := by
    cases count with
    | none => exact (slice_rest _ start).trans List.map_drop.symm
    | some n =>
      have hpage := slice_page (ids.map utf8) start (hcount n rfl)
      rw [Option.elim_some, hpage, upTo, Option.elim_some, List.map_take, List.map_drop]
  rw [Storage.checkpointIds, run_bind_ok (run_command _ _)]
  simp only [exec, rangeMembers, Plan.lift_bind, hids, hslice, List.mapM_map]
  have htexts : (upTo count (ids.drop start)).mapM
      ((fun b => σ.text "checkpoint id" (.bytes b)) ∘ utf8) =
        .ok ((upTo count (ids.drop start)).map fun id => id) := by
    refine mapM_eq_ok fun id hid => ?_
    have hmem : id ∈ ids := by
      refine List.mem_of_mem_drop (i := start) ?_
      rw [← upTo_page count (ids.drop start)]
      exact List.mem_append_left _ hid
    rw [Function.comp, Storage.text, decode_utf8 (htext id hmem)]
    rfl
  rw [htexts, List.map_id']
  rfl

/-- The loop over an index finds the leading rows of what is left of it. -/
theorem indexPages_rows (hσ : Lawful σ U) (hdb : σ.Sane U db) (hhash : σ.HashOf U t key)
    {ids : List Str}
    (hids : (db.zsets (checkpointIndexKey key)).members.reverse = ids.map utf8)
    (htext : ∀ id ∈ ids, encodable id = true) {fuel start : ℕ} (found : List Row)
    (hroom : ∀ n, selection.limit = some n → found.length < n)
    (hfuel : (ids.drop start).length < fuel) :
    run (exec scanner) (σ.indexPages selection key fuel start (found.map Row.found)) db =
      (.ok ((upTo selection.limit (found++σ.rows db selection
        ((ids.drop start).map (·, key)))).map Row.found), db) := by
  induction fuel generalizing start found with
  | zero => omega
  | succ fuel ih =>
    have hcount : ∀ n, σ.pageCount selection (found.map Row.found).length = some n → 0 < n := by
      intro n hn
      obtain ⟨m, -, rfl⟩ := Option.map_eq_some_iff.mp hn
      split_ifs
      · omega
      · exact σ.scanCount_pos
    rw [Storage.indexPages, run_bind_ok (checkpointIds_read hids htext start hcount)]
    generalize σ.pageCount selection (found.map Row.found).length = count at hcount
    obtain ⟨page, hdef⟩ : ∃ page, page = upTo count (ids.drop start) := ⟨_, rfl⟩
    obtain ⟨hend, hstop, hmore, hless⟩ :=
      @page_turn σ db selection _ (·, key) ids count hcount start found page hdef
    rw [← hdef]
    by_cases hempty : page = []
    · rw [if_pos hempty, hend hempty, List.map_nil, Storage.rows, List.filterMap_nil,
        List.append_nil, upTo_of_lt hroom]
      rfl
    have hplaces : ∀ p ∈ page.map (·, key), σ.Readable U p := by
      intro p hp
      obtain ⟨id, hid, rfl⟩ := List.mem_map.mp hp
      refine ⟨htext id (List.mem_of_mem_drop (i := start) ?_), t, hhash⟩
      rw [← upTo_page count (ids.drop start), ← hdef]
      exact List.mem_append_left _ hid
    rw [if_neg hempty, run_bind_ok (visit_rows hσ hdb selection hplaces found hroom),
      List.length_map]
    by_cases hdone : selection.limit =
        some (upTo selection.limit (found++σ.rows db selection (page.map (·, key)))).length ∨
          count.all fun n => page.length < n
    · rw [if_pos hdone, hstop hdone]
      rfl
    · have hnext := hless hempty
      rw [if_neg hdone, ih _ (page_room fun h => hdone (.inl h)) (by omega), hmore]

/-- What stands for a place in the catalogs of locators. -/
def locatorCode (p : Str × Str) : Bytes := textCode p.1++utf8 p.2

theorem Lawful.decodeLocator_code (hσ : Lawful σ U) {p : Str × Str} (h : σ.Readable U p) :
    decodeLocator (locatorCode p) = .ok p := by
  obtain ⟨hid, t, ns, -, hkey⟩ := h
  rw [decodeLocator, locatorCode,
    decodeCheckpointLocator_code hid (hσ.key_text hkey).1 (hσ.key_text hkey).2]

theorem Lawful.storedLocator_code (hσ : Lawful σ U) {p : Str × Str} (h : σ.Readable U p) :
    storedLocator p.1 p.2 = .ok (locatorCode p) := by
  obtain ⟨hid, t, ns, -, hkey⟩ := h
  rw [storedLocator, checkpointLocator_eq hid (hσ.key_text hkey).1, locatorCode]

theorem global_places (hσ : Lawful σ U) (hdb : σ.Sane U db) :
    (db.zsets (CheckpointKeys.catalogKey σ.keyPrefix)).members.reverse =
        (σ.globalPlaces db).map locatorCode ∧
      ∀ p ∈ σ.globalPlaces db, σ.Readable U p := by
  have hmember : ∀ m ∈ (db.zsets (CheckpointKeys.catalogKey σ.keyPrefix)).members.reverse,
      ∃ p, σ.Readable U p ∧ m = locatorCode p := by
    intro m hm
    rcases hdb.members _ m (List.mem_reverse.mp hm) with
      ⟨s, hash, _, hhash, -, heq, -⟩ | ⟨s, ⟨key, id, hhash, hm⟩, -⟩
    · exact absurd heq.symm (hσ.index_ne_global hhash)
    · obtain ⟨hid, rfl⟩ := storedLocator_ok hm
      exact ⟨(id, key), ⟨hid, s, hhash⟩, rfl⟩
  have hplace : ∀ p, σ.Readable U p →
      (decodeLocator (locatorCode p)).toOption.getD ([], []) = p := fun p hp => by
    rw [hσ.decodeLocator_code hp]
    rfl
  constructor
  · rw [Storage.globalPlaces, List.map_map]
    refine (List.map_id _).symm.trans (List.map_congr_left fun m hm => ?_)
    obtain ⟨p, hp, rfl⟩ := hmember m hm
    exact congrArg locatorCode (hplace p hp).symm
  · intro p hp
    obtain ⟨m, hm, rfl⟩ := List.mem_map.mp hp
    obtain ⟨q, hq, rfl⟩ := hmember m hm
    rw [hplace q hq]
    exact hq

theorem globalLocatorPage_read (hσ : Lawful σ U) (hdb : σ.Sane U db) (start : ℕ) :
    run (exec scanner) (σ.globalLocatorPage start) db =
      (.ok (upTo (some σ.scanCount) ((σ.globalPlaces db).drop start)), db) := by
  obtain ⟨hcodes, hreadable⟩ := global_places hσ hdb
  have hslice : slice (start : ℤ) (start+σ.scanCount-1)
      ((σ.globalPlaces db).map locatorCode) =
        (upTo (some σ.scanCount) ((σ.globalPlaces db).drop start)).map locatorCode := by
    rw [slice_page _ start σ.scanCount_pos, upTo, Option.elim_some, List.map_take, List.map_drop]
  rw [Storage.globalLocatorPage, run_bind_ok (run_command _ _)]
  simp only [exec, rangeMembers, Plan.lift_bind, hcodes, hslice, List.mapM_map]
  have hdecoded : (upTo (some σ.scanCount) ((σ.globalPlaces db).drop start)).mapM
      (decodeLocator ∘ locatorCode) =
        .ok ((upTo (some σ.scanCount) ((σ.globalPlaces db).drop start)).map fun p => p) := by
    refine mapM_eq_ok fun p hp => hσ.decodeLocator_code (hreadable p ?_)
    refine List.mem_of_mem_drop (i := start) ?_
    rw [← upTo_page (some σ.scanCount) ((σ.globalPlaces db).drop start)]
    exact List.mem_append_left _ hp
  rw [hdecoded, List.map_id']
  rfl

/-- So does the loop over the global catalog. -/
theorem globalPages_rows (hσ : Lawful σ U) (hdb : σ.Sane U db) {fuel start : ℕ}
    (found : List Row) (hroom : ∀ n, selection.limit = some n → found.length < n)
    (hfuel : ((σ.globalPlaces db).drop start).length < fuel) :
    run (exec scanner) (σ.globalPages selection fuel start (found.map Row.found)) db =
      (.ok ((upTo selection.limit (found++σ.rows db selection
        ((σ.globalPlaces db).drop start))).map Row.found), db) := by
  induction fuel generalizing start found with
  | zero => omega
  | succ fuel ih =>
    obtain ⟨page, hdef⟩ : ∃ page, page =
      upTo (some σ.scanCount) ((σ.globalPlaces db).drop start) := ⟨_, rfl⟩
    obtain ⟨hend, hstop, hmore, hless⟩ := @page_turn σ db selection _ id (σ.globalPlaces db)
      (some σ.scanCount) (fun n hn => Option.some.inj hn ▸ σ.scanCount_pos) start found page hdef
    simp only [List.map_id, Option.all_some, decide_eq_true_eq] at hstop hmore
    rw [Storage.globalPages, run_bind_ok (globalLocatorPage_read hσ hdb start), ← hdef]
    by_cases hempty : page = []
    · rw [if_pos hempty, hend hempty, Storage.rows, List.filterMap_nil, List.append_nil,
        upTo_of_lt hroom]
      rfl
    have hplaces : ∀ p ∈ page, σ.Readable U p := by
      intro p hp
      refine (global_places hσ hdb).2 p (List.mem_of_mem_drop (i := start) ?_)
      rw [← upTo_page (some σ.scanCount) ((σ.globalPlaces db).drop start), ← hdef]
      exact List.mem_append_left _ hp
    rw [if_neg hempty, run_bind_ok (visit_rows hσ hdb selection hplaces found hroom),
      List.length_map]
    by_cases hdone : selection.limit =
        some (upTo selection.limit (found++σ.rows db selection page)).length ∨
          page.length < σ.scanCount
    · rw [if_pos hdone, hstop hdone]
      rfl
    · have hnext := hless hempty
      rw [if_neg hdone, ih _ (page_room fun h => hdone (.inl h)) (by omega), hmore]

end Pages

section Lists

variable {σ : Storage} {U : Set (Str × Str)} {scanner : Scanner Str Bytes Str} {db : Db}
  {selection : Selection}

theorem mem_rows (hσ : Lawful σ U) {places : List (Str × Str)} {x : Row} :
    x ∈ σ.rows db selection places ↔ (x.2.checkpointId, x.1) ∈ places ∧
      σ.Committed db x.1 x.2 ∧ selection.accepts x.2 = true := by
  obtain ⟨key, r⟩ := x
  rw [Storage.rows, List.mem_filterMap]
  constructor
  · rintro ⟨⟨id, key'⟩, hplace, hrow⟩
    obtain ⟨r', hr', heq⟩ := Option.map_eq_some_iff.mp hrow
    cases heq
    obtain ⟨hstored, haccepts⟩ := Option.filter_eq_some_iff.mp hr'
    obtain ⟨hc, rfl⟩ := (stored_some hσ).mp hstored
    exact ⟨hplace, hc, haccepts⟩
  · rintro ⟨hplace, hc, haccepts⟩
    refine ⟨_, hplace, Option.map_eq_some_iff.mpr ⟨r, Option.filter_eq_some_iff.mpr
      ⟨(stored_some hσ).mpr ⟨hc, rfl⟩, haccepts⟩, rfl⟩⟩

/-- The rows of places in the order of their ids lead. -/
theorem rows_lead (hσ : Lawful σ U) {places : List (Str × Str)} (hnodup : places.Nodup)
    (hsorted : places.Pairwise fun p q => q.1 ≤ p.1) :
    Leads selection.limit (fun x : Row => (x.2.checkpointId, x.1) ∈ places ∧
      σ.Committed db x.1 x.2 ∧ selection.accepts x.2 = true) (fun x => x.2.checkpointId)
      (upTo selection.limit (σ.rows db selection places)) := by
  have hplace : ∀ p x, x ∈ ((σ.stored db p.2 p.1).filter selection.accepts).map (p.2, ·) →
      p = (x.2.checkpointId, x.1) := by
    rintro ⟨id, key⟩ ⟨key', r⟩ hx
    obtain ⟨r', hr', heq⟩ := Option.map_eq_some_iff.mp hx
    cases heq
    obtain ⟨-, rfl⟩ := (stored_some hσ).mp (Option.filter_eq_some_iff.mp hr').1
    rfl
  refine Leads.of_sorted selection.limit (fun x => mem_rows hσ) ?_ ?_
  · exact hnodup.filterMap fun p q x hp hq => (hplace p x hp).trans (hplace q x hq).symm
  · refine List.pairwise_filterMap.mpr (hsorted.imp fun {p q} hpq x hx y hy => ?_)
    rw [hplace p x hx, hplace q y hy] at hpq
    exact hpq

theorem locatorCode_lt {p q : Str × Str} (h : locatorCode q < locatorCode p) : q.1 ≤ p.1 := by
  rcases locator_lt.mp h with hlt | ⟨heq, -⟩
  · exact le_of_lt hlt
  · exact le_of_eq heq

theorem globalPlaces_sorted (hσ : Lawful σ U) (hdb : σ.Sane U db) :
    (σ.globalPlaces db).Nodup ∧ (σ.globalPlaces db).Pairwise fun p q => q.1 ≤ p.1 := by
  have hcodes := (global_places hσ hdb).1
  have hsorted : ((σ.globalPlaces db).map locatorCode).Pairwise (· > ·) := by
    rw [← hcodes]
    exact List.pairwise_reverse.mpr (OrderedSet.sorted _)
  have hpairs := List.pairwise_map.mp hsorted
  refine ⟨hpairs.imp fun {p q} hpq heq => ?_, hpairs.imp fun {p q} hpq => locatorCode_lt hpq⟩
  exact lt_irrefl _ (heq ▸ hpq)

/-- The places of one hash that a listing reads. -/
def Storage.placesOf (db : Db) (expectedId : Option Str) (key : Str) : List (Str × Str) :=
  match expectedId with
  | some id => [(id, key)]
  | none => Storage.indexPlaces db key

theorem placesOf_sorted (hσ : Lawful σ U) (hdb : σ.Sane U db) {t key : Str}
    (hhash : σ.HashOf U t key) (expectedId : Option Str) :
    (Storage.placesOf db expectedId key).Nodup ∧
      (Storage.placesOf db expectedId key).Pairwise fun p q => q.1 ≤ p.1 := by
  cases expectedId with
  | some id => exact ⟨List.nodup_singleton _, List.pairwise_singleton _ _⟩
  | none =>
    obtain ⟨ids, hids, -, hplaces⟩ := index_places hσ hdb hhash
    have hdescending := index_descending hids
    rw [Storage.placesOf, hplaces]
    exact ⟨(hdescending.imp fun hab => ne_of_gt hab).map _ fun a b hab h => hab (Prod.mk.inj h).1,
      List.pairwise_map.mpr (hdescending.imp fun hab => le_of_lt hab)⟩

/-- The rows of the hashes in turn. -/
theorem keysPages_rows (hσ : Lawful σ U) (hdb : σ.Sane U db) {t : Str} {keys : List Str}
    (hkeys : ∀ key ∈ keys, σ.HashOf U t key) {expectedId : Option Str}
    (hid : ∀ id, expectedId = some id → encodable id = true)
    (hlimit : ∀ n, selection.limit = some n → 0 < n) :
    ∃ n, ∀ fuel, n ≤ fuel → run (exec scanner) (σ.keysPages fuel selection expectedId keys) db =
      (.ok ((keys.flatMap fun key => upTo selection.limit
        (σ.rows db selection (Storage.placesOf db expectedId key))).map Row.found), db) := by
  induction keys with
  | nil => exact ⟨0, fun _ _ => rfl⟩
  | cons key keys ih =>
    obtain ⟨n, hrest⟩ := ih fun k hk => hkeys k (List.mem_cons_of_mem key hk)
    have hhash := hkeys key List.mem_cons_self
    have hroom : ∀ m, selection.limit = some m → ([] : List Row).length < m := hlimit
    cases expectedId with
    | some id =>
      refine ⟨n, fun fuel hfuel => ?_⟩
      have hplaces : ∀ p ∈ [(id, key)], σ.Readable U p := by
        intro p hp
        rw [List.mem_singleton.mp hp]
        exact ⟨hid id rfl, t, hhash⟩
      have hfirst := @visit_rows σ U scanner db hσ hdb selection _ hplaces [] hroom
      rw [List.nil_append, List.map_nil] at hfirst
      rw [Storage.keysPages]
      simp only
      rw [run_bind_ok hfirst, run_bind_ok (hrest fuel hfuel), List.flatMap_cons, List.map_append]
      rfl
    | none =>
      obtain ⟨ids, hids, htext, hplaces⟩ := index_places hσ hdb hhash
      refine ⟨max n (ids.length+1), fun fuel hfuel => ?_⟩
      have hfirst := @indexPages_rows σ U scanner db selection t key hσ hdb hhash ids hids htext
        fuel 0 [] hroom (by rw [List.drop_zero]; omega)
      rw [List.nil_append, List.drop_zero, List.map_nil, ← hplaces] at hfirst
      rw [Storage.keysPages]
      simp only
      rw [run_bind_ok hfirst, run_bind_ok (hrest fuel (by omega)), List.flatMap_cons,
        List.map_append]
      rfl

theorem tuples_read (hσ : Lawful σ U) (hs : Faithful scanner) (hdb : σ.Sane U db)
    {found : List Row} (hfound : ∀ x ∈ found, σ.Committed db x.1 x.2) :
    ∃ n tuples, List.Forall₂ (fun x tuple => σ.TupleOf db x.1 x.2 tuple) found tuples ∧
      ∀ fuel, n ≤ fuel → run (exec scanner) (σ.tuples fuel (found.map Row.found)) db =
        (.ok tuples, db) := by
  induction found with
  | nil => exact ⟨0, [], .nil, fun _ _ => rfl⟩
  | cons x found ih =>
    obtain ⟨n, tuples, htuples, hrest⟩ := ih fun y hy => hfound y (List.mem_cons_of_mem x hy)
    obtain ⟨m, pendingWrites, tuple, hof, htuple, hrun⟩ :=
      tuple_read hσ hs hdb (hfound x List.mem_cons_self)
    refine ⟨max n m, tuple::tuples, .cons hof htuples, fun fuel hfuel => ?_⟩
    rw [List.map_cons, Storage.tuples, Row.found, run_bind_ok (hrun fuel (by omega)),
      Plan.lift_bind, htuple]
    simp only
    rw [run_bind_ok (hrest fuel (by omega))]
    rfl

end Lists

section Reads

variable {σ : Storage} {U : Set (Str × Str)} {scanner : Scanner Str Bytes Str} {db : Db}

variable (σ) in
/-- The configuration names the thread of the record, and its namespace and its id where it
names any. -/
def Storage.Within (config : Option Config) (r : Record) : Prop :=
  match config with
  | none => True
  | some config => ∃ configurable, entry config "configurable" = some (.dict configurable) ∧
    σ.text "thread_id" (field configurable "thread_id") = .ok r.threadId ∧
    (∀ ns, entry configurable "checkpoint_ns" = some ns →
      σ.text "checkpoint_ns" ns = .ok r.checkpointNs) ∧
    ∀ id, σ.checkpointId config = some id → r.checkpointId = id

variable (σ) in
/-- The row is stored and meets the conditions of a listing. -/
def Storage.Matches (db : Db) (config : Option Config) (filter : Option (Dict Key Value → Bool))
    (before : Option Config) (x : Row) : Prop :=
  σ.Committed db x.1 x.2 ∧ σ.Within config x.2 ∧
    (∀ id, before.bind σ.checkpointId = some id → x.2.checkpointId < id) ∧
    ∀ accepts, filter = some accepts → accepts x.2.metadata = true

variable (σ U) in
/-- A configuration that can be listed: a thread in use, a namespace that can be spelled and a
checkpoint id that is text. -/
def Storage.Listable (config : Option Config) : Prop :=
  match config with
  | none => True
  | some config => ∃ configurable, entry config "configurable" = some (.dict configurable) ∧
    (∃ t : Thread U, σ.text "thread_id" (field configurable "thread_id") = .ok t.id ∧
      ∀ value, entry configurable "checkpoint_ns" = some value → ∃ ns key,
        σ.text "checkpoint_ns" value = .ok ns ∧ (t.id, ns) ∈ U ∧
          threadKey σ.sha256 σ.keyPrefix t.id ns = .ok key) ∧
    ∀ id, σ.checkpointId config = some id → encodable id = true

theorem accepted_iff {selection : Selection} {r : Record} : selection.accepts r = true ↔
    (∀ id, selection.beforeId = some id → r.checkpointId < id) ∧
      ∀ accepts, selection.filter = some accepts → accepts r.metadata = true := by
  cases hbefore : selection.beforeId <;> cases hfilter : selection.filter <;>
    simp [Selection.accepts, hbefore, hfilter]

/-- The catalog of a thread, read as its hashes. -/
theorem threadKeys_read (hσ : Lawful σ U) {t : Thread U} (hkept : σ.Kept U t (σ.view U t db)) :
    ∃ keys : List Str, run (exec scanner) (σ.threadKeys t.id) db = (.ok keys, db) ∧ keys.Nodup ∧
      (∀ key ∈ keys, σ.HashOf U t.id key) ∧
      ∀ key, utf8 key ∈ db.sets (σ.spacesKey t.id) → key ∈ keys := by
  obtain ⟨keys, hkeys⟩ := @exists_forall₂ _ _ (fun m key => σ.HashOf U t.id key ∧
    m = utf8 key) (db.sets (σ.spacesKey t.id)).members fun m hm => hkept.spaces m hm
  have hmembers : (db.sets (σ.spacesKey t.id)).members = keys.map utf8 := by
    have heq := hkeys.imp fun m key h => h.2
    rwa [← List.forall₂_map_right_iff, List.forall₂_eq_eq_eq] at heq
  have htexts : (keys.map utf8).mapM (fun b => σ.text "thread checkpoint key" (.bytes b)) =
      .ok (keys.map fun key => key) := by
    rw [List.mapM_map]
    refine mapM_eq_ok fun key hkey => ?_
    obtain ⟨m, -, ⟨ns, -, hk⟩, -⟩ := forall₂_mem_right hkeys hkey
    rw [Function.comp, Storage.text, decode_utf8 (hσ.key_text hk).1]
    rfl
  have hnodup : keys.Nodup := by
    have hsorted := (db.sets (σ.spacesKey t.id)).members_nodup
    rw [hmembers] at hsorted
    exact List.Nodup.of_map utf8 hsorted
  refine ⟨keys.mergeSort fun a b => a ≤ b, ?_, (List.mergeSort_perm keys _).nodup_iff.mpr hnodup,
    fun key hkey => ?_, fun key hkey => ?_⟩
  · rw [Storage.threadKeys, spaces_key, Plan.lift_bind]
    simp only
    rw [run_bind_ok (run_command _ _)]
    simp only [exec, rangeMembers, Plan.lift_bind, hmembers, htexts, List.map_id']
    rfl
  · obtain ⟨m, -, hhash, -⟩ := forall₂_mem_right hkeys (List.mem_mergeSort.mp hkey)
    exact hhash
  · obtain ⟨key', hkey', -, heq⟩ := forall₂_mem_left hkeys hkey
    exact List.mem_mergeSort.mpr (utf8_inj heq ▸ hkey')

/-- The hash of a record is that of its thread and its namespace. -/
theorem Storage.Sane.committed_hash (hσ : Lawful σ U) (hdb : σ.Sane U db) {key : Str} {r : Record}
    (h : σ.Committed db key r) : (r.threadId, r.checkpointNs) ∈ U ∧
      threadKey σ.sha256 σ.keyPrefix r.threadId r.checkpointNs = .ok key := by
  obtain ⟨name, value, hname, hvalue, hget⟩ := h
  obtain ⟨t, ns, hU, hkey⟩ := hdb.hash hget
  obtain ⟨r', hc, ht, hns, hid, -⟩ := checkpoint_committed hσ hdb hU hkey hname hget
  obtain rfl := hσ.committed_inj hc ⟨name, value, hname, hvalue, hget⟩ hid
  rw [ht, hns]
  exact ⟨hU, hkey⟩

/-- A listing of the hashes of a configuration finds the leading rows. -/
theorem candidates_lead (hσ : Lawful σ U) (hdb : σ.Sane U db)
    (hkept : ∀ t, σ.Kept U t (σ.view U t db)) {config : Config} (hlist : σ.Listable U (some config))
    {selection : Selection} (hlimit : ∀ n, selection.limit = some n → 0 < n) :
    ∃ n keys, run (exec scanner) (σ.candidateKeys config) db = (.ok keys, db) ∧
      ∃ found : List Row, (∀ fuel, n ≤ fuel →
        run (exec scanner) (σ.keysPages fuel selection (σ.checkpointId config) keys) db =
          (.ok (found.map Row.found), db)) ∧
        Leads selection.limit (fun x : Row => σ.Committed db x.1 x.2 ∧ σ.Within (some config) x.2 ∧
          selection.accepts x.2 = true) (fun x => x.2.checkpointId)
          (upTo selection.limit
            (found.mergeSort fun a b => b.2.checkpointId ≤ a.2.checkpointId)) := by
  obtain ⟨configurable, hconfigurable, ⟨t, ht, hnamespace⟩, hid⟩ := hlist
  -- The hashes that are read: the one of the namespace, or those in the catalog of the thread.
  obtain ⟨keys, hrun, hnodup, hhash, hall⟩ : ∃ keys : List Str,
      run (exec scanner) (σ.candidateKeys config) db = (.ok keys, db) ∧ keys.Nodup ∧
      (∀ key ∈ keys, ∃ ns, (t.id, ns) ∈ U ∧ threadKey σ.sha256 σ.keyPrefix t.id ns = .ok key ∧
        ∀ value, entry configurable "checkpoint_ns" = some value →
          σ.text "checkpoint_ns" value = .ok ns) ∧
      ∀ ns key, threadKey σ.sha256 σ.keyPrefix t.id ns = .ok key →
        (∀ value, entry configurable "checkpoint_ns" = some value →
          σ.text "checkpoint_ns" value = .ok ns) →
        utf8 key ∈ db.sets (σ.spacesKey t.id) → key ∈ keys := by
    unfold Storage.candidateKeys
    rw [hconfigurable]
    simp only [ht, Plan.lift_bind]
    cases hns : entry configurable "checkpoint_ns" with
    | some value =>
      obtain ⟨ns, key, htext, hU, hkey⟩ := hnamespace value hns
      refine ⟨[key], ?_, List.nodup_singleton key, fun k hk => ?_, fun ns' k hk hns' _ => ?_⟩
      · simp only [htext, hkey]
        rfl
      · rw [List.mem_singleton.mp hk]
        refine ⟨ns, hU, hkey, fun v hv => ?_⟩
        cases hv
        exact htext
      · obtain rfl := Except.ok.inj (htext.symm.trans (hns' value rfl))
        exact List.mem_singleton.mpr (Except.ok.inj (hk.symm.trans hkey))
    | none =>
      obtain ⟨keys, hrun, hnodup, hhash, hall⟩ :=
        @threadKeys_read σ U scanner db hσ t (hkept t)
      refine ⟨keys, hrun, hnodup, fun key hkey => ?_, fun ns key _ _ hin => hall key hin⟩
      obtain ⟨ns, hU, hk⟩ := hhash key hkey
      exact ⟨ns, hU, hk, fun v hv => (nomatch hv)⟩
  have hof : ∀ key ∈ keys, σ.HashOf U t.id key := fun key hkey => by
    obtain ⟨ns, hU, hk, -⟩ := hhash key hkey
    exact ⟨ns, hU, hk⟩
  obtain ⟨n, hpages⟩ := @keysPages_rows σ U scanner db selection hσ hdb _ _ hof _ hid hlimit
  refine ⟨n, keys, hrun, _, hpages, ?_⟩
  have hsorted := @List.pairwise_mergeSort Row
    (fun a b => decide (b.2.checkpointId ≤ a.2.checkpointId))
    (fun a b c hab hbc => by simpa using le_trans (by simpa using hbc) (by simpa using hab))
    (fun a b => by simpa using le_total b.2.checkpointId a.2.checkpointId)
    (keys.flatMap fun key => upTo selection.limit
      (σ.rows db selection (Storage.placesOf db (σ.checkpointId config) key)))
  refine (Leads.merge (fun key hkey => rows_lead hσ
    (placesOf_sorted hσ hdb (hof key hkey) (σ.checkpointId config)).1
    (placesOf_sorted hσ hdb (hof key hkey) (σ.checkpointId config)).2) ?_
    (List.mergeSort_perm _ _) (hsorted.imp fun hab => of_decide_eq_true hab)).congr ?_
  · have hkeyOf : ∀ key ∈ keys, ∀ x : Row, (x.2.checkpointId, x.1) ∈
        Storage.placesOf db (σ.checkpointId config) key → x.1 = key := by
      intro key hkey x hx
      cases hexpected : σ.checkpointId config with
      | some id =>
        rw [hexpected] at hx
        exact (Prod.mk.inj (List.mem_singleton.mp hx)).2
      | none =>
        rw [hexpected] at hx
        obtain ⟨m, -, heq⟩ := List.mem_map.mp hx
        exact (Prod.mk.inj heq).2.symm
    refine (List.nodup_iff_pairwise_ne.mp hnodup).imp_of_mem
      fun {key key'} hkey hkey' hne x hx hy => ?_
    exact hne ((hkeyOf key hkey x hx.1).symm.trans (hkeyOf key' hkey' x hy.1))
  · rintro ⟨key, r⟩
    constructor
    · rintro ⟨key', hkey', hplace, hc, haccepts⟩
      have hsame : key = key' ∧ ∀ id, σ.checkpointId config = some id → r.checkpointId = id := by
        cases hexpected : σ.checkpointId config with
        | some id =>
          rw [hexpected] at hplace
          obtain ⟨hrid, hk⟩ := Prod.mk.inj (List.mem_singleton.mp hplace)
          exact ⟨hk, fun id' hid' => Option.some.inj hid' ▸ hrid⟩
        | none =>
          rw [hexpected] at hplace
          obtain ⟨m, -, heq⟩ := List.mem_map.mp hplace
          exact ⟨(Prod.mk.inj heq).2.symm, fun id hid' => (nomatch hid')⟩
      obtain ⟨rfl, hrid⟩ := hsame
      obtain ⟨ns, hU, hk, hns⟩ := hhash key hkey'
      obtain ⟨hrU, hrk⟩ := Storage.Sane.committed_hash hσ hdb hc
      obtain ⟨hrt, hrns⟩ := hσ.threadKey_inj hrU hU hrk hk
      refine ⟨hc, ⟨configurable, hconfigurable, ht.trans (by rw [hrt]), fun value hvalue => ?_,
        hrid⟩, haccepts⟩
      rw [hns value hvalue, hrns]
    · rintro ⟨hc, ⟨configurable', hconfigurable', hthread, hspace, hrid⟩, haccepts⟩
      obtain rfl : configurable = configurable' := by
        rw [hconfigurable] at hconfigurable'
        exact Value.dict.inj (Option.some.inj hconfigurable')
      obtain ⟨hrU, hrk⟩ := Storage.Sane.committed_hash hσ hdb hc
      have hrt : t.id = r.threadId := Except.ok.inj (ht.symm.trans hthread)
      rw [← hrt] at hrU hrk
      obtain ⟨name, value, hname, -, hget⟩ := id hc
      obtain ⟨t', ns', hU', hk', hpublished⟩ := hdb.published hkept hname hget
      obtain ⟨rfl, rfl⟩ := hσ.threadKey_inj hrU hU' hrk hk'
      obtain ⟨locator, locators, spaces, -, -, hspaces, hindex, -, -, hcatalog⟩ := hpublished
      rw [← spaces_key_eq hspaces] at hcatalog
      refine ⟨key, hall _ key hrk hspace hcatalog, ?_, hc, haccepts⟩
      cases hexpected : σ.checkpointId config with
      | some id =>
        rw [hrid id hexpected]
        exact List.mem_singleton.mpr rfl
      | none =>
        refine List.mem_map.mpr ⟨_, List.mem_reverse.mpr hindex, ?_⟩
        have hencodable : encodable r.checkpointId = true := by
          obtain ⟨b, hb, -⟩ := except_bind_eq_ok hname
          exact (encodeComponent_ok hb).1
        rw [decode_utf8 hencodable]
        rfl

theorem put_faithful : Faithful putScanner where
  selects_prefix p f _ := by
    simp only [putScanner, lit]
    rw [List.isPrefixOf_iff_prefix]
    simp
  complete fields _ _ := ⟨1, fields, rfl, List.Perm.refl fields⟩

end Reads

end FerricStore.CheckpointStore
