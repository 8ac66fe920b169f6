import FerricStore.CheckpointContents

/-!
# Reading the checkpoint store

What a record or a pending write was made of is what is read back from it. Over a database
whose contents are where they belong, the pending writes of a checkpoint are the writes that
its hash holds for it, by task and index, and the latest checkpoint is the greatest id of the
index that has a record.
-/

set_option autoImplicit false

namespace FerricStore.CheckpointStore
open Text DecimalText OrderedKeys StorageKeys CheckpointKeys CommandPlans KeyedDatabase
open MemoryStore (Db Cmd Answer StorePlan field isFormatVersion)

section Transfer

variable {α β : Type} {R : α → β → Prop}

theorem exists_forall₂ {xs : List α} (h : ∀ x ∈ xs, ∃ y, R x y) :
    ∃ ys, List.Forall₂ R xs ys := by
  induction xs with
  | nil => exact ⟨[], .nil⟩
  | cons x xs ih =>
    obtain ⟨y, hy⟩ := h x List.mem_cons_self
    obtain ⟨ys, hys⟩ := ih fun z hz => h z (List.mem_cons_of_mem x hz)
    exact ⟨y::ys, .cons hy hys⟩

theorem forall₂_pairwise {P : α → α → Prop} {Q : β → β → Prop}
    (hPQ : ∀ x y x' y', R x y → R x' y' → P x x' → Q y y') {xs : List α} {ys : List β}
    (h : List.Forall₂ R xs ys) (hxs : xs.Pairwise P) : ys.Pairwise Q := by
  induction h with
  | nil => exact .nil
  | @cons x y xs ys hx hrest ih =>
    obtain ⟨hhead, htail⟩ := List.pairwise_cons.mp hxs
    refine List.pairwise_cons.mpr ⟨fun z hz => ?_, ih htail⟩
    obtain ⟨w, hw, hR⟩ := forall₂_mem_right hrest hz
    exact hPQ x y w z hx hR (hhead w hw)

end Transfer

section Fields

variable {σ : Storage} {U : Set (Str × Str)}

theorem writeField_head {id id' task name : Str} {index : ℤ}
    (h : writeField id' task index = .ok name) : writesHead id <+: name ↔ id' = id := by
  have hcolon : lit ":" = [58] := rfl
  rw [writeField_ok h, writesHead, List.append_assoc, hcolon]
  constructor
  · rintro ⟨rest, hrest⟩
    rw [List.append_assoc] at hrest
    have hparts := List.append_cancel_left hrest
    rw [List.append_assoc, List.singleton_append] at hparts
    exact (component_inj (separated_inj (colon_not_base64 _) (colon_not_base64 _) hparts).1).symm
  · rintro rfl
    refine ⟨base64 (utf8 task)++58::lit (toString index), ?_⟩
    simp

theorem writesHead_write (id : Str) : lit "write:" <+: writesHead id := by
  rw [writesHead, List.append_assoc]
  exact List.prefix_append _ _

/-- A field of a write holds a write. -/
theorem honest_write {t ns id f : Str} {b : Bytes} (h : σ.Honest t ns f b)
    (hhead : writesHead id <+: f) :
    ∃ w : WriteEntry, writeField id w.taskId w.index = .ok f ∧ σ.writeRecord w = .ok b := by
  have hwrite := (writesHead_write id).trans hhead
  cases h with
  | descriptor => exact absurd hwrite (by decide)
  | record _ _ hfield _ =>
    have hcheckpoint := HashField.head_name (f := .checkpoint _) hfield
    rcases List.prefix_or_prefix_of_prefix hwrite hcheckpoint with hp | hp
    · exact absurd hp (by simp only [HashField.head]; decide)
    · exact absurd hp (by simp only [HashField.head]; decide)
  | @write id' w _ _ hfield hvalue =>
    obtain rfl := (writeField_head hfield).mp hhead
    exact ⟨w, hfield, hvalue⟩

end Fields

section Entries

def WriteEntry.fields (w : WriteEntry) : Dict Key Value := [
  (.str (lit "format_version"), .int 1),
  (.str (lit "task_id"), .str w.taskId),
  (.str (lit "channel"), .str w.channel),
  (.str (lit "value"), w.value),
  (.str (lit "task_path"), .str w.taskPath),
  (.str (lit "index"), .int w.index)]

/-- What pending writes are sorted by. -/
def WriteEntry.order (w : WriteEntry) : Lex (Str × ℤ) := toLex (w.taskId, w.index)

/-- What is reported of a pending write. -/
def WriteEntry.reported (w : WriteEntry) : Str × Str × Value := (w.taskId, w.channel, w.value)

theorem WriteEntry.fields_inj {w w' : WriteEntry} (h : w.fields = w'.fields) : w = w' := by
  obtain ⟨task, channel, value, path, index⟩ := w
  obtain ⟨task', channel', value', path', index'⟩ := w'
  simpa [WriteEntry.fields] using h

theorem WriteEntry.entry_fields (w : WriteEntry) :
    entry w.fields "format_version" = some (.int 1) ∧
    entry w.fields "task_id" = some (.str w.taskId) ∧
    entry w.fields "channel" = some (.str w.channel) ∧
    entry w.fields "value" = some w.value ∧
    entry w.fields "index" = some (.int w.index) := by
  simp [entry, WriteEntry.fields, Dict.get?, lit_inj]

theorem field_entry (d : Dict Key Value) (name : String) :
    field d name = (entry d name).getD .none := rfl

variable (σ : Storage) {U : Set (Str × Str)}

theorem writeKey_fields (w : WriteEntry) : σ.writeKey w.fields = .ok w.order := by
  obtain ⟨-, htask, -, -, hindex⟩ := w.entry_fields
  rw [Storage.writeKey, field_entry, htask, hindex]
  rfl

theorem pendingWrite_fields (w : WriteEntry) : σ.pendingWrite w.fields = .ok w.reported := by
  obtain ⟨-, htask, hchannel, hvalue, -⟩ := w.entry_fields
  rw [Storage.pendingWrite, field_entry, field_entry, field_entry, htask, hchannel, hvalue]
  rfl

variable {σ}

theorem decodePendingWrite_record (hσ : Lawful σ U) {w : WriteEntry} {b : Bytes}
    (h : σ.writeRecord w = .ok b) : σ.decodePendingWrite b = .ok w.fields := by
  rw [Storage.decodePendingWrite, hσ.deserialize_serialize h]
  have hversion : isFormatVersion (field w.fields "format_version") = true := by
    rw [field_entry, w.entry_fields.1]
    rfl
  change (if isFormatVersion (field w.fields "format_version") = true then Except.ok w.fields
    else .error (valueError "unsupported FerricStore LangGraph pending-write format")) = _
  exact if_pos hversion

/-- One record is the record of one write. -/
theorem writeRecord_inj (hσ : Lawful σ U) {w w' : WriteEntry} {b : Bytes}
    (h : σ.writeRecord w = .ok b) (h' : σ.writeRecord w' = .ok b) : w = w' :=
  WriteEntry.fields_inj (Except.ok.inj ((decodePendingWrite_record hσ h).symm.trans
    (decodePendingWrite_record hσ h')))

/-- Pending writes in the order in which they are reported. -/
def sortedWrites (ws : List WriteEntry) : List WriteEntry :=
  ws.mergeSort fun a b => a.order ≤ b.order

theorem decodePendingWrites_records (hσ : Lawful σ U) {values : List Bytes}
    {ws : List WriteEntry} (h : List.Forall₂ (fun b w => σ.writeRecord w = .ok b) values ws) :
    σ.decodePendingWrites values = .ok ((sortedWrites ws).map WriteEntry.reported) := by
  have hrecords : values.mapM σ.decodePendingWrite = .ok (ws.map WriteEntry.fields) := by
    induction h with
    | nil => rfl
    | cons hb _ ih =>
      rw [List.mapM_cons, decodePendingWrite_record hσ hb, ih]
      rfl
  have hkeys : (ws.map WriteEntry.fields).mapM σ.writeKey = .ok (ws.map WriteEntry.order) := by
    rw [List.mapM_map]
    exact mapM_eq_ok fun w _ => writeKey_fields σ w
  have hzip : (ws.map WriteEntry.order).zip (ws.map WriteEntry.fields) =
      ws.map fun w => (w.order, w.fields) := by
    rw [List.zip_map']
  have hsorted : (ws.map fun w => (w.order, w.fields)).mergeSort (fun a b => a.1 ≤ b.1) =
      (sortedWrites ws).map fun w => (w.order, w.fields) :=
    (List.map_mergeSort (f := fun w : WriteEntry => (w.order, w.fields))
      (s := fun a b => decide (a.1 ≤ b.1)) fun _ _ _ _ => rfl).symm
  rw [Storage.decodePendingWrites, hrecords, except_ok_bind, hkeys, except_ok_bind, hzip, hsorted,
    List.mapM_map]
  exact mapM_eq_ok fun w _ => pendingWrite_fields σ w

theorem sortedWrites_strict {ws : List WriteEntry}
    (h : ws.Pairwise fun a b => a.order ≠ b.order) :
    (sortedWrites ws).Pairwise fun a b => a.order < b.order := by
  have hle : (sortedWrites ws).Pairwise fun a b => a.order ≤ b.order := by
    have hsorted := @List.pairwise_mergeSort _
      (fun a b : WriteEntry => decide (a.order ≤ b.order))
      (fun a b c hab hbc => by simpa using le_trans (by simpa using hab) (by simpa using hbc))
      (fun a b => by simpa using le_total a.order b.order) ws
    exact hsorted.imp fun hab => of_decide_eq_true hab
  have hne : (sortedWrites ws).Pairwise fun a b => a.order ≠ b.order :=
    ((List.mergeSort_perm ws _).pairwise_iff fun hab => Ne.symm hab).mpr h
  exact (hle.and hne).imp fun hab => lt_of_le_of_ne hab.1 hab.2

end Entries

section Reading

variable {σ : Storage} {U : Set (Str × Str)} {scanner : Scanner Str Bytes Str} {db : Db}

/-- The hash holds the write under the checkpoint. -/
def Storage.Holds (σ : Storage) (db : Db) (key checkpointId : Str) (w : WriteEntry) : Prop :=
  ∃ name value, writeField checkpointId w.taskId w.index = .ok name ∧
    σ.writeRecord w = .ok value ∧ db.get key name = some value

/-- What `_pending_writes` reads: the writes held for the checkpoint, each once, by task and
index. -/
theorem pendingWrites_read (hσ : Lawful σ U) (hs : Faithful scanner) (hdb : σ.Sane U db)
    {key id : Str} (hid : encodable id = true) :
    ∃ (n : ℕ) (ws : List WriteEntry), ws.Pairwise (fun a b => a.order < b.order) ∧
      (∀ w, w ∈ ws ↔ σ.Holds db key id w) ∧ ∀ fuel, n ≤ fuel →
        run (exec scanner) (σ.pendingWrites fuel key id) db =
          (.ok (ws.map WriteEntry.reported), db) := by
  obtain ⟨n, items, hperm, hrun⟩ := hs.scanHash_read σ db key (writesHead id++lit "*")
  have hitem : ∀ x, x ∈ items ↔ db.get key x.1 = some x.2 ∧ writesHead id <+: x.1 := by
    intro x
    rw [hperm.mem_iff, List.mem_filter, hs.selects_prefix _ _ (writesHead_globSafe id), mem_fields]
  obtain ⟨ws, hws⟩ := @exists_forall₂ _ _ (fun (x : Str × Bytes) (w : WriteEntry) =>
      writeField id w.taskId w.index = .ok x.1 ∧ σ.writeRecord w = .ok x.2) items <| by
    intro x hx
    obtain ⟨hget, hhead⟩ := (hitem x).mp hx
    obtain ⟨t, ns, -, -, hhonest⟩ := hdb.cells key x.1 x.2 hget
    exact honest_write hhonest hhead
  have hnodup : (items.map Prod.fst).Nodup :=
    (hperm.map Prod.fst).nodup_iff.mpr ((fields_nodup db key).sublist (List.filter_sublist.map _))
  have horder : ws.Pairwise fun a b => a.order ≠ b.order := by
    refine forall₂_pairwise (P := fun x y => x.1 ≠ y.1) ?_ hws (List.pairwise_map.mp hnodup)
    intro x w y v hw hv hne heq
    obtain ⟨htask, hindex⟩ := Prod.mk.inj (toLex.injective heq)
    rw [htask, hindex] at hw
    exact hne (Except.ok.inj (hw.1.symm.trans hv.1))
  refine ⟨n, sortedWrites ws, sortedWrites_strict horder, fun w => ?_, fun fuel hfuel => ?_⟩
  · rw [sortedWrites, List.mem_mergeSort]
    constructor
    · intro hw
      obtain ⟨x, hx, hfield, hvalue⟩ := forall₂_mem_right hws hw
      exact ⟨x.1, x.2, hfield, hvalue, ((hitem x).mp hx).1⟩
    · rintro ⟨name, value, hname, hvalue, hget⟩
      obtain ⟨v, hv, -, hrecord⟩ := forall₂_mem_left hws
        ((hitem (name, value)).mpr ⟨hget, (writeField_head hname).mpr rfl⟩)
      exact writeRecord_inj hσ hvalue hrecord ▸ hv
  · have hvalues : List.Forall₂ (fun b w => σ.writeRecord w = .ok b) (items.map Prod.snd) ws :=
      List.forall₂_map_left_iff.mpr (hws.imp fun _ _ h => h.2)
    rw [Storage.pendingWrites, Plan.lift_bind, writesPattern_eq hid]
    simp only
    rw [run_bind_ok (hrun fuel hfuel), decodePendingWrites_records hσ hvalues]
    rfl

end Reading

section Records

def Record.fields (r : Record) : Dict Key Value := [
  (.str (lit "format_version"), .int 1),
  (.str (lit "thread_id"), .str r.threadId),
  (.str (lit "checkpoint_ns"), .str r.checkpointNs),
  (.str (lit "checkpoint_id"), .str r.checkpointId),
  (.str (lit "parent_checkpoint_id"), r.parentId.elim .none .str),
  (.str (lit "checkpoint"), .dict r.checkpoint),
  (.str (lit "metadata"), .dict r.metadata)]

def Record.tuple (r : Record) (pendingWrites : List (Str × Str × Value)) : CheckpointTuple :=
  ⟨r.threadId, r.checkpointNs, r.checkpointId, r.checkpoint, r.metadata, r.parentId,
    pendingWrites⟩

theorem Record.entry_fields (r : Record) :
    entry r.fields "format_version" = some (.int 1) ∧
    entry r.fields "thread_id" = some (.str r.threadId) ∧
    entry r.fields "checkpoint_ns" = some (.str r.checkpointNs) ∧
    entry r.fields "checkpoint_id" = some (.str r.checkpointId) ∧
    entry r.fields "parent_checkpoint_id" = some (r.parentId.elim .none .str) ∧
    entry r.fields "checkpoint" = some (.dict r.checkpoint) ∧
    entry r.fields "metadata" = some (.dict r.metadata) := by
  simp [entry, Record.fields, Dict.get?, lit_inj]

theorem tupleFromRecord_fields (σ : Storage) (r : Record)
    (pendingWrites : List (Str × Str × Value)) :
    σ.tupleFromRecord r.fields pendingWrites = .ok (r.tuple pendingWrites) := by
  obtain ⟨hversion, hthread, hns, hid, hparent, hcheckpoint, hmetadata⟩ := r.entry_fields
  unfold Storage.tupleFromRecord
  simp only [field_entry, hversion, hthread, hns, hid, hparent, hcheckpoint, hmetadata,
    Option.getD_some, isFormatVersion, Storage.text, except_ok_bind]
  cases hp : r.parentId <;> simp [Value.isNone, Record.tuple, hp, except_ok_bind]

variable {σ : Storage} {U : Set (Str × Str)} {scanner : Scanner Str Bytes Str} {db : Db}

/-- The record is stored in the hash. -/
def Storage.Committed (σ : Storage) (db : Db) (key : Str) (r : Record) : Prop :=
  ∃ name value, checkpointField r.checkpointId = .ok name ∧ σ.serialize r.value = .ok value ∧
    db.get key name = some value

theorem checkpointField_eq {id : Str} (h : encodable id = true) :
    checkpointField id = .ok (lit "checkpoint:"++base64 (utf8 id)) := by
  rw [checkpointField, encodeComponent_eq h]
  rfl

variable {t ns key id : Str}

/-- A checkpoint field holds the record of its checkpoint. -/
theorem checkpoint_committed (hσ : Lawful σ U) (hdb : σ.Sane U db) (hU : (t, ns) ∈ U)
    (hkey : threadKey σ.sha256 σ.keyPrefix t ns = .ok key) {name : Str} {b : Bytes}
    (hname : checkpointField id = .ok name) (hb : db.get key name = some b) :
    ∃ r, σ.Committed db key r ∧ r.threadId = t ∧ r.checkpointNs = ns ∧ r.checkpointId = id ∧
      σ.serialize r.value = .ok b := by
  obtain ⟨t', ns', hU', hkey', hhonest⟩ := hdb.cells key name b hb
  obtain ⟨rfl, rfl⟩ := hσ.threadKey_inj hU hU' hkey hkey'
  cases hhonest with
  | descriptor =>
    exact nomatch HashField.name_inj (f := .checkpoint id) (g := .descriptor) hname rfl
  | @record r _ _ ht hns hfield hvalue =>
    have hsame := HashField.name_inj (f := .checkpoint r.checkpointId) (g := .checkpoint id)
      hfield hname
    exact ⟨r, ⟨_, _, hfield, hvalue, hb⟩, ht, hns, HashField.checkpoint.inj hsame, hvalue⟩
  | @write id' w _ _ hfield _ =>
    exact nomatch HashField.name_inj (f := .checkpoint id) (g := .write id' w.taskId w.index)
      hname hfield

/-- Reading a record finds it or finds none. -/
theorem readRecord_read (hσ : Lawful σ U) (hdb : σ.Sane U db) (hU : (t, ns) ∈ U)
    (hkey : threadKey σ.sha256 σ.keyPrefix t ns = .ok key) (hid : encodable id = true) :
    ∃ found : Option Record,
      run (exec scanner) (σ.readRecord key id) db = (.ok (found.map Record.fields), db) ∧
      (∀ r, found = some r → σ.Committed db key r ∧ r.threadId = t ∧ r.checkpointNs = ns ∧
        r.checkpointId = id) ∧
      (found = none → ∀ r, σ.Committed db key r → r.checkpointId ≠ id) := by
  have hname := checkpointField_eq hid
  rw [Storage.readRecord, hname, Plan.lift_bind]
  simp only
  rw [run_bind_ok (run_command _ _)]
  simp only [exec, storedRecord, Plan.lift_bind]
  cases hget : db.get key (lit "checkpoint:"++base64 (utf8 id)) with
  | none =>
    refine ⟨none, rfl, fun r hr => (by cases hr), fun _ r hr heq => ?_⟩
    obtain ⟨name, value, hfield, -, hvalue⟩ := hr
    rw [heq, hname] at hfield
    cases hfield
    rw [hget] at hvalue
    cases hvalue
  | some b =>
    obtain ⟨r, hr, ht, hns, hrid, hvalue⟩ := checkpoint_committed hσ hdb hU hkey hname hget
    refine ⟨some r, ?_, fun r' hr' => ?_, fun h => (by cases h)⟩
    · simp only [hσ.deserialize_serialize hvalue]
      rfl
    · cases hr'
      exact ⟨hr, ht, hns, hrid⟩

/-- The ids of an index, in the order of their bytes. -/
theorem index_ids (hσ : Lawful σ U) (hdb : σ.Sane U db) (hhash : σ.HashOf U t key) :
    ∃ ids : List Str, (db.zsets (checkpointIndexKey key)).members = ids.map utf8 ∧
      ∀ id ∈ ids, encodable id = true := by
  have hmember : ∀ m ∈ (db.zsets (checkpointIndexKey key)).members,
      ∃ id, m = utf8 id ∧ encodable id = true := by
    intro m hm
    rcases hdb.members _ m hm with ⟨_, _, id, _, hid, _, rfl⟩ | ⟨t', hlocator, hcatalog⟩
    · exact ⟨id, rfl, hid⟩
    · obtain ⟨hash', _, ⟨ns', hU', _⟩, _⟩ := hlocator
      rcases hcatalog with hcatalog | hcatalog
      · exact (hσ.index_ne_locators hhash hU' hcatalog).elim
      · exact (hσ.index_ne_global hhash hcatalog).elim
  obtain ⟨ids, hids⟩ := exists_forall₂ hmember
  refine ⟨ids, ?_, fun id hid => ?_⟩
  · have heq := hids.imp fun m id h => h.1
    rwa [← List.forall₂_map_right_iff, List.forall₂_eq_eq_eq] at heq
  · obtain ⟨m, _, _, hencodable⟩ := forall₂_mem_right hids hid
    exact hencodable

/-- One turn of the loop over an index. -/
theorem latestRecord_step {ids rest : List Str}
    (hids : (db.zsets (checkpointIndexKey key)).members.reverse = ids.map utf8) {offset : ℕ}
    (hrest : ids.drop offset = rest) (fuel : ℕ) :
    run (exec scanner) (σ.latestRecord key (fuel+1) offset) db =
      run (exec scanner) (match (rest.take 1).map utf8 with
        | [] => pure none
        | member::_ => do
          let checkpointId ← .lift (σ.text "latest checkpoint id" (.bytes member))
          match ← σ.readRecord key checkpointId with
          | some record => pure (some (checkpointId, record))
          | none => σ.latestRecord key fuel (offset+1)) db := by
  have hslice : slice (offset : ℤ) offset (db.zsets (checkpointIndexKey key)).members.reverse =
      (rest.take 1).map utf8 := by
    have hpage := slice_page (ids.map utf8) offset one_pos
    rw [hids, ← hrest, List.map_take, List.map_drop, ← hpage]
    congr 1
    omega
  rw [Storage.latestRecord, run_bind_ok (run_command _ _)]
  simp only [exec, rangeMembers, Plan.lift_bind, hslice] <;> rfl

/-- The loop over an index finds the first id from an offset on that has a record. -/
theorem latestRecord_read (hσ : Lawful σ U) (hdb : σ.Sane U db) (hU : (t, ns) ∈ U)
    (hkey : threadKey σ.sha256 σ.keyPrefix t ns = .ok key) {ids rest : List Str}
    (hids : (db.zsets (checkpointIndexKey key)).members.reverse = ids.map utf8)
    (htext : ∀ id ∈ ids, encodable id = true) {offset : ℕ} (hrest : ids.drop offset = rest) :
    ∃ found : Option Record, (∀ fuel, rest.length < fuel →
        run (exec scanner) (σ.latestRecord key fuel offset) db =
          (.ok (found.map fun r => (r.checkpointId, r.fields)), db)) ∧
      (∀ r, found = some r → σ.Committed db key r ∧ r.threadId = t ∧ r.checkpointNs = ns ∧
        ∃ before after, rest = before++r.checkpointId::after ∧
          ∀ id ∈ before, ∀ r', σ.Committed db key r' → r'.checkpointId ≠ id) ∧
      (found = none → ∀ id ∈ rest, ∀ r, σ.Committed db key r → r.checkpointId ≠ id) := by
  induction rest generalizing offset with
  | nil =>
    refine ⟨none, fun fuel hfuel => ?_, fun r hr => (nomatch hr),
      fun _ id hid => absurd hid List.not_mem_nil⟩
    obtain ⟨fuel, rfl⟩ : ∃ k, fuel = k+1 := ⟨fuel-1, by omega⟩
    exact latestRecord_step hids hrest fuel
  | cons id rest ih =>
    have hmem : id ∈ ids := List.mem_of_mem_drop (hrest ▸ List.mem_cons_self)
    have hdrop : ids.drop (offset+1) = rest := by
      rw [← List.drop_drop, hrest]
      rfl
    obtain ⟨found, hrun, hsome, hnone⟩ :=
      @readRecord_read σ U scanner db t ns key id hσ hdb hU hkey (htext id hmem)
    have hfirst (fuel : ℕ) : run (exec scanner) (σ.latestRecord key (fuel+1) offset) db =
        run (exec scanner) (match found.map Record.fields with
          | some record => pure (some (id, record))
          | none => σ.latestRecord key fuel (offset+1)) db := by
      rw [latestRecord_step hids hrest]
      simp only [List.take_succ_cons, List.take_zero, List.map_cons, List.map_nil, Storage.text,
        decode_utf8 (htext id hmem), Option.elim_some, Plan.lift_bind]
      rw [run_bind_ok hrun]
    cases found with
    | some r =>
      obtain ⟨hr, hrt, hrns, hrid⟩ := hsome r rfl
      refine ⟨some r, fun fuel hfuel => ?_, fun r' hr' => ?_, fun h => (nomatch h)⟩
      · obtain ⟨fuel, rfl⟩ : ∃ k, fuel = k+1 := ⟨fuel-1, by omega⟩
        rw [hfirst, ← hrid]
        rfl
      · cases hr'
        exact ⟨hr, hrt, hrns, [], rest, by rw [hrid]; rfl,
          fun _ hin => absurd hin List.not_mem_nil⟩
    | none =>
      obtain ⟨found, hlater, hsome', hnone'⟩ := ih hdrop
      refine ⟨found, fun fuel hfuel => ?_, fun r hr => ?_, fun hf id' hid' => ?_⟩
      · obtain ⟨fuel, rfl⟩ : ∃ k, fuel = k+1 := ⟨fuel-1, by omega⟩
        rw [hfirst]
        exact hlater fuel (by simpa using hfuel)
      · obtain ⟨hc, hrt, hrns, before, after, hsplit, hbefore⟩ := hsome' r hr
        refine ⟨hc, hrt, hrns, id::before, after, by rw [hsplit]; rfl, fun id' hid' => ?_⟩
        rcases List.mem_cons.mp hid' with rfl | hid'
        · exact hnone rfl
        · exact hbefore id' hid'
      · rcases List.mem_cons.mp hid' with rfl | hid'
        · exact hnone rfl
        · exact hnone' hf id' hid'

end Records

section Tuples

variable {σ : Storage} {U : Set (Str × Str)} {scanner : Scanner Str Bytes Str} {db : Db}
  {t ns key : Str}

/-- A tuple of a checkpoint: its record, and its pending writes by task and index. -/
def Storage.TupleOf (σ : Storage) (db : Db) (key : Str) (r : Record) (tuple : CheckpointTuple) :
    Prop :=
  ∃ ws : List WriteEntry, ws.Pairwise (fun a b => a.order < b.order) ∧
    (∀ w, w ∈ ws ↔ σ.Holds db key r.checkpointId w) ∧
    tuple = r.tuple (ws.map WriteEntry.reported)

/-- Once a record is found, the tuple is read. -/
theorem tuple_read (hσ : Lawful σ U) (hs : Faithful scanner) (hdb : σ.Sane U db) {r : Record}
    (hr : σ.Committed db key r) :
    ∃ n pendingWrites tuple, σ.TupleOf db key r tuple ∧
      σ.tupleFromRecord r.fields pendingWrites = .ok tuple ∧
      ∀ fuel, n ≤ fuel → run (exec scanner) (σ.pendingWrites fuel key r.checkpointId) db =
        (.ok pendingWrites, db) := by
  obtain ⟨name, value, hname, -, -⟩ := hr
  obtain ⟨b, hb, -⟩ := except_bind_eq_ok hname
  obtain ⟨n, ws, hsorted, hmem, hrun⟩ := @pendingWrites_read σ U scanner db hσ hs hdb key _
    (encodeComponent_ok hb).1
  exact ⟨n, _, _, ⟨ws, hsorted, hmem, rfl⟩, tupleFromRecord_fields σ r _, hrun⟩

/-- UTF-8 keeps the order of texts. -/
theorem utf8_lt {a b : Str} (h : a < b) : utf8 a < utf8 b := by
  induction h with
  | @nil c bs =>
    obtain ⟨x, s, hx⟩ : ∃ x s, utf8Point c = x::s := by
      cases hc : utf8Point c with
      | nil =>
        have hlength := utf8Point_length c
        rw [hc] at hlength
        exact absurd (utf8Size_bounds c).1 (by rw [← hlength]; decide)
      | cons x s => exact ⟨x, s, rfl⟩
    rw [utf8, utf8, List.flatMap_cons, hx]
    exact List.Lex.nil
  | @rel c as d bs hcd => exact ((utf8Point_below hcd).append _ _).lt
  | @cons c as bs _ ih =>
    rw [utf8, utf8, List.flatMap_cons, List.flatMap_cons]
    exact List.append_left_lt ih

/-- The ids of an index from the greatest one down. -/
theorem index_descending {s : OrderedSet Bytes} {ids : List Str}
    (h : s.members.reverse = ids.map utf8) : ids.Pairwise (· > ·) := by
  have hsorted : (ids.map utf8).Pairwise (· > ·) := by
    rw [← h]
    exact List.pairwise_reverse.mpr s.sorted
  refine (List.pairwise_map.mp hsorted).imp fun {a b} hab => ?_
  rcases lt_trichotomy a b with hlt | rfl | hgt
  · exact absurd hab (lt_asymm (utf8_lt hlt))
  · exact absurd hab (lt_irrefl _)
  · exact hgt

/-- What `get_tuple` does once it has looked for a record. -/
def Storage.finishTuple (σ : Storage) (fuel : ℕ) (key : Str) :
    Option (Str × Dict Key Value) → StorePlan (Option CheckpointTuple)
  | none => pure none
  | some (checkpointId, record) => do
    let pendingWrites ← σ.pendingWrites fuel key checkpointId
    let tuple ← .lift (σ.tupleFromRecord record pendingWrites)
    pure (some tuple)

theorem getTuple_finish {config : Config} (hidentity : σ.identity config = .ok (t, ns))
    (hkey : threadKey σ.sha256 σ.keyPrefix t ns = .ok key) (fuel : ℕ) :
    σ.getTuple fuel config = match σ.checkpointId config with
      | some checkpointId => do
        let record ← σ.readRecord key checkpointId
        σ.finishTuple fuel key (record.map fun record => (checkpointId, record))
      | none => σ.latestRecord key fuel 0 >>= σ.finishTuple fuel key := by
  rw [Storage.getTuple, hidentity, Plan.lift_bind]
  simp only
  rw [hkey, Plan.lift_bind]
  cases σ.checkpointId config with
  | some id =>
    simp only [Plan.pure_bind]
    rfl
  | none => rfl

theorem finishTuple_read (hσ : Lawful σ U) (hs : Faithful scanner) (hdb : σ.Sane U db)
    {found : Option Record} (hfound : ∀ r, found = some r → σ.Committed db key r) :
    ∃ (n : ℕ) (result : Option CheckpointTuple),
      (∀ fuel, n ≤ fuel → run (exec scanner)
        (σ.finishTuple fuel key (found.map fun r => (r.checkpointId, r.fields))) db =
          (.ok result, db)) ∧
      (∀ tuple, result = some tuple → ∃ r, found = some r ∧ σ.TupleOf db key r tuple) ∧
      (result = none → found = none) := by
  cases found with
  | none => exact ⟨0, none, fun _ _ => rfl, fun _ h => (nomatch h), fun _ => rfl⟩
  | some r =>
    obtain ⟨n, pendingWrites, tuple, hof, htuple, hrun⟩ := tuple_read hσ hs hdb (hfound r rfl)
    refine ⟨n, some tuple, fun fuel hfuel => ?_, fun tuple' h => ?_, fun h => (nomatch h)⟩
    · rw [Option.map_some, Storage.finishTuple, run_bind_ok (hrun fuel hfuel), htuple]
      rfl
    · cases h
      exact ⟨r, rfl, hof⟩

/-- What `get_tuple` reads: the checkpoint asked for, or the greatest one of the index. -/
theorem getTuple_read (hσ : Lawful σ U) (hs : Faithful scanner) (hdb : σ.Sane U db)
    {config : Config} (hidentity : σ.identity config = .ok (t, ns)) (hU : (t, ns) ∈ U)
    (hkey : threadKey σ.sha256 σ.keyPrefix t ns = .ok key)
    (hid : ∀ id, σ.checkpointId config = some id → encodable id = true) :
    ∃ (n : ℕ) (found : Option Record) (result : Option CheckpointTuple),
      (∀ fuel, n ≤ fuel → run (exec scanner) (σ.getTuple fuel config) db = (.ok result, db)) ∧
      (∀ tuple, result = some tuple → ∃ r, found = some r ∧ σ.TupleOf db key r tuple) ∧
      (result = none → found = none) ∧
      (∀ r, found = some r → σ.Committed db key r ∧ r.threadId = t ∧ r.checkpointNs = ns ∧
        (∀ id, σ.checkpointId config = some id → r.checkpointId = id) ∧
        (σ.checkpointId config = none → ∀ r', σ.Committed db key r' →
          utf8 r'.checkpointId ∈ db.zsets (checkpointIndexKey key) →
          r'.checkpointId ≤ r.checkpointId)) ∧
      (found = none → ∀ r, σ.Committed db key r →
        (∀ id, σ.checkpointId config = some id → r.checkpointId ≠ id) ∧
        (σ.checkpointId config = none →
          utf8 r.checkpointId ∉ db.zsets (checkpointIndexKey key))) := by
  cases hconfig : σ.checkpointId config with
  | some id =>
    obtain ⟨found, hread, hsome, hnone⟩ :=
      @readRecord_read σ U scanner db t ns key id hσ hdb hU hkey (hid id hconfig)
    obtain ⟨n, result, hrun, htuple, habsent⟩ :=
      finishTuple_read hσ hs hdb fun r hr => (hsome r hr).1
    refine ⟨n, found, result, fun fuel hfuel => ?_, htuple, habsent, fun r hr => ?_,
      fun h r hr => ⟨fun id' hid' => ?_, fun h' => (nomatch h')⟩⟩
    · have hfound : (found.map Record.fields).map (fun record => (id, record)) =
          found.map fun r => (r.checkpointId, r.fields) := by
        cases found with
        | none => rfl
        | some r => exact congrArg (fun x => some (x, r.fields)) (hsome r rfl).2.2.2.symm
      rw [getTuple_finish hidentity hkey, hconfig]
      simp only
      rw [run_bind_ok hread, hfound]
      exact hrun fuel hfuel
    · obtain ⟨hr, hrt, hrns, hrid⟩ := hsome r hr
      exact ⟨hr, hrt, hrns, fun id' hid' => by cases hid'; exact hrid, fun h => (nomatch h)⟩
    · cases hid'
      exact hnone h r hr
  | none =>
    obtain ⟨ids, hids, htext⟩ := index_ids hσ hdb ⟨ns, hU, hkey⟩
    have hreverse : (db.zsets (checkpointIndexKey key)).members.reverse =
        ids.reverse.map utf8 := by
      rw [hids, List.map_reverse]
    have hmember : ∀ r : Record, utf8 r.checkpointId ∈ db.zsets (checkpointIndexKey key) →
        r.checkpointId ∈ ids.reverse := by
      intro r hr
      rw [OrderedSet.mem_def, hids] at hr
      obtain ⟨id, hmem, heq⟩ := List.mem_map.mp hr
      rw [List.mem_reverse, ← utf8_inj heq]
      exact hmem
    obtain ⟨found, hread, hsome, hnone⟩ :=
      @latestRecord_read σ U scanner db t ns key hσ hdb hU hkey ids.reverse ids.reverse hreverse
        (fun id h => htext id (List.mem_reverse.mp h)) 0 rfl
    obtain ⟨n, result, hrun, htuple, habsent⟩ :=
      finishTuple_read hσ hs hdb fun r hr => (hsome r hr).1
    refine ⟨max n (ids.reverse.length+1), found, result, fun fuel hfuel => ?_, htuple, habsent,
      fun r hr => ?_, fun h r hr => ⟨fun id' h' => (nomatch h'), fun _ hin =>
        hnone h _ (hmember r hin) r hr rfl⟩⟩
    · rw [getTuple_finish hidentity hkey, hconfig]
      simp only
      rw [run_bind_ok (hread fuel (by omega))]
      exact hrun fuel (by omega)
    · obtain ⟨hc, hrt, hrns, before, after, hsplit, hbefore⟩ := hsome r hr
      refine ⟨hc, hrt, hrns, fun id' h => (nomatch h), fun _ r' hr' hin => ?_⟩
      have hin' := hmember r' hin
      rw [hsplit] at hin'
      have hdescending := index_descending hreverse
      rw [hsplit] at hdescending
      rcases List.mem_append.mp hin' with hin' | hin'
      · exact absurd rfl (hbefore _ hin' r' hr')
      · rcases List.mem_cons.mp hin' with heq | hin'
        · exact le_of_eq heq
        · exact le_of_lt ((List.pairwise_cons.mp
            (List.pairwise_append.mp hdescending).2.1).1 _ hin')

end Tuples

end FerricStore.CheckpointStore
