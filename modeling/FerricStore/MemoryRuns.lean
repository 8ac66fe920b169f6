import FerricStore.MemoryReading

/-!
# Batches of the memory store under the item locks

A removal takes the record first and the catalog members after it, a write publishes the
members first and the record after them. So whatever part of a batch is executed, an item
that is present is in the catalogs of all its prefixes, and batches on other items do not
change that.
-/

set_option autoImplicit false

namespace FerricStore.MemoryStore
open Text OrderedKeys StorageKeys CommandPlans KeyedDatabase

variable {T : Type} {σ : Storage T} {U : Set (List Str)} {scanner : Scanner Str Bytes Str}
  {K : Set (Place U)} {x : Place U} {v : ItemView}

section Permitted

theorem reads_free {c : Cmd} (h : c.reads = true) : Free (σ.guarding U scanner) c := by
  cases c with
  | hget | hscan | zrange | zrevrange | smembers =>
    refine ⟨trivial, fun y hy => ?_⟩
    rcases hy with hy | ⟨q, hy⟩
    · exact hy
    · exact hy
  | hset | hsetnx | hdel | zadd | zrem | sadd | del => cases h

theorem Reading.safe {α : Type} {A : α → Prop} {p : StorePlan α} (h : Reading A p)
    {G : ItemView → Prop} {Q : Except StorageError α → ItemView → Prop} (hv : G v)
    (hok : ∀ a, A a → Q (.ok a) v) (herror : ∀ e, Q (.error e) v) :
    Safe (σ.guarding U scanner) K x G Q p v :=
  Safe.of_free (h.mono (fun _ => reads_free) fun _ ha => ha) hv hok herror

theorem hdel_permitted (hU : CollisionFree σ U) {y : Place U} (hy : y ∈ K) :
    Permitted (σ.guarding U scanner) K (.hdel (σ.hashKey y.namespace_) (fieldCode y.key)) := by
  refine ⟨trivial, fun z hz => ?_⟩
  rcases hz with ⟨hkey, hfield⟩ | ⟨q, hz⟩
  · exact hU.cell_inj hkey hfield ▸ hy
  · exact hz.elim

theorem hset_permitted (hU : CollisionFree σ U) {y : Place U} (hy : y ∈ K) (b : Bytes) :
    Permitted (σ.guarding U scanner) K
      (.hset (σ.hashKey y.namespace_) [(fieldCode y.key, b)]) := by
  refine ⟨fun p hp => ⟨y, rfl, by rw [List.mem_singleton.mp hp]⟩, fun z hz => ?_⟩
  rcases hz with ⟨hkey, p, hp, hfield⟩ | ⟨q, hz⟩
  · obtain rfl := List.mem_singleton.mp hp
    exact hU.cell_inj hkey hfield ▸ hy
  · exact hz.elim

theorem zrem_permitted {y : Place U} (hy : y ∈ K) (q : List Str) :
    Permitted (σ.guarding U scanner) K (.zrem (σ.catalogCode q) [memberCode y.path]) := by
  refine ⟨trivial, fun z hz => ?_⟩
  rcases hz with hz | ⟨q', -, hmember⟩
  · exact hz.elim
  · have hz := memberCode_inj z.itemPath y.itemPath (List.mem_singleton.mp hmember)
    exact Place.ext_path hz ▸ hy

theorem zadd_permitted {y : Place U} (hy : y ∈ K) {q : List Str} (hq : q <+: y.namespace_) :
    Permitted (σ.guarding U scanner) K (.zadd (σ.catalogCode q) (memberCode y.path)) := by
  refine ⟨⟨y, q, hq, rfl, rfl⟩, fun z hz => ?_⟩
  rcases hz with hz | ⟨q', -, hmember⟩
  · exact hz.elim
  · exact Place.ext_path (memberCode_inj z.itemPath y.itemPath hmember) ▸ hy

end Permitted

section Removing

/-- The records of the removed items go. -/
theorem deleteItems_safe (hU : CollisionFree σ U) {ops : List PutOp}
    (hops : ∀ op ∈ ops, ∃ y ∈ K, op.path = y.path) {cs : List Cmd}
    (hcs : ops.mapM σ.deleteItem = .ok cs) (hv : σ.Covered U x v) :
    Safe (σ.guarding U scanner) K x (σ.Covered U x)
      (fun _ w => σ.Covered U x w ∧ ∀ op ∈ ops, op.path = x.path → w.record = none)
      (unlessEmpty cs) v := by
  have hcommand : ∀ op ∈ ops, ∃ c ∈ cs, σ.deleteItem op = .ok c :=
    fun op hop => forall₂_mem_left (mapM_forall₂ hcs) hop
  have hplace : ∀ c ∈ cs, ∃ y ∈ K, c = .hdel (σ.hashKey y.namespace_) (fieldCode y.key) := by
    intro c hc
    obtain ⟨op, hop, hc⟩ := forall₂_mem_right (mapM_forall₂ hcs) hc
    obtain ⟨y, hy, hpath⟩ := hops op hop
    rw [deleteItem_eq y hpath] at hc
    exact ⟨y, hy, (Except.ok.inj hc).symm⟩
  have hgone : ∀ w : ItemView, (∀ c ∈ cs, c = .hdel (σ.hashKey x.namespace_) (fieldCode x.key) →
      w.record = none) → ∀ op ∈ ops, op.path = x.path → w.record = none := by
    intro w hw op hop hpath
    obtain ⟨c, hc, hcommand⟩ := hcommand op hop
    rw [deleteItem_eq x hpath] at hcommand
    exact hw c hc (Except.ok.inj hcommand).symm
  cases cs with
  | nil => exact Safe.finish hv ⟨hv, hgone v fun c hc => absurd hc List.not_mem_nil⟩
  | cons c cs =>
    refine Safe.bind (Safe.batch (P := fun _ w => σ.Covered U x w ∧
      ∀ d ∈ c::cs, d = .hdel (σ.hashKey x.namespace_) (fieldCode x.key) → w.record = none)
      (σ.Covered U x)
      (fun d w => d = .hdel (σ.hashKey x.namespace_) (fieldCode x.key) → w.record = none)
      ?_ hv (fun _ hw => hw) ?_ fun _ w hw hD => ⟨hw, hD⟩) ?_ ?_
    · intro d hd
      obtain ⟨y, hy, rfl⟩ := hplace d hd
      exact hdel_permitted hU hy
    · intro d hd w r u hw hacts
      obtain ⟨y, hy, rfl⟩ := hplace d hd
      obtain ⟨hrecord, hcataloged⟩ := hacts
      simp only [KeyedDatabase.Command.writes] at hrecord
      refine ⟨fun b hb => ?_, fun heq => ?_, fun d' _ hd' heq => ?_⟩
      · rw [hrecord] at hb
        split_ifs at hb
        exact ⟨(hw b hb).1, fun q hq => (hcataloged q).mpr ((hw b hb).2 q hq)⟩
      · obtain ⟨hkey, hfield⟩ := KeyedDatabase.Command.hdel.inj heq
        rw [hrecord, if_pos ⟨hkey, hfield⟩]
      · rw [hrecord, hd' heq]
        split_ifs <;> rfl
    · exact fun _ w hw hD => Safe.finish hw ⟨hw, hgone w hD.2⟩
    · exact fun _ w _ hD => ⟨hD.1, hgone w hD.2⟩

/-- The members of the removed items go once their records are gone. -/
theorem deleteIndexes_safe {ops : List PutOp} (hops : ∀ op ∈ ops, ∃ y ∈ K, op.path = y.path)
    {cs : List (List Cmd)} (hcs : ops.mapM σ.deleteIndexes = .ok cs) (hv : σ.Covered U x v)
    (hgone : ∀ op ∈ ops, op.path = x.path → v.record = none) :
    Safe (σ.guarding U scanner) K x (σ.Covered U x) (fun _ w => σ.Covered U x w)
      (unlessEmpty cs.flatten) v := by
  have hplace : ∀ c ∈ cs.flatten, ∃ y ∈ K, ∃ q, (y = x → ∃ op ∈ ops, op.path = x.path) ∧
      c = .zrem (σ.catalogCode q) [memberCode y.path] := by
    intro c hc
    obtain ⟨commands, hcommands, hc⟩ := List.mem_flatten.mp hc
    obtain ⟨op, hop, heq⟩ := forall₂_mem_right (mapM_forall₂ hcs) hcommands
    obtain ⟨y, hy, hpath⟩ := hops op hop
    rw [Storage.deleteIndexes, indexCommands_eq y hpath] at heq
    cases heq
    obtain ⟨q, -, rfl⟩ := List.mem_map.mp hc
    exact ⟨y, hy, q, fun hyx => ⟨op, hop, hyx ▸ hpath⟩, rfl⟩
  cases hflat : cs.flatten with
  | nil => exact Safe.finish hv hv
  | cons c rest =>
    rw [hflat] at hplace
    let J : ItemView → Prop := fun w =>
      σ.Covered U x w ∧ ∀ op ∈ ops, op.path = x.path → w.record = none
    refine Safe.bind (Safe.batch (P := fun _ w => σ.Covered U x w) J (fun _ _ => True)
      ?_ ⟨hv, hgone⟩ (fun _ hw => hw.1) ?_ fun _ w hw _ => hw.1) ?_ ?_
    · intro d hd
      obtain ⟨y, hy, q, -, rfl⟩ := hplace d hd
      exact zrem_permitted hy q
    · intro d hd w r u hw hacts
      obtain ⟨y, hy, q, hown, rfl⟩ := hplace d hd
      obtain ⟨hrecord, hcataloged⟩ := hacts
      refine ⟨⟨fun b hb => ?_, fun op hop hpath => hrecord.trans (hw.2 op hop hpath)⟩,
        trivial, fun _ _ _ => trivial⟩
      have hpresent : w.record = some b := hrecord.symm.trans hb
      refine ⟨(hw.1 b hpresent).1, fun p hp => (hcataloged p).mpr ⟨(hw.1 b hpresent).2 p hp, ?_⟩⟩
      rintro ⟨-, hmember⟩
      have hyx := Place.ext_path
        (memberCode_inj x.itemPath y.itemPath (List.mem_singleton.mp hmember))
      obtain ⟨op, hop, hpath⟩ := hown hyx.symm
      rw [hw.2 op hop hpath] at hpresent
      cases hpresent
    · exact fun _ w hw _ => Safe.finish hw hw
    · exact fun _ w hw _ => hw

end Removing

section Writing

/-- The members of the written items are published. -/
theorem publish_safe {pending : List (PendingPut T)}
    (hpending : ∀ item ∈ pending, ∃ y ∈ K, item.op.path = y.path) {cs : List (List Cmd)}
    (hcs : pending.mapM (fun item => σ.publishIndexes item.op) = .ok cs) (hv : σ.Covered U x v) :
    Safe (σ.guarding U scanner) K x (σ.Covered U x)
      (fun _ w => σ.Covered U x w ∧ ∀ item ∈ pending, item.op.path = x.path →
        ∀ q, q <+: x.namespace_ → w.cataloged q) (.batch cs.flatten : StorePlan (List Answer)) v := by
  have hplace : ∀ c ∈ cs.flatten, ∃ y ∈ K, ∃ q, q <+: y.namespace_ ∧
      c = .zadd (σ.catalogCode q) (memberCode y.path) := by
    intro c hc
    obtain ⟨commands, hcommands, hc⟩ := List.mem_flatten.mp hc
    obtain ⟨item, hitem, heq⟩ := forall₂_mem_right (mapM_forall₂ hcs) hcommands
    obtain ⟨y, hy, hpath⟩ := hpending item hitem
    rw [Storage.publishIndexes, indexCommands_eq y hpath] at heq
    cases heq
    obtain ⟨q, hq, rfl⟩ := List.mem_map.mp hc
    exact ⟨y, hy, q, mem_namespacePrefixes.mp hq, rfl⟩
  have hcommand : ∀ item ∈ pending, item.op.path = x.path → ∀ q, q <+: x.namespace_ →
      (.zadd (σ.catalogCode q) (memberCode x.path) : Cmd) ∈ cs.flatten := by
    intro item hitem hpath q hq
    obtain ⟨commands, hcommands, heq⟩ := forall₂_mem_left (mapM_forall₂ hcs) hitem
    rw [Storage.publishIndexes, indexCommands_eq x hpath] at heq
    cases heq
    exact List.mem_flatten.mpr ⟨_, hcommands, List.mem_map.mpr ⟨q, mem_namespacePrefixes.mpr hq, rfl⟩⟩
  refine Safe.batch (σ.Covered U x)
    (fun c w => ∀ q, c = .zadd (σ.catalogCode q) (memberCode x.path) → w.cataloged q)
    ?_ hv (fun _ hw => hw) ?_ ?_
  · intro c hc
    obtain ⟨y, hy, q, hq, rfl⟩ := hplace c hc
    exact zadd_permitted hy hq
  · intro c hc w r u hw hacts
    obtain ⟨y, hy, q, hq, rfl⟩ := hplace c hc
    obtain ⟨hrecord, hcataloged⟩ := hacts
    refine ⟨fun b hb => ?_, fun p heq => ?_, fun d _ hd p heq => ?_⟩
    · have hold := hw b (hrecord.symm.trans hb)
      exact ⟨hold.1, fun p hp => (hcataloged p).mpr (.inr (hold.2 p hp))⟩
    · obtain ⟨hkey, hmember⟩ := KeyedDatabase.Command.zadd.inj heq
      exact (hcataloged p).mpr (.inl ⟨hkey, hmember.symm⟩)
    · exact (hcataloged p).mpr (.inr (hd p heq))
  · exact fun _ w hw hD => ⟨hw, fun item hitem hpath q hq => hD _ (hcommand item hitem hpath q hq) q rfl⟩

/-- The record of a written item is its own. -/
theorem writeItem_ok (hσ : Lawful σ) {created : Dict (List Str × Str) T} {item : PendingPut T}
    {y : Place U} (hpath : item.op.path = y.path) (hkeys : textKeys item.op.value = true) {c : Cmd}
    (h : σ.writeItem created item = .ok c) : ∃ b, σ.OwnRecord y.path b ∧
      c = .hset (σ.hashKey y.namespace_) [(fieldCode y.key, b)] := by
  obtain ⟨hns, hkey⟩ := Prod.mk.inj hpath
  rw [Storage.writeItem, hns, hkey, namespaceKey_eq σ y.storable_labels,
    itemField_eq y.storable.1] at h
  simp only [bind, Except.bind] at h
  cases hcreated : Dict.get? created item.op.path with
  | none =>
    rw [hcreated] at h
    cases h
  | some createdAt =>
    rw [hcreated] at h
    obtain ⟨b, hb, h⟩ := except_bind_eq_ok h
    cases h
    exact ⟨b, ⟨_, hσ.decodeItem_record hkeys hb, hns, hkey⟩, rfl⟩

/-- The records are written once the members are published. -/
theorem writeItems_safe (hσ : Lawful σ) (hU : CollisionFree σ U) {pending : List (PendingPut T)}
    (hpending : ∀ item ∈ pending, ∃ y ∈ K, item.op.path = y.path)
    (hkeys : ∀ item ∈ pending, textKeys item.op.value = true)
    {created : Dict (List Str × Str) T} {cs : List Cmd}
    (hcs : pending.mapM (σ.writeItem created) = .ok cs) (hv : σ.Covered U x v)
    (hpublished : ∀ item ∈ pending, item.op.path = x.path →
      ∀ q, q <+: x.namespace_ → v.cataloged q) :
    Safe (σ.guarding U scanner) K x (σ.Covered U x) (fun _ w => σ.Covered U x w)
      (.batch cs : StorePlan (List Answer)) v := by
  have hplace : ∀ c ∈ cs, ∃ y ∈ K, ∃ b, (y = x → ∃ item ∈ pending, item.op.path = x.path) ∧
      σ.OwnRecord y.path b ∧ c = .hset (σ.hashKey y.namespace_) [(fieldCode y.key, b)] := by
    intro c hc
    obtain ⟨item, hitem, heq⟩ := forall₂_mem_right (mapM_forall₂ hcs) hc
    obtain ⟨y, hy, hpath⟩ := hpending item hitem
    obtain ⟨b, hown, hcommand⟩ := writeItem_ok hσ hpath (hkeys item hitem) heq
    exact ⟨y, hy, b, fun hyx => ⟨item, hitem, hyx ▸ hpath⟩, hown, hcommand⟩
  refine Safe.batch (fun w => σ.Covered U x w ∧ ∀ item ∈ pending, item.op.path = x.path →
    ∀ q, q <+: x.namespace_ → w.cataloged q) (fun _ _ => True) ?_ ⟨hv, hpublished⟩
    (fun _ hw => hw.1) ?_ fun _ w hw _ => hw.1
  · intro c hc
    obtain ⟨y, hy, b, -, -, rfl⟩ := hplace c hc
    exact hset_permitted hU hy b
  · intro c hc w r u hw hacts
    obtain ⟨y, hy, b, hown, hrecord', rfl⟩ := hplace c hc
    obtain ⟨hrecord, hcataloged⟩ := hacts
    have hsame : ∀ q, u.cataloged q ↔ w.cataloged q := hcataloged
    refine ⟨⟨fun b' hb' => ?_, fun item hitem hpath q hq =>
      (hsame q).mpr (hw.2 item hitem hpath q hq)⟩, trivial, fun _ _ _ => trivial⟩
    by_cases hcell : σ.hashKey y.namespace_ = σ.hashKey x.namespace_ ∧ fieldCode y.key = fieldCode x.key
    · obtain rfl := hU.cell_inj hcell.1 hcell.2
      obtain ⟨item, hitem, hpath⟩ := hown rfl
      have hnew : u.record = some b := by
        rw [hrecord]
        simp [KeyedDatabase.Command.writes]
      rw [hnew] at hb'
      cases hb'
      exact ⟨hrecord', fun q hq => (hsame q).mpr (hw.2 item hitem hpath q hq)⟩
    · have hold : u.record = w.record := by
        rw [hrecord]
        refine writes_unchanged ?_
        rintro ⟨hkey, p, hp, hfield⟩
        obtain rfl := List.mem_singleton.mp hp
        exact hcell ⟨hkey, hfield⟩
      have hpresent := hw.1 b' (hold.symm.trans hb')
      exact ⟨hpresent.1, fun q hq => (hsame q).mpr (hpresent.2 q hq)⟩

end Writing

end FerricStore.MemoryStore
