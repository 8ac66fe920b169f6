import FerricStore.LockedJobs
import FerricStore.MemoryBatch

/-!
# What the lock of an item guards

Under the lock of an item lie its field in the hash of its namespace and its member in
the catalog of each prefix. A digest that does not collide on the namespaces in use keeps
the items apart.
-/

set_option autoImplicit false

namespace FerricStore.MemoryStore
open Text OrderedKeys StorageKeys CommandPlans KeyedDatabase

section Places

variable (U : Set (List Str))

/-- A prefix of a namespace in use, of labels that can be spelled. -/
def UsedPrefix (q : List Str) : Prop := (∃ ns ∈ U, q <+: ns) ∧ ∀ s ∈ q, Storable s

/-- An item that the store can hold: a namespace in use of labels that are not empty, and a
key, all of them text with a length that can be spelled. -/
structure Place where
  namespace_ : List Str
  key : Str
  used : namespace_ ∈ U
  nonempty : namespace_ ≠ []
  labels : ∀ s ∈ namespace_, s ≠ [] ∧ Storable s
  storable : Storable key

variable {U}

def Place.path (x : Place U) : List Str × Str := (x.namespace_, x.key)

theorem Place.ext_path {x y : Place U} (h : x.path = y.path) : x = y := by
  obtain ⟨ns, key, _, _, _, _⟩ := x
  obtain ⟨ns', key', _, _, _, _⟩ := y
  obtain ⟨rfl, rfl⟩ := Prod.mk.inj h
  rfl

theorem Place.itemPath (x : Place U) : ItemPath x.path :=
  ⟨x.nonempty, fun s hs => ⟨(x.labels s hs).1, (x.labels s hs).2.1⟩, x.storable.1⟩

theorem Place.usedPrefix (x : Place U) {q : List Str} (h : q <+: x.namespace_) : UsedPrefix U q :=
  ⟨⟨x.namespace_, x.used, h⟩, fun s hs => (x.labels s (h.subset hs)).2⟩

theorem Place.storable_labels (x : Place U) : ∀ s ∈ x.namespace_, Storable s :=
  (x.usedPrefix List.prefix_rfl).2

end Places

section Codes

variable {T : Type} (σ : Storage T) {U : Set (List Str)}

def Storage.hashKey (ns : List Str) : Str :=
  σ.keyPrefix++lit ":\x7blgs:"++σ.sha256 (ns.flatMap measuredCode)++lit "\x7d:namespace"

def fieldCode (key : Str) : Str := lit "item:"++base64 (utf8 key)

def Storage.catalogCode (q : List Str) : Str :=
  if q = [] then catalogKey σ.keyPrefix
  else σ.keyPrefix++lit ":prefix:"++σ.sha256 (q.flatMap measuredCode)

def memberCode (path : List Str × Str) : Bytes := namespaceCode path.1++textCode path.2

theorem namespaceKey_eq {ns : List Str} (h : ∀ s ∈ ns, Storable s) :
    namespaceKey σ.sha256 σ.keyPrefix ns = .ok (σ.hashKey ns) := by
  rw [namespaceKey, namespaceIdentity_eq h]
  rfl

theorem itemField_eq {key : Str} (h : encodable key = true) : itemField key = .ok (fieldCode key) := by
  rw [itemField, encodeComponent_eq h]
  rfl

theorem prefixCatalogKey_eq {q : List Str} (h : ∀ s ∈ q, Storable s) :
    prefixCatalogKey σ.sha256 σ.keyPrefix q = .ok (σ.catalogCode q) := by
  unfold prefixCatalogKey Storage.catalogCode
  split_ifs
  · rfl
  · rw [namespaceIdentity_eq h]
    rfl

theorem memberOf_eq {path : List Str × Str} (h : ItemPath path) :
    memberOf path = .ok (memberCode path) := by
  rw [memberOf, catalogMember_eq (fun s hs => (h.2.1 s hs).2) h.2.2]
  rfl

theorem decodeMember_memberCode {path : List Str × Str} (h : ItemPath path) :
    decodeMember (memberCode path) = .ok path := by
  rw [decodeMember, memberCode, decodeCatalogMember_code h.1 h.2.1 h.2.2]

theorem memberCode_inj {p q : List Str × Str} (hp : ItemPath p) (hq : ItemPath q)
    (h : memberCode p = memberCode q) : p = q := by
  have hpq := decodeMember_memberCode hp
  rw [h, decodeMember_memberCode hq] at hpq
  exact (Except.ok.inj hpq).symm

theorem fieldCode_inj {a b : Str} (h : fieldCode a = fieldCode b) : a = b :=
  utf8_inj (base64_inj (List.append_cancel_left h))

/-- The digest does not collide on the identities of the namespaces in use and of their
prefixes. -/
def CollisionFree (U : Set (List Str)) : Prop :=
  Set.InjOn σ.sha256 { b | ∃ q, UsedPrefix U q ∧ namespaceIdentity q = .ok b }

variable {σ}

theorem CollisionFree.namespace_inj (hU : CollisionFree σ U) {p q : List Str}
    (hp : UsedPrefix U p) (hq : UsedPrefix U q)
    (h : σ.sha256 (p.flatMap measuredCode) = σ.sha256 (q.flatMap measuredCode)) : p = q :=
  identity_inj hp.2 hq.2
    (hU ⟨p, hp, namespaceIdentity_eq hp.2⟩ ⟨q, hq, namespaceIdentity_eq hq.2⟩ h)

theorem CollisionFree.hashKey_inj (hU : CollisionFree σ U) {x y : Place U}
    (h : σ.hashKey x.namespace_ = σ.hashKey y.namespace_) : x.namespace_ = y.namespace_ := by
  refine hU.namespace_inj (x.usedPrefix List.prefix_rfl) (y.usedPrefix List.prefix_rfl) ?_
  simp only [Storage.hashKey, List.append_assoc] at h
  have hrest := List.append_cancel_left (List.append_cancel_left h)
  exact List.append_cancel_right hrest

theorem CollisionFree.cell_inj (hU : CollisionFree σ U) {x y : Place U}
    (hkey : σ.hashKey x.namespace_ = σ.hashKey y.namespace_)
    (hfield : fieldCode x.key = fieldCode y.key) : x = y :=
  Place.ext_path (Prod.ext (hU.hashKey_inj hkey) (fieldCode_inj hfield))

theorem catalogKey_ne (σ : Storage T) (b : Str) : σ.keyPrefix++lit ":prefix:"++b ≠
    catalogKey σ.keyPrefix := by
  intro h
  simp only [catalogKey, List.append_assoc] at h
  have hrest := List.append_cancel_left h
  have hsecond := congrArg (fun l : Str => l[1]?) hrest
  simp [lit] at hsecond

theorem CollisionFree.catalogCode_inj (hU : CollisionFree σ U) {p q : List Str}
    (hp : UsedPrefix U p) (hq : UsedPrefix U q) (h : σ.catalogCode p = σ.catalogCode q) :
    p = q := by
  unfold Storage.catalogCode at h
  split_ifs at h with hpe hqe hqe
  · exact hpe.trans hqe.symm
  · exact absurd h.symm (catalogKey_ne σ _)
  · exact absurd h (catalogKey_ne σ _)
  · exact hU.namespace_inj hp hq (List.append_cancel_left h)

end Codes

section Views

variable {T : Type} (σ : Storage T) (U : Set (List Str)) (scanner : Scanner Str Bytes Str)

/-- What the lock of an item guards: its record, and the prefixes whose catalog has its
member. -/
@[ext] structure ItemView where
  record : Option Bytes
  cataloged : List Str → Prop

def Storage.view (x : Place U) (db : Db) : ItemView where
  record := db.get (σ.hashKey x.namespace_) (fieldCode x.key)
  cataloged q := memberCode x.path ∈ db.zsets (σ.catalogCode q)

def Storage.touches (c : Cmd) (x : Place U) : Prop :=
  c.writesAt (σ.hashKey x.namespace_) (fieldCode x.key) ∨
    ∃ q, c.indexesAt (σ.catalogCode q) (memberCode x.path)

/-- The sorted sets are catalogs of the prefixes of the items that are their members, and
the fields are fields of items. -/
structure Storage.Sound (db : Db) : Prop where
  members : ∀ key m, m ∈ db.zsets key → ∃ x : Place U, ∃ q, q <+: x.namespace_ ∧
    key = σ.catalogCode q ∧ m = memberCode x.path
  cells : ∀ key field b, db.get key field = some b →
    ∃ x : Place U, key = σ.hashKey x.namespace_ ∧ field = fieldCode x.key

/-- A command that only adds members to the catalogs of their prefixes, and fields of items. -/
def Storage.licensed : Cmd → Prop
  | .zadd key m => ∃ x : Place U, ∃ q, q <+: x.namespace_ ∧ key = σ.catalogCode q ∧
    m = memberCode x.path
  | .hset key fields => ∀ p ∈ fields, ∃ x : Place U, key = σ.hashKey x.namespace_ ∧
    p.1 = fieldCode x.key
  | .hsetnx .. => False
  | _ => True

theorem licensed_sound {c : Cmd} {db : Db} (hc : σ.licensed U c) (h : σ.Sound U db) :
    σ.Sound U (exec scanner c db).2 := by
  constructor
  · intro key m hm
    rw [mem_zset_exec] at hm
    cases c with
    | zadd key' member =>
      rcases hm with ⟨rfl, rfl⟩ | hm
      · exact hc
      · exact h.members key m hm
    | zrem | del => exact h.members key m hm.1
    | hget | hset | hsetnx | hdel | hscan | zrange | zrevrange | sadd | smembers =>
      exact h.members key m hm
  · intro key field b hb
    rw [get_exec] at hb
    cases c with
    | hset key' fields =>
      by_cases hwrites : (KeyedDatabase.Command.hset key' fields : Cmd).writesAt key field
      · obtain ⟨rfl, p, hp, rfl⟩ := hwrites
        exact hc p hp
      · rw [writes_unchanged hwrites] at hb
        exact h.cells key field b hb
    | hdel key' field' =>
      simp only [KeyedDatabase.Command.writes] at hb
      split_ifs at hb
      exact h.cells key field b hb
    | del keys =>
      simp only [KeyedDatabase.Command.writes] at hb
      split_ifs at hb
      exact h.cells key field b hb
    | hsetnx => exact hc.elim
    | hget | hscan | zadd | zrem | zrange | zrevrange | sadd | smembers =>
      exact h.cells key field b hb

/-- The item locks over the database. -/
def Storage.guarding : Guarding Db Cmd Answer (Place U) ItemView where
  exec := exec scanner
  sound := σ.Sound U
  licensed := σ.licensed U
  licensed_sound _ _ := licensed_sound σ U scanner
  view := σ.view U
  touches := σ.touches U
  acts x c v _ w := w.record = c.writes (σ.hashKey x.namespace_) (fieldCode x.key) v.record ∧
    ∀ q, w.cataloged q ↔ c.indexes (σ.catalogCode q) (memberCode x.path) (v.cataloged q)
  exec_acts x c db := ⟨get_exec _ _, fun _ => mem_zset_exec _ _⟩
  acts_frame x c v r w h hacts := by
    refine ItemView.ext (hacts.1.trans (writes_unchanged fun hw => h (.inl hw))) ?_
    funext q
    exact propext ((hacts.2 q).trans (indexes_unchanged fun hi => h (.inr ⟨q, hi⟩)))

/-- The bytes are a record of the item. -/
def Storage.OwnRecord (path : List Str × Str) (b : Bytes) : Prop :=
  ∃ item, σ.decodeItem b = .ok item ∧ item.namespace_ = path.1 ∧ item.key = path.2

/-- An item that is present has its own record, and its member in the catalog of every
prefix of its namespace. -/
def Storage.Covered (x : Place U) (v : ItemView) : Prop := ∀ b, v.record = some b →
  σ.OwnRecord x.path b ∧ ∀ q, q <+: x.namespace_ → v.cataloged q

end Views

section Commands

variable {T : Type} {σ : Storage T} {U : Set (List Str)} {scanner : Scanner Str Bytes Str}

theorem itemCommand_eq (x : Place U) :
    σ.itemCommand x.path = .ok (.hget (σ.hashKey x.namespace_) (fieldCode x.key)) := by
  rw [Storage.itemCommand, Place.path, namespaceKey_eq σ x.storable_labels,
    itemField_eq x.storable.1]
  rfl

theorem deleteItem_eq {op : PutOp} (x : Place U) (h : op.path = x.path) :
    σ.deleteItem op = .ok (.hdel (σ.hashKey x.namespace_) (fieldCode x.key)) := by
  obtain ⟨hns, hkey⟩ := Prod.mk.inj h
  rw [Storage.deleteItem, hns, hkey, namespaceKey_eq σ x.storable_labels,
    itemField_eq x.storable.1]
  rfl

theorem mem_namespacePrefixes {ns q : List Str} : q ∈ namespacePrefixes ns ↔ q <+: ns := by
  unfold namespacePrefixes
  rw [List.mem_map]
  constructor
  · rintro ⟨depth, _, rfl⟩
    exact List.take_prefix depth ns
  · intro h
    refine ⟨q.length, List.mem_range.mpr (Nat.lt_succ_of_le h.length_le), ?_⟩
    exact (List.prefix_iff_eq_take.mp h).symm

theorem indexCommands_eq {op : PutOp} (x : Place U) (h : op.path = x.path)
    (command : Str → Bytes → Cmd) :
    σ.indexCommands command op =
      .ok ((namespacePrefixes x.namespace_).map fun q =>
        command (σ.catalogCode q) (memberCode x.path)) := by
  obtain ⟨hns, -⟩ := Prod.mk.inj h
  unfold Storage.indexCommands
  rw [hns]
  refine mapM_eq_ok fun q hq => ?_
  have hq' := mem_namespacePrefixes.mp hq
  rw [prefixCatalogKey_eq σ (x.usedPrefix hq').2, h, memberOf_eq x.itemPath]
  rfl

end Commands

end FerricStore.MemoryStore
