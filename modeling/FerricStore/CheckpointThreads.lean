import FerricStore.CheckpointReading
import FerricStore.LockedJobs

/-!
# The checkpoint store under the thread locks

What the lock of a thread guards are the hashes of its namespaces, their indexes, its two
catalogs and its own members of the global catalog. Every key belongs to one thread, and a
locator names the hash of one thread, so the commands of one thread do not change what is
seen of another.
-/

set_option autoImplicit false

namespace FerricStore.CheckpointStore
open Text OrderedKeys StorageKeys CheckpointKeys CommandPlans KeyedDatabase
open MemoryStore (Db Cmd Answer StorePlan field isFormatVersion)

/-- A thread in use. -/
@[ext] structure Thread (U : Set (Str × Str)) where
  id : Str
  text : encodable id = true
  used : ∃ ns, (id, ns) ∈ U

/-- The keys that a command may change. -/
def written : Cmd → List Str
  | .hset key _ | .hsetnx key _ _ | .hdel key _ | .zadd key _ | .zrem key _ | .sadd key _ => [key]
  | .del keys => keys
  | _ => []

section Written

variable {c : Cmd} {key f : Str} {m : Bytes}

theorem writesAt_written (h : c.writesAt key f) : key ∈ written c := by
  cases c with
  | hset | hsetnx | hdel => exact List.mem_singleton.mpr h.1.symm
  | del => exact h
  | hget | hscan | zadd | zrem | zrange | zrevrange | sadd | smembers => exact h.elim

theorem indexesAt_written (h : c.indexesAt key m) : key ∈ written c := by
  cases c with
  | zadd | zrem => exact List.mem_singleton.mpr h.1.symm
  | del => exact h
  | hget | hset | hsetnx | hdel | hscan | zrange | zrevrange | sadd | smembers => exact h.elim

theorem listsAt_written (h : c.listsAt key m) : key ∈ written c := by
  cases c with
  | sadd => exact List.mem_singleton.mpr h.1.symm
  | del => exact h
  | hget | hset | hsetnx | hdel | hscan | zadd | zrem | zrange | zrevrange | smembers =>
    exact h.elim

end Written

/-- The thread of a key. -/
def owner : StorageObject → Option Str
  | .threadCatalog t | .threadLocators t | .threadLock t | .thread t _ | .checkpointIndex t _ =>
    some t
  | _ => none

section Keys

variable {σ : Storage} {U : Set (Str × Str)}

theorem OrderedSet.eq_of_members {s s' : OrderedSet Bytes} (h : ∀ m, m ∈ s ↔ m ∈ s') : s = s' := by
  have hmembers : s.members = s'.members :=
    List.Perm.eq_of_pairwise (fun a b _ _ hab hba => absurd hab (lt_asymm hba)) s.sorted s'.sorted
      ((List.perm_ext_iff_of_nodup s.members_nodup s'.members_nodup).mpr h)
  cases s
  cases s'
  cases hmembers
  rfl

variable (σ)

def Storage.spacesKey (t : Str) : Str :=
  σ.keyPrefix++lit ":\x7blgt:"++σ.sha256 (utf8 t)++lit "\x7d:namespaces"

def Storage.locatorsKey (t : Str) : Str := σ.spacesKey t++lit ":checkpoint-locators"

def Storage.globalKey : Str := CheckpointKeys.catalogKey σ.keyPrefix

variable {σ} (t t' : Thread U) {key : Str}

theorem spaces_key : threadCatalogKey σ.sha256 σ.keyPrefix t.id = .ok (σ.spacesKey t.id) := by
  rw [threadCatalogKey, threadDigest, payload_eq t.text]
  rfl

theorem locators_key :
    threadLocatorCatalogKey σ.sha256 σ.keyPrefix t.id = .ok (σ.locatorsKey t.id) := by
  rw [threadLocatorCatalogKey, spaces_key]
  rfl

variable (σ U) in
/-- The key is one of the thread's own. -/
def Storage.Owned (t key : Str) : Prop :=
  ∃ o ∈ objects U, owner o = some t ∧ o.key σ.sha256 σ.keyPrefix = .ok key

theorem owned_hash {t : Str} (h : σ.HashOf U t key) : σ.Owned U t key := by
  obtain ⟨ns, hU, hkey⟩ := h
  exact ⟨.thread t ns, .inr ⟨_, hU, .inr (.inr (.inl rfl))⟩, rfl, hkey⟩

theorem owned_index {t : Str} (h : σ.HashOf U t key) : σ.Owned U t (checkpointIndexKey key) := by
  obtain ⟨ns, hU, hkey⟩ := h
  exact ⟨.checkpointIndex t ns, .inr ⟨_, hU, .inr (.inr (.inr rfl))⟩, rfl, index_key hkey⟩

theorem owned_spaces : σ.Owned U t.id (σ.spacesKey t.id) := by
  obtain ⟨ns, hU⟩ := t.used
  exact ⟨.threadCatalog t.id, .inr ⟨_, hU, .inl rfl⟩, rfl, spaces_key t⟩

theorem owned_locators : σ.Owned U t.id (σ.locatorsKey t.id) := by
  obtain ⟨ns, hU⟩ := t.used
  exact ⟨.threadLocators t.id, .inr ⟨_, hU, .inr (.inl rfl)⟩, rfl, locators_key t⟩

theorem Lawful.owned_inj (hσ : Lawful σ U) {t t' : Str} (h : σ.Owned U t key)
    (h' : σ.Owned U t' key) : t = t' := by
  obtain ⟨o, ho, howner, hkey⟩ := h
  obtain ⟨o', ho', howner', hkey'⟩ := h'
  obtain rfl := hσ.key_inj ho ho' hkey hkey'
  exact Option.some.inj (howner.symm.trans howner')

theorem Lawful.owned_ne_global (hσ : Lawful σ U) {t : Str} (h : σ.Owned U t key) :
    key ≠ σ.globalKey := by
  rintro rfl
  obtain ⟨o, ho, howner, hkey⟩ := h
  obtain rfl := hσ.key_inj (p := .checkpointCatalog) ho (.inl rfl) hkey rfl
  cases howner

/-- The key of one object is not the key of another. -/
theorem Lawful.key_ne (hσ : Lawful σ U) {o p : StorageObject} {k k' : Str} (hne : o ≠ p)
    (ho : o ∈ objects U) (hp : p ∈ objects U) (h : o.key σ.sha256 σ.keyPrefix = .ok k)
    (h' : p.key σ.sha256 σ.keyPrefix = .ok k') : k ≠ k' := by
  rintro rfl
  exact hne (hσ.key_inj ho hp h h')

variable {t : Thread U} {s : Str}

theorem Lawful.hash_ne_index (hσ : Lawful σ U) {s' key' : Str} (h : σ.HashOf U s key)
    (h' : σ.HashOf U s' key') : key ≠ checkpointIndexKey key' := by
  obtain ⟨ns, hU, hkey⟩ := h
  obtain ⟨ns', hU', hkey'⟩ := h'
  exact hσ.key_ne (o := .thread s ns) (p := .checkpointIndex s' ns') nofun
    (.inr ⟨_, hU, .inr (.inr (.inl rfl))⟩) (.inr ⟨_, hU', .inr (.inr (.inr rfl))⟩) hkey
    (index_key hkey')

theorem Lawful.spaces_ne (hσ : Lawful σ U) (h : σ.HashOf U s key) :
    σ.spacesKey t.id ≠ key ∧ σ.spacesKey t.id ≠ checkpointIndexKey key := by
  obtain ⟨ns, hU, hkey⟩ := h
  obtain ⟨ns', hU'⟩ := t.used
  exact ⟨hσ.key_ne (o := .threadCatalog t.id) (p := .thread s ns) nofun
      (.inr ⟨_, hU', .inl rfl⟩) (.inr ⟨_, hU, .inr (.inr (.inl rfl))⟩) (spaces_key t) hkey,
    hσ.key_ne (o := .threadCatalog t.id) (p := .checkpointIndex s ns) nofun
      (.inr ⟨_, hU', .inl rfl⟩) (.inr ⟨_, hU, .inr (.inr (.inr rfl))⟩) (spaces_key t)
      (index_key hkey)⟩

theorem Lawful.locators_ne (hσ : Lawful σ U) (h : σ.HashOf U s key) :
    σ.locatorsKey t.id ≠ key ∧ σ.locatorsKey t.id ≠ checkpointIndexKey key := by
  obtain ⟨ns, hU, hkey⟩ := h
  obtain ⟨ns', hU'⟩ := t.used
  exact ⟨hσ.key_ne (o := .threadLocators t.id) (p := .thread s ns) nofun
      (.inr ⟨_, hU', .inr (.inl rfl)⟩) (.inr ⟨_, hU, .inr (.inr (.inl rfl))⟩) (locators_key t) hkey,
    hσ.key_ne (o := .threadLocators t.id) (p := .checkpointIndex s ns) nofun
      (.inr ⟨_, hU', .inr (.inl rfl)⟩) (.inr ⟨_, hU, .inr (.inr (.inr rfl))⟩) (locators_key t)
      (index_key hkey)⟩

/-- A locator names one hash and one checkpoint. -/
theorem Lawful.locator_inj (hσ : Lawful σ U) {s' key' id id' : Str} {m : Bytes}
    (h : σ.HashOf U s key) (h' : σ.HashOf U s' key') (hm : storedLocator id key = .ok m)
    (hm' : storedLocator id' key' = .ok m) : id = id' ∧ key = key' := by
  obtain ⟨ns, -, hkey⟩ := h
  obtain ⟨ns', -, hkey'⟩ := h'
  obtain ⟨hid, rfl⟩ := storedLocator_ok hm
  obtain ⟨hid', heq⟩ := storedLocator_ok hm'
  have hdecode := decodeCheckpointLocator_code hid (hσ.key_text hkey).1 (hσ.key_text hkey).2
  rw [heq, decodeCheckpointLocator_code hid' (hσ.key_text hkey').1 (hσ.key_text hkey').2] at hdecode
  cases hdecode
  exact ⟨rfl, rfl⟩

theorem Lawful.locator_thread (hσ : Lawful σ U) {s s' : Str} {m : Bytes}
    (h : σ.LocatorOf U s m) (h' : σ.LocatorOf U s' m) : s = s' := by
  obtain ⟨key, id, hhash, hm⟩ := h
  obtain ⟨key', id', hhash', hm'⟩ := h'
  obtain ⟨-, rfl⟩ := hσ.locator_inj hhash hhash' hm hm'
  exact hσ.hash_thread hhash hhash'

end Keys

section Views

variable (σ : Storage) (U : Set (Str × Str)) (scanner : Scanner Str Bytes Str)

/-- What the lock of a thread guards: the fields and the index of each of its hashes, the
members of its two catalogs, and its own members of the global one. -/
@[ext] structure ThreadView where
  get : Str → Str → Option Bytes
  index : Str → Bytes → Prop
  spaces : Bytes → Prop
  locators : OrderedSet Bytes
  globals : Bytes → Prop

open Classical in
noncomputable def Storage.view (t : Thread U) (db : Db) : ThreadView where
  get key f := if σ.HashOf U t.id key then db.get key f else none
  index key m := σ.HashOf U t.id key ∧ m ∈ db.zsets (checkpointIndexKey key)
  spaces m := m ∈ db.sets (σ.spacesKey t.id)
  locators := db.zsets (σ.locatorsKey t.id)
  globals m := σ.LocatorOf U t.id m ∧ m ∈ db.zsets σ.globalKey

/-- The command may change what is seen of the thread. -/
def Storage.touches (c : Cmd) (t : Thread U) : Prop :=
  (∃ key ∈ written c, σ.Owned U t.id key) ∨
    ∃ m, σ.LocatorOf U t.id m ∧ c.indexesAt σ.globalKey m

/-- What a command does, as seen of the thread. -/
structure Storage.Acts (t : Thread U) (c : Cmd) (v : ThreadView) (r : Answer) (w : ThreadView) :
    Prop where
  get : ∀ key, σ.HashOf U t.id key → ∀ f, w.get key f = c.writes key f (v.get key f)
  get_other : ∀ key, ¬σ.HashOf U t.id key → w.get key = v.get key
  index : ∀ key, σ.HashOf U t.id key → ∀ m,
    w.index key m ↔ c.indexes (checkpointIndexKey key) m (v.index key m)
  index_other : ∀ key, ¬σ.HashOf U t.id key → w.index key = v.index key
  spaces : ∀ m, w.spaces m ↔ c.lists (σ.spacesKey t.id) m (v.spaces m)
  locators : ∀ m, m ∈ w.locators ↔ c.indexes (σ.locatorsKey t.id) m (m ∈ v.locators)
  globals : ∀ m, σ.LocatorOf U t.id m →
    (w.globals m ↔ c.indexes σ.globalKey m (v.globals m))
  globals_other : ∀ m, ¬σ.LocatorOf U t.id m → (w.globals m ↔ v.globals m)
  members : c = .smembers (σ.spacesKey t.id) →
    ∃ ms, r = .members ms ∧ ∀ m, m ∈ ms ↔ v.spaces m
  range : ∀ start stop, c = .zrange (σ.locatorsKey t.id) start stop →
    r = .members (slice start stop v.locators.members)

variable {σ U scanner}

theorem exec_acts (t : Thread U) (c : Cmd) (db : Db) :
    σ.Acts U t c (σ.view U t db) (exec scanner c db).1 (σ.view U t (exec scanner c db).2) where
  get key hkey f := by
    simp only [Storage.view, if_pos hkey]
    exact get_exec key f
  get_other key hkey := by
    funext f
    simp only [Storage.view, if_neg hkey]
  index key hkey m := by
    simp only [Storage.view, hkey, true_and]
    exact mem_zset_exec _ m
  index_other key hkey := by
    funext m
    simp only [Storage.view, hkey, false_and]
  spaces m := mem_set_exec _ m
  locators m := mem_zset_exec _ m
  globals m hm := by
    simp only [Storage.view, hm, true_and]
    exact mem_zset_exec _ m
  globals_other m hm := by
    simp only [Storage.view, hm, false_and]
  members h := by
    subst h
    exact ⟨_, rfl, fun m => Iff.rfl⟩
  range start stop h := by
    subst h
    rfl

theorem acts_frame (t : Thread U) (c : Cmd) (v : ThreadView) (r : Answer) (w : ThreadView)
    (h : ¬σ.touches U c t) (hacts : σ.Acts U t c v r w) : w = v := by
  have hown : ∀ key, σ.Owned U t.id key → key ∉ written c :=
    fun key hkey hin => h (.inl ⟨key, hin, hkey⟩)
  refine ThreadView.ext ?_ ?_ ?_ ?_ ?_
  · funext key f
    by_cases hkey : σ.HashOf U t.id key
    · exact (hacts.get key hkey f).trans
        (writes_unchanged fun hw => hown key (owned_hash hkey) (writesAt_written hw))
    · rw [hacts.get_other key hkey]
  · funext key m
    by_cases hkey : σ.HashOf U t.id key
    · exact propext ((hacts.index key hkey m).trans
        (indexes_unchanged fun hw => hown _ (owned_index hkey) (indexesAt_written hw)))
    · rw [hacts.index_other key hkey]
  · funext m
    exact propext ((hacts.spaces m).trans
      (lists_unchanged fun hw => hown _ (owned_spaces t) (listsAt_written hw)))
  · exact OrderedSet.eq_of_members fun m => (hacts.locators m).trans
      (indexes_unchanged fun hw => hown _ (owned_locators t) (indexesAt_written hw))
  · funext m
    by_cases hm : σ.LocatorOf U t.id m
    · exact propext ((hacts.globals m hm).trans
        (indexes_unchanged fun hw => h (.inr ⟨m, hm, hw⟩)))
    · exact propext (hacts.globals_other m hm)

variable (σ U scanner)

/-- The thread locks over the database. -/
noncomputable def Storage.guarding : Guarding Db Cmd Answer (Thread U) ThreadView where
  exec := exec scanner
  sound := σ.Sane U
  licensed c := removes c = true ∨ σ.Genuine U c
  licensed_sound _ _ hc h := h.exec hc
  view := σ.view U
  touches := σ.touches U
  acts := σ.Acts U
  exec_acts := exec_acts
  acts_frame := acts_frame

variable {σ U scanner}

theorem Lawful.touches_own (hσ : Lawful σ U) {t t' : Thread U} {c : Cmd}
    (hc : ∀ key ∈ written c, σ.Owned U t.id key) (h : σ.touches U c t') : t' = t := by
  refine Thread.ext ?_
  rcases h with ⟨key, hkey, hown⟩ | ⟨m, -, hm⟩
  · exact hσ.owned_inj hown (hc key hkey)
  · exact absurd rfl (hσ.owned_ne_global (hc _ (indexesAt_written hm)))

/-- A command on keys of its own thread needs the lock of the thread only. -/
theorem Lawful.permitted_own (hσ : Lawful σ U) {K : Set (Thread U)} {t : Thread U} {c : Cmd}
    (ht : t ∈ K) (hlicensed : removes c = true ∨ σ.Genuine U c)
    (hc : ∀ key ∈ written c, σ.Owned U t.id key) : Permitted (σ.guarding U scanner) K c :=
  ⟨hlicensed, fun _ hm => hσ.touches_own hc hm ▸ ht⟩

/-- So does one on its own locators in the global catalog. -/
theorem Lawful.permitted_global (hσ : Lawful σ U) {K : Set (Thread U)} {t : Thread U} {c : Cmd}
    (ht : t ∈ K) (hlicensed : removes c = true ∨ σ.Genuine U c) (hc : written c = [σ.globalKey])
    (hm : ∀ m, c.indexesAt σ.globalKey m → σ.LocatorOf U t.id m) :
    Permitted (σ.guarding U scanner) K c := by
  refine ⟨hlicensed, fun t' h => ?_⟩
  have heq : t' = t := by
    refine Thread.ext ?_
    rcases h with ⟨key, hkey, hown⟩ | ⟨m, hlocator, hin⟩
    · rw [hc] at hkey
      exact absurd (List.mem_singleton.mp hkey) (hσ.owned_ne_global hown)
    · exact hσ.locator_thread hlocator (hm m hin)
  exact heq ▸ ht

end Views

end FerricStore.CheckpointStore
