import FerricStore.CheckpointThreads

/-!
# Crash consistency of the checkpoint store

A put publishes its hash, its two locators and its index entry before the record, and a
deletion takes the hashes and indexes first, then the global locators before those of the
thread, and the catalogs last. So wherever a plan stops, what a thread has can be found, and
a deletion that ends leaves nothing of its thread.
-/

set_option autoImplicit false

namespace FerricStore.CheckpointStore
open Text OrderedKeys StorageKeys CheckpointKeys CommandPlans KeyedDatabase
open MemoryStore (Db Cmd Answer StorePlan field isFormatVersion)

section Steps

variable {σ : Storage} {U : Set (Str × Str)} {t : Thread U} {v w : ThreadView} {c : Cmd}
  {r : Answer} {key : Str} {m : Bytes}

variable (σ U) in
/-- What holds of a thread at every moment. Its catalogs hold its hashes and its locators
only. A hash with a field or an index entry is in the catalog of the thread, a global locator
in the locators of the thread, and a record has its entry in the index and its locator. -/
structure Storage.Kept (t : Thread U) (v : ThreadView) : Prop where
  spaces : ∀ m, v.spaces m → ∃ key, σ.HashOf U t.id key ∧ m = utf8 key
  locators : ∀ m ∈ v.locators, σ.LocatorOf U t.id m
  hashes : ∀ key, σ.HashOf U t.id key → ∀ f b, v.get key f = some b → v.spaces (utf8 key)
  indexes : ∀ key, σ.HashOf U t.id key → ∀ m, v.index key m → v.spaces (utf8 key)
  globals : ∀ m, σ.LocatorOf U t.id m → v.globals m → m ∈ v.locators
  records : ∀ key, σ.HashOf U t.id key → ∀ id f b, checkpointField id = .ok f →
    v.get key f = some b → v.index key (utf8 id) ∧
      ∃ m, storedLocator id key = .ok m ∧ σ.LocatorOf U t.id m ∧ v.globals m

theorem indexes_grows {old : Prop} (hc : removes c = false) (h : old) : c.indexes key m old := by
  cases c with
  | zadd => exact .inr h
  | zrem | del | hdel => cases hc
  | hget | hset | hsetnx | hscan | zrange | zrevrange | sadd | smembers => exact h

theorem lists_grows {old : Prop} (hc : removes c = false) (h : old) : c.lists key m old := by
  cases c with
  | sadd => exact .inr h
  | zrem | del | hdel => cases hc
  | hget | hset | hsetnx | hscan | zadd | zrange | zrevrange | smembers => exact h

/-- A command that removes nothing keeps the invariant, if what it adds is published in the
right order. -/
theorem Storage.Kept.publish (hv : σ.Kept U t v) (h : σ.Acts U t c v r w)
    (hc : removes c = false)
    (hspaces : ∀ m, c.listsAt (σ.spacesKey t.id) m → ∃ key, σ.HashOf U t.id key ∧ m = utf8 key)
    (hlocators : ∀ m, c.indexesAt (σ.locatorsKey t.id) m → σ.LocatorOf U t.id m)
    (hglobals : ∀ m, c.indexesAt σ.globalKey m → m ∈ v.locators)
    (hindex : ∀ key, σ.HashOf U t.id key → ∀ m, c.indexesAt (checkpointIndexKey key) m →
      v.spaces (utf8 key))
    (hfields : ∀ key, σ.HashOf U t.id key → ∀ f, c.writesAt key f → v.spaces (utf8 key) ∧
      ∀ id, checkpointField id = .ok f → v.index key (utf8 id) ∧
        ∃ m, storedLocator id key = .ok m ∧ σ.LocatorOf U t.id m ∧ v.globals m) :
    σ.Kept U t w := by
  have hgrown : ∀ m, v.spaces m → w.spaces m := fun m hm => (h.spaces m).mpr (lists_grows hc hm)
  have hold : ∀ key, σ.HashOf U t.id key → ∀ f b, w.get key f = some b →
      c.writesAt key f ∨ v.get key f = some b := by
    intro key hkey f b hb
    rw [h.get key hkey] at hb
    by_cases hw : c.writesAt key f
    · exact .inl hw
    · rw [writes_unchanged hw] at hb
      exact .inr hb
  have hfound : ∀ key, σ.HashOf U t.id key → ∀ id, (v.index key (utf8 id) ∧
      ∃ m, storedLocator id key = .ok m ∧ σ.LocatorOf U t.id m ∧ v.globals m) →
      w.index key (utf8 id) ∧
        ∃ m, storedLocator id key = .ok m ∧ σ.LocatorOf U t.id m ∧ w.globals m := by
    rintro key hkey id ⟨hindex, m, hm, hlocator, hglobal⟩
    exact ⟨(h.index key hkey _).mpr (indexes_grows hc hindex), m, hm, hlocator,
      (h.globals m hlocator).mpr (indexes_grows hc hglobal)⟩
  refine ⟨fun m hm => ?_, fun m hm => ?_, fun key hkey f b hb => ?_, fun key hkey m hm => ?_,
    fun m hm hg => ?_, fun key hkey id f b hf hb => ?_⟩
  · by_cases hnew : c.listsAt (σ.spacesKey t.id) m
    · exact hspaces m hnew
    · exact hv.spaces m ((lists_unchanged hnew).mp ((h.spaces m).mp hm))
  · by_cases hnew : c.indexesAt (σ.locatorsKey t.id) m
    · exact hlocators m hnew
    · exact hv.locators m ((indexes_unchanged hnew).mp ((h.locators m).mp hm))
  · rcases hold key hkey f b hb with hw | hb
    · exact hgrown _ (hfields key hkey f hw).1
    · exact hgrown _ (hv.hashes key hkey f b hb)
  · by_cases hnew : c.indexesAt (checkpointIndexKey key) m
    · exact hgrown _ (hindex key hkey m hnew)
    · exact hgrown _
        (hv.indexes key hkey m ((indexes_unchanged hnew).mp ((h.index key hkey m).mp hm)))
  · refine (h.locators m).mpr (indexes_grows hc ?_)
    by_cases hnew : c.indexesAt σ.globalKey m
    · exact hglobals m hnew
    · exact hv.globals m hm ((indexes_unchanged hnew).mp ((h.globals m hm).mp hg))
  · rcases hold key hkey f b hb with hw | hb
    · exact hfound key hkey id ((hfields key hkey f hw).2 id hf)
    · exact hfound key hkey id (hv.records key hkey id f b hf hb)

theorem Storage.Kept.sadd (hv : σ.Kept U t v) (hkey : σ.HashOf U t.id key)
    (h : σ.Acts U t (.sadd (σ.spacesKey t.id) (utf8 key)) v r w) :
    σ.Kept U t w ∧ w.spaces (utf8 key) := by
  refine ⟨hv.publish h rfl (fun m hm => ⟨key, hkey, hm.2⟩) ?_ ?_ ?_ ?_,
    (h.spaces _).mpr (.inl ⟨rfl, rfl⟩)⟩
  · exact fun _ hm => hm.elim
  · exact fun _ hm => hm.elim
  · exact fun _ _ _ hm => hm.elim
  · exact fun _ _ _ hm => hm.elim

theorem Storage.Kept.zadd_locators (hσ : Lawful σ U) (hv : σ.Kept U t v)
    (hm : σ.LocatorOf U t.id m) (h : σ.Acts U t (.zadd (σ.locatorsKey t.id) m) v r w) :
    σ.Kept U t w ∧ m ∈ w.locators := by
  refine ⟨hv.publish h rfl ?_ ?_ ?_ ?_ ?_, (h.locators m).mpr (.inl ⟨rfl, rfl⟩)⟩
  · exact fun _ hm => hm.elim
  · rintro _ ⟨-, rfl⟩
    exact hm
  · exact fun _ hn => absurd hn.1 (hσ.owned_ne_global (owned_locators t))
  · exact fun key hkey _ hn => absurd hn.1 (hσ.locators_ne hkey).2
  · exact fun _ _ _ hm => hm.elim

theorem Storage.Kept.zadd_global (hσ : Lawful σ U) (hv : σ.Kept U t v) (hm : m ∈ v.locators)
    (h : σ.Acts U t (.zadd σ.globalKey m) v r w) : σ.Kept U t w ∧ w.globals m := by
  refine ⟨hv.publish h rfl ?_ ?_ ?_ ?_ ?_,
    (h.globals m (hv.locators m hm)).mpr (.inl ⟨rfl, rfl⟩)⟩
  · exact fun _ hm => hm.elim
  · exact fun _ hn => absurd hn.1.symm (hσ.owned_ne_global (owned_locators t))
  · rintro _ ⟨-, rfl⟩
    exact hm
  · exact fun key hkey _ hn => absurd hn.1.symm (hσ.owned_ne_global (owned_index hkey))
  · exact fun _ _ _ hm => hm.elim

theorem Storage.Kept.zadd_index (hσ : Lawful σ U) (hv : σ.Kept U t v)
    (hkey : σ.HashOf U t.id key) (hspaces : v.spaces (utf8 key))
    (h : σ.Acts U t (.zadd (checkpointIndexKey key) m) v r w) :
    σ.Kept U t w ∧ w.index key m := by
  refine ⟨hv.publish h rfl ?_ ?_ ?_ ?_ ?_, (h.index key hkey m).mpr (.inl ⟨rfl, rfl⟩)⟩
  · exact fun _ hm => hm.elim
  · exact fun _ hn => absurd hn.1.symm (hσ.locators_ne hkey).2
  · exact fun _ hn => absurd hn.1 (hσ.owned_ne_global (owned_index hkey))
  · rintro key' hkey' _ ⟨heq, -⟩
    exact checkpointIndexKey_inj heq ▸ hspaces
  · exact fun _ _ _ hm => hm.elim

/-- A field of a hash that the catalog has may be written, that of a record once it can be
found. -/
theorem Storage.Kept.write (hv : σ.Kept U t v) (h : σ.Acts U t c v r w)
    (hc : (∃ fields, c = .hset key fields) ∨ ∃ f b, c = .hsetnx key f b)
    (hspaces : v.spaces (utf8 key))
    (hrecord : ∀ f, c.writesAt key f → ∀ id, checkpointField id = .ok f →
      v.index key (utf8 id) ∧
        ∃ m, storedLocator id key = .ok m ∧ σ.LocatorOf U t.id m ∧ v.globals m) :
    σ.Kept U t w := by
  rcases hc with ⟨fields, rfl⟩ | ⟨f, b, rfl⟩
  all_goals
    refine hv.publish h rfl (fun _ hm => hm.elim) (fun _ hm => hm.elim) (fun _ hm => hm.elim)
      (fun _ _ _ hm => hm.elim) ?_
    rintro key' - f' hw
    obtain rfl : key = key' := hw.1
    exact ⟨hspaces, hrecord f' hw⟩

/-- The hash has no field and its index no entry. -/
def ThreadView.Empty (v : ThreadView) (key : Str) : Prop :=
  (∀ f, v.get key f = none) ∧ ∀ m, ¬v.index key m

theorem Storage.Kept.del_hash (hσ : Lawful σ U) (hv : σ.Kept U t v) (hkey : σ.HashOf U t.id key)
    (h : σ.Acts U t (.del [key, checkpointIndexKey key]) v r w) :
    σ.Kept U t w ∧ w.Empty key ∧
      ∀ key', σ.HashOf U t.id key' → v.Empty key' → w.Empty key' := by
  have hspaces : ∀ m, w.spaces m ↔ v.spaces m := by
    intro m
    refine (h.spaces m).trans (and_iff_left ?_)
    simp [(hσ.spaces_ne hkey).1, (hσ.spaces_ne hkey).2]
  have hlocators : ∀ m, m ∈ w.locators ↔ m ∈ v.locators := by
    intro m
    refine (h.locators m).trans (and_iff_left ?_)
    simp [(hσ.locators_ne hkey).1, (hσ.locators_ne hkey).2]
  have hglobals : ∀ m, σ.LocatorOf U t.id m → (w.globals m ↔ v.globals m) := by
    intro m hm
    refine (h.globals m hm).trans (and_iff_left ?_)
    simp [(hσ.owned_ne_global (owned_hash hkey)).symm,
      (hσ.owned_ne_global (owned_index hkey)).symm]
  have hget : ∀ key', σ.HashOf U t.id key' → ∀ f b, w.get key' f = some b →
      key' ∉ [key, checkpointIndexKey key] ∧ v.get key' f = some b := by
    intro key' hkey' f b hb
    rw [h.get key' hkey', KeyedDatabase.Command.writes] at hb
    split_ifs at hb with hin
    exact ⟨hin, hb⟩
  have hindex : ∀ key', σ.HashOf U t.id key' → ∀ m,
      w.index key' m ↔ v.index key' m ∧ checkpointIndexKey key' ∉ [key, checkpointIndexKey key] :=
    fun key' hkey' m => h.index key' hkey' m
  refine ⟨⟨fun m hm => hv.spaces m ((hspaces m).mp hm), fun m hm =>
    hv.locators m ((hlocators m).mp hm), fun key' hkey' f b hb => ?_, fun key' hkey' m hm => ?_,
    fun m hm hg => (hlocators m).mpr (hv.globals m hm ((hglobals m hm).mp hg)),
    fun key' hkey' id f b hf hb => ?_⟩, ⟨fun f => ?_, fun m hm => ?_⟩, fun key' hkey' hempty =>
    ⟨fun f => ?_, fun m hm => hempty.2 m ((hindex key' hkey' m).mp hm).1⟩⟩
  · exact (hspaces _).mpr (hv.hashes key' hkey' f b (hget key' hkey' f b hb).2)
  · exact (hspaces _).mpr (hv.indexes key' hkey' m ((hindex key' hkey' m).mp hm).1)
  · obtain ⟨hin, hb⟩ := hget key' hkey' f b hb
    obtain ⟨hentry, locator, hlocator, hof, hglobal⟩ := hv.records key' hkey' id f b hf hb
    refine ⟨(hindex key' hkey' _).mpr ⟨hentry, fun hmem => ?_⟩, locator, hlocator, hof,
      (hglobals _ hof).mpr hglobal⟩
    rcases List.mem_cons.mp hmem with heq | hmem
    · exact hσ.hash_ne_index hkey hkey' heq.symm
    · obtain rfl := checkpointIndexKey_inj (List.mem_singleton.mp hmem)
      exact hin List.mem_cons_self
  · exact Option.eq_none_iff_forall_ne_some.mpr fun b hb =>
      (hget key hkey f b hb).1 List.mem_cons_self
  · exact ((hindex key hkey m).mp hm).2 (by simp)
  · refine Option.eq_none_iff_forall_ne_some.mpr fun b hb => ?_
    have hold := (hget key' hkey' f b hb).2
    rw [hempty.1 f] at hold
    cases hold

/-- Nothing is left of the hashes of the thread. -/
def Storage.Cleared (σ : Storage) (U : Set (Str × Str)) (t : Thread U) (v : ThreadView) : Prop :=
  ∀ key, σ.HashOf U t.id key → v.Empty key

theorem Storage.Kept.zrem_global (hv : σ.Kept U t v) (hcleared : σ.Cleared U t v)
    {ms : List Bytes} (h : σ.Acts U t (.zrem σ.globalKey ms) v r w) (hσ : Lawful σ U) :
    σ.Kept U t w ∧ σ.Cleared U t w ∧ w.locators = v.locators ∧
      ∀ m ∈ ms, σ.LocatorOf U t.id m → ¬w.globals m := by
  have hindex : ∀ key, σ.HashOf U t.id key → ∀ m, w.index key m → v.index key m :=
    fun key hkey m hm => ((h.index key hkey m).mp hm).1
  have hget : ∀ key, σ.HashOf U t.id key → ∀ f, w.get key f = none :=
    fun key hkey f => (h.get key hkey f).trans ((hcleared key hkey).1 f)
  have hlocators : w.locators = v.locators := OrderedSet.eq_of_members fun m =>
    (h.locators m).trans (and_iff_left fun hn =>
      (hσ.owned_ne_global (owned_locators t)) hn.1.symm)
  refine ⟨⟨fun m hm => hv.spaces m ((h.spaces m).mp hm), hlocators ▸ hv.locators,
    fun key hkey f b hb => ?_, fun key hkey m hm => absurd (hindex key hkey m hm)
      ((hcleared key hkey).2 m), fun m hm hg => hlocators ▸
      hv.globals m hm ((h.globals m hm).mp hg).1, fun key hkey id f b hf hb => ?_⟩,
    fun key hkey => ⟨hget key hkey, fun m hm => (hcleared key hkey).2 m (hindex key hkey m hm)⟩,
    hlocators, fun m hm hof hg => ((h.globals m hof).mp hg).2 ⟨rfl, hm⟩⟩
  · rw [hget key hkey] at hb
    cases hb
  · rw [hget key hkey] at hb
    cases hb

theorem Storage.Kept.zrem_locators (hv : σ.Kept U t v) (hcleared : σ.Cleared U t v)
    {ms : List Bytes} (hgone : ∀ m ∈ ms, σ.LocatorOf U t.id m → ¬v.globals m)
    (h : σ.Acts U t (.zrem (σ.locatorsKey t.id) ms) v r w) :
    σ.Kept U t w ∧ σ.Cleared U t w ∧ w.locators = v.locators.remove ms := by
  have hindex : ∀ key, σ.HashOf U t.id key → ∀ m, w.index key m → v.index key m :=
    fun key hkey m hm => ((h.index key hkey m).mp hm).1
  have hget : ∀ key, σ.HashOf U t.id key → ∀ f, w.get key f = none :=
    fun key hkey f => (h.get key hkey f).trans ((hcleared key hkey).1 f)
  have hlocators : w.locators = v.locators.remove ms := OrderedSet.eq_of_members fun m => by
    refine (h.locators m).trans (Iff.trans ?_ OrderedSet.mem_remove.symm)
    simp [KeyedDatabase.Command.indexes]
  refine ⟨⟨fun m hm => hv.spaces m ((h.spaces m).mp hm), fun m hm => ?_,
    fun key hkey f b hb => ?_, fun key hkey m hm => absurd (hindex key hkey m hm)
      ((hcleared key hkey).2 m), fun m hm hg => ?_, fun key hkey id f b hf hb => ?_⟩,
    fun key hkey => ⟨hget key hkey, fun m hm => (hcleared key hkey).2 m (hindex key hkey m hm)⟩,
    hlocators⟩
  · rw [hlocators] at hm
    exact hv.locators m (OrderedSet.mem_remove.mp hm).1
  · rw [hget key hkey] at hb
    cases hb
  · have hold := ((h.globals m hm).mp hg).1
    rw [hlocators]
    exact OrderedSet.mem_remove.mpr ⟨hv.globals m hm hold, fun hin => hgone m hin hm hold⟩
  · rw [hget key hkey] at hb
    cases hb

/-- Nothing is left of the thread. -/
structure Storage.Gone (σ : Storage) (U : Set (Str × Str)) (t : Thread U) (v : ThreadView) :
    Prop where
  cleared : σ.Cleared U t v
  spaces : ∀ m, ¬v.spaces m
  locators : v.locators = .empty
  globals : ∀ m, σ.LocatorOf U t.id m → ¬v.globals m

theorem Storage.Kept.del_catalogs (hv : σ.Kept U t v) (hcleared : σ.Cleared U t v)
    (hempty : v.locators = .empty)
    (h : σ.Acts U t (.del [σ.spacesKey t.id, σ.locatorsKey t.id]) v r w) :
    σ.Kept U t w ∧ σ.Gone U t w := by
  have hindex : ∀ key, σ.HashOf U t.id key → ∀ m, w.index key m → v.index key m :=
    fun key hkey m hm => ((h.index key hkey m).mp hm).1
  have hget : ∀ key, σ.HashOf U t.id key → ∀ f, w.get key f = none := by
    intro key hkey f
    rw [h.get key hkey, (hcleared key hkey).1 f]
    exact ite_self none
  have hspaces : ∀ m, ¬w.spaces m := fun m hm => ((h.spaces m).mp hm).2 (by simp)
  have hlocators : w.locators = .empty := OrderedSet.eq_of_members fun m =>
    ⟨fun hm => absurd (by simp) ((h.locators m).mp hm).2,
      fun hm => absurd hm (OrderedSet.not_mem_empty m)⟩
  have hglobals : ∀ m, σ.LocatorOf U t.id m → ¬w.globals m := by
    intro m hm hg
    have hin := hv.globals m hm ((h.globals m hm).mp hg).1
    rw [hempty] at hin
    exact OrderedSet.not_mem_empty m hin
  have hnone : σ.Cleared U t w := fun key hkey =>
    ⟨hget key hkey, fun m hm => (hcleared key hkey).2 m (hindex key hkey m hm)⟩
  refine ⟨⟨fun m hm => absurd hm (hspaces m), fun m hm => ?_, fun key hkey f b hb => ?_,
    fun key hkey m hm => absurd hm ((hnone key hkey).2 m),
    fun m hm hg => absurd hg (hglobals m hm), fun key hkey id f b hf hb => ?_⟩,
    hnone, hspaces, hlocators, hglobals⟩
  · rw [hlocators] at hm
    exact absurd hm (OrderedSet.not_mem_empty m)
  · rw [hget key hkey] at hb
    cases hb
  · rw [hget key hkey] at hb
    cases hb

end Steps

section Plans

variable {σ : Storage} {U : Set (Str × Str)} {scanner : Scanner Str Bytes Str} {t : Thread U}
  {v : ThreadView}

theorem put_safe (hσ : Lawful σ U) {config : Config} (hused : σ.Uses U config)
    (ht : ∀ p, σ.identity config = .ok p → p.1 = t.id) (checkpoint metadata : Dict Key Value)
    (hv : σ.Kept U t v) :
    Safe (σ.guarding U scanner) {t} t (σ.Kept U t) (fun _ _ => True)
      (σ.put config checkpoint metadata) v := by
  have hlock : t ∈ ({t} : Set (Thread U)) := Set.mem_singleton t
  refine Safe.lift hv (fun r hr => ?_) fun _ _ => trivial
  have hid : r.threadId = t.id := ht _ (record_ok hr)
  have hU : (t.id, r.checkpointNs) ∈ U := hid ▸ hused _ (record_ok hr)
  rw [hid]
  refine Safe.lift hv (fun key hkey => ?_) fun _ _ => trivial
  have hhash : σ.HashOf U t.id key := ⟨_, hU, hkey⟩
  have hhashOwned := owned_hash hhash
  have hindexOwned := owned_index hhash
  refine Safe.lift hv (fun locator hlocator => ?_) fun _ _ => trivial
  have hof : σ.LocatorOf U t.id locator := ⟨_, _, hhash, hlocator⟩
  refine Safe.lift hv (fun catalog hcatalog => ?_) fun _ _ => trivial
  obtain rfl : σ.spacesKey t.id = catalog := Except.ok.inj ((spaces_key t).symm.trans hcatalog)
  refine Safe.command (hσ.permitted_own hlock (.inr ⟨_, _, hhash, hcatalog, rfl⟩)
    (List.forall_mem_singleton.mpr (owned_spaces t))) hv fun _ v₁ h₁ => ?_
  obtain ⟨k₁, hspaces₁⟩ := hv.sadd hhash h₁
  refine ⟨k₁, Safe.lift k₁ (fun locators hlocators => ?_) fun _ _ => trivial⟩
  obtain rfl : σ.locatorsKey t.id = locators :=
    Except.ok.inj ((locators_key t).symm.trans hlocators)
  refine Safe.command (hσ.permitted_own hlock (.inr (.inr ⟨_, hof, .inl hlocators⟩))
    (List.forall_mem_singleton.mpr (owned_locators t))) k₁ fun _ v₂ h₂ => ?_
  obtain ⟨k₂, hlocators₂⟩ := k₁.zadd_locators hσ hof h₂
  have hspaces₂ := (h₂.spaces _).mpr hspaces₁
  refine ⟨k₂, Safe.command (hσ.permitted_global hlock (.inr (.inr ⟨_, hof, .inr rfl⟩)) rfl
    fun m hm => hm.2 ▸ hof) k₂ fun _ v₃ h₃ => ?_⟩
  obtain ⟨k₃, hglobals₃⟩ := k₂.zadd_global hσ hlocators₂ h₃
  have hspaces₃ := (h₃.spaces _).mpr hspaces₂
  refine ⟨k₃, Safe.command (hσ.permitted_own hlock
    (.inr (.inl ⟨_, _, _, hhash, (storedLocator_ok hlocator).1, rfl, rfl⟩))
    (List.forall_mem_singleton.mpr hindexOwned)) k₃ fun _ v₄ h₄ => ?_⟩
  obtain ⟨k₄, hindex₄⟩ := k₃.zadd_index hσ hhash hspaces₃ h₄
  have hspaces₄ := (h₄.spaces _).mpr hspaces₃
  have hglobals₄ := (h₄.globals _ hof).mpr (indexes_grows rfl hglobals₃)
  refine ⟨k₄, Safe.lift k₄ (fun descriptor _ => ?_) fun _ _ => trivial⟩
  refine Safe.lift k₄ (fun name hname => ?_) fun _ _ => trivial
  refine Safe.lift k₄ (fun value hvalue => ?_) fun _ _ => trivial
  refine Safe.command (hσ.permitted_own hlock (.inr fun x hx => ?_)
    (List.forall_mem_singleton.mpr hhashOwned)) k₄ fun _ v₅ h₅ => ?_
  · rcases List.mem_cons.mp hx with rfl | hx
    · exact ⟨_, _, hU, hkey, .descriptor _⟩
    · obtain rfl := List.mem_singleton.mp hx
      exact ⟨_, _, hU, hkey, .record hid rfl hname hvalue⟩
  have k₅ : σ.Kept U t v₅ := by
    refine k₄.write h₅ (.inl ⟨_, rfl⟩) hspaces₄ fun f hf id hfield => ?_
    obtain ⟨-, x, hx, rfl⟩ := hf
    rcases List.mem_cons.mp hx with rfl | hx
    · exact nomatch HashField.name_inj (f := .checkpoint id) (g := .descriptor) hfield rfl
    · obtain rfl := List.mem_singleton.mp hx
      have hsame := HashField.name_inj (f := .checkpoint id) (g := .checkpoint r.checkpointId)
        hfield hname
      obtain rfl := HashField.checkpoint.inj hsame
      exact ⟨hindex₄, locator, hlocator, hof, hglobals₄⟩
  exact ⟨k₅, Safe.finish k₅ trivial⟩

theorem putEntries_safe (hσ : Lawful σ U) {ns key id : Str} (hU : (t.id, ns) ∈ U)
    (hkey : threadKey σ.sha256 σ.keyPrefix t.id ns = .ok key) (ws : List WriteEntry)
    (hv : σ.Kept U t v) (hspaces : v.spaces (utf8 key)) :
    Safe (σ.guarding U scanner) {t} t (σ.Kept U t) (fun _ _ => True) (σ.putEntries key id ws)
      v := by
  induction ws generalizing v with
  | nil => exact Safe.finish hv trivial
  | cons w ws ih =>
    refine Safe.lift hv (fun c hc => ?_) fun _ _ => trivial
    have hgenuine := writeCommand_genuine hU hkey hc
    obtain ⟨name, value, hname, -, hcommand⟩ := writeCommand_ok hc
    have hkind : (∃ fields, c = .hset key fields) ∨ ∃ f b, c = .hsetnx key f b := by
      rw [hcommand]
      split_ifs
      · exact .inl ⟨_, rfl⟩
      · exact .inr ⟨_, _, rfl⟩
    have hwritten : written c = [key] := by
      rcases hkind with ⟨_, rfl⟩ | ⟨_, _, rfl⟩ <;> rfl
    have hwrites : ∀ f, c.writesAt key f → f = name := by
      intro f hf
      rw [hcommand] at hf
      split_ifs at hf
      · obtain ⟨-, x, hx, rfl⟩ := hf
        rw [List.mem_singleton.mp hx]
      · exact hf.2.symm
    refine Safe.command (hσ.permitted_own (Set.mem_singleton t) (.inr hgenuine) ?_) hv
      fun _ u h => ?_
    · rw [hwritten]
      exact List.forall_mem_singleton.mpr (owned_hash ⟨ns, hU, hkey⟩)
    have hu : σ.Kept U t u := by
      refine hv.write h hkind hspaces fun f hf id' hfield => ?_
      rw [hwrites f hf] at hfield
      exact nomatch HashField.name_inj (f := .checkpoint id') (g := .write id w.taskId w.index)
        hfield hname
    refine ⟨hu, ih hu ((h.spaces _).mpr (lists_grows ?_ hspaces))⟩
    rcases hkind with ⟨_, rfl⟩ | ⟨_, _, rfl⟩ <;> rfl

theorem putWrites_safe (hσ : Lawful σ U) {config : Config} (hused : σ.Uses U config)
    (ht : ∀ p, σ.identity config = .ok p → p.1 = t.id) (writes : List (Str × Value))
    (taskId taskPath : Str) (hv : σ.Kept U t v) :
    Safe (σ.guarding U scanner) {t} t (σ.Kept U t) (fun _ _ => True)
      (σ.putWrites config writes taskId taskPath) v := by
  have hlock : t ∈ ({t} : Set (Thread U)) := Set.mem_singleton t
  refine Safe.lift hv (fun p hp => ?_) fun _ _ => trivial
  obtain ⟨s, ns⟩ := p
  obtain rfl : s = t.id := ht _ hp
  have hU := hused _ hp
  cases σ.checkpointId config with
  | none => exact Safe.finish hv trivial
  | some id =>
    refine Safe.lift hv (fun key hkey => ?_) fun _ _ => trivial
    have hhash : σ.HashOf U t.id key := ⟨ns, hU, hkey⟩
    refine Safe.lift hv (fun catalog hcatalog => ?_) fun _ _ => trivial
    obtain rfl : σ.spacesKey t.id = catalog := Except.ok.inj ((spaces_key t).symm.trans hcatalog)
    refine Safe.command (hσ.permitted_own hlock (.inr ⟨_, _, hhash, hcatalog, rfl⟩)
      (List.forall_mem_singleton.mpr (owned_spaces t))) hv fun _ v₁ h₁ => ?_
    obtain ⟨k₁, hspaces₁⟩ := hv.sadd hhash h₁
    refine ⟨k₁, Safe.lift k₁ (fun descriptor _ => ?_) fun _ _ => trivial⟩
    refine Safe.command (hσ.permitted_own hlock (.inr ⟨_, _, hU, hkey, .descriptor _⟩)
      (List.forall_mem_singleton.mpr (owned_hash hhash))) k₁ fun _ v₂ h₂ => ?_
    have k₂ : σ.Kept U t v₂ := by
      refine k₁.write h₂ (.inr ⟨_, _, rfl⟩) hspaces₁ fun f hf id' hfield => ?_
      obtain rfl : descriptorField = f := hf.2
      exact nomatch HashField.name_inj (f := .checkpoint id') (g := .descriptor) hfield rfl
    exact ⟨k₂, putEntries_safe hσ hU hkey _ k₂ ((h₂.spaces _).mpr hspaces₁)⟩

/-- The hashes of the list go, and what is empty stays empty. -/
theorem deleteKeys_safe (hσ : Lawful σ U) {keys : List Str}
    (hkeys : ∀ key ∈ keys, σ.HashOf U t.id key)
    (hrest : ∀ key, σ.HashOf U t.id key → key ∈ keys ∨ v.Empty key) (hv : σ.Kept U t v)
    {n : ℕ} (hn : v.locators.members.length < n) :
    Safe (σ.guarding U scanner) {t} t (σ.Kept U t)
      (fun r w => r = .ok () ∧ σ.Cleared U t w ∧ w.locators.members.length < n)
      (Storage.deleteKeys keys) v := by
  induction keys generalizing v with
  | nil => exact Safe.finish hv ⟨rfl, fun key hkey =>
      (hrest key hkey).resolve_left List.not_mem_nil, hn⟩
  | cons key keys ih =>
    have hkey := hkeys key List.mem_cons_self
    refine Safe.command (hσ.permitted_own (Set.mem_singleton t) (.inl rfl) ?_) hv fun _ w h => ?_
    · intro k hk
      rcases List.mem_cons.mp hk with rfl | hk
      · exact owned_hash hkey
      · exact List.mem_singleton.mp hk ▸ owned_index hkey
    obtain ⟨hw, hempty, hkeep⟩ := hv.del_hash hσ hkey h
    refine ⟨hw, ih (fun k hk => hkeys k (List.mem_cons_of_mem key hk)) (fun k hk => ?_) hw ?_⟩
    · rcases hrest k hk with hin | hold
      · rcases List.mem_cons.mp hin with rfl | hin
        · exact .inr hempty
        · exact .inl hin
      · exact .inr (hkeep k hk hold)
    · have hsame : w.locators = v.locators := OrderedSet.eq_of_members fun m =>
        (h.locators m).trans (and_iff_left (by
          simp [(hσ.locators_ne hkey).1, (hσ.locators_ne hkey).2]))
      rwa [hsame]

/-- Every page takes some locators, so the loop ends. -/
theorem drainLocators_safe (hσ : Lawful σ U) {fuel : ℕ} (hv : σ.Kept U t v)
    (hcleared : σ.Cleared U t v) (hfuel : v.locators.members.length < fuel) :
    Safe (σ.guarding U scanner) {t} t (σ.Kept U t)
      (fun r w => r = .ok () ∧ σ.Cleared U t w ∧ w.locators = .empty)
      (σ.drainLocators (σ.locatorsKey t.id) fuel) v := by
  induction fuel generalizing v with
  | zero => omega
  | succ fuel ih =>
    have hlock : t ∈ ({t} : Set (Thread U)) := Set.mem_singleton t
    refine Safe.command (hσ.permitted_own hlock (.inr rfl) fun _ h => (nomatch h)) hv
      fun r w h => ?_
    obtain rfl : w = v := acts_frame t _ _ _ _
      (fun hn => hn.elim (fun ⟨_, hin, _⟩ => (nomatch hin)) fun ⟨_, _, hin⟩ => hin) h
    obtain rfl := h.range _ _ rfl
    refine ⟨hv, ?_⟩
    have hpage : slice 0 ((σ.scanCount : ℤ)-1) w.locators.members =
        w.locators.members.take σ.scanCount := by
      have hslice := slice_page w.locators.members 0 σ.scanCount_pos
      simpa using hslice
    rw [hpage]
    refine Safe.lift hv (fun ms hms => ?_) fun _ h => (nomatch h)
    cases hms
    by_cases hempty : w.locators.members.take σ.scanCount = []
    · rw [if_pos hempty]
      refine Safe.finish hv ⟨rfl, hcleared, OrderedSet.eq_of_members fun m => ?_⟩
      have hnone : w.locators.members = [] := by
        rcases List.take_eq_nil_iff.mp hempty with h | h
        · exact absurd h σ.scanCount_pos.ne'
        · exact h
      rw [OrderedSet.mem_def, hnone]
      rfl
    · rw [if_neg hempty]
      have hms : ∀ m ∈ w.locators.members.take σ.scanCount, σ.LocatorOf U t.id m :=
        fun m hm => hv.locators m (List.mem_of_mem_take hm)
      refine Safe.command (hσ.permitted_global hlock (.inl rfl) rfl fun m hm => hms m hm.2) hv
        fun _ w₁ h₁ => ?_
      obtain ⟨k₁, hcleared₁, hlocators₁, hglobals₁⟩ := hv.zrem_global hcleared h₁ hσ
      refine ⟨k₁, Safe.command (hσ.permitted_own hlock (.inl rfl)
        (List.forall_mem_singleton.mpr (owned_locators t))) k₁ fun _ w₂ h₂ => ?_⟩
      obtain ⟨k₂, hcleared₂, hlocators₂⟩ := k₁.zrem_locators hcleared₁ hglobals₁ h₂
      refine ⟨k₂, ih k₂ hcleared₂ ?_⟩
      obtain ⟨m, hm⟩ := List.exists_mem_of_ne_nil _ hempty
      have hless : w₂.locators.members.length < w.locators.members.length := by
        rw [hlocators₂, hlocators₁]
        refine List.length_filter_lt_length_iff_exists.mpr ⟨m, List.mem_of_mem_take hm, ?_⟩
        simpa using hm
      omega

theorem deleteThread_safe (hσ : Lawful σ U) {threadId : Value} {fuel : ℕ}
    (ht : σ.text "thread_id" threadId = .ok t.id) (hv : σ.Kept U t v)
    (hfuel : v.locators.members.length < fuel) :
    Safe (σ.guarding U scanner) {t} t (σ.Kept U t) (fun r w => r = .ok () ∧ σ.Gone U t w)
      (σ.deleteThread fuel threadId) v := by
  have hlock : t ∈ ({t} : Set (Thread U)) := Set.mem_singleton t
  rw [Storage.deleteThread, ht, Plan.lift_bind]
  simp only
  rw [locators_key, Plan.lift_bind]
  simp only
  refine Safe.bind (P := fun r w => w = v ∧ ∃ keys, r = .ok keys ∧
    (∀ key ∈ keys, σ.HashOf U t.id key) ∧ ∀ key, v.spaces (utf8 key) → key ∈ keys) ?_ ?_ ?_
  · rw [Storage.threadKeys, spaces_key]
    rw [Plan.lift_bind]
    simp only
    refine Safe.command (hσ.permitted_own hlock (.inr rfl) fun _ h => (nomatch h)) hv
      fun r w h => ?_
    obtain rfl : w = v := acts_frame t _ _ _ _
      (fun hn => hn.elim (fun ⟨_, hin, _⟩ => (nomatch hin)) fun ⟨_, _, hin⟩ => hin) h
    obtain ⟨ms, rfl, hms⟩ := h.members rfl
    obtain ⟨keys, hkeys⟩ := @exists_forall₂ _ _ (fun m key => σ.HashOf U t.id key ∧
      m = utf8 key) ms fun m hm => hv.spaces m ((hms m).mp hm)
    have htexts : (ms.mapM fun b => σ.text "thread checkpoint key" (.bytes b)) = .ok keys := by
      clear hms h
      induction hkeys with
      | nil => rfl
      | @cons m key ms keys hm _ ih =>
        obtain ⟨⟨ns, -, hkey⟩, rfl⟩ := hm
        rw [List.mapM_cons, ih]
        have htext : σ.text "thread checkpoint key" (.bytes (utf8 key)) = .ok key := by
          rw [Storage.text, decode_utf8 (hσ.key_text hkey).1]
          rfl
        rw [htext]
        rfl
    refine ⟨hv, ?_⟩
    simp only [rangeMembers, Plan.lift_bind, htexts]
    refine Safe.finish hv ⟨rfl, _, rfl, fun key hkey => ?_, fun key hkey => ?_⟩
    · obtain ⟨m, -, hm⟩ := forall₂_mem_right hkeys (List.mem_mergeSort.mp hkey)
      exact hm.1
    · obtain ⟨key', hkey', -, heq⟩ := forall₂_mem_left hkeys ((hms _).mpr hkey)
      exact List.mem_mergeSort.mpr (utf8_inj heq ▸ hkey')
  · rintro keys w hw ⟨rfl, keys', hresult, hhashes, hall⟩
    cases hresult
    refine Safe.bind (deleteKeys_safe hσ hhashes (fun key hkey => ?_) hw hfuel) ?_ ?_
    · by_cases hspaces : w.spaces (utf8 key)
      · exact .inl (hall key hspaces)
      · refine .inr ⟨fun f => Option.eq_none_iff_forall_ne_some.mpr fun b hb =>
          hspaces (hw.hashes key hkey f b hb), fun m hm => hspaces (hw.indexes key hkey m hm)⟩
    · rintro - w₁ k₁ ⟨-, hcleared, hcount⟩
      refine Safe.bind (drainLocators_safe hσ k₁ hcleared hcount) ?_ ?_
      · rintro - w₂ k₂ ⟨-, hcleared₂, hempty⟩
        rw [spaces_key]
        refine Safe.command (hσ.permitted_own hlock (.inl rfl) fun k hk => ?_) k₂ fun _ w₃ h₃ => ?_
        · rcases List.mem_cons.mp hk with rfl | hk
          · exact owned_spaces t
          · exact List.mem_singleton.mp hk ▸ owned_locators t
        obtain ⟨k₃, hgone⟩ := k₂.del_catalogs hcleared₂ hempty h₃
        exact ⟨k₃, Safe.finish k₃ ⟨rfl, hgone⟩⟩
      · rintro e w - ⟨h, -⟩
        cases h
    · rintro e w - ⟨h, -⟩
      cases h
  · rintro e w - ⟨-, keys, h, -⟩
    cases h

end Plans

section Histories

variable (σ : Storage) (U : Set (Str × Str)) (scanner : Scanner Str Bytes Str)

/-- The calls that change the store; the fuel of a deletion bounds its loop. -/
inductive SaverCall where
  | put (config : Config) (checkpoint metadata : Dict Key Value)
  | putWrites (config : Config) (writes : List (Str × Value)) (taskId taskPath : Str)
  | deleteThread (threadId : Value) (fuel : ℕ)

def Storage.threadOf : SaverCall → Except StorageError Str
  | .put config .. | .putWrites config .. => Prod.fst <$> σ.identity config
  | .deleteThread threadId _ => σ.text "thread_id" threadId

/-- The thread whose lock a call holds. -/
def Storage.locks (o : SaverCall) : Set (Thread U) := { t | σ.threadOf o = .ok t.id }

def Storage.plan : SaverCall → StorePlan Unit
  | .put config checkpoint metadata => do
    let _ ← σ.put config checkpoint metadata
    pure ()
  | .putWrites config writes taskId taskPath => σ.putWrites config writes taskId taskPath
  | .deleteThread threadId fuel => σ.deleteThread fuel threadId

/-- A call is on a thread in use, and a deletion has fuel for the locators of its thread. -/
def Storage.admits (o : SaverCall) (db : Db) : Prop :=
  match o with
  | .put config .. | .putWrites config .. => σ.Uses U config
  | .deleteThread threadId fuel => ∀ t, σ.text "thread_id" threadId = .ok t →
    (∃ ns, (t, ns) ∈ U) ∧ ∀ locators,
      threadLocatorCatalogKey σ.sha256 σ.keyPrefix t = .ok locators →
        (db.zsets locators).members.length < fuel

abbrev History := CommandPlans.Config Db Cmd Answer StorageError Unit SaverCall

/-- One step of a call: it starts while no other call holds its thread, asks for a command, has
it executed, goes on or stops. -/
def Storage.Step (o : SaverCall) (a b : History) : Prop :=
  JobStep (σ.guarding U scanner) σ.plan (σ.locks U) (σ.admits U) o a b

/-- What the steps of any calls reach from an empty database. -/
def Storage.Reachable (a : History) : Prop :=
  Relation.ReflTransGen (fun a b => ∃ o, σ.Step U scanner o a b) ⟨Database.empty, []⟩ a

/-- What a call that ends leaves. -/
def Storage.Leaves (o : SaverCall) (t : Thread U) (result : Except StorageError Unit)
    (w : ThreadView) : Prop :=
  ∀ threadId fuel, o = .deleteThread threadId fuel → result = .ok () ∧ σ.Gone U t w

variable {σ U scanner}

theorem threadKey_text {t ns key : Str} (h : threadKey σ.sha256 σ.keyPrefix t ns = .ok key) :
    encodable t = true := by
  obtain ⟨identity, hidentity, -⟩ := except_bind_eq_ok h
  obtain ⟨_, -, hidentity⟩ := except_bind_eq_ok hidentity
  obtain ⟨b, hb, -⟩ := except_bind_eq_ok hidentity
  exact (payload_ok hb).1

theorem locatorsKey_text {t key : Str}
    (h : threadLocatorCatalogKey σ.sha256 σ.keyPrefix t = .ok key) : encodable t = true := by
  obtain ⟨_, h, -⟩ := except_bind_eq_ok h
  obtain ⟨_, h, -⟩ := except_bind_eq_ok h
  obtain ⟨b, hb, -⟩ := except_bind_eq_ok h
  exact (payload_ok hb).1

theorem threadOf_identity {config : Config} {p : Str × Str} {s : Str}
    (h : Prod.fst <$> σ.identity config = .ok s) (hp : σ.identity config = .ok p) : p.1 = s := by
  rw [hp] at h
  exact Except.ok.inj h

/-- A call that holds no lock asks for nothing. -/
theorem idle_call {o : SaverCall} {db : Db} (hadmits : σ.admits U o db) (hidle : σ.locks U o = ∅) :
    Asks (Free (σ.guarding U scanner)) (fun _ => True) (σ.plan o) := by
  have hnone : ∀ s ns, σ.threadOf o = .ok s → (s, ns) ∈ U → encodable s ≠ true := by
    intro s ns ho hU htext
    have hmem : (⟨s, htext, ns, hU⟩ : Thread U) ∈ σ.locks U o := ho
    rw [hidle] at hmem
    exact hmem
  cases o with
  | put config checkpoint metadata =>
    refine Asks.bind (A := fun _ => True) ?_ fun _ _ => Asks.pure trivial
    refine Asks.bind (Asks.lift _) fun r hr => ?_
    refine Asks.bind (Asks.lift _) fun key hkey => (hnone r.threadId r.checkpointNs ?_
      (hadmits _ (record_ok hr)) (threadKey_text hkey)).elim
    rw [Storage.threadOf, record_ok hr]
    rfl
  | putWrites config writes taskId taskPath =>
    refine Asks.bind (Asks.lift _) fun p hp => ?_
    obtain ⟨s, ns⟩ := p
    cases σ.checkpointId config with
    | none => exact fun a ha => (nomatch ha)
    | some id =>
      refine Asks.bind (Asks.lift _) fun key hkey => (hnone s ns ?_ (hadmits _ hp)
        (threadKey_text hkey)).elim
      rw [Storage.threadOf, hp]
      rfl
  | deleteThread threadId fuel =>
    refine Asks.bind (Asks.lift _) fun s hs => ?_
    obtain ⟨ns, hU⟩ := (hadmits s hs).1
    exact Asks.bind (Asks.lift _) fun key hkey =>
      (hnone s ns hs hU (locatorsKey_text hkey)).elim

theorem calls_start (hσ : Lawful σ U) : Starts (σ.guarding U scanner) σ.plan (σ.locks U)
    (σ.admits U) (σ.Kept U) (σ.Leaves U) := by
  intro o db hadmits _ hgood
  refine ⟨fun t ht => ?_, fun hidle => idle_call hadmits hidle⟩
  have hlocks : σ.locks U o = {t} := by
    refine Set.eq_singleton_iff_unique_mem.mpr ⟨ht, fun t' ht' => Thread.ext ?_⟩
    exact Except.ok.inj (ht'.symm.trans ht)
  change Safe _ (σ.locks U o) t (σ.Kept U t) _ (σ.plan o) (σ.view U t db)
  rw [hlocks]
  have hv := hgood t
  cases o with
  | put config checkpoint metadata =>
    refine Safe.bind (put_safe hσ hadmits (fun p hp => threadOf_identity ht hp) checkpoint
      metadata hv) (fun _ w hw _ => Safe.finish hw ?_) fun e w _ _ => ?_
    · exact fun _ _ h => (nomatch h)
    · exact fun _ _ h => (nomatch h)
  | putWrites config writes taskId taskPath =>
    exact (putWrites_safe hσ hadmits (fun p hp => threadOf_identity ht hp) writes taskId taskPath
      hv).mono fun _ _ _ _ _ h => (nomatch h)
  | deleteThread threadId fuel =>
    refine (deleteThread_safe hσ ht hv ((hadmits t.id ht).2 _ (locators_key t))).mono ?_
    rintro r w h _ _ -
    exact h

theorem empty_kept (t : Thread U) : σ.Kept U t (σ.view U t Database.empty) where
  spaces m hm := absurd hm (OrderedSet.not_mem_empty m)
  locators m hm := absurd hm (OrderedSet.not_mem_empty m)
  hashes key hkey f b hb := by
    simp only [Storage.view, if_pos hkey] at hb
    cases hb
  indexes key hkey m hm := absurd hm.2 (OrderedSet.not_mem_empty m)
  globals m _ hm := absurd hm.2 (OrderedSet.not_mem_empty m)
  records key hkey id f b _ hb := by
    simp only [Storage.view, if_pos hkey] at hb
    cases hb

theorem Storage.Reachable.orderly (hσ : Lawful σ U) {a : History} (h : σ.Reachable U scanner a) :
    Orderly (σ.guarding U scanner) (σ.locks U) (σ.Kept U) (σ.Leaves U) a := by
  have hstart : Orderly (σ.guarding U scanner) (σ.locks U) (σ.Kept U) (σ.Leaves U)
      (⟨Database.empty, []⟩ : History) :=
    ⟨empty_sane, empty_kept, .nil, fun j hj => absurd hj List.not_mem_nil⟩
  exact Orderly.reached (calls_start hσ) hstart h

variable (σ U)

/-- Every place that leads to the checkpoint in the hash has it. -/
def Storage.Published (db : Db) (t key id : Str) : Prop :=
  ∃ locator locators spaces, storedLocator id key = .ok locator ∧
    threadLocatorCatalogKey σ.sha256 σ.keyPrefix t = .ok locators ∧
    threadCatalogKey σ.sha256 σ.keyPrefix t = .ok spaces ∧
    utf8 id ∈ db.zsets (checkpointIndexKey key) ∧
    locator ∈ db.zsets (CheckpointKeys.catalogKey σ.keyPrefix) ∧ locator ∈ db.zsets locators ∧
    utf8 key ∈ db.sets spaces

/-- The database has nothing of the thread. -/
def Storage.Forgotten (db : Db) (t : Str) : Prop :=
  (∀ key, σ.HashOf U t key →
    (∀ f, db.get key f = none) ∧ db.zsets (checkpointIndexKey key) = .empty) ∧
  (∀ m ∈ db.zsets (CheckpointKeys.catalogKey σ.keyPrefix), ¬σ.LocatorOf U t m) ∧
  (∀ spaces, threadCatalogKey σ.sha256 σ.keyPrefix t = .ok spaces → db.sets spaces = .empty) ∧
  ∀ locators, threadLocatorCatalogKey σ.sha256 σ.keyPrefix t = .ok locators →
    db.zsets locators = .empty

/-- The databases have the same of the thread. -/
def Storage.Unchanged (db db' : Db) (t : Str) : Prop :=
  (∀ key, σ.HashOf U t key → (∀ f, db'.get key f = db.get key f) ∧
    db'.zsets (checkpointIndexKey key) = db.zsets (checkpointIndexKey key)) ∧
  (∀ m, σ.LocatorOf U t m → (m ∈ db'.zsets (CheckpointKeys.catalogKey σ.keyPrefix) ↔
    m ∈ db.zsets (CheckpointKeys.catalogKey σ.keyPrefix))) ∧
  (∀ spaces, threadCatalogKey σ.sha256 σ.keyPrefix t = .ok spaces →
    db'.sets spaces = db.sets spaces) ∧
  ∀ locators, threadLocatorCatalogKey σ.sha256 σ.keyPrefix t = .ok locators →
    db'.zsets locators = db.zsets locators

variable {σ U}

theorem spaces_key_eq {t : Thread U} {k : Str}
    (h : threadCatalogKey σ.sha256 σ.keyPrefix t.id = .ok k) : σ.spacesKey t.id = k :=
  Except.ok.inj ((spaces_key t).symm.trans h)

theorem locators_key_eq {t : Thread U} {k : Str}
    (h : threadLocatorCatalogKey σ.sha256 σ.keyPrefix t.id = .ok k) : σ.locatorsKey t.id = k :=
  Except.ok.inj ((locators_key t).symm.trans h)

theorem Storage.Gone.forgotten {t : Thread U} {db : Db} (h : σ.Gone U t (σ.view U t db)) :
    σ.Forgotten U db t.id := by
  refine ⟨fun key hkey => ⟨fun f => ?_, OrderedSet.eq_of_members fun m => ?_⟩, fun m hm hof =>
    h.globals m hof ⟨hof, hm⟩, fun spaces hspaces => OrderedSet.eq_of_members fun m => ?_,
    fun locators hlocators => locators_key_eq hlocators ▸ h.locators⟩
  · have hnone := (h.cleared key hkey).1 f
    simpa only [Storage.view, if_pos hkey] using hnone
  · exact ⟨fun hm => ((h.cleared key hkey).2 m ⟨hkey, hm⟩).elim,
      fun hm => absurd hm (OrderedSet.not_mem_empty m)⟩
  · rw [← spaces_key_eq hspaces]
    exact ⟨fun hm => (h.spaces m hm).elim, fun hm => absurd hm (OrderedSet.not_mem_empty m)⟩

theorem unchanged_of_view {t : Thread U} {db db' : Db} (h : σ.view U t db' = σ.view U t db) :
    σ.Unchanged U db db' t.id := by
  refine ⟨fun key hkey => ⟨fun f => ?_, OrderedSet.eq_of_members fun m => ?_⟩, fun m hof => ?_,
    fun spaces hspaces => OrderedSet.eq_of_members fun m => ?_, fun locators hlocators => ?_⟩
  · have hget := congrFun (congrFun (congrArg ThreadView.get h) key) f
    simpa only [Storage.view, if_pos hkey] using hget
  · have hindex := congrFun (congrFun (congrArg ThreadView.index h) key) m
    simpa only [Storage.view, hkey, true_and] using iff_of_eq hindex
  · have hglobals := congrFun (congrArg ThreadView.globals h) m
    simp only [Storage.view, hof, true_and] at hglobals
    exact iff_of_eq hglobals
  · rw [← spaces_key_eq hspaces]
    exact iff_of_eq (congrFun (congrArg ThreadView.spaces h) m)
  · rw [← locators_key_eq hlocators]
    exact congrArg ThreadView.locators h

/-- A field of a hash is in the hash of a thread in use. -/
theorem Storage.Sane.hash {db : Db} (h : σ.Sane U db) {key f : Str} {b : Bytes}
    (hb : db.get key f = some b) : ∃ (t : Thread U) (ns : Str), (t.id, ns) ∈ U ∧
      threadKey σ.sha256 σ.keyPrefix t.id ns = .ok key := by
  obtain ⟨t, ns, hU, hkey, -⟩ := h.cells key f b hb
  exact ⟨⟨t, threadKey_text hkey, ns, hU⟩, ns, hU, hkey⟩

theorem view_get {t : Thread U} {db : Db} {key : Str} (hkey : σ.HashOf U t.id key) (f : Str) :
    (σ.view U t db).get key f = db.get key f := if_pos hkey

/-- A record can be found on every way. -/
theorem Storage.Sane.published {db : Db} (hsane : σ.Sane U db)
    (hkept : ∀ t, σ.Kept U t (σ.view U t db)) {key id f : Str} {b : Bytes}
    (hf : checkpointField id = .ok f) (hb : db.get key f = some b) :
    ∃ t ns, (t, ns) ∈ U ∧ threadKey σ.sha256 σ.keyPrefix t ns = .ok key ∧
      σ.Published db t key id := by
  obtain ⟨t, ns, hU, hkey⟩ := hsane.hash hb
  have hhash : σ.HashOf U t.id key := ⟨ns, hU, hkey⟩
  have hfield := (view_get hhash f).trans hb
  obtain ⟨hindex, m, hm, hof, hglobal⟩ := (hkept t).records key hhash id f b hf hfield
  exact ⟨t.id, ns, hU, hkey, m, _, _, hm, locators_key t, spaces_key t, hindex.2, hglobal.2,
    (hkept t).globals m hof hglobal, (hkept t).hashes key hhash f b hfield⟩

end Histories

section Sample

def packText (s : String) : Bytes := UInt8.ofNat (0xA0+s.length)::utf8 (lit s)

def putConfig : Config :=
  [(.str (lit "configurable"), .dict [(.str (lit "thread_id"), .str (lit "a"))])]

def putCheckpoint : Dict Key Value := [(.str (lit "id"), .str (lit "1"))]

def putDescriptor : Value := .dict [
  (.str (lit "format_version"), .int 1),
  (.str (lit "thread_id"), .str (lit "a")),
  (.str (lit "checkpoint_ns"), .str [])]

def putRecord : Record := ⟨lit "a", [], lit "1", none, putCheckpoint, []⟩

def putDescriptorBytes : Bytes :=
  0x83::packText "format_version"++[0x01]++packText "thread_id"++packText "a"++
    packText "checkpoint_ns"++packText ""

def putRecordBytes : Bytes :=
  0x87::packText "format_version"++[0x01]++packText "thread_id"++packText "a"++
    packText "checkpoint_ns"++packText ""++packText "checkpoint_id"++packText "1"++
    packText "parent_checkpoint_id"++[0xC0]++packText "checkpoint"++[0x81]++packText "id"++
    packText "1"++packText "metadata"++[0x80]

/-- The libraries on one checkpoint of one thread: its digests and its packed text. -/
def putStorage : Storage where
  runtime := Runtime.ascii
  sha256 identity :=
    if identity = [97] then
      lit "ca978112ca1bbdcafac231b39a23dc4da786eff8147c4e72b9807785afee48bb"
    else if identity = [0, 0, 0, 0, 0, 0, 0, 1, 97, 0, 0, 0, 0, 0, 0, 0, 0] then
      lit "6aa98e17c109dd8e2ae23a478ceb48e193c730289ba48d741388a3cc8b38ef4f"
    else lit "e3b0c44298fc1c149afbf4c8996fb92427ae41e4649b934ca495991b7852b855"
  dumpsTyped v := if v.same putDescriptor then .ok (lit "msgpack", putDescriptorBytes)
    else if v.same putRecord.value then .ok (lit "msgpack", putRecordBytes)
    else .error (typeError "not serializable")
  loadsTyped typed := if typed.2 = putDescriptorBytes then .ok putDescriptor
    else if typed.2 = putRecordBytes then .ok putRecord.value
    else .error (valueError "unpack failed")
  writesIndex _ := none
  checkpointId _ := none
  checkpointMetadata _ metadata := metadata
  keyPrefix := lit "langgraph"
  scanCount := 256
  scanCount_pos := scanCount_default_pos

def putScanner : Scanner Str Bytes Str where
  selects pattern f := pattern.dropLast.isPrefixOf f
  page fields _ _ := (0, fields)

def putCall : SaverCall := .put putConfig putCheckpoint []

def putUsed : Set (Str × Str) := { (lit "a", []) }

theorem put_digest (b : Bytes) : encodable (putStorage.sha256 b) = true ∧
    (putStorage.sha256 b).length = 64 := by
  simp only [putStorage]
  split_ifs <;> decide +kernel

theorem put_lawful : Lawful putStorage putUsed := by
  have hne : putStorage.sha256 [97] ≠
      putStorage.sha256 [0, 0, 0, 0, 0, 0, 0, 1, 97, 0, 0, 0, 0, 0, 0, 0, 0] := by
    decide +kernel
  have hidentity : ∀ o ∈ objects putUsed, ∀ b, o.identity = .ok (some b) →
      b = [97] ∨ b = [0, 0, 0, 0, 0, 0, 0, 1, 97, 0, 0, 0, 0, 0, 0, 0, 0] := by
    have htext : payload (lit "a") = .ok [97] := by decide +kernel
    have hthread : threadIdentity (lit "a") [] =
        .ok [0, 0, 0, 0, 0, 0, 0, 1, 97, 0, 0, 0, 0, 0, 0, 0, 0] := by decide +kernel
    intro o ho b hb
    rcases ho with rfl | ⟨p, rfl, rfl | rfl | rfl | rfl⟩
    · cases hb
    · simp only [StorageObject.identity, htext, except_ok_bind] at hb
      cases hb
      exact .inl rfl
    · simp only [StorageObject.identity, htext, except_ok_bind] at hb
      cases hb
      exact .inl rfl
    · simp only [StorageObject.identity, hthread, except_ok_bind] at hb
      cases hb
      exact .inr rfl
    · simp only [StorageObject.identity, hthread, except_ok_bind] at hb
      cases hb
      exact .inr rfl
  refine ⟨by decide +kernel, fun b => (put_digest b).1, fun b => (put_digest b).2, ?_, ?_⟩
  · rintro b ⟨o, ho, hb⟩ c ⟨p, hp, hc⟩ heq
    rcases hidentity o ho b hb with rfl | rfl <;> rcases hidentity p hp c hc with rfl | rfl
    · rfl
    · exact absurd heq hne
    · exact absurd heq.symm hne
    · rfl
  · intro v typed h
    have hbytes : putRecordBytes ≠ putDescriptorBytes := by decide +kernel
    simp only [putStorage] at h
    split_ifs at h with hdescriptor hrecord
    · cases h
      rw [(Value.same_iff _ _).mp hdescriptor]
      simp only [putStorage, if_true]
    · cases h
      rw [(Value.same_iff _ _).mp hrecord]
      simp only [putStorage, if_neg hbytes, if_true]

theorem put_uses : putStorage.Uses putUsed putConfig := by
  have hidentity : putStorage.identity putConfig = .ok (lit "a", []) := by decide +kernel
  intro p hp
  rw [hidentity] at hp
  cases hp
  rfl

/-- The history of the put alone. -/
theorem put_reachable : putStorage.Reachable putUsed putScanner
    ⟨(run (exec putScanner) (putStorage.plan putCall) Database.empty).2,
      [⟨putCall, .ready (.finish
        (run (exec putScanner) (putStorage.plan putCall) Database.empty).1)⟩]⟩ := by
  refine Relation.ReflTransGen.head
    ⟨putCall, .start put_uses fun j hj => absurd hj List.not_mem_nil⟩ ?_
  exact Reached.of_run (M := putStorage.guarding putUsed putScanner) _ _

end Sample

end FerricStore.CheckpointStore
