import FerricStore.CheckpointStore

/-!
# What the checkpoint store holds

The commands of the store put under a key only what belongs there: records and pending
writes of one thread and namespace into their hash, ids of checkpoints into the index of
the hash, locators into the catalogs. A hash is scanned page by page, and what a pattern
selects of it are the pending writes of one checkpoint.
-/

set_option autoImplicit false

namespace FerricStore.CheckpointStore
open Text OrderedKeys StorageKeys CheckpointKeys CommandPlans KeyedDatabase
open MemoryStore (Db Cmd Answer StorePlan field isFormatVersion)

section Keys

/-- The objects of the threads and namespaces in use. -/
def objects (U : Set (Str × Str)) : Set StorageObject :=
  { o | o = .checkpointCatalog ∨ ∃ p ∈ U, o = .threadCatalog p.1 ∨ o = .threadLocators p.1 ∨
    o = .thread p.1 p.2 ∨ o = .checkpointIndex p.1 p.2 }

/-- Keys are text, the digest does not collide on what is in use, and the serializer reads
what it wrote. -/
structure Lawful (σ : Storage) (U : Set (Str × Str)) : Prop where
  prefix_text : encodable σ.keyPrefix = true
  digest_text : ∀ b, encodable (σ.sha256 b) = true
  digest_length : ∀ b, (σ.sha256 b).length = 64
  collisionFree : Set.InjOn σ.sha256 { b | ∃ o ∈ objects U, o.identity = .ok (some b) }
  roundTrip : ∀ v t, σ.dumpsTyped v = .ok t → σ.loadsTyped t = .ok v

variable {σ : Storage} {U : Set (Str × Str)}

theorem Lawful.key_inj (hσ : Lawful σ U) {o p : StorageObject} (ho : o ∈ objects U)
    (hp : p ∈ objects U) {k : Str} (h : o.key σ.sha256 σ.keyPrefix = .ok k)
    (h' : p.key σ.sha256 σ.keyPrefix = .ok k) : o = p :=
  StorageObject.key_inj hσ.digest_length hσ.collisionFree ho hp h h'

variable (σ U)

/-- A hash of the thread. -/
def Storage.HashOf (threadId key : Str) : Prop :=
  ∃ ns, (threadId, ns) ∈ U ∧ threadKey σ.sha256 σ.keyPrefix threadId ns = .ok key

/-- A locator of a checkpoint of the thread. -/
def Storage.LocatorOf (threadId : Str) (member : Bytes) : Prop :=
  ∃ key id, σ.HashOf U threadId key ∧ storedLocator id key = .ok member

variable {σ U} {t t' ns ns' key key' k : Str}

theorem Lawful.threadKey_inj (hσ : Lawful σ U) (hp : (t, ns) ∈ U) (hp' : (t', ns') ∈ U)
    (h : threadKey σ.sha256 σ.keyPrefix t ns = .ok key)
    (h' : threadKey σ.sha256 σ.keyPrefix t' ns' = .ok key) : t = t' ∧ ns = ns' := by
  have ho := hσ.key_inj (o := .thread t ns) (p := .thread t' ns')
    (.inr ⟨_, hp, .inr (.inr (.inl rfl))⟩) (.inr ⟨_, hp', .inr (.inr (.inl rfl))⟩) h h'
  exact ⟨(StorageObject.thread.inj ho).1, (StorageObject.thread.inj ho).2⟩

theorem Lawful.hash_thread (hσ : Lawful σ U) (h : σ.HashOf U t key) (h' : σ.HashOf U t' key) :
    t = t' := by
  obtain ⟨ns, hp, hk⟩ := h
  obtain ⟨ns', hp', hk'⟩ := h'
  exact (hσ.threadKey_inj hp hp' hk hk').1

theorem index_key {key : Str} (h : threadKey σ.sha256 σ.keyPrefix t ns = .ok key) :
    (StorageObject.checkpointIndex t ns).key σ.sha256 σ.keyPrefix =
      .ok (checkpointIndexKey key) := by
  rw [StorageObject.key, h]
  rfl

theorem checkpointIndexKey_inj (h : checkpointIndexKey key = checkpointIndexKey key') :
    key = key' :=
  List.append_cancel_right h

/-- An index of checkpoint ids is not a catalog of locators. -/
theorem Lawful.index_ne_locators (hσ : Lawful σ U) (h : σ.HashOf U t key) (ht : (t', ns') ∈ U)
    (h' : threadLocatorCatalogKey σ.sha256 σ.keyPrefix t' = .ok (checkpointIndexKey key)) :
    False := by
  obtain ⟨ns, hp, hk⟩ := h
  exact nomatch hσ.key_inj (o := .checkpointIndex t ns) (p := .threadLocators t')
    (.inr ⟨_, hp, .inr (.inr (.inr rfl))⟩) (.inr ⟨_, ht, .inr (.inl rfl)⟩) (index_key hk) h'

theorem Lawful.index_ne_global (hσ : Lawful σ U) (h : σ.HashOf U t key) :
    checkpointIndexKey key ≠ CheckpointKeys.catalogKey σ.keyPrefix := by
  intro heq
  obtain ⟨ns, hp, hk⟩ := h
  exact nomatch hσ.key_inj (o := .checkpointIndex t ns) (p := .checkpointCatalog)
    (.inr ⟨_, hp, .inr (.inr (.inr rfl))⟩) (.inl rfl) (index_key hk) (congrArg _ heq.symm)

theorem Lawful.locators_ne_global (hσ : Lawful σ U) (ht : (t, ns) ∈ U) :
    threadLocatorCatalogKey σ.sha256 σ.keyPrefix t ≠
      .ok (CheckpointKeys.catalogKey σ.keyPrefix) := by
  intro h
  exact nomatch hσ.key_inj (o := .threadLocators t) (p := .checkpointCatalog)
    (.inr ⟨_, ht, .inr (.inl rfl)⟩) (.inl rfl) h rfl

theorem Lawful.locators_inj (hσ : Lawful σ U) (ht : (t, ns) ∈ U) (ht' : (t', ns') ∈ U)
    (h : threadLocatorCatalogKey σ.sha256 σ.keyPrefix t = .ok k)
    (h' : threadLocatorCatalogKey σ.sha256 σ.keyPrefix t' = .ok k) : t = t' := by
  have ho := hσ.key_inj (o := .threadLocators t) (p := .threadLocators t')
    (.inr ⟨_, ht, .inr (.inl rfl)⟩) (.inr ⟨_, ht', .inr (.inl rfl)⟩) h h'
  exact StorageObject.threadLocators.inj ho

theorem Lawful.catalog_inj (hσ : Lawful σ U) (ht : (t, ns) ∈ U) (ht' : (t', ns') ∈ U)
    (h : threadCatalogKey σ.sha256 σ.keyPrefix t = .ok k)
    (h' : threadCatalogKey σ.sha256 σ.keyPrefix t' = .ok k) : t = t' := by
  have ho := hσ.key_inj (o := .threadCatalog t) (p := .threadCatalog t')
    (.inr ⟨_, ht, .inl rfl⟩) (.inr ⟨_, ht', .inl rfl⟩) h h'
  exact StorageObject.threadCatalog.inj ho

theorem Lawful.key_text (hσ : Lawful σ U) (h : threadKey σ.sha256 σ.keyPrefix t ns = .ok key) :
    encodable key = true ∧ key ≠ [] := by
  obtain ⟨b, -, h⟩ := except_bind_eq_ok h
  cases h
  have hhead : encodable (lit ":\x7blg:") = true := by decide
  have htail : encodable (lit "\x7d:thread") = true := by decide
  constructor
  · simp only [encodable, List.all_append, Bool.and_eq_true] at hhead htail ⊢
    exact ⟨⟨⟨hσ.prefix_text, hhead⟩, hσ.digest_text b⟩, htail⟩
  · simp [lit]

end Keys

section Serializing

variable {σ : Storage} {U : Set (Str × Str)}

theorem unpackTyped_packTyped {typed : Str × Bytes} {b : Bytes} (h : packTyped typed = .ok b) :
    unpackTyped b = .ok typed := by
  obtain ⟨encodedType, htype, h⟩ := except_bind_eq_ok h
  obtain ⟨hencodable, rfl⟩ := payload_ok htype
  split_ifs at h with hlength
  cases h
  have hcount : (BigEndian.encode 2 (utf8 typed.1).length).length = 2 :=
    BigEndian.encode_length 2 _
  have hdecode := BigEndian.decode_encode 2 (utf8 typed.1).length (by omega)
  have htake : (BigEndian.encode 2 (utf8 typed.1).length++utf8 typed.1++typed.2).take 2 =
      BigEndian.encode 2 (utf8 typed.1).length := by
    rw [List.append_assoc]
    exact List.take_left' hcount
  have hhead : (BigEndian.encode 2 (utf8 typed.1).length++utf8 typed.1).length =
      2+(utf8 typed.1).length := by
    rw [List.length_append, hcount]
  unfold unpackTyped
  rw [if_neg (by simp only [List.length_append, hcount]; omega), htake, hdecode]
  simp only
  rw [if_neg (by simp only [List.length_append, hcount]; omega), List.take_left' hhead,
    List.drop_left' hcount, decode_utf8 hencodable, List.drop_left' hhead]

theorem Lawful.deserialize_serialize (hσ : Lawful σ U) {v : Value} {b : Bytes}
    (h : σ.serialize v = .ok b) : σ.deserialize b = .ok v := by
  obtain ⟨typed, htyped, h⟩ := except_bind_eq_ok h
  rw [Storage.deserialize, unpackTyped_packTyped h]
  exact hσ.roundTrip v typed htyped

end Serializing

section Scanning

/-- Letters, digits and the marks `-`, `:` and `_`, which no glob gives a meaning. -/
def globSafe (c : CodePoint) : Bool :=
  (0x30 ≤ c.val && c.val ≤ 0x3A) || (0x41 ≤ c.val && c.val ≤ 0x5A) ||
    (0x61 ≤ c.val && c.val ≤ 0x7A) || c.val = 0x2D || c.val = 0x5F

/-- The pages of a scan from a cursor on. -/
def scanPages (scanner : Scanner Str Bytes Str) (fields : List (Str × Bytes)) (count : ℕ) :
    ℕ → ℕ → Option (List (Str × Bytes))
  | 0, _ => none
  | n+1, cursor =>
    let page := scanner.page fields cursor count
    if page.1 = 0 then some page.2
    else (scanPages scanner fields count n page.1).map (page.2++·)

/-- A scan ends, and its pages return each field once; a star after plain text selects
what begins with the text. -/
structure Faithful (scanner : Scanner Str Bytes Str) : Prop where
  selects_prefix : ∀ p f, p.all globSafe = true →
    (scanner.selects (p++lit "*") f = true ↔ p <+: f)
  complete : ∀ fields count, 0 < count →
    ∃ n items, scanPages scanner fields count n 0 = some items ∧ items.Perm fields

theorem digit_globSafe (n : ℕ) : globSafe (digit n) = true := by
  unfold globSafe digit
  rw [point_of_lt (by split_ifs <;> omega)]
  split_ifs <;> simp <;> omega

theorem base64_globSafe (bs : Bytes) : (base64 bs).all globSafe = true := by
  induction bs using base64.induct with
  | case1 a b c rest ih => simp [base64, digit_globSafe, ih]
  | case2 a b => simp [base64, digit_globSafe]
  | case3 a => simp [base64, digit_globSafe]
  | case4 => rfl

/-- What the fields of the writes of a checkpoint begin with. -/
def writesHead (checkpointId : Str) : Str := lit "write:"++base64 (utf8 checkpointId)++lit ":"

theorem writesHead_globSafe (id : Str) : (writesHead id).all globSafe = true := by
  rw [writesHead, List.all_append, List.all_append, base64_globSafe]
  decide

theorem writesPattern_eq {id : Str} (h : encodable id = true) :
    writesPattern id = .ok (writesHead id++lit "*") := by
  rw [writesPattern, encodeComponent_eq h, writesHead, List.append_assoc _ (lit ":") (lit "*")]
  rfl

variable {σ : Storage} {scanner : Scanner Str Bytes Str} {db : Db} {key pattern : Str}

theorem scanHash_run {n cursor fuel : ℕ} {items : List (Str × Bytes)}
    (h : scanPages scanner ((db.fields key).filter fun x => scanner.selects pattern x.1)
      σ.scanCount n cursor = some items) (hfuel : n ≤ fuel) :
    run (exec scanner) (σ.scanHash key pattern fuel cursor) db = (.ok items, db) := by
  induction n generalizing cursor fuel items with
  | zero => cases h
  | succ n ih =>
    obtain ⟨fuel, rfl⟩ : ∃ k, fuel = k+1 := ⟨fuel-1, by omega⟩
    rw [scanPages] at h
    rw [Storage.scanHash, run_bind_ok (run_command _ _)]
    simp only [exec, scanPage, Plan.lift_bind]
    split_ifs at h ⊢ with hend
    · rw [← Option.some.inj h]
      rfl
    · obtain ⟨rest, hrest, rfl⟩ := Option.map_eq_some_iff.mp h
      rw [run_bind_ok (ih hrest (by omega))]
      rfl

/-- A scan returns what its pattern selects. -/
theorem Faithful.scanHash_read (h : Faithful scanner) (σ : Storage) (db : Db)
    (key pattern : Str) :
    ∃ n items, items.Perm ((db.fields key).filter fun x => scanner.selects pattern x.1) ∧
      ∀ fuel, n ≤ fuel →
        run (exec scanner) (σ.scanHash key pattern fuel 0) db = (.ok items, db) := by
  obtain ⟨n, items, hpages, hperm⟩ := h.complete
    ((db.fields key).filter fun x => scanner.selects pattern x.1) σ.scanCount σ.scanCount_pos
  exact ⟨n, items, hperm, fun fuel hfuel => scanHash_run hpages hfuel⟩

theorem mem_fields {f : Str} {b : Bytes} : (f, b) ∈ db.fields key ↔ db.get key f = some b := by
  rw [Database.get, ← Option.mem_def, AList.mem_lookup_iff, Database.fields, List.mem_map]
  constructor
  · rintro ⟨⟨f', b'⟩, he, heq⟩
    cases heq
    exact he
  · exact fun he => ⟨⟨f, b⟩, he, rfl⟩

theorem fields_nodup (db : Db) (key : Str) : ((db.fields key).map Prod.fst).Nodup := by
  rw [Database.fields, List.map_map]
  exact (db.hashes key).nodupKeys

end Scanning

section Contents

variable (σ : Storage) (U : Set (Str × Str))

/-- What a field of the hash of a thread and a namespace holds. -/
inductive Storage.Honest (threadId checkpointNs : Str) : Str → Bytes → Prop where
  | descriptor (b : Bytes) : Honest threadId checkpointNs descriptorField b
  | record {r : Record} {f : Str} {b : Bytes} : r.threadId = threadId →
    r.checkpointNs = checkpointNs → checkpointField r.checkpointId = .ok f →
    σ.serialize r.value = .ok b → Honest threadId checkpointNs f b
  | write {checkpointId : Str} {w : WriteEntry} {f : Str} {b : Bytes} :
    writeField checkpointId w.taskId w.index = .ok f → σ.writeRecord w = .ok b →
    Honest threadId checkpointNs f b

/-- A checkpoint id in the index of a hash, or a locator in one of its two catalogs. -/
def Storage.Indexed (key : Str) (member : Bytes) : Prop :=
  (∃ t hash id, σ.HashOf U t hash ∧ encodable id = true ∧ key = checkpointIndexKey hash ∧
    member = utf8 id) ∨
  ∃ t, σ.LocatorOf U t member ∧ (threadLocatorCatalogKey σ.sha256 σ.keyPrefix t = .ok key ∨
    key = CheckpointKeys.catalogKey σ.keyPrefix)

def Storage.Cataloged (key : Str) (member : Bytes) : Prop :=
  ∃ t hash, σ.HashOf U t hash ∧ threadCatalogKey σ.sha256 σ.keyPrefix t = .ok key ∧
    member = utf8 hash

def Storage.Stored (key f : Str) (b : Bytes) : Prop :=
  ∃ t ns, (t, ns) ∈ U ∧ threadKey σ.sha256 σ.keyPrefix t ns = .ok key ∧ σ.Honest t ns f b

/-- Everything is where it belongs. -/
structure Storage.Sane (db : Db) : Prop where
  cells : ∀ key f b, db.get key f = some b → σ.Stored U key f b
  members : ∀ key m, m ∈ db.zsets key → σ.Indexed U key m
  spaces : ∀ key m, m ∈ db.sets key → σ.Cataloged U key m

def removes : Cmd → Bool
  | .hdel .. | .zrem .. | .del .. => true
  | _ => false

/-- A command that puts things where they belong and removes none. -/
def Storage.Genuine : Cmd → Prop
  | .hset key fields => ∀ x ∈ fields, σ.Stored U key x.1 x.2
  | .hsetnx key f b => σ.Stored U key f b
  | .zadd key m => σ.Indexed U key m
  | .sadd key m => σ.Cataloged U key m
  | c => removes c = false

variable {σ U} {scanner : Scanner Str Bytes Str} {db : Db} {c : Cmd}

theorem foldl_written {fields : List (Str × Bytes)} {f : Str} {b : Bytes} {old : Option Bytes}
    (h : fields.foldl (fun old x => if x.1 = f then some x.2 else old) old = some b) :
    (f, b) ∈ fields ∨ old = some b := by
  induction fields generalizing old with
  | nil => exact .inr h
  | cons x fields ih =>
    rcases ih h with hin | hold
    · exact .inl (List.mem_cons_of_mem x hin)
    · simp only at hold
      split_ifs at hold with hx
      · obtain rfl := Option.some.inj hold
        exact .inl (List.mem_cons.mpr (.inl (by rw [← hx])))
      · exact .inr hold

theorem Storage.Sane.exec (h : σ.Sane U db) (hc : removes c = true ∨ σ.Genuine U c) :
    σ.Sane U (exec scanner c db).2 := by
  refine ⟨fun key f b hb => ?_, fun key m hm => ?_, fun key m hm => ?_⟩
  · rw [get_exec] at hb
    cases c with
    | hset key' fields =>
      simp only [KeyedDatabase.Command.writes] at hb
      split_ifs at hb with hkey
      · rcases foldl_written hb with hin | hold
        · exact hkey ▸ hc.resolve_left Bool.false_ne_true _ hin
        · exact h.cells key f b hold
      · exact h.cells key f b hb
    | hsetnx key' f' b' =>
      simp only [KeyedDatabase.Command.writes] at hb
      split_ifs at hb with hcell
      · cases hold : db.get key f with
        | some old =>
          rw [hold] at hb
          exact h.cells key f b (hold.trans hb)
        | none =>
          rw [hold] at hb
          obtain ⟨rfl, rfl⟩ := hcell
          exact Option.some.inj hb ▸ hc.resolve_left Bool.false_ne_true
      · exact h.cells key f b hb
    | hdel | del =>
      simp only [KeyedDatabase.Command.writes] at hb
      split_ifs at hb
      exact h.cells key f b hb
    | hget | hscan | zadd | zrem | zrange | zrevrange | sadd | smembers =>
      exact h.cells key f b hb
  · rw [mem_zset_exec] at hm
    cases c with
    | zadd key' member =>
      rcases hm with ⟨rfl, rfl⟩ | hm
      · exact hc.resolve_left Bool.false_ne_true
      · exact h.members key m hm
    | zrem | del => exact h.members key m hm.1
    | hget | hset | hsetnx | hdel | hscan | zrange | zrevrange | sadd | smembers =>
      exact h.members key m hm
  · rw [mem_set_exec] at hm
    cases c with
    | sadd key' member =>
      rcases hm with ⟨rfl, rfl⟩ | hm
      · exact hc.resolve_left Bool.false_ne_true
      · exact h.spaces key m hm
    | del => exact h.spaces key m hm.1
    | hget | hset | hsetnx | hdel | hscan | zadd | zrem | zrange | zrevrange | smembers =>
      exact h.spaces key m hm

theorem empty_sane : σ.Sane U Database.empty :=
  ⟨fun _ _ _ hb => (nomatch hb), fun _ m hm => absurd hm (OrderedSet.not_mem_empty m),
    fun _ m hm => absurd hm (OrderedSet.not_mem_empty m)⟩

end Contents

section Plans

variable {σ : Storage} {U : Set (Str × Str)}

/-- The thread and the namespace of a configuration are in use. -/
def Storage.Uses (σ : Storage) (U : Set (Str × Str)) (config : Config) : Prop :=
  ∀ p, σ.identity config = .ok p → p ∈ U

theorem record_ok {config : Config} {checkpoint metadata : Dict Key Value} {r : Record}
    (h : σ.record config checkpoint metadata = .ok r) :
    σ.identity config = .ok (r.threadId, r.checkpointNs) := by
  obtain ⟨⟨t, ns⟩, hidentity, h⟩ := except_bind_eq_ok h
  obtain ⟨id, -, h⟩ := except_bind_eq_ok h
  cases h
  exact hidentity

theorem storedLocator_ok {id key : Str} {m : Bytes} (h : storedLocator id key = .ok m) :
    encodable id = true ∧ m = textCode id++utf8 key := by
  unfold storedLocator at h
  cases hlocator : checkpointLocator id key with
  | error e =>
    rw [hlocator] at h
    cases h
  | ok b =>
    rw [hlocator] at h
    cases h
    obtain ⟨first, hfirst, hlocator⟩ := except_bind_eq_ok hlocator
    obtain ⟨second, hsecond, hlocator⟩ := except_bind_eq_ok hlocator
    cases hlocator
    obtain ⟨hid, rfl⟩ := orderedText_ok hfirst
    unfold encodeText at hsecond
    cases hkey : encode key with
    | none =>
      rw [hkey] at hsecond
      cases hsecond
    | some bytes =>
      rw [hkey] at hsecond
      cases hsecond
      unfold encode at hkey
      split_ifs at hkey
      exact ⟨hid, by rw [← Option.some.inj hkey]⟩

theorem put_asks {config : Config} (hused : σ.Uses U config)
    (checkpoint metadata : Dict Key Value) :
    Asks (σ.Genuine U) (fun _ => True) (σ.put config checkpoint metadata) := by
  refine Asks.bind (Asks.lift _) fun r hr => ?_
  have hU := hused _ (record_ok hr)
  refine Asks.bind (Asks.lift _) fun key hkey => ?_
  have hhash : σ.HashOf U r.threadId key := ⟨r.checkpointNs, hU, hkey⟩
  refine Asks.bind (Asks.lift _) fun locator hlocator => ?_
  have hid := (storedLocator_ok hlocator).1
  refine Asks.bind (Asks.lift _) fun catalog hcatalog => ?_
  refine Asks.bind (Asks.command (show σ.Genuine U (.sadd catalog (utf8 key)) from
    ⟨_, _, hhash, hcatalog, rfl⟩)) fun _ _ => ?_
  refine Asks.bind (Asks.lift _) fun locators hlocators => ?_
  refine Asks.bind (Asks.command (show σ.Genuine U (.zadd locators locator) from
    .inr ⟨_, ⟨_, _, hhash, hlocator⟩, .inl hlocators⟩)) fun _ _ => ?_
  refine Asks.bind (Asks.command (show σ.Genuine U (.zadd _ locator) from
    .inr ⟨_, ⟨_, _, hhash, hlocator⟩, .inr rfl⟩)) fun _ _ => ?_
  refine Asks.bind (Asks.command (show σ.Genuine U (.zadd _ (utf8 r.checkpointId)) from
    .inl ⟨_, _, _, hhash, hid, rfl, rfl⟩)) fun _ _ => ?_
  refine Asks.bind (Asks.lift _) fun descriptor _ => ?_
  refine Asks.bind (Asks.lift _) fun name hname => ?_
  refine Asks.bind (Asks.lift _) fun value hvalue => ?_
  refine Asks.bind (Asks.command (show σ.Genuine U
    (.hset key [(descriptorField, descriptor), (name, value)]) from fun x hx => ?_))
    fun _ _ => Asks.pure trivial
  rcases List.mem_cons.mp hx with rfl | hx
  · exact ⟨_, _, hU, hkey, .descriptor _⟩
  · obtain rfl := List.mem_singleton.mp hx
    exact ⟨_, _, hU, hkey, .record rfl rfl hname hvalue⟩

theorem writeCommand_ok {key id : Str} {w : WriteEntry} {c : Cmd}
    (h : σ.writeCommand key id w = .ok c) : ∃ name value,
      writeField id w.taskId w.index = .ok name ∧ σ.writeRecord w = .ok value ∧
      c = if w.index < 0 then .hset key [(name, value)] else .hsetnx key name value := by
  obtain ⟨name, hname, h⟩ := except_bind_eq_ok h
  obtain ⟨value, hvalue, h⟩ := except_bind_eq_ok h
  exact ⟨name, value, hname, hvalue, (Except.ok.inj h).symm⟩

theorem writeCommand_genuine {t ns key id : Str} {w : WriteEntry} {c : Cmd} (hU : (t, ns) ∈ U)
    (hkey : threadKey σ.sha256 σ.keyPrefix t ns = .ok key)
    (h : σ.writeCommand key id w = .ok c) : σ.Genuine U c := by
  obtain ⟨name, value, hname, hvalue, rfl⟩ := writeCommand_ok h
  have hstored : σ.Stored U key name value := ⟨t, ns, hU, hkey, .write hname hvalue⟩
  split_ifs
  · intro x hx
    obtain rfl := List.mem_singleton.mp hx
    exact hstored
  · exact hstored

theorem putEntries_asks {t ns key id : Str} (hU : (t, ns) ∈ U)
    (hkey : threadKey σ.sha256 σ.keyPrefix t ns = .ok key) (ws : List WriteEntry) :
    Asks (σ.Genuine U) (fun _ => True) (σ.putEntries key id ws) := by
  induction ws with
  | nil => exact Asks.pure trivial
  | cons w ws ih =>
    refine Asks.bind (Asks.lift _) fun c hc => ?_
    exact Asks.bind (Asks.command (writeCommand_genuine hU hkey hc)) fun _ _ => ih

theorem putWrites_asks {config : Config} (hused : σ.Uses U config)
    (writes : List (Str × Value)) (taskId taskPath : Str) :
    Asks (σ.Genuine U) (fun _ => True) (σ.putWrites config writes taskId taskPath) := by
  refine Asks.bind (Asks.lift _) fun p hp => ?_
  obtain ⟨t, ns⟩ := p
  have hU := hused _ hp
  cases σ.checkpointId config with
  | none => exact fun a ha => (nomatch ha)
  | some id =>
    refine Asks.bind (Asks.lift _) fun key hkey => ?_
    refine Asks.bind (Asks.lift _) fun catalog hcatalog => ?_
    refine Asks.bind (Asks.command (show σ.Genuine U (.sadd catalog (utf8 key)) from
      ⟨_, _, ⟨ns, hU, hkey⟩, hcatalog, rfl⟩)) fun _ _ => ?_
    refine Asks.bind (Asks.lift _) fun descriptor _ => ?_
    refine Asks.bind (Asks.command (show σ.Genuine U (.hsetnx key descriptorField descriptor) from
      ⟨_, _, hU, hkey, .descriptor _⟩)) fun _ _ => ?_
    exact putEntries_asks hU hkey _

end Plans

end FerricStore.CheckpointStore
