import FerricStore.DecimalText
import FerricStore.StorageKeys

/-!
# Keys and hash fields of the LangGraph stores

A checkpoint store and a memory store with one key prefix keep their records under keys of
ten families. A key is a head, the digest of what it is about, and a tail. No head begins
another one, and digests have one length, so a key tells its family and its digest; what
is about different things has different identities, hence different keys where the digest
does not collide.
-/

set_option autoImplicit false

namespace FerricStore.CheckpointKeys
open Text DecimalText OrderedKeys StorageKeys

section Keys

variable (sha256 : Bytes → Str) (keyPrefix : Str)

/-- `catalog_key` of the checkpoint store. -/
def catalogKey : Str := keyPrefix++lit ":checkpoints"

def threadDigest (threadId : Str) : Except StorageError Str := do
  let bytes ← payload threadId
  .ok (sha256 bytes)

/-- `thread_catalog_key`. -/
def threadCatalogKey (threadId : Str) : Except StorageError Str := do
  let digest ← threadDigest sha256 threadId
  .ok (keyPrefix++lit ":\x7blgt:"++digest++lit "\x7d:namespaces")

/-- `thread_locator_catalog_key`. -/
def threadLocatorCatalogKey (threadId : Str) : Except StorageError Str := do
  let key ← threadCatalogKey sha256 keyPrefix threadId
  .ok (key++lit ":checkpoint-locators")

/-- `thread_lock_key`. -/
def threadLockKey (threadId : Str) : Except StorageError Str := do
  let digest ← threadDigest sha256 threadId
  .ok (keyPrefix++lit ":\x7blgt:"++digest++lit "\x7d:mutation-lock")

/-- `thread_key`. -/
def threadKey (threadId checkpointNs : Str) : Except StorageError Str := do
  let identity ← threadIdentity threadId checkpointNs
  .ok (keyPrefix++lit ":\x7blg:"++sha256 identity++lit "\x7d:thread")

/-- `checkpoint_index_key`. -/
def checkpointIndexKey (threadKey : Str) : Str := threadKey++lit ":checkpoint-index"

end Keys

section Fields

def descriptorField : Str := lit "descriptor"

/-- `_checkpoint_field`. -/
def checkpointField (checkpointId : Str) : Except StorageError Str := do
  let id ← encodeComponent checkpointId
  .ok (lit "checkpoint:"++id)

/-- `_writes_pattern`. -/
def writesPattern (checkpointId : Str) : Except StorageError Str := do
  let id ← encodeComponent checkpointId
  .ok (lit "write:"++id++lit ":*")

/-- `_write_field`. -/
def writeField (checkpointId taskId : Str) (index : ℤ) : Except StorageError Str := do
  let id ← encodeComponent checkpointId
  let task ← encodeComponent taskId
  .ok (lit "write:"++id++lit ":"++task++lit ":"++lit (toString index))

/-- A field of a hash of either store. -/
inductive HashField where
  | descriptor
  | checkpoint (checkpointId : Str)
  | write (checkpointId taskId : Str) (index : ℤ)
  | item (key : Str)
  deriving DecidableEq

def HashField.name : HashField → Except StorageError Str
  | .descriptor => .ok descriptorField
  | .checkpoint id => checkpointField id
  | .write id task index => writeField id task index
  | .item key => itemField key

theorem encodeComponent_ok {s t : Str} (h : encodeComponent s = .ok t) :
    encodable s = true ∧ t = base64 (utf8 s) := by
  obtain ⟨b, hb, h⟩ := except_bind_eq_ok h
  obtain ⟨hs, rfl⟩ := payload_ok hb
  exact ⟨hs, (Except.ok.inj h).symm⟩

theorem digit_ne_colon (n : ℕ) : digit n ≠ 58 := by
  intro h
  have hval := congrArg Fin.val h
  unfold digit at hval
  rw [point_of_lt (by split_ifs <;> omega)] at hval
  have hcolon : ((58 : CodePoint) : ℕ) = 58 := rfl
  rw [hcolon] at hval
  split_ifs at hval <;> omega

theorem colon_not_base64 (bs : Bytes) : (58 : CodePoint) ∉ base64 bs := by
  induction bs using base64.induct with
  | case1 a b c rest ih =>
    simp only [base64, List.mem_cons, not_or]
    exact ⟨(digit_ne_colon _).symm, (digit_ne_colon _).symm, (digit_ne_colon _).symm,
      (digit_ne_colon _).symm, ih⟩
  | case2 a b =>
    simp only [base64, List.mem_cons, List.not_mem_nil, or_false, not_or]
    exact ⟨(digit_ne_colon _).symm, (digit_ne_colon _).symm, (digit_ne_colon _).symm⟩
  | case3 a =>
    simp only [base64, List.mem_cons, List.not_mem_nil, or_false, not_or]
    exact ⟨(digit_ne_colon _).symm, (digit_ne_colon _).symm⟩
  | case4 => exact List.not_mem_nil

theorem component_inj {s t : Str} (h : base64 (utf8 s) = base64 (utf8 t)) : s = t :=
  utf8_inj (base64_inj h)

theorem writeField_ok {id task name : Str} {index : ℤ} (h : writeField id task index = .ok name) :
    name = lit "write:"++(base64 (utf8 id)++58::(base64 (utf8 task)++58::lit (toString index))) := by
  obtain ⟨a, ha, h⟩ := except_bind_eq_ok h
  obtain ⟨b, hb, h⟩ := except_bind_eq_ok h
  obtain ⟨-, rfl⟩ := encodeComponent_ok ha
  obtain ⟨-, rfl⟩ := encodeComponent_ok hb
  cases h
  have hcolon : lit ":" = [58] := rfl
  simp [hcolon]

theorem writeField_inj {id task id' task' name : Str} {index index' : ℤ}
    (h : writeField id task index = .ok name) (h' : writeField id' task' index' = .ok name) :
    id = id' ∧ task = task' ∧ index = index' := by
  have heq := (writeField_ok h).symm.trans (writeField_ok h')
  obtain ⟨hid, hrest⟩ := separated_inj (colon_not_base64 _) (colon_not_base64 _)
    (List.append_cancel_left heq)
  obtain ⟨htask, hindex⟩ := separated_inj (colon_not_base64 _) (colon_not_base64 _) hrest
  exact ⟨component_inj hid, component_inj htask, int_toString_inj hindex⟩

/-- The text before the part that depends on the field, and the first letter tells them
apart. -/
def HashField.head : HashField → Str
  | .descriptor => lit "descriptor"
  | .checkpoint _ => lit "checkpoint:"
  | .write .. => lit "write:"
  | .item _ => lit "item:"

theorem HashField.head_name {f : HashField} {name : Str} (h : f.name = .ok name) :
    f.head <+: name := by
  cases f with
  | descriptor =>
    cases h
    exact List.prefix_rfl
  | checkpoint id =>
    obtain ⟨a, -, h⟩ := except_bind_eq_ok h
    cases h
    exact List.prefix_append _ _
  | write id task index =>
    rw [writeField_ok h]
    exact List.prefix_append _ _
  | item key =>
    obtain ⟨a, -, h⟩ := except_bind_eq_ok h
    cases h
    exact List.prefix_append _ _

theorem HashField.name_inj {f g : HashField} {name : Str} (h : f.name = .ok name)
    (h' : g.name = .ok name) : f = g := by
  have hheads : f.head <+: g.head ∨ g.head <+: f.head :=
    List.prefix_or_prefix_of_prefix (head_name h) (head_name h')
  have hcheckpoint : ∀ {id id' : Str}, checkpointField id = .ok name →
      checkpointField id' = .ok name → id = id' := by
    intro id id' hi hi'
    obtain ⟨a, ha, hi⟩ := except_bind_eq_ok hi
    obtain ⟨b, hb, hi'⟩ := except_bind_eq_ok hi'
    obtain ⟨-, rfl⟩ := encodeComponent_ok ha
    obtain ⟨-, rfl⟩ := encodeComponent_ok hb
    exact component_inj (List.append_cancel_left
      ((Except.ok.inj hi).trans (Except.ok.inj hi').symm))
  have hitem : ∀ {key key' : Str}, itemField key = .ok name → itemField key' = .ok name →
      key = key' := by
    intro key key' hi hi'
    obtain ⟨a, ha, hi⟩ := except_bind_eq_ok hi
    obtain ⟨b, hb, hi'⟩ := except_bind_eq_ok hi'
    obtain ⟨-, rfl⟩ := encodeComponent_ok ha
    obtain ⟨-, rfl⟩ := encodeComponent_ok hb
    exact component_inj (List.append_cancel_left
      ((Except.ok.inj hi).trans (Except.ok.inj hi').symm))
  cases f <;> cases g <;> first
    | rfl
    | exact absurd hheads (by simp only [head]; decide)
    | skip
  case checkpoint.checkpoint id id' => rw [hcheckpoint h h']
  case write.write id task index id' task' index' =>
    obtain ⟨rfl, rfl, rfl⟩ := writeField_inj h h'
    rfl
  case item.item key key' => rw [hitem h h']

end Fields

section Identities

theorem threadIdentity_inj {threadId ns threadId' ns' : Str} {b : Bytes}
    (h : threadIdentity threadId ns = .ok b) (h' : threadIdentity threadId' ns' = .ok b) :
    threadId = threadId' ∧ ns = ns' := by
  have hparts : ∀ {t n : Str}, threadIdentity t n = .ok b → t.length < 256^8 ∧ n.length < 256^8 ∧
      b = BigEndian.encode 8 t.length++(utf8 t++(BigEndian.encode 8 n.length++utf8 n)) := by
    intro t n ht
    obtain ⟨l, hl, ht⟩ := except_bind_eq_ok ht
    obtain ⟨x, hx, ht⟩ := except_bind_eq_ok ht
    obtain ⟨l', hl', ht⟩ := except_bind_eq_ok ht
    obtain ⟨x', hx', ht⟩ := except_bind_eq_ok ht
    obtain ⟨hlt, rfl⟩ := lengthBytes_ok hl
    obtain ⟨-, rfl⟩ := payload_ok hx
    obtain ⟨hlt', rfl⟩ := lengthBytes_ok hl'
    obtain ⟨-, rfl⟩ := payload_ok hx'
    exact ⟨hlt, hlt', by simpa using (Except.ok.inj ht).symm⟩
  obtain ⟨ht, hn, rfl⟩ := hparts h
  obtain ⟨ht', hn', heq⟩ := hparts h'
  -- The length counts characters, and UTF-8 tells where so many characters end.
  obtain ⟨hlength, hrest⟩ := BigEndian.encode_append_inj 8 _ _ ht ht' _ _ heq
  obtain ⟨hthread, hrest⟩ := utf8_append_inj hlength hrest
  obtain ⟨-, hns⟩ := BigEndian.encode_append_inj 8 _ _ hn hn' _ _ hrest
  exact ⟨hthread, utf8_inj hns⟩

theorem namespaceIdentity_inj {ns ns' : List Str} {b : Bytes} (h : namespaceIdentity ns = .ok b)
    (h' : namespaceIdentity ns' = .ok b) : ns = ns' := by
  obtain ⟨hs, rfl⟩ := namespaceIdentity_ok h
  obtain ⟨hs', heq⟩ := namespaceIdentity_ok h'
  exact identity_inj hs hs' heq

/-- A namespace and a key have the identity of the namespace with the key as one more
label, so the last label is the key. -/
theorem itemIdentity_inj {ns ns' : List Str} {key key' : Str} {b : Bytes}
    (h : itemIdentity ns key = .ok b) (h' : itemIdentity ns' key' = .ok b) :
    ns = ns' ∧ key = key' := by
  have hlabels : ∀ {n : List Str} {k : Str}, itemIdentity n k = .ok b →
      (∀ s ∈ n++[k], Storable s) ∧ b = (n++[k]).flatMap measuredCode := by
    intro n k hi
    obtain ⟨i, hi', hi⟩ := except_bind_eq_ok hi
    obtain ⟨m, hm, hi⟩ := except_bind_eq_ok hi
    obtain ⟨hn, rfl⟩ := namespaceIdentity_ok hi'
    obtain ⟨hk, rfl⟩ := measured_ok hm
    refine ⟨fun s hs => ?_, by simpa using (Except.ok.inj hi).symm⟩
    rcases List.mem_append.mp hs with hs | hs
    · exact hn s hs
    · rw [List.mem_singleton.mp hs]
      exact hk
  obtain ⟨hs, rfl⟩ := hlabels h
  obtain ⟨hs', heq⟩ := hlabels h'
  have hsame := identity_inj hs hs' heq
  exact ⟨List.append_inj_left' hsame rfl, List.singleton_inj.mp (List.append_inj_right' hsame rfl)⟩

end Identities

section Families

/-- What a key of one of the stores is about. The catalog of the empty prefix is the
catalog of the memory store. -/
inductive StorageObject where
  | checkpointCatalog
  | threadCatalog (threadId : Str)
  | threadLocators (threadId : Str)
  | threadLock (threadId : Str)
  | thread (threadId checkpointNs : Str)
  | checkpointIndex (threadId checkpointNs : Str)
  | prefixCatalog (namespacePrefix : List Str)
  | namespaceHash (namespace_ : List Str)
  | itemLock (namespace_ : List Str) (key : Str)
  deriving DecidableEq

namespace StorageObject

variable (sha256 : Bytes → Str) (keyPrefix : Str)

def key : StorageObject → Except StorageError Str
  | .checkpointCatalog => .ok (catalogKey keyPrefix)
  | .threadCatalog t => threadCatalogKey sha256 keyPrefix t
  | .threadLocators t => threadLocatorCatalogKey sha256 keyPrefix t
  | .threadLock t => threadLockKey sha256 keyPrefix t
  | .thread t ns => threadKey sha256 keyPrefix t ns
  | .checkpointIndex t ns => do
    let key ← threadKey sha256 keyPrefix t ns
    .ok (checkpointIndexKey key)
  | .prefixCatalog ns => prefixCatalogKey sha256 keyPrefix ns
  | .namespaceHash ns => namespaceKey sha256 keyPrefix ns
  | .itemLock ns k => itemLockKey sha256 keyPrefix ns k

/-- The bytes whose digest the key holds. -/
def identity : StorageObject → Except StorageError (Option Bytes)
  | .checkpointCatalog => .ok none
  | .threadCatalog t | .threadLocators t | .threadLock t => do
    let b ← payload t
    .ok (some b)
  | .thread t ns | .checkpointIndex t ns => do
    let b ← threadIdentity t ns
    .ok (some b)
  | .prefixCatalog ns =>
    if ns = [] then .ok none
    else do
      let b ← namespaceIdentity ns
      .ok (some b)
  | .namespaceHash ns => do
    let b ← namespaceIdentity ns
    .ok (some b)
  | .itemLock ns k => do
    let b ← itemIdentity ns k
    .ok (some b)

end StorageObject

inductive Family where
  | checkpoints
  | threadNamespaces
  | threadLocators
  | threadLock
  | thread
  | checkpointIndex
  | namespaces
  | prefixes
  | namespaceHash
  | itemLock
  deriving DecidableEq

def Family.head : Family → String
  | .checkpoints => ":checkpoints"
  | .threadNamespaces | .threadLocators | .threadLock => ":\x7blgt:"
  | .thread | .checkpointIndex => ":\x7blg:"
  | .namespaces => ":namespaces"
  | .prefixes => ":prefix:"
  | .namespaceHash => ":\x7blgs:"
  | .itemLock => ":\x7blgsi:"

def Family.tail : Family → String
  | .checkpoints | .namespaces | .prefixes => ""
  | .threadNamespaces => "\x7d:namespaces"
  | .threadLocators => "\x7d:namespaces:checkpoint-locators"
  | .threadLock | .itemLock => "\x7d:mutation-lock"
  | .thread => "\x7d:thread"
  | .checkpointIndex => "\x7d:thread:checkpoint-index"
  | .namespaceHash => "\x7d:namespace"

def StorageObject.family : StorageObject → Family
  | .checkpointCatalog => .checkpoints
  | .threadCatalog _ => .threadNamespaces
  | .threadLocators _ => .threadLocators
  | .threadLock _ => .threadLock
  | .thread _ _ => .thread
  | .checkpointIndex _ _ => .checkpointIndex
  | .prefixCatalog ns => if ns = [] then .namespaces else .prefixes
  | .namespaceHash _ => .namespaceHash
  | .itemLock _ _ => .itemLock

/-- No head begins another one. -/
theorem Family.head_prefix (f f' : Family) : lit f.head <+: lit f'.head → f.head = f'.head := by
  cases f <;> cases f' <;> decide

theorem Family.eq_of_parts (f f' : Family) : f.head = f'.head → f.tail = f'.tail → f = f' := by
  cases f <;> cases f' <;> decide

variable {sha256 : Bytes → Str} {keyPrefix : Str}

/-- A key is its head, its digest, if it has one, and its tail. -/
theorem StorageObject.key_ok {o : StorageObject} {k : Str} (h : o.key sha256 keyPrefix = .ok k) :
    ∃ i, o.identity = .ok i ∧
      k = keyPrefix++(lit o.family.head++((i.map sha256).getD []++lit o.family.tail)) := by
  cases o with
  | checkpointCatalog =>
    cases h
    exact ⟨none, rfl, by simp [family, Family.head, Family.tail, catalogKey, lit]⟩
  | threadCatalog t =>
    obtain ⟨d, hd, h⟩ := except_bind_eq_ok h
    obtain ⟨b, hb, hd⟩ := except_bind_eq_ok hd
    cases hd
    cases h
    exact ⟨some b, by simp only [identity, hb]; rfl, by simp [family, Family.head, Family.tail]⟩
  | threadLocators t =>
    obtain ⟨c, hc, h⟩ := except_bind_eq_ok h
    obtain ⟨d, hd, hc⟩ := except_bind_eq_ok hc
    obtain ⟨b, hb, hd⟩ := except_bind_eq_ok hd
    cases hd
    cases hc
    cases h
    exact ⟨some b, by simp only [identity, hb]; rfl,
      by simp [family, Family.head, Family.tail, lit]⟩
  | threadLock t =>
    obtain ⟨d, hd, h⟩ := except_bind_eq_ok h
    obtain ⟨b, hb, hd⟩ := except_bind_eq_ok hd
    cases hd
    cases h
    exact ⟨some b, by simp only [identity, hb]; rfl, by simp [family, Family.head, Family.tail]⟩
  | thread t ns =>
    obtain ⟨b, hb, h⟩ := except_bind_eq_ok h
    cases h
    exact ⟨some b, by simp only [identity, hb]; rfl, by simp [family, Family.head, Family.tail]⟩
  | checkpointIndex t ns =>
    obtain ⟨c, hc, h⟩ := except_bind_eq_ok h
    obtain ⟨b, hb, hc⟩ := except_bind_eq_ok hc
    cases hc
    cases h
    exact ⟨some b, by simp only [identity, hb]; rfl,
      by simp [family, Family.head, Family.tail, checkpointIndexKey, lit]⟩
  | prefixCatalog ns =>
    simp only [key, prefixCatalogKey] at h
    by_cases hns : ns = []
    · rw [if_pos hns] at h
      cases h
      exact ⟨none, by rw [identity, if_pos hns],
        by simp [family, hns, Family.head, Family.tail, StorageKeys.catalogKey, lit]⟩
    · rw [if_neg hns] at h
      obtain ⟨b, hb, h⟩ := except_bind_eq_ok h
      cases h
      refine ⟨some b, ?_, by simp [family, hns, Family.head, Family.tail, lit]⟩
      rw [identity, if_neg hns, hb]
      rfl
  | namespaceHash ns =>
    obtain ⟨b, hb, h⟩ := except_bind_eq_ok h
    cases h
    exact ⟨some b, by simp only [identity, hb]; rfl, by simp [family, Family.head, Family.tail]⟩
  | itemLock ns k =>
    obtain ⟨b, hb, h⟩ := except_bind_eq_ok h
    cases h
    exact ⟨some b, by simp only [identity, hb]; rfl, by simp [family, Family.head, Family.tail]⟩

theorem StorageObject.identity_some {o : StorageObject} {i : Option Bytes}
    (h : o.identity = .ok i) :
    i.isSome = decide (o.family.head ≠ ":checkpoints" ∧ o.family.head ≠ ":namespaces") := by
  cases o with
  | checkpointCatalog =>
    cases h
    rfl
  | prefixCatalog ns =>
    simp only [identity] at h
    by_cases hns : ns = []
    · rw [if_pos hns] at h
      cases h
      simp [family, hns, Family.head]
    · rw [if_neg hns] at h
      obtain ⟨b, -, h⟩ := except_bind_eq_ok h
      cases h
      simp [family, hns, Family.head]
  | threadCatalog t | threadLocators t | threadLock t | thread t ns | checkpointIndex t ns
  | namespaceHash ns | itemLock ns k =>
    obtain ⟨b, -, h⟩ := except_bind_eq_ok h
    cases h
    rfl

/-- Objects of one family with one identity are one object. -/
theorem StorageObject.eq_of_identity {o o' : StorageObject} {i : Option Bytes}
    (hfamily : o.family = o'.family) (h : o.identity = .ok i) (h' : o'.identity = .ok i) :
    o = o' := by
  have hpayload : ∀ {t t' : Str}, (do let b ← payload t; Except.ok (some b)) = .ok i →
      (do let b ← payload t'; Except.ok (some b)) = .ok i → t = t' := by
    intro t t' ht ht'
    obtain ⟨b, hb, ht⟩ := except_bind_eq_ok ht
    obtain ⟨b', hb', ht'⟩ := except_bind_eq_ok ht'
    cases ht
    cases ht'
    exact utf8_inj ((payload_ok hb).2.symm.trans (payload_ok hb').2)
  have hthread : ∀ {t n t' n' : Str}, (do let b ← threadIdentity t n; Except.ok (some b)) = .ok i →
      (do let b ← threadIdentity t' n'; Except.ok (some b)) = .ok i → t = t' ∧ n = n' := by
    intro t n t' n' ht ht'
    obtain ⟨b, hb, ht⟩ := except_bind_eq_ok ht
    obtain ⟨b', hb', ht'⟩ := except_bind_eq_ok ht'
    cases ht
    cases ht'
    exact threadIdentity_inj hb hb'
  have hnamespace : ∀ {ns ns' : List Str},
      (do let b ← namespaceIdentity ns; Except.ok (some b)) = .ok i →
      (do let b ← namespaceIdentity ns'; Except.ok (some b)) = .ok i → ns = ns' := by
    intro ns ns' hn hn'
    obtain ⟨b, hb, hn⟩ := except_bind_eq_ok hn
    obtain ⟨b', hb', hn'⟩ := except_bind_eq_ok hn'
    cases hn
    cases hn'
    exact namespaceIdentity_inj hb hb'
  cases o <;> cases o' <;> simp only [family] at hfamily <;>
    first
      | rfl
      | cases hfamily
      | (split at hfamily <;> cases hfamily)
      | skip
  case threadCatalog.threadCatalog t t' => rw [hpayload h h']
  case threadLocators.threadLocators t t' => rw [hpayload h h']
  case threadLock.threadLock t t' => rw [hpayload h h']
  case thread.thread t ns t' ns' =>
    obtain ⟨rfl, rfl⟩ := hthread h h'
    rfl
  case checkpointIndex.checkpointIndex t ns t' ns' =>
    obtain ⟨rfl, rfl⟩ := hthread h h'
    rfl
  case prefixCatalog.prefixCatalog ns ns' =>
    simp only [identity] at h h'
    by_cases hns : ns = []
    · by_cases hns' : ns' = []
      · rw [hns, hns']
      · rw [if_pos hns, if_neg hns'] at hfamily
        cases hfamily
    · by_cases hns' : ns' = []
      · rw [if_neg hns, if_pos hns'] at hfamily
        cases hfamily
      · rw [if_neg hns] at h
        rw [if_neg hns'] at h'
        rw [hnamespace h h']
  case namespaceHash.namespaceHash ns ns' => rw [hnamespace h h']
  case itemLock.itemLock ns k ns' k' =>
    obtain ⟨b, hb, h⟩ := except_bind_eq_ok h
    obtain ⟨b', hb', h'⟩ := except_bind_eq_ok h'
    cases h
    cases h'
    obtain ⟨rfl, rfl⟩ := itemIdentity_inj hb hb'
    rfl

/-- Objects with one key are one object, where the digest does not collide on them. -/
theorem StorageObject.key_inj {objects : Set StorageObject}
    (hdigest : ∀ b, (sha256 b).length = 64)
    (hfree : Set.InjOn sha256 { b | ∃ o ∈ objects, o.identity = .ok (some b) })
    {o o' : StorageObject} (ho : o ∈ objects) (ho' : o' ∈ objects) {k : Str}
    (h : o.key sha256 keyPrefix = .ok k) (h' : o'.key sha256 keyPrefix = .ok k) : o = o' := by
  obtain ⟨i, hi, rfl⟩ := StorageObject.key_ok h
  obtain ⟨i', hi', heq⟩ := StorageObject.key_ok h'
  have hrest := List.append_cancel_left heq
  have hhead : o.family.head = o'.family.head := by
    rcases List.prefix_or_prefix_of_prefix (List.prefix_append _ _)
      (hrest ▸ List.prefix_append (lit o'.family.head) _) with hp | hp
    · exact Family.head_prefix _ _ hp
    · exact (Family.head_prefix _ _ hp).symm
  rw [hhead] at hrest
  have hparts := List.append_cancel_left hrest
  have hlengths : ∀ {j : Option Bytes}, ((j.map sha256).getD []).length =
      if j.isSome then 64 else 0 := by
    intro j
    cases j with
    | none => rfl
    | some b => simp [hdigest]
  have hsome : i.isSome = i'.isSome := by
    rw [StorageObject.identity_some hi, StorageObject.identity_some hi', hhead]
  have hdigests := List.append_inj hparts (by rw [hlengths, hlengths, hsome])
  have htail : o.family.tail = o'.family.tail := lit_inj.mp hdigests.2
  have hfamily := Family.eq_of_parts _ _ hhead htail
  have hsame : i = i' := by
    cases i with
    | none =>
      cases i' with
      | none => rfl
      | some b' => cases hsome
    | some b =>
      cases i' with
      | none => cases hsome
      | some b' =>
        rw [hfree ⟨o, ho, hi⟩ ⟨o', ho', hi'⟩ hdigests.1]
  exact StorageObject.eq_of_identity hfamily hi (hsame ▸ hi')

/-- Storage identities are injective: of threads with their checkpoint namespaces, of
namespaces, of items and of hash fields; and where the digest does not collide on the
objects in use, no two of them share a key. -/
theorem storage_identities_are_injective (sha256 : Bytes → Str) (keyPrefix : Str)
    (objects : Set StorageObject) (hdigest : ∀ b, (sha256 b).length = 64)
    (hfree : Set.InjOn sha256 { b | ∃ o ∈ objects, o.identity = .ok (some b) }) :
    (∀ t ns t' ns' b, threadIdentity t ns = .ok b → threadIdentity t' ns' = .ok b →
      t = t' ∧ ns = ns') ∧
    (∀ ns ns' b, namespaceIdentity ns = .ok b → namespaceIdentity ns' = .ok b → ns = ns') ∧
    (∀ ns k ns' k' b, itemIdentity ns k = .ok b → itemIdentity ns' k' = .ok b →
      ns = ns' ∧ k = k') ∧
    (∀ (f f' : HashField) name, f.name = .ok name → f'.name = .ok name → f = f') ∧
    ∀ o ∈ objects, ∀ o' ∈ objects, ∀ k, o.key sha256 keyPrefix = .ok k →
      o'.key sha256 keyPrefix = .ok k → o = o' :=
  ⟨fun _ _ _ _ _ => threadIdentity_inj, fun _ _ _ => namespaceIdentity_inj,
    fun _ _ _ _ _ => itemIdentity_inj, fun _ _ _ => HashField.name_inj,
    fun _ ho _ ho' _ => StorageObject.key_inj hdigest hfree ho ho'⟩

/-- The identities of the thread `a` without a namespace and of the nameless thread with
the namespace `a`. -/
def swappedIdentities : List Bytes :=
  [BigEndian.encode 8 1++[97]++BigEndian.encode 8 0, BigEndian.encode 8 0++BigEndian.encode 8 1++[97]]

/-- SHA-256 on these identities, and a text of the same length elsewhere. -/
def swappedDigests (b : Bytes) : Str :=
  if b = swappedIdentities[0] then
    lit "6aa98e17c109dd8e2ae23a478ceb48e193c730289ba48d741388a3cc8b38ef4f"
  else if b = swappedIdentities[1] then
    lit "ee9273da54f2dc9e4a125eff796dbbe7ec16507bd075018a68cea4d1dc34ef84"
  else List.replicate 64 48

theorem storage_identities_are_injective_swapped :
    ∃ k k', (StorageObject.thread (lit "a") []).key swappedDigests (lit "p") = .ok k ∧
      (StorageObject.thread [] (lit "a")).key swappedDigests (lit "p") = .ok k' ∧ k ≠ k' := by
  have hinj := (storage_identities_are_injective swappedDigests (lit "p")
    {.thread (lit "a") [], .thread [] (lit "a")}
    (fun b => by
      unfold swappedDigests
      split_ifs
      · decide
      · decide
      · simp)
    (by
      have hids : ∀ b, (∃ o ∈ ({.thread (lit "a") [], .thread [] (lit "a")} : Set StorageObject),
          o.identity = .ok (some b)) → b = swappedIdentities[0] ∨ b = swappedIdentities[1] := by
        rintro b ⟨o, rfl | rfl, hb⟩
        · exact .inl (Option.some.inj (Except.ok.inj hb)).symm
        · exact .inr (Option.some.inj (Except.ok.inj hb)).symm
      intro b hb b' hb' heq
      rcases hids b hb with rfl | rfl <;> rcases hids b' hb' with rfl | rfl
      · rfl
      · exact absurd heq (by decide)
      · exact absurd heq (by decide)
      · rfl)).2.2.2.2
  refine ⟨_, _, rfl, rfl, fun he => ?_⟩
  have ho := hinj (.thread (lit "a") []) (by simp) (.thread [] (lit "a")) (by simp) _ rfl
    (congrArg Except.ok he.symm)
  cases ho

end Families

end FerricStore.CheckpointKeys
