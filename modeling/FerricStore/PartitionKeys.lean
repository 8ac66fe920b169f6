import FerricStore.DecimalText
import FerricStore.Utf8
import FerricStore.Value

/-!
# Workflow partition keys

A partition key frames the routing attributes of a workflow one after another, each after
its length. It is text unless an attribute is binary. A buffer of any type that the
attribute may be counts as its bytes.
-/

set_option autoImplicit false

namespace FerricStore.PartitionKeys
open Text DecimalText

variable (rt : Runtime)

inductive PartitionError where
  | keyError (name : String)
  | unicodeEncode
  | unicodeDecode
  deriving DecidableEq, Repr

def isBinary : Value → Bool
  | .bytes _ | .bytearray _ => true
  | _ => false

/-- The component of an attribute: bytes as they are, and any other value as the UTF-8 of
its text. -/
def component : Value → Except PartitionError Bytes
  | .bytes b => .ok b
  | .bytearray b => .ok b
  | v => (encode (rt.str v)).elim (.error .unicodeEncode) .ok

/-- The components in the order of the routing attributes, and whether one is binary. -/
def components (attrs : Payload) : List String → Except PartitionError (List Bytes × Bool)
  | [] => .ok ([], false)
  | name::names =>
    match Dict.get? attrs name with
    | none => .error (.keyError name)
    | some v => do
      let c ← component rt v
      let (cs, binary) ← components attrs names
      .ok (c::cs, isBinary v || binary)

def encoded (cs : List Bytes) : Bytes := utf8 (lit "fpk:")++cs.flatMap frame

/-- `workflow_partition_key`. -/
def workflowPartitionKey (attrs : Payload) (partitionBy : List String) :
    Except PartitionError (Option Value) :=
  if partitionBy = [] then .ok none
  else do
    let (cs, binary) ← components rt attrs partitionBy
    if binary then .ok (some (.bytes (encoded cs)))
    else match decode (encoded cs) with
      | none => .error .unicodeDecode
      | some text => .ok (some (.str text))

/-- `pop_workflow_partition_key`: the key and the attributes that stay. -/
def popWorkflowPartitionKey (attrs : Payload) (partitionBy : List String)
    (resolver : Option (Payload → Except PartitionError (Option Value))) :
    Except PartitionError (Option Value × Payload) := do
  let explicit := (Dict.get? attrs "partition_key").filter fun v => !v.isNone
  let attrs := Dict.pop attrs "partition_key"
  let key ← match explicit, resolver with
    | some v, _ => .ok (some v)
    | none, some resolve => resolve attrs
    | none, none => workflowPartitionKey rt attrs partitionBy
  .ok (key, partitionBy.foldl Dict.pop attrs)

/-- The bytes of a key, text as its UTF-8. -/
def keyBytes : Value → Bytes
  | .str s => utf8 s
  | .bytes b => b
  | _ => []

variable {rt}

theorem bind_ok {α β : Type} {x : Except PartitionError α} {f : α → Except PartitionError β} {b : β}
    (h : x >>= f = .ok b) : ∃ a, x = .ok a ∧ f a = .ok b := by
  cases x with
  | error e => cases h
  | ok a => exact ⟨a, rfl, h⟩

/-- Components of text are the UTF-8 of text. -/
theorem components_text {attrs : Payload} {names : List String} {cs : List Bytes}
    (h : components rt attrs names = .ok (cs, false)) :
    ∀ c ∈ cs, ∃ s, encodable s = true ∧ c = utf8 s := by
  induction names generalizing cs with
  | nil =>
    cases h
    exact fun c hc => absurd hc List.not_mem_nil
  | cons name names ih =>
    unfold components at h
    cases hget : Dict.get? attrs name with
    | none =>
      simp only [hget] at h
      cases h
    | some v =>
      simp only [hget] at h
      obtain ⟨c, hc, h⟩ := bind_ok h
      obtain ⟨⟨rest, binary⟩, hrest, h⟩ := bind_ok h
      obtain ⟨rfl, hb⟩ := Prod.mk.inj (Except.ok.inj h)
      rw [Bool.or_eq_false_iff] at hb
      obtain ⟨hv, rfl⟩ := hb
      intro c' hc'
      rcases List.mem_cons.mp hc' with rfl | hc'
      · have htext : component rt v = (encode (rt.str v)).elim (.error .unicodeEncode) .ok := by
          cases v <;> first | rfl | cases hv
        rw [htext, encode] at hc
        split_ifs at hc with he
        · exact ⟨rt.str v, he, (Except.ok.inj hc).symm⟩
        · cases hc
      · exact ih hrest c' hc'

theorem encodable_append {s t : Str} (hs : encodable s = true) (ht : encodable t = true) :
    encodable (s++t) = true := by
  rw [encodable, List.all_append, Bool.and_eq_true]
  exact ⟨hs, ht⟩

theorem utf8_append (s t : Str) : utf8 (s++t) = utf8 s++utf8 t := List.flatMap_append

/-- Frames of text are text. -/
theorem encoded_text {cs : List Bytes} (h : ∀ c ∈ cs, ∃ s, encodable s = true ∧ c = utf8 s) :
    ∃ s, encodable s = true ∧ encoded cs = utf8 s := by
  have hframes : ∃ s, encodable s = true ∧ cs.flatMap frame = utf8 s := by
    induction cs with
    | nil => exact ⟨[], rfl, rfl⟩
    | cons c cs ih =>
      obtain ⟨s, hs, rfl⟩ := h c List.mem_cons_self
      obtain ⟨t, ht, hrest⟩ := ih fun c' hc' => h c' (List.mem_cons_of_mem _ hc')
      have hdigits : isAscii (lit (toString (utf8 s).length)) = true := by
        have hall := (toString_digits (utf8 s).length).2
        rw [List.all_eq_true] at hall
        rw [isAscii, List.all_eq_true]
        intro x hx
        have hdigit := hall x hx
        simp only [isDigit, Bool.and_eq_true, decide_eq_true_eq] at hdigit ⊢
        omega
      refine ⟨lit (toString (utf8 s).length)++lit ":"++s++t, ?_, ?_⟩
      · exact encodable_append (encodable_append (encodable_append
          (encodable_of_ascii _ hdigits) rfl) hs) ht
      · have hcolon : utf8 (lit ":") = [58] := by decide
        rw [List.flatMap_cons, hrest, utf8_append, utf8_append, utf8_append, hcolon, frame,
          decimalBytes]
        simp
  obtain ⟨s, hs, hframes⟩ := hframes
  exact ⟨lit "fpk:"++s, encodable_append rfl hs, by rw [encoded, hframes, utf8_append]⟩

/-- A key exists for all components, and its bytes are the framed components. -/
theorem workflowPartitionKey_bytes {attrs : Payload} {names : List String} {cs : List Bytes}
    {binary : Bool} (hnames : names ≠ []) (h : components rt attrs names = .ok (cs, binary)) :
    ∃ key, workflowPartitionKey rt attrs names = .ok (some key) ∧ keyBytes key = encoded cs ∧
      (binary = false → ∃ s, key = .str s ∧ encodable s = true) := by
  unfold workflowPartitionKey
  rw [if_neg hnames, h]
  cases binary with
  | true => exact ⟨.bytes (encoded cs), rfl, rfl, fun h => by cases h⟩
  | false =>
    obtain ⟨s, hs, hencoded⟩ := encoded_text (components_text h)
    have hdecode : decode (encoded cs) = some s := by rw [hencoded, decode_utf8 hs]
    refine ⟨.str s, ?_, hencoded.symm, fun _ => ⟨s, rfl, hs⟩⟩
    change (match decode (encoded cs) with
      | none => Except.error PartitionError.unicodeDecode
      | some text => .ok (some (Value.str text))) = _
    rw [hdecode]

/-- Partition keys agree as bytes exactly when their components do, and a key without a
binary component is text. -/
theorem partition_keys_are_collision_free (rt : Runtime) (attrs attrs' : Payload)
    (names names' : List String) (hnames : names ≠ []) (hnames' : names' ≠ [])
    (cs cs' : List Bytes) (binary binary' : Bool)
    (h : components rt attrs names = .ok (cs, binary))
    (h' : components rt attrs' names' = .ok (cs', binary')) :
    ∃ key key', workflowPartitionKey rt attrs names = .ok (some key) ∧
      workflowPartitionKey rt attrs' names' = .ok (some key') ∧
      (keyBytes key = keyBytes key' ↔ cs = cs') ∧
      (binary = false → ∃ s, key = .str s ∧ decode (keyBytes key) = some s) := by
  obtain ⟨key, hkey, hbytes, htext⟩ := workflowPartitionKey_bytes hnames h
  obtain ⟨key', hkey', hbytes', -⟩ := workflowPartitionKey_bytes hnames' h'
  refine ⟨key, key', hkey, hkey', ?_, ?_⟩
  · rw [hbytes, hbytes']
    exact ⟨fun heq => frames_inj (List.append_cancel_left heq), fun heq => by rw [heq]⟩
  · intro hb
    obtain ⟨s, rfl, hs⟩ := htext hb
    exact ⟨s, rfl, decode_utf8 hs⟩

theorem partition_keys_are_collision_free_digits :
    ∃ key key', workflowPartitionKey .ascii [("a", .str (lit "1:b")), ("b", .bytes [58])]
        ["a", "b"] = .ok (some key) ∧
      workflowPartitionKey .ascii [("c", .str (lit "fpk:1:"))] ["c"] = .ok (some key') ∧
      (keyBytes key = keyBytes key' ↔
        ([[49, 58, 98], [58]] : List Bytes) = [[102, 112, 107, 58, 49, 58]]) ∧
      (true = false → ∃ s, key = .str s ∧ decode (keyBytes key) = some s) :=
  partition_keys_are_collision_free .ascii [("a", .str (lit "1:b")), ("b", .bytes [58])]
    [("c", .str (lit "fpk:1:"))] ["a", "b"] ["c"] (by decide) (by decide) [[49, 58, 98], [58]]
    [[102, 112, 107, 58, 49, 58]] true false rfl rfl

/-- Popping without an explicit key or a resolver keeps the key of the attributes. -/
theorem pop_partition_key {attrs : Payload} {names : List String} {key : Option Value}
    {left : Payload} (hnone : Dict.get? attrs "partition_key" = none)
    (h : popWorkflowPartitionKey rt attrs names none = .ok (key, left)) :
    workflowPartitionKey rt (Dict.pop attrs "partition_key") names = .ok key ∧
      ∀ name, Dict.get? left name =
        if name ∈ names then none else Dict.get? attrs name := by
  have hfold : ∀ (names : List String) (d : Payload) (name : String),
      Dict.get? (names.foldl Dict.pop d) name = if name ∈ names then none else Dict.get? d name := by
    intro names
    induction names with
    | nil => simp
    | cons n names ih =>
      intro d name
      rw [List.foldl_cons, ih, Dict.get?_pop]
      by_cases hn : n = name
      · simp [hn]
      · simp [hn, Ne.symm hn]
  unfold popWorkflowPartitionKey at h
  simp only [hnone, Option.filter_none] at h
  obtain ⟨k, hk, h⟩ := bind_ok h
  cases h
  refine ⟨hk, fun name => ?_⟩
  rw [hfold, Dict.get?_pop]
  by_cases hname : "partition_key" = name
  · subst hname
    simp [hnone]
  · simp [hname]

end FerricStore.PartitionKeys
