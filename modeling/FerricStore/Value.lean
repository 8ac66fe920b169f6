import FerricStore.Dict
import FerricStore.Stateful
import FerricStore.Text

/-!
# Dynamic values, exceptions and the interpreter's conversions

The SDK handles untyped arguments. A value is one of the types the code tests
for, or an object of any other type. A dictionary keeps its entries in insertion
order. The conversions which the interpreter supplies (Unicode case tables,
`str` of a container, `int` and `float` of text) are fields of `Runtime`, so a
result about the SDK holds whatever they return.
-/

set_option autoImplicit false

namespace FerricStore
open Text

/-- A dictionary key. Text and bytes are never equal as keys. -/
inductive Key where
  | str (s : Str)
  | bytes (b : Bytes)
  | other (id : ℕ)
  deriving DecidableEq, Repr

/-- A value the SDK receives or returns. A float is its 64-bit pattern. -/
inductive Value where
  | none
  | bool (b : Bool)
  | int (n : ℤ)
  | float (bits : BitVec 64)
  | str (s : Str)
  | bytes (b : Bytes)
  | bytearray (b : Bytes)
  | list (items : List Value)
  | tuple (items : List Value)
  | dict (entries : List (Key × Value))
  | object (typeName : String) (id : ℕ)
  deriving Repr

/-- The exceptions of the modelled code, each with its text where the source
writes one. -/
inductive Err where
  | ferricStore (message : String)
  | invalidCommand (message : Str)
  | decodedCollectionLimit
  | encodedValueLimit
  | duplicateMapKey (message : String)
  | pendingCapacity (limit : Option ℕ)
  | unicodeEncode
  | unicodeDecode
  | structError
  | indexError
  | overflowError
  | typeError
  | valueError
  | attributeError
  deriving DecidableEq, Repr

/-- The subclasses of `FerricStoreError`. -/
def Err.isFerricStoreError : Err → Bool
  | .ferricStore _ | .invalidCommand _ | .decodedCollectionLimit | .encodedValueLimit
  | .duplicateMapKey _ | .pendingCapacity _ => true
  | _ => false

/-- What the interpreter computes: case mapping of text outside ASCII, `str` of
a value that is not text, an integer, a boolean or `None`, and the numeric
conversions `int` and `float`. -/
structure Runtime where
  upper : Str → Str
  lower : Str → Str
  repr : Value → Str
  int : Value → Except Err ℤ
  float : Value → Except Err (BitVec 64)

namespace Runtime

def upperText (rt : Runtime) (s : Str) : Str :=
  if isAscii s then s.map upperAscii else rt.upper s

def lowerText (rt : Runtime) (s : Str) : Str :=
  if isAscii s then s.map lowerAscii else rt.lower s

def str (rt : Runtime) : Value → Str
  | .none => lit "None"
  | .bool b => lit (if b then "True" else "False")
  | .int n => lit (toString n)
  | .str s => s
  | v => rt.repr v

/-- `_text`: bytes are decoded strictly, anything else is shown by `str`. -/
def text (rt : Runtime) : Value → Except Err Str
  | .bytes b => (decode b).elim (.error .unicodeDecode) .ok
  | v => .ok (rt.str v)

/-- `normalize_command_name`, also called `_command_name` and `_command_token`. -/
def commandToken (rt : Runtime) : Value → Str
  | .bytes b => rt.upperText (decodeReplace b)
  | v => rt.upperText (rt.str v)

def toInt (rt : Runtime) : Value → Except Err ℤ
  | .int n => .ok n
  | .bool b => .ok (if b then 1 else 0)
  | v => rt.int v

def toFloat (rt : Runtime) : Value → Except Err (BitVec 64)
  | .float bits => .ok bits
  | v => rt.float v

/-- An interpreter for ASCII text and native numbers, on which examples run. -/
def ascii : Runtime where
  upper s := s.map upperAscii
  lower s := s.map lowerAscii
  repr _ := []
  int _ := .error .valueError
  float _ := .error .valueError

end Runtime

namespace Value

def isNone : Value → Bool
  | .none => true
  | _ => false

/-- `bool(value)`. -/
def truthy : Value → Bool
  | .none => false
  | .bool b => b
  | .int n => n ≠ 0
  | .float bits => bits &&& 0x7FFFFFFFFFFFFFFF#64 ≠ 0#64
  | .str s => s ≠ []
  | .bytes b | .bytearray b => b ≠ []
  | .list xs | .tuple xs => !xs.isEmpty
  | .dict es => !es.isEmpty
  | .object .. => true

mutual
/-- Equality of values, decided part by part. -/
def same : Value → Value → Bool
  | .none, .none => true
  | .bool a, .bool b => a = b
  | .int a, .int b => a = b
  | .float a, .float b => a = b
  | .str a, .str b => a = b
  | .bytes a, .bytes b => a = b
  | .bytearray a, .bytearray b => a = b
  | .list a, .list b => sameItems a b
  | .tuple a, .tuple b => sameItems a b
  | .dict a, .dict b => sameEntries a b
  | .object s n, .object t m => s = t && n = m
  | _, _ => false
def sameItems : List Value → List Value → Bool
  | [], [] => true
  | a::as, b::bs => same a b && sameItems as bs
  | _, _ => false
def sameEntries : List (Key × Value) → List (Key × Value) → Bool
  | [], [] => true
  | (k, a)::as, (l, b)::bs => k = l && (same a b && sameEntries as bs)
  | _, _ => false
end

mutual
theorem same_iff : ∀ a b : Value, same a b = true ↔ a = b
  | .none, b => by cases b <;> simp [same]
  | .bool _, b => by cases b <;> simp [same]
  | .int _, b => by cases b <;> simp [same]
  | .float _, b => by cases b <;> simp [same]
  | .str _, b => by cases b <;> simp [same]
  | .bytes _, b => by cases b <;> simp [same]
  | .bytearray _, b => by cases b <;> simp [same]
  | .list xs, b => by cases b <;> simp [same, sameItems_iff xs]
  | .tuple xs, b => by cases b <;> simp [same, sameItems_iff xs]
  | .dict es, b => by cases b <;> simp [same, sameEntries_iff es]
  | .object _ _, b => by cases b <;> simp [same]
theorem sameItems_iff : ∀ as bs : List Value, sameItems as bs = true ↔ as = bs
  | [], bs => by cases bs <;> simp [sameItems]
  | a::as, bs => by cases bs <;> simp [sameItems, same_iff a, sameItems_iff as]
theorem sameEntries_iff : ∀ as bs : List (Key × Value), sameEntries as bs = true ↔ as = bs
  | [], bs => by cases bs <;> simp [sameEntries]
  | (k, a)::as, bs => by
    cases bs <;> simp [sameEntries, same_iff a, sameEntries_iff as, Prod.ext_iff, and_assoc]
end

instance : DecidableEq Value := fun a b => decidable_of_iff _ (same_iff a b)

end Value

def isFinite (bits : BitVec 64) : Bool := bits.extractLsb' 52 11 ≠ 0x7FF#11

/-- A request payload: the fields of one command by name, in insertion order. -/
abbrev Payload := Dict String Value

namespace Payload

/-- `payload.get(name)`. -/
def get (p : Payload) (name : String) : Value := (Dict.get? p name).getD .none

def fieldsWithin (p : Payload) (allowed : List String) : Bool :=
  p.all fun e => allowed.contains e.1

end Payload

theorem except_ok_bind {ε α β : Type} (a : α) (f : α → Except ε β) :
    (Except.ok a >>= f) = f a := rfl

theorem except_bind_eq_ok {ε α β : Type} {x : Except ε α} {f : α → Except ε β} {b : β}
    (h : (x >>= f) = .ok b) : ∃ a, x = .ok a ∧ f a = .ok b := by
  cases x with
  | error e => cases h
  | ok a => exact ⟨a, rfl, h⟩

end FerricStore
