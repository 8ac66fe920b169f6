import FerricStore.BigEndian

/-!
# Readers of byte formats

A reader takes a value off the front of a byte string. `Reads r a b` says that
`r` reads `a` from `b` whatever follows it, which composes along `bind` and over
repeated items, so a format is read back once each of its fields is. Two values
read from the same bytes are equal.
-/

set_option autoImplicit false

namespace FerricStore

def Reader (α : Type) := Bytes → Option (α × Bytes)

namespace Reader

variable {α β : Type}

instance : Monad Reader where
  pure a := fun bs => some (a, bs)
  bind r f := fun bs => (r bs).bind fun p => f p.1 p.2

def fail : Reader α := fun _ => none

def take (n : ℕ) : Reader Bytes := fun bs =>
  if n ≤ bs.length then some (bs.take n, bs.drop n) else none

def byte : Reader UInt8
  | [] => none
  | b::bs => some (b, bs)

def nat (w : ℕ) : Reader ℕ := do
  pure (BigEndian.decode (← take w))

def int (w : ℕ) : Reader ℤ := do
  pure (BigEndian.decodeSigned (← take w))

def binary : Reader Bytes := do
  take (← nat 4)

def times (r : Reader α) : ℕ → Reader (List α)
  | 0 => pure []
  | n+1 => do
    let a ← r
    let as ← times r n
    pure (a::as)

/-- A list of items behind its 32-bit count. -/
def counted (r : Reader α) : Reader (List α) := do
  times r (← nat 4)

/-- A byte that stands for a value. -/
def marked (f : UInt8 → Option α) : Reader α := do
  match f (← byte) with
  | some a => pure a
  | none => fail

/-- A field that is there or not, as an earlier field says. -/
def present (there : Bool) (r : Reader α) : Reader (Option α) :=
  if there then do
    let a ← r
    pure (some a)
  else pure none

def parse (r : Reader α) (bs : Bytes) : Option α :=
  match r bs with
  | some (a, []) => some a
  | _ => none

def Reads (r : Reader α) (a : α) (b : Bytes) : Prop :=
  ∀ rest : Bytes, r (b++rest) = some (a, rest)

namespace Reads

theorem parse {r : Reader α} {a : α} {b : Bytes} (h : Reads r a b) :
    Reader.parse r b = some a := by
  have he := h []
  rw [List.append_nil] at he
  rw [Reader.parse, he]

theorem unique {r : Reader α} {a c : α} {b : Bytes} (h : Reads r a b) (h' : Reads r c b) :
    a = c := by
  have he := (h []).symm.trans (h' [])
  simp only [Option.some.injEq, Prod.mk.injEq, and_true] at he
  exact he

theorem pure (a : α) : Reads (Pure.pure a) a [] := fun _ => rfl

theorem bind {r : Reader α} {f : α → Reader β} {a : α} {c : β} {b d : Bytes}
    (h : Reads r a b) (hf : Reads (f a) c d) : Reads (r >>= f) c (b++d) := by
  intro rest
  show ((r (b++d++rest)).bind fun p => f p.1 p.2) = _
  rw [List.append_assoc, h]
  exact hf rest

/-- A last reader followed by a pure step. -/
theorem map {r : Reader α} {f : α → β} {a : α} {b : Bytes} (h : Reads r a b) :
    Reads (r >>= fun x => Pure.pure (f x)) (f a) b := by
  intro rest
  show ((r (b++rest)).bind fun p => some (f p.1, p.2)) = _
  rw [h]
  rfl

theorem take (b : Bytes) : Reads (Reader.take b.length) b b := by
  intro rest
  simp [Reader.take]

theorem byte (b : UInt8) : Reads Reader.byte b [b] := fun _ => rfl

theorem marked {f : UInt8 → Option α} {a : α} {m : UInt8} (h : f m = some a) :
    Reads (Reader.marked f) a [m] := by
  intro rest
  show (match f m with
    | some a => (Pure.pure a : Reader α)
    | none => fail) rest = _
  rw [h]
  rfl

theorem marked_bind {f : UInt8 → Option α} {g : α → Reader β} {a : α} {c : β} {m : UInt8}
    {d : Bytes} (h : f m = some a) (hg : Reads (g a) c d) :
    Reads (Reader.marked f >>= g) c (m::d) := bind (marked h) hg

theorem byte_bind {g : UInt8 → Reader β} {c : β} {m : UInt8} {d : Bytes}
    (hg : Reads (g m) c d) : Reads (Reader.byte >>= g) c (m::d) := bind (byte m) hg

theorem present {r : Reader α} {wire : α → Bytes} (o : Option α)
    (h : ∀ a, o = some a → Reads r a (wire a)) :
    Reads (Reader.present o.isSome r) o (o.elim [] wire) := by
  cases o with
  | none => exact pure none
  | some a => exact map (h a rfl)

theorem nat (w n : ℕ) (h : n < 256^w) : Reads (Reader.nat w) n (BigEndian.encode w n) := by
  have ht := take (BigEndian.encode w n)
  rw [BigEndian.encode_length] at ht
  have hm := map (f := BigEndian.decode) ht
  rw [BigEndian.decode_encode w n h] at hm
  exact hm

theorem int (w : ℕ) (z : ℤ) (hlo : -(256^w : ℤ) ≤ 2*z) (hhi : 2*z < 256^w) :
    Reads (Reader.int w) z (BigEndian.encodeSigned w z) := by
  have ht := take (BigEndian.encodeSigned w z)
  rw [BigEndian.encodeSigned_length] at ht
  have hm := map (f := BigEndian.decodeSigned) ht
  rw [BigEndian.decodeSigned_encodeSigned w z hlo hhi] at hm
  exact hm

theorem binary (b : Bytes) (h : b.length < 256^4) :
    Reads Reader.binary b (BigEndian.encode 4 b.length++b) :=
  bind (nat 4 b.length h) (take b)

theorem times {r : Reader α} {wire : α → Bytes} (as : List α)
    (h : ∀ a ∈ as, Reads r a (wire a)) : Reads (r.times as.length) as (as.flatMap wire) := by
  induction as with
  | nil => exact pure []
  | cons a as ih =>
    have ha := h a (by simp)
    have has := ih fun c hc => h c (by simp [hc])
    exact bind ha (map has)

theorem counted {r : Reader α} {wire : α → Bytes} (as : List α) (hn : as.length < 256^4)
    (h : ∀ a ∈ as, Reads r a (wire a)) :
    Reads r.counted as (BigEndian.encode 4 as.length++as.flatMap wire) :=
  bind (nat 4 as.length hn) (times as h)

end Reads
end Reader
end FerricStore
