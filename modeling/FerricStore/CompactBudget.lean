import FerricStore.Metered
import FerricStore.Value

/-!
# The byte budget of compact requests

A compact encoder declines a request it cannot express, and raises the capacity
error when the body would pass the admitted bytes. Text is measured without
being encoded unless four bytes for every code point fit. `binaryOf` is what a
binary argument stands for; the measured sizes are the sizes of its encoding.
-/

set_option autoImplicit false

namespace FerricStore.CompactBudget
open Text Metered

structure CompactEncodingPolicy where
  enabled : Bool
  maxPayloadBytes : Option ℕ
  pendingLimit : Option ℕ

def unboundedPolicy : CompactEncodingPolicy := ⟨true, none, none⟩

/-- The result of a compact encoder: bytes, or `None` when it declines. -/
def finish {α : Type} (pendingLimit : Option ℕ) :
    Except (Stop Err) (α × ℕ) → Except Err (Option α)
  | .ok (a, _) => .ok (some a)
  | .error .declined => .ok none
  | .error .full => .error (.pendingCapacity pendingLimit)
  | .error (.raised e) => .error e

theorem finish_eq_some {α : Type} {pending : Option ℕ} {r : Except (Stop Err) (α × ℕ)} {a : α}
    (h : finish pending r = .ok (some a)) : ∃ w, r = .ok (a, w) := by
  rcases r with (_ | _ | _) | ⟨b, w⟩ <;> cases h
  exact ⟨w, rfl⟩

/-- An encoder that opens its budget under the active policy. -/
def runPolicy {α : Type} (policy : CompactEncodingPolicy) (x : Metered Err α) :
    Except Err (Option α) :=
  if policy.enabled then finish policy.pendingLimit (x policy.maxPayloadBytes 0) else .ok none

def wireSizeFrom : ℕ → Str → Option ℕ
  | size, [] => some size
  | size, c::s =>
    if c.val ≤ 0x7F then wireSizeFrom (size+1) s
    else if c.val ≤ 0x7FF then wireSizeFrom (size+2) s
    else if 0xD800 ≤ c.val ∧ c.val ≤ 0xDFFF then none
    else if c.val ≤ 0xFFFF then wireSizeFrom (size+3) s
    else wireSizeFrom (size+4) s

def binaryWireSize : Value → Option ℕ
  | .bytes b => some (4+b.length)
  | .str s => if isAscii s then some (4+s.length) else wireSizeFrom 4 s
  | _ => none

/-- `str.encode`. -/
def encodeStr (s : Str) : Metered Err Bytes :=
  match encode s with
  | some b => pure b
  | none => raise .unicodeEncode

/-- `_bounded_maybe_bytes` against a budget. -/
def boundedMaybeBytes : Value → Metered Err (Option Bytes)
  | .bytes b => do
    reserve (4+b.length)
    pure (some b)
  | .str s => do
    if ← canReserve (4+4*s.length) then
      let encoded ← encodeStr s
      reserve (4+encoded.length)
      pure (some encoded)
    else
      match binaryWireSize (.str s) with
      | none => do
        let _ ← encodeStr s
        pure none
      | some size => do
        reserve size
        let encoded ← encodeStr s
        pure (some encoded)
  | _ => pure none

/-- `_bounded_optional_bytes`: the outer `none` is the result `False`. -/
def boundedOptionalBytes (v : Value) : Metered Err (Option (Option Bytes)) :=
  match v with
  | .none => pure (some none)
  | v => do
    let encoded ← boundedMaybeBytes v
    pure (encoded.map some)

def fits (size : ℕ) : Metered Err Bool := fun limit used =>
  .ok (limit.all fun m => size ≤ m, used)

def requireFits (size : ℕ) : Metered Err Unit := fun limit used =>
  if limit.all fun m => size ≤ m then .ok ((), used) else .error .full

/-- `_bounded_maybe_bytes` without a budget: the limit bounds the value alone. -/
def unreservedMaybeBytes : Value → Metered Err (Option Bytes)
  | .bytes b => do
    requireFits (4+b.length)
    pure (some b)
  | .str s => do
    if ← fits (4+4*s.length) then
      let encoded ← encodeStr s
      requireFits (4+encoded.length)
      pure (some encoded)
    else
      match binaryWireSize (.str s) with
      | none => do
        let _ ← encodeStr s
        pure none
      | some size => do
        requireFits size
        let encoded ← encodeStr s
        pure (some encoded)
  | _ => pure none

/-- `_maybe_bytes` under a policy that bounds nothing. -/
def maybeBytes : Value → Except Err (Option Bytes)
  | .bytes b => .ok (some b)
  | .str s => (encode s).elim (.error .unicodeEncode) fun b => .ok (some b)
  | _ => .ok none

def binaryOf : Value → Option Bytes
  | .bytes b => some b
  | .str s => encode s
  | _ => none

theorem wireSizeFrom_cons (size : ℕ) (c : CodePoint) (s : Str) :
    wireSizeFrom size (c::s) =
      if isSurrogate c then none else wireSizeFrom (size+utf8Size c) s := by
  rw [wireSizeFrom]
  unfold utf8Size
  cases hs : isSurrogate c with
  | true =>
    simp only [isSurrogate, Bool.and_eq_true, decide_eq_true_eq] at hs
    rw [if_neg (by omega), if_neg (by omega), if_pos hs]
    rfl
  | false =>
    simp only [isSurrogate, Bool.and_eq_false_iff, decide_eq_false_iff_not] at hs
    rw [if_neg (by omega : ¬ (0xD800 ≤ c.val ∧ c.val ≤ 0xDFFF))]
    simp only [Bool.false_eq_true, if_false]
    split_ifs <;> rfl

theorem wireSizeFrom_eq (size : ℕ) (s : Str) :
    wireSizeFrom size s = if encodable s then some (size+(utf8 s).length) else none := by
  induction s generalizing size with
  | nil => rfl
  | cons c s ih =>
    have hl : (utf8 (c::s)).length = utf8Size c+(utf8 s).length := by
      simp [utf8, utf8Point_length]
    have he : encodable (c::s) = (!isSurrogate c && encodable s) := rfl
    rw [wireSizeFrom_cons, hl, he, ih]
    cases isSurrogate c <;> simp [Nat.add_assoc]

theorem binaryWireSize_eq (v : Value) :
    binaryWireSize v = (binaryOf v).map fun b => 4+b.length := by
  cases v with
  | str s =>
    simp only [binaryWireSize, binaryOf, encode]
    split_ifs with ha he he
    · simp [utf8_length_ascii s ha]
    · exact absurd (encodable_of_ascii s ha) he
    · simp [wireSizeFrom_eq, he]
    · simp [wireSizeFrom_eq, he]
  | bytes b => rfl
  | _ => rfl

theorem encodeStr_of_some {s : Str} {b : Bytes} (h : encode s = some b) :
    encodeStr s = pure b := by
  rw [encodeStr, h]

theorem encode_length_le {s : Str} {b : Bytes} (h : encode s = some b) :
    b.length ≤ 4*s.length := by
  unfold encode at h
  split_ifs at h
  cases h
  exact utf8_length_le s

theorem boundedMaybeBytes_str_unlimited (s : Str) (used : ℕ) :
    boundedMaybeBytes (.str s) none used = match encode s with
      | some b => .ok (some b, used+(4+b.length))
      | none => .error (.raised .unicodeEncode) := by
  simp only [boundedMaybeBytes]
  rw [bind_of_ok (show canReserve _ none used = .ok (true, used) from rfl)]
  simp only [if_true, encodeStr]
  cases encode s <;> rfl

theorem boundedMaybeBytes_unlimited (v : Value) (used w : ℕ) (o : Option Bytes)
    (h : boundedMaybeBytes v none used = .ok (o, w)) :
    o = binaryOf v ∧ w = used+(o.elim 0 fun b => 4+b.length) := by
  cases v with
  | str s =>
    rw [boundedMaybeBytes_str_unlimited] at h
    simp only [binaryOf]
    cases he : encode s with
    | none =>
      rw [he] at h
      cases h
    | some b =>
      rw [he] at h
      cases h
      exact ⟨rfl, rfl⟩
  | _ =>
    cases h
    exact ⟨rfl, rfl⟩

/-- Encoding first and measuring first reserve the same bytes. -/
theorem boundedMaybeBytes_str_limited (s : Str) (used m : ℕ) {b : Bytes}
    (he : encode s = some b) :
    boundedMaybeBytes (.str s) (some m) used =
      if used+(4+b.length) ≤ m then .ok (some b, used+(4+b.length)) else .error .full := by
  have hle := encode_length_le he
  have hsize : binaryWireSize (.str s) = some (4+b.length) := by
    rw [binaryWireSize_eq, binaryOf, he]
    rfl
  simp only [boundedMaybeBytes, encodeStr_of_some he, hsize]
  by_cases hc : used+(4+4*s.length) ≤ m
  · have hv : used+(4+b.length) ≤ m := by omega
    rw [if_pos hv]
    simp [bind, canReserve, reserve, hc, hv, pure]
  · simp [bind, canReserve, reserve, hc, pure]
    split_ifs <;> rfl

theorem boundedMaybeBytes_str_invalid (s : Str) (used m : ℕ) (he : encode s = none) :
    boundedMaybeBytes (.str s) (some m) used = .error (.raised .unicodeEncode) := by
  have hsize : binaryWireSize (.str s) = none := by
    rw [binaryWireSize_eq, binaryOf, he]
    rfl
  simp only [boundedMaybeBytes, encodeStr, he, hsize]
  by_cases hc : used+(4+4*s.length) ≤ m <;> simp [bind, canReserve, raise, hc]

instance boundedMaybeBytes_exact (lo : ℕ) (v : Value) : Exact lo (boundedMaybeBytes v) := by
  cases v with
  | bytes b => exact Exact.seq inferInstance inferInstance
  | str s =>
    constructor
    · intro used w o _ h
      rw [boundedMaybeBytes_str_unlimited] at h
      cases he : encode s with
      | none =>
        rw [he] at h
        cases h
      | some b =>
        rw [he] at h
        cases h
        exact ⟨by omega, fun m _ => boundedMaybeBytes_str_limited s used m he⟩
    · intro m used r h
      rw [boundedMaybeBytes_str_unlimited]
      cases he : encode s with
      | none =>
        rw [boundedMaybeBytes_str_invalid s used m he] at h
        cases h
      | some b =>
        rw [boundedMaybeBytes_str_limited s used m he] at h
        split_ifs at h
        exact h
  | _ => exact Exact.pure lo _

instance boundedOptionalBytes_exact (lo : ℕ) (v : Value) :
    Exact lo (boundedOptionalBytes v) := by
  unfold boundedOptionalBytes
  split
  · exact Exact.pure lo _
  · exact Exact.seq inferInstance inferInstance

/-- What an optional binary argument stands for; the outer `none` is no binary. -/
def optionalBinaryOf : Value → Option (Option Bytes)
  | .none => some none
  | v => (binaryOf v).map some

theorem boundedOptionalBytes_unlimited (v : Value) (used w : ℕ) (o : Option (Option Bytes))
    (h : boundedOptionalBytes v none used = .ok (o, w)) :
    o = optionalBinaryOf v ∧ w = used+(o.join.elim 0 fun b => 4+b.length) := by
  unfold boundedOptionalBytes at h
  split at h
  · obtain ⟨rfl, rfl⟩ := pure_eq_ok h
    exact ⟨rfl, rfl⟩
  · rename_i hv
    obtain ⟨e, u, he, h⟩ := bind_eq_ok h
    obtain ⟨rfl, rfl⟩ := pure_eq_ok h
    obtain ⟨rfl, rfl⟩ := boundedMaybeBytes_unlimited _ _ _ _ he
    refine ⟨?_, ?_⟩
    · cases v <;> first | rfl | exact absurd rfl hv
    · cases binaryOf v <;> rfl

theorem unreservedMaybeBytes_str (s : Str) (limit : Option ℕ) (used : ℕ) {b : Bytes}
    (he : encode s = some b) (hfit : limit.all fun m => 4+b.length ≤ m) :
    unreservedMaybeBytes (.str s) limit used = .ok (some b, used) := by
  have hsize : binaryWireSize (.str s) = some (4+b.length) := by
    rw [binaryWireSize_eq, binaryOf, he]
    rfl
  simp only [unreservedMaybeBytes, encodeStr_of_some he, hsize]
  cases hc : limit.all fun m => 4+4*s.length ≤ m <;>
    simp [bind, fits, requireFits, hc, hfit, pure]

theorem unreservedMaybeBytes_unlimited (v : Value) (used w : ℕ) (o : Option Bytes)
    (h : unreservedMaybeBytes v none used = .ok (o, w)) : o = binaryOf v ∧ w = used := by
  cases v with
  | str s =>
    cases he : encode s with
    | some b =>
      rw [unreservedMaybeBytes_str s none used he rfl] at h
      cases h
      exact ⟨he.symm, rfl⟩
    | none =>
      simp [unreservedMaybeBytes, bind, fits, encodeStr, he, raise] at h
  | _ =>
    cases h
    exact ⟨rfl, rfl⟩

/-- Without a budget the limit is met as soon as the value itself fits. -/
theorem unreservedMaybeBytes_fits (v : Value) (o : Option Bytes) (m used w : ℕ)
    (h : unreservedMaybeBytes v none used = .ok (o, w))
    (hfit : ∀ b, o = some b → 4+b.length ≤ m) :
    unreservedMaybeBytes v (some m) used = .ok (o, w) := by
  obtain ⟨rfl, rfl⟩ := unreservedMaybeBytes_unlimited _ _ _ _ h
  cases v with
  | str s =>
    cases he : encode s with
    | some b =>
      simp only [binaryOf, he]
      exact unreservedMaybeBytes_str s (some m) _ he (by simpa using hfit b he)
    | none =>
      simp [unreservedMaybeBytes, bind, fits, encodeStr, he, raise] at h
  | bytes c => simp [unreservedMaybeBytes, bind, requireFits, hfit c rfl, pure, binaryOf]
  | _ => rfl

theorem unreservedMaybeBytes_relaxed (v : Value) (m used : ℕ) (r : Option Bytes × ℕ)
    (h : unreservedMaybeBytes v (some m) used = .ok r) :
    unreservedMaybeBytes v none used = .ok r := by
  cases v with
  | str s =>
    cases he : encode s with
    | none =>
      have hsize : binaryWireSize (.str s) = none := by
        rw [binaryWireSize_eq, binaryOf, he]
        rfl
      simp only [unreservedMaybeBytes, encodeStr, he, hsize] at h
      by_cases hc : 4+4*s.length ≤ m <;> simp [bind, fits, raise, hc] at h
    | some b =>
      rw [unreservedMaybeBytes_str s none used he rfl]
      have hsize : binaryWireSize (.str s) = some (4+b.length) := by
        rw [binaryWireSize_eq, binaryOf, he]
        rfl
      simp only [unreservedMaybeBytes, encodeStr_of_some he, hsize] at h
      by_cases hc : 4+4*s.length ≤ m <;> by_cases hb : 4+b.length ≤ m <;>
        simp [bind, fits, requireFits, pure, hc, hb] at h ⊢ <;> exact h
  | bytes b =>
    simp only [unreservedMaybeBytes, bind, requireFits] at h ⊢
    split_ifs at h
    exact h
  | _ => exact h

/-- A value that is looked at without a reservation must be no larger than what
is already reserved whenever the rest succeeds. -/
theorem unreservedMaybeBytes_seq {β : Type} {lo : ℕ} (v : Value)
    (f : Option Bytes → Metered Err β) (hf : ∀ o, Exact lo (f o))
    (hsmall : ∀ b used r, f (some b) none used = .ok r → 4+b.length ≤ lo) :
    Exact lo (unreservedMaybeBytes v >>= f) where
  limited used w a hu h := by
    obtain ⟨o, u, ho, hrest⟩ := bind_eq_ok h
    obtain ⟨-, rfl⟩ := unreservedMaybeBytes_unlimited _ _ _ _ ho
    obtain ⟨huw, hlim⟩ := (hf o).limited _ _ _ hu hrest
    refine ⟨huw, fun m hm => ?_⟩
    have hfit := unreservedMaybeBytes_fits v o m _ _ ho (by
      rintro b rfl
      have := hsmall b _ _ hrest
      omega)
    rw [bind_of_ok hfit, hlim m hm]
  relaxed m used r h := by
    obtain ⟨a, w⟩ := r
    obtain ⟨o, u, ho, h⟩ := bind_eq_ok h
    rw [bind_of_ok (unreservedMaybeBytes_relaxed v m used _ ho)]
    exact (hf o).relaxed m u _ h

theorem maybeBytes_eq_ok (v : Value) (o : Option Bytes) (h : maybeBytes v = .ok o) :
    o = binaryOf v := by
  cases v with
  | str s =>
    simp only [maybeBytes, binaryOf] at *
    cases he : encode s with
    | none =>
      rw [he] at h
      cases h
    | some b =>
      rw [he] at h
      cases h
      rfl
  | _ =>
    cases h
    rfl

end FerricStore.CompactBudget
