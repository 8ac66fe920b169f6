import FerricStore.BatchFingerprints

/-!
# Keys of queued arguments

While an operation waits in a queue its caller may change the lists and mappings it was given.
The key of a queued argument therefore shows the parts of immutable values only; everything
else is known by its identity.
-/

set_option autoImplicit false

namespace FerricStore.QueuedArguments

open Text BatchFingerprints

/-- An argument that waits in the queue. A mutable value, and any object the code does not look
into, is held by its identity. -/
inductive Arg where
  | none
  | bool (b : Bool)
  | int (n : ℤ)
  | float (bits : BitVec 64)
  | str (s : Str)
  | bytes (b : Bytes)
  | enum (type : TypeName) (value : Arg)
  | dataclass (type : TypeName) (fields : List (String × Arg))
  | tuple (items : List Arg)
  | frozenset (items : List Arg)
  | held (id : ℕ)

def Arg.isNone : Arg → Bool
  | .none => true
  | _ => false

mutual
/-- `queued_batch_fingerprint` -/
def queuedBatchFingerprint : Arg → Fingerprint
  | .none => .atom .none
  | .bool b => .atom (.bool b)
  | .int n => .atom (.int n)
  | .float bits => .atom (.float (hex bits))
  | .str s => .atom (.str s)
  | .bytes b => .atom (.bytes b)
  | .enum type value => .node (.enum type) [queuedBatchFingerprint value]
  | .dataclass type fields =>
    .node (.dataclass type (fields.map Prod.fst)) (queuedFields fields)
  | .tuple items => .node .tuple (queuedItems items)
  | .frozenset items => .bag .frozenset (queuedItems items)
  | .held id => .atom (.identity id)
def queuedItems : List Arg → List Fingerprint
  | [] => []
  | x::xs => queuedBatchFingerprint x::queuedItems xs
def queuedFields : List (String × Arg) → List Fingerprint
  | [] => []
  | (_, x)::fields => queuedBatchFingerprint x::queuedFields fields
end

mutual
/-- Without a float that is not a number and without sets. -/
def Arg.plain : Arg → Bool
  | .float bits => !isNan bits
  | .enum _ value => value.plain
  | .dataclass _ fields => plainFields fields
  | .tuple items => plainItems items
  | .frozenset _ => false
  | _ => true
def plainItems : List Arg → Bool
  | [] => true
  | x::xs => x.plain && plainItems xs
def plainFields : List (String × Arg) → Bool
  | [] => true
  | (_, x)::fields => x.plain && plainFields fields
end

mutual
/-- The key of a plain argument is the key of no other. -/
theorem queued_inj (a b : Arg) (ha : a.plain = true)
    (h : same (queuedBatchFingerprint a) (queuedBatchFingerprint b) = true) : a = b := by
  match a with
  | .none => cases b <;> simp [queuedBatchFingerprint, same] at h ⊢
  | .bool x => cases b <;> simp [queuedBatchFingerprint, same] at h ⊢; exact h
  | .int x => cases b <;> simp [queuedBatchFingerprint, same] at h ⊢; exact h
  | .str x => cases b <;> simp [queuedBatchFingerprint, same] at h ⊢; exact h
  | .bytes x => cases b <;> simp [queuedBatchFingerprint, same] at h ⊢; exact h
  | .held x => cases b <;> simp [queuedBatchFingerprint, same] at h ⊢; exact h
  | .float x =>
    cases b <;> simp [queuedBatchFingerprint, same] at h ⊢
    simp only [Arg.plain, Bool.not_eq_eq_eq_not, Bool.not_true] at ha
    unfold hex at h
    rw [if_neg (by simp [ha])] at h
    split_ifs at h
    exact Option.some.inj h
  | .enum type x =>
    cases b <;> simp [queuedBatchFingerprint, same, sameParts] at h ⊢
    exact ⟨h.1, queued_inj x _ (by simpa [Arg.plain] using ha) h.2⟩
  | .dataclass type xs =>
    cases b <;> simp [queuedBatchFingerprint, same] at h ⊢
    exact ⟨h.1.1, queuedFields_inj xs _ (by simpa [Arg.plain] using ha) h.1.2 h.2⟩
  | .tuple xs =>
    cases b <;> simp [queuedBatchFingerprint, same] at h ⊢
    exact queuedItems_inj xs _ (by simpa [Arg.plain] using ha) h
  | .frozenset xs => simp [Arg.plain] at ha
theorem queuedItems_inj (xs ys : List Arg) (hx : plainItems xs = true)
    (h : sameParts (queuedItems xs) (queuedItems ys) = true) : xs = ys := by
  match xs, ys with
  | [], [] => rfl
  | [], y::ys => simp [queuedItems, sameParts] at h
  | x::xs, [] => simp [queuedItems, sameParts] at h
  | x::xs, y::ys =>
    simp only [queuedItems, sameParts, Bool.and_eq_true] at h
    simp only [plainItems, Bool.and_eq_true] at hx
    rw [queued_inj x y hx.1 h.1, queuedItems_inj xs ys hx.2 h.2]
theorem queuedFields_inj (xs ys : List (String × Arg)) (hx : plainFields xs = true)
    (hnames : xs.map Prod.fst = ys.map Prod.fst)
    (h : sameParts (queuedFields xs) (queuedFields ys) = true) : xs = ys := by
  match xs, ys with
  | [], [] => rfl
  | [], y::ys => simp at hnames
  | x::xs, [] => simp at hnames
  | (n, x)::xs, (m, y)::ys =>
    simp only [queuedFields, sameParts, Bool.and_eq_true] at h
    simp only [plainFields, Bool.and_eq_true] at hx
    simp only [List.map_cons, List.cons.injEq] at hnames
    rw [hnames.1, queued_inj x y hx.1 h.1, queuedFields_inj xs ys hx.2 hnames.2 h.2]
end

theorem held_inj {i j : ℕ}
    (h : same (queuedBatchFingerprint (.held i)) (queuedBatchFingerprint (.held j)) = true) :
    i = j := by
  cases queued_inj (.held i) (.held j) rfl h
  rfl

end FerricStore.QueuedArguments
