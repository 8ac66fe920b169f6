import FerricStore.Text

/-!
# Fingerprints of batch values

`batch_fingerprint` maps a value to a key that keeps the types of its parts and forgets the
order of mappings and sets. Two values with equal keys are equal in value and type; the
bits of a float that is not a number are the only thing a key does not show.
-/

set_option autoImplicit false

namespace FerricStore.BatchFingerprints

open Text

structure TypeName where
  moduleName : String
  qualname : String
  deriving DecidableEq, Repr

/-- A value that a handler returns, as far as the code looks into it, with classes `C`. -/
inductive ObjOf (C : Type) where
  | none
  | bool (b : Bool)
  | int (n : ℤ)
  | float (bits : BitVec 64)
  | str (s : Str)
  | bytes (b : Bytes)
  | bytearray (b : Bytes)
  | enum (type : C) (value : ObjOf C)
  | dataclass (type : C) (fields : List (String × ObjOf C))
  | list (items : List (ObjOf C))
  | tuple (items : List (ObjOf C))
  | mapping (type : C) (entries : List (ObjOf C × ObjOf C))
  | set (items : List (ObjOf C))
  | frozenset (items : List (ObjOf C))
  | object (id : ℕ)

/-- A value with the names of its classes, which is all that a key shows of them. -/
abbrev Obj := ObjOf TypeName

def isNan (bits : BitVec 64) : Bool :=
  bits.extractLsb' 52 11 = 0x7FF#11 ∧ bits.extractLsb' 0 52 ≠ 0#52

inductive Atom where
  | none
  | bool (b : Bool)
  | int (n : ℤ)
  | float (hex : Option (BitVec 64))
  | str (s : Str)
  | bytes (b : Bytes)
  | bytearray (b : Bytes)
  | identity (id : ℕ)
  deriving DecidableEq

inductive Tag where
  | enum (type : TypeName)
  | dataclass (type : TypeName) (names : List String)
  | list
  | tuple
  | mapping (type : TypeName)
  | entry
  | set
  | frozenset
  deriving DecidableEq

/-- A key: its parts are in order, or counted in a frozen set. -/
inductive Fingerprint where
  | atom (a : Atom)
  | node (tag : Tag) (parts : List Fingerprint)
  | bag (tag : Tag) (parts : List Fingerprint)

/-- `float.hex`, which is the same text for all that is not a number. -/
def hex (bits : BitVec 64) : Option (BitVec 64) := if isNan bits then none else some bits

mutual
def batchFingerprint : Obj → Fingerprint
  | .none => .atom .none
  | .bool b => .atom (.bool b)
  | .int n => .atom (.int n)
  | .float bits => .atom (.float (hex bits))
  | .str s => .atom (.str s)
  | .bytes b => .atom (.bytes b)
  | .bytearray b => .atom (.bytearray b)
  | .enum type value => .node (.enum type) [batchFingerprint value]
  | .dataclass type fields =>
    .node (.dataclass type (fields.map Prod.fst)) (fingerprintFields fields)
  | .list items => .node .list (fingerprintItems items)
  | .tuple items => .node .tuple (fingerprintItems items)
  | .mapping type entries => .bag (.mapping type) (fingerprintEntries entries)
  | .set items => .bag .set (fingerprintItems items)
  | .frozenset items => .bag .frozenset (fingerprintItems items)
  | .object id => .atom (.identity id)
def fingerprintItems : List Obj → List Fingerprint
  | [] => []
  | x::xs => batchFingerprint x::fingerprintItems xs
def fingerprintFields : List (String × Obj) → List Fingerprint
  | [] => []
  | (_, x)::fields => batchFingerprint x::fingerprintFields fields
def fingerprintEntries : List (Obj × Obj) → List Fingerprint
  | [] => []
  | (k, x)::entries =>
    .node .entry [batchFingerprint k, batchFingerprint x]::fingerprintEntries entries
end

mutual
/-- Equality of keys. Frozen sets of counted keys are equal if their keys can be paired. -/
def same : Fingerprint → Fingerprint → Bool
  | .atom a, .atom b => a = b
  | .node s xs, .node t ys => s = t && sameParts xs ys
  | .bag s xs, .bag t ys => s = t && sameBag xs ys
  | _, _ => false
def sameParts : List Fingerprint → List Fingerprint → Bool
  | [], [] => true
  | x::xs, y::ys => same x y && sameParts xs ys
  | _, _ => false
def sameBag : List Fingerprint → List Fingerprint → Bool
  | [], ys => ys.isEmpty
  | x::xs, ys => ys.any (same x) && sameBag xs (ys.eraseP (same x))
end

/-- `BatchValueMatcher.matches`; the same object has the same key. -/
def matchesValue (reference value : Obj) : Bool :=
  same (batchFingerprint value) (batchFingerprint reference)

/-- Equal in value and type: mappings and sets may differ in their order and numbers that are
not numbers in their bits. -/
inductive Same {C : Type} : ObjOf C → ObjOf C → Prop where
  | refl (a : ObjOf C) : Same a a
  | nan {a b : BitVec 64} (ha : isNan a = true) (hb : isNan b = true) :
      Same (.float a) (.float b)
  | enum (type : C) {a b : ObjOf C} (h : Same a b) : Same (.enum type a) (.enum type b)
  | dataclass (type : C) {xs ys : List (String × ObjOf C)}
      (hnames : xs.map Prod.fst = ys.map Prod.fst)
      (h : List.Forall₂ Same (xs.map Prod.snd) (ys.map Prod.snd)) :
      Same (.dataclass type xs) (.dataclass type ys)
  | list {xs ys : List (ObjOf C)} (h : List.Forall₂ Same xs ys) : Same (.list xs) (.list ys)
  | tuple {xs ys : List (ObjOf C)} (h : List.Forall₂ Same xs ys) : Same (.tuple xs) (.tuple ys)
  | mapping (type : C) {xs ys zs : List (ObjOf C × ObjOf C)} (hperm : zs.Perm ys)
      (hkeys : List.Forall₂ Same (xs.map Prod.fst) (zs.map Prod.fst))
      (hitems : List.Forall₂ Same (xs.map Prod.snd) (zs.map Prod.snd)) :
      Same (.mapping type xs) (.mapping type ys)
  | set {xs ys zs : List (ObjOf C)} (hperm : zs.Perm ys) (h : List.Forall₂ Same xs zs) :
      Same (.set xs) (.set ys)
  | frozenset {xs ys zs : List (ObjOf C)} (hperm : zs.Perm ys) (h : List.Forall₂ Same xs zs) :
      Same (.frozenset xs) (.frozenset ys)

theorem same_float {C : Type} {a b : BitVec 64} (h : hex a = hex b) :
    Same (.float a : ObjOf C) (.float b) := by
  unfold hex at h
  split_ifs at h with ha hb hb
  · exact .nan ha hb
  · obtain rfl := Option.some.inj h
    exact .refl _

theorem fingerprintItems_eq (xs : List Obj) : fingerprintItems xs = xs.map batchFingerprint := by
  induction xs with
  | nil => rfl
  | cons x xs ih => rw [fingerprintItems, List.map_cons, ih]

def entryFingerprint (e : Obj × Obj) : Fingerprint :=
  .node .entry [batchFingerprint e.1, batchFingerprint e.2]

theorem fingerprintEntries_eq (es : List (Obj × Obj)) :
    fingerprintEntries es = es.map entryFingerprint := by
  induction es with
  | nil => rfl
  | cons e es ih => rw [fingerprintEntries, List.map_cons, ih]; rfl

theorem same_entry {e f : Obj × Obj} (h : same (entryFingerprint e) (entryFingerprint f) = true) :
    same (batchFingerprint e.1) (batchFingerprint f.1) = true ∧
      same (batchFingerprint e.2) (batchFingerprint f.2) = true := by
  simpa [entryFingerprint, same, sameParts] using h

/-- The first key of a bag is paired with one of the other. -/
theorem sameBag_cons {α : Type} {f : α → Fingerprint} {x : Fingerprint} {xs : List Fingerprint}
    {ys : List α} (h : sameBag (x::xs) (ys.map f) = true) :
    ∃ y before after, ys = before++y::after ∧ same x (f y) = true ∧
      sameBag xs ((before++after).map f) = true := by
  rw [sameBag, Bool.and_eq_true, List.any_eq_true] at h
  obtain ⟨⟨z, hz, hxz⟩, hrest⟩ := h
  obtain ⟨y, hy, rfl⟩ := List.mem_map.mp hz
  rw [List.eraseP_map] at hrest
  obtain ⟨w, before, after, -, hw, hsplit, herase⟩ :=
    List.exists_of_eraseP (p := same x ∘ f) hy hxz
  rw [herase] at hrest
  exact ⟨w, before, after, hsplit, hw, hrest⟩

mutual
theorem same_sound (a b : Obj)
    (h : same (batchFingerprint a) (batchFingerprint b) = true) : Same a b := by
  match a with
  | .none =>
    cases b <;> simp [batchFingerprint, same] at h
    exact .refl _
  | .bool x =>
    cases b <;> simp [batchFingerprint, same] at h
    subst h
    exact .refl _
  | .int x =>
    cases b <;> simp [batchFingerprint, same] at h
    subst h
    exact .refl _
  | .float x =>
    cases b <;> simp [batchFingerprint, same] at h
    exact same_float h
  | .str x =>
    cases b <;> simp [batchFingerprint, same] at h
    subst h
    exact .refl _
  | .bytes x =>
    cases b <;> simp [batchFingerprint, same] at h
    subst h
    exact .refl _
  | .bytearray x =>
    cases b <;> simp [batchFingerprint, same] at h
    subst h
    exact .refl _
  | .object x =>
    cases b <;> simp [batchFingerprint, same] at h
    subst h
    exact .refl _
  | .enum type x =>
    cases b <;> simp [batchFingerprint, same, sameParts] at h
    obtain ⟨rfl, hx⟩ := h
    exact .enum _ (same_sound x _ hx)
  | .dataclass type xs =>
    cases b <;> simp [batchFingerprint, same] at h
    obtain ⟨⟨rfl, hnames⟩, hxs⟩ := h
    exact .dataclass _ hnames (sameFields_sound xs _ hxs)
  | .list xs =>
    cases b <;> simp [batchFingerprint, same] at h
    exact .list (sameItems_sound xs _ h)
  | .tuple xs =>
    cases b <;> simp [batchFingerprint, same] at h
    exact .tuple (sameItems_sound xs _ h)
  | .mapping type xs =>
    cases b <;> simp [batchFingerprint, same] at h
    obtain ⟨rfl, hxs⟩ := h
    obtain ⟨zs, hperm, hkeys, hitems⟩ := sameEntries_sound xs _ hxs
    exact .mapping _ hperm hkeys hitems
  | .set xs =>
    cases b <;> simp [batchFingerprint, same] at h
    obtain ⟨zs, hperm, hzs⟩ := sameSet_sound xs _ h
    exact .set hperm hzs
  | .frozenset xs =>
    cases b <;> simp [batchFingerprint, same] at h
    obtain ⟨zs, hperm, hzs⟩ := sameSet_sound xs _ h
    exact .frozenset hperm hzs
theorem sameItems_sound (xs ys : List Obj)
    (h : sameParts (fingerprintItems xs) (fingerprintItems ys) = true) :
    List.Forall₂ Same xs ys := by
  match xs, ys with
  | [], [] => exact .nil
  | [], _::_ => cases h
  | _::_, [] => cases h
  | x::xs, y::ys =>
    rw [fingerprintItems, fingerprintItems, sameParts, Bool.and_eq_true] at h
    exact .cons (same_sound x y h.1) (sameItems_sound xs ys h.2)
theorem sameFields_sound (xs ys : List (String × Obj))
    (h : sameParts (fingerprintFields xs) (fingerprintFields ys) = true) :
    List.Forall₂ Same (xs.map Prod.snd) (ys.map Prod.snd) := by
  match xs, ys with
  | [], [] => exact .nil
  | [], _::_ => cases h
  | _::_, [] => cases h
  | (_, x)::xs, (_, y)::ys =>
    rw [fingerprintFields, fingerprintFields, sameParts, Bool.and_eq_true] at h
    exact .cons (same_sound x y h.1) (sameFields_sound xs ys h.2)
theorem sameSet_sound (xs ys : List Obj)
    (h : sameBag (fingerprintItems xs) (fingerprintItems ys) = true) :
    ∃ zs : List Obj, zs.Perm ys ∧ List.Forall₂ Same xs zs := by
  match xs with
  | [] =>
    cases ys with
    | nil => exact ⟨[], .nil, .nil⟩
    | cons y ys => cases h
  | x::xs =>
    rw [fingerprintItems, fingerprintItems_eq ys] at h
    obtain ⟨y, before, after, rfl, hy, hrest⟩ := sameBag_cons h
    rw [← fingerprintItems_eq] at hrest
    obtain ⟨zs, hperm, hzs⟩ := sameSet_sound xs (before++after) hrest
    exact ⟨y::zs, (hperm.cons y).trans List.perm_middle.symm, .cons (same_sound x y hy) hzs⟩
theorem sameEntries_sound (xs ys : List (Obj × Obj))
    (h : sameBag (fingerprintEntries xs) (fingerprintEntries ys) = true) :
    ∃ zs : List (Obj × Obj), zs.Perm ys ∧ List.Forall₂ Same (xs.map Prod.fst) (zs.map Prod.fst) ∧
      List.Forall₂ Same (xs.map Prod.snd) (zs.map Prod.snd) := by
  match xs with
  | [] =>
    cases ys with
    | nil => exact ⟨[], .nil, .nil, .nil⟩
    | cons y ys => cases h
  | (k, x)::xs =>
    rw [fingerprintEntries, fingerprintEntries_eq ys] at h
    obtain ⟨y, before, after, rfl, hy, hrest⟩ := sameBag_cons h
    obtain ⟨hkey, hitem⟩ := same_entry (e := (k, x)) hy
    rw [← fingerprintEntries_eq] at hrest
    obtain ⟨zs, hperm, hkeys, hitems⟩ := sameEntries_sound xs (before++after) hrest
    exact ⟨y::zs, (hperm.cons y).trans List.perm_middle.symm,
      .cons (same_sound k y.1 hkey) hkeys, .cons (same_sound x y.2 hitem) hitems⟩
end

/-- What matches the reference is equal to it. -/
theorem matchesValue_sound {reference value : Obj} (h : matchesValue reference value = true) :
    Same value reference := same_sound value reference h

end FerricStore.BatchFingerprints
