import FerricStore.BatchFingerprints

/-!
# Fingerprints are exact

Keys are compared as nested tuples and frozen sets of counted keys. The comparison is an
equivalence, so pairing the keys of two bags is counting them, and two values have equal keys
exactly when they have the same structure and their classes have the same names. A key says
no more about a class than its module and its qualified name.
-/

set_option autoImplicit false

namespace FerricStore.BatchFingerprints

open Text

/-! ## Bags up to an equivalence -/

section Bags

variable {α : Type} (r : α → α → Bool)

structure EquivOn (S : α → Prop) : Prop where
  refl : ∀ {a}, S a → r a a = true
  symm : ∀ {a b}, S a → S b → r a b = true → r b a = true
  trans : ∀ {a b c}, S a → S b → S c → r a b = true → r b c = true → r a c = true

def pairable : List α → List α → Bool
  | [], ys => ys.isEmpty
  | x::xs, ys => ys.any (r x) && pairable xs (ys.eraseP (r x))

variable {r} {S : α → Prop} (h : EquivOn r S)

include h

theorem EquivOn.congr {a b c : α} (ha : S a) (hb : S b) (hc : S c) (hab : r a b = true) :
    r c a = r c b := by
  rw [Bool.eq_iff_iff]
  exact ⟨fun hca => h.trans hc ha hb hca hab, fun hcb => h.trans hc hb ha hcb (h.symm ha hb hab)⟩

/-- Two bags can be paired exactly when they have as many of each element. -/
theorem EquivOn.pairable_iff {xs ys : List α} (hxs : ∀ x ∈ xs, S x) (hys : ∀ y ∈ ys, S y) :
    pairable r xs ys = true ↔ ∀ a, S a → xs.countP (r a) = ys.countP (r a) := by
  induction xs generalizing ys with
  | nil =>
    rw [pairable, List.isEmpty_iff]
    constructor
    · rintro rfl a -
      rfl
    · intro hcount
      rw [List.eq_nil_iff_forall_not_mem]
      intro y hy
      have := hcount y (hys y hy)
      rw [List.countP_nil, eq_comm, List.countP_eq_zero] at this
      exact this y hy (h.refl (hys y hy))
  | cons x xs ih =>
    have hx := hxs x List.mem_cons_self
    rw [pairable, Bool.and_eq_true, List.any_eq_true]
    by_cases hany : ∃ y ∈ ys, r x y = true
    · obtain ⟨y, hy, hxy⟩ := hany
      obtain ⟨w, before, after, -, hw, hsplit, herase⟩ := List.exists_of_eraseP hy hxy
      rw [herase, ih (fun x hx => hxs x (List.mem_cons_of_mem _ hx)) fun z hz =>
        hys z (by rw [hsplit]; simp at hz ⊢; tauto)]
      have hSw : S w := hys w (by simp [hsplit])
      refine (and_iff_right ⟨y, hy, hxy⟩).trans (forall₂_congr fun a ha => ?_)
      simp only [hsplit, List.countP_append, List.countP_cons, h.congr hx hSw ha hw]
      omega
    · refine iff_of_false (fun hpair => hany hpair.1) fun hcount => hany ?_
      have := hcount x hx
      rw [List.countP_cons_of_pos (h.refl hx)] at this
      exact List.countP_pos_iff.mp (by omega)

theorem EquivOn.pairable_refl {xs : List α} (hxs : ∀ x ∈ xs, S x) : pairable r xs xs = true :=
  (h.pairable_iff hxs hxs).mpr fun _ _ => rfl

theorem EquivOn.pairable_symm {xs ys : List α} (hxs : ∀ x ∈ xs, S x) (hys : ∀ y ∈ ys, S y)
    (hpair : pairable r xs ys = true) : pairable r ys xs = true :=
  (h.pairable_iff hys hxs).mpr fun a ha => ((h.pairable_iff hxs hys).mp hpair a ha).symm

theorem EquivOn.pairable_trans {xs ys zs : List α} (hxs : ∀ x ∈ xs, S x) (hys : ∀ y ∈ ys, S y)
    (hzs : ∀ z ∈ zs, S z) (hxy : pairable r xs ys = true) (hyz : pairable r ys zs = true) :
    pairable r xs zs = true :=
  (h.pairable_iff hxs hzs).mpr fun a ha =>
    ((h.pairable_iff hxs hys).mp hxy a ha).trans ((h.pairable_iff hys hzs).mp hyz a ha)

theorem EquivOn.forall₂_symm {xs ys : List α} (hxs : ∀ x ∈ xs, S x) (hys : ∀ y ∈ ys, S y)
    (hxy : List.Forall₂ (fun x y => r x y = true) xs ys) :
    List.Forall₂ (fun y x => r y x = true) ys xs := by
  induction hxy with
  | nil => exact .nil
  | cons hr _ ih =>
    simp only [List.forall_mem_cons] at hxs hys
    exact .cons (h.symm hxs.1 hys.1 hr) (ih hxs.2 hys.2)

theorem EquivOn.forall₂_trans {xs ys zs : List α} (hxs : ∀ x ∈ xs, S x) (hys : ∀ y ∈ ys, S y)
    (hzs : ∀ z ∈ zs, S z) (hxy : List.Forall₂ (fun x y => r x y = true) xs ys)
    (hyz : List.Forall₂ (fun y z => r y z = true) ys zs) :
    List.Forall₂ (fun x z => r x z = true) xs zs := by
  induction hxy generalizing zs with
  | nil => exact hyz
  | cons hr _ ih =>
    cases hyz with
    | cons hr' hyz =>
      simp only [List.forall_mem_cons] at hxs hys hzs
      exact .cons (h.trans hxs.1 hys.1 hzs.1 hr hr') (ih hxs.2 hys.2 hzs.2 hyz)

end Bags

/-! ## Equality of keys -/

mutual
def height : Fingerprint → ℕ
  | .atom _ => 0
  | .node _ parts => heights parts+1
  | .bag _ parts => heights parts+1
def heights : List Fingerprint → ℕ
  | [] => 0
  | x::xs => max (height x) (heights xs)
end

theorem height_le_heights {xs : List Fingerprint} {x : Fingerprint} (hx : x ∈ xs) :
    height x ≤ heights xs := by
  induction xs with
  | nil => exact absurd hx List.not_mem_nil
  | cons y ys ih =>
    rw [heights]
    obtain rfl | hx := List.mem_cons.mp hx
    · exact le_max_left _ _
    · exact (ih hx).trans (le_max_right _ _)

theorem sameBag_eq (xs ys : List Fingerprint) : sameBag xs ys = pairable same xs ys := by
  induction xs generalizing ys with
  | nil => rfl
  | cons x xs ih => rw [sameBag, pairable, ih]

theorem sameParts_iff {xs ys : List Fingerprint} :
    sameParts xs ys = true ↔ List.Forall₂ (fun x y => same x y = true) xs ys := by
  induction xs generalizing ys with
  | nil => cases ys <;> simp [sameParts]
  | cons x xs ih => cases ys <;> simp [sameParts, ih]

theorem same_node {t : Tag} {xs ys : List Fingerprint} :
    same (.node t xs) (.node t ys) = true ↔
      List.Forall₂ (fun x y => same x y = true) xs ys := by
  rw [same, decide_eq_true rfl, Bool.true_and, sameParts_iff]

theorem same_bag {t : Tag} {xs ys : List Fingerprint} :
    same (.bag t xs) (.bag t ys) = true ↔ pairable same xs ys = true := by
  rw [same, decide_eq_true rfl, Bool.true_and, sameBag_eq]

theorem same_cases {f g : Fingerprint} (h : same f g = true) :
    (∃ a, f = .atom a ∧ g = .atom a) ∨
      (∃ t xs ys, f = .node t xs ∧ g = .node t ys) ∨ ∃ t xs ys, f = .bag t xs ∧ g = .bag t ys := by
  cases f <;> cases g <;> simp [same] at h ⊢ <;> tauto

/-- Equality is an equivalence on keys up to a height if it is one below it. -/
theorem same_equivOn_succ {n : ℕ} (h : EquivOn same fun f => height f < n) :
    EquivOn same fun f => height f < n+1 := by
  have hnode : ∀ {t xs}, height (.node t xs) < n+1 → ∀ x ∈ xs, height x < n := by
    intro t xs hf x hx
    have := height_le_heights hx
    rw [height] at hf
    omega
  have hbag : ∀ {t xs}, height (.bag t xs) < n+1 → ∀ x ∈ xs, height x < n := by
    intro t xs hf x hx
    have := height_le_heights hx
    rw [height] at hf
    omega
  constructor
  · intro f hf
    cases f with
    | atom a => simp [same]
    | node t xs =>
      rw [same_node, List.forall₂_same]
      exact fun x hx => h.refl (hnode hf x hx)
    | bag t xs =>
      rw [same_bag]
      exact h.pairable_refl (hbag hf)
  · intro f g hf hg hfg
    obtain ⟨a, rfl, rfl⟩ | ⟨t, xs, ys, rfl, rfl⟩ | ⟨t, xs, ys, rfl, rfl⟩ := same_cases hfg
    · exact hfg
    · rw [same_node] at hfg ⊢
      exact h.forall₂_symm (hnode hf) (hnode hg) hfg
    · rw [same_bag] at hfg ⊢
      exact h.pairable_symm (hbag hf) (hbag hg) hfg
  · intro f g k hf hg hk hfg hgk
    obtain ⟨a, rfl, rfl⟩ | ⟨t, xs, ys, rfl, rfl⟩ | ⟨t, xs, ys, rfl, rfl⟩ := same_cases hfg
    · exact hgk
    · obtain ⟨a, h', -⟩ | ⟨t, ys, zs, h', rfl⟩ | ⟨t, ys, zs, h', -⟩ := same_cases hgk
      · cases h'
      · cases h'
        rw [same_node] at hfg hgk ⊢
        exact h.forall₂_trans (hnode hf) (hnode hg) (hnode hk) hfg hgk
      · cases h'
    · obtain ⟨a, h', -⟩ | ⟨t, ys, zs, h', -⟩ | ⟨t, ys, zs, h', rfl⟩ := same_cases hgk
      · cases h'
      · cases h'
      · cases h'
        rw [same_bag] at hfg hgk ⊢
        exact h.pairable_trans (hbag hf) (hbag hg) (hbag hk) hfg hgk

theorem same_equivOn : EquivOn same fun _ => True := by
  have hheight : ∀ n, EquivOn same fun f => height f < n := by
    intro n
    induction n with
    | zero => exact ⟨fun h => by omega, fun h => by omega, fun h => by omega⟩
    | succ n ih => exact same_equivOn_succ ih
  refine ⟨fun {f} _ => (hheight (height f+1)).refl (by omega), fun {f g} _ _ => ?_,
    fun {f g k} _ _ _ => ?_⟩
  · exact (hheight (max (height f) (height g)+1)).symm (by omega) (by omega)
  · exact (hheight (max (height f) (max (height g) (height k))+1)).trans (by omega) (by omega)
      (by omega)

/-- Bags are equal when they have as many of each key. -/
theorem same_bag_iff {t : Tag} {xs ys : List Fingerprint} :
    same (.bag t xs) (.bag t ys) = true ↔ ∀ f, xs.countP (same f) = ys.countP (same f) := by
  rw [same_bag, same_equivOn.pairable_iff (fun _ _ => trivial) fun _ _ => trivial]
  simp

/-! ## Equal values have equal keys -/

theorem sameBag_of_parts {xs ys zs : List Fingerprint} (h : sameParts xs zs = true)
    (hperm : zs.Perm ys) : sameBag xs ys = true := by
  rw [sameBag_eq, same_equivOn.pairable_iff (fun _ _ => trivial) fun _ _ => trivial]
  intro f _
  rw [← hperm.countP_eq]
  clear hperm
  rw [sameParts_iff] at h
  induction h with
  | nil => rfl
  | cons hr _ ih =>
    rw [List.countP_cons, List.countP_cons, ih,
      same_equivOn.congr trivial trivial trivial hr]

theorem same_refl (a : Obj) : same (batchFingerprint a) (batchFingerprint a) = true :=
  same_equivOn.refl trivial

mutual
theorem same_complete (a b : Obj) (h : Same a b) :
    same (batchFingerprint a) (batchFingerprint b) = true := by
  match a with
  | .none | .bool _ | .int _ | .str _ | .bytes _ | .bytearray _ | .object _ =>
    cases h
    exact same_refl _
  | .float x =>
    cases h with
    | refl => exact same_refl _
    | nan ha hb => simp [batchFingerprint, same, hex, ha, hb]
  | .enum type x =>
    cases h with
    | refl => exact same_refl _
    | enum _ h =>
      rw [batchFingerprint, batchFingerprint, same_node]
      exact .cons (same_complete x _ h) .nil
  | .dataclass type xs =>
    cases h with
    | refl => exact same_refl _
    | @dataclass _ _ ys hnames h =>
      rw [batchFingerprint, batchFingerprint, hnames, same_node, ← sameParts_iff]
      exact sameFields_complete xs ys h
  | .list xs =>
    cases h with
    | refl => exact same_refl _
    | list h =>
      rw [batchFingerprint, batchFingerprint, same_node, ← sameParts_iff]
      exact sameItems_complete xs _ h
  | .tuple xs =>
    cases h with
    | refl => exact same_refl _
    | tuple h =>
      rw [batchFingerprint, batchFingerprint, same_node, ← sameParts_iff]
      exact sameItems_complete xs _ h
  | .mapping type xs =>
    cases h with
    | refl => exact same_refl _
    | @mapping _ _ ys zs hperm hkeys hitems =>
      rw [batchFingerprint, batchFingerprint, same_bag, ← sameBag_eq]
      refine sameBag_of_parts (sameEntries_complete xs zs hkeys hitems) ?_
      rw [fingerprintEntries_eq, fingerprintEntries_eq]
      exact hperm.map _
  | .set xs =>
    cases h with
    | refl => exact same_refl _
    | @set _ ys zs hperm h =>
      rw [batchFingerprint, batchFingerprint, same_bag, ← sameBag_eq]
      refine sameBag_of_parts (sameItems_complete xs zs h) ?_
      rw [fingerprintItems_eq, fingerprintItems_eq]
      exact hperm.map _
  | .frozenset xs =>
    cases h with
    | refl => exact same_refl _
    | @frozenset _ ys zs hperm h =>
      rw [batchFingerprint, batchFingerprint, same_bag, ← sameBag_eq]
      refine sameBag_of_parts (sameItems_complete xs zs h) ?_
      rw [fingerprintItems_eq, fingerprintItems_eq]
      exact hperm.map _
theorem sameItems_complete (xs ys : List Obj) (h : List.Forall₂ Same xs ys) :
    sameParts (fingerprintItems xs) (fingerprintItems ys) = true := by
  match xs with
  | [] =>
    cases h
    rfl
  | x::xs =>
    cases h with
    | cons hx h =>
      rw [fingerprintItems, fingerprintItems, sameParts, Bool.and_eq_true]
      exact ⟨same_complete x _ hx, sameItems_complete xs _ h⟩
theorem sameFields_complete (xs ys : List (String × Obj))
    (h : List.Forall₂ Same (xs.map Prod.snd) (ys.map Prod.snd)) :
    sameParts (fingerprintFields xs) (fingerprintFields ys) = true := by
  match xs, ys with
  | [], [] => rfl
  | [], _::_ => cases h
  | _::_, [] => cases h
  | (_, x)::xs, (_, y)::ys =>
    obtain ⟨hx, h⟩ := List.forall₂_cons.mp h
    rw [fingerprintFields, fingerprintFields, sameParts, Bool.and_eq_true]
    exact ⟨same_complete x y hx, sameFields_complete xs ys h⟩
theorem sameEntries_complete (xs ys : List (Obj × Obj))
    (hkeys : List.Forall₂ Same (xs.map Prod.fst) (ys.map Prod.fst))
    (hitems : List.Forall₂ Same (xs.map Prod.snd) (ys.map Prod.snd)) :
    sameParts (fingerprintEntries xs) (fingerprintEntries ys) = true := by
  match xs, ys with
  | [], [] => rfl
  | [], _::_ => cases hkeys
  | _::_, [] => cases hkeys
  | (k, x)::xs, (l, y)::ys =>
    obtain ⟨hk, hkeys⟩ := List.forall₂_cons.mp hkeys
    obtain ⟨hx, hitems⟩ := List.forall₂_cons.mp hitems
    rw [fingerprintEntries, fingerprintEntries, sameParts, Bool.and_eq_true, same_node]
    exact ⟨.cons (same_complete k l hk) (.cons (same_complete x y hx) .nil),
      sameEntries_complete xs ys hkeys hitems⟩
end

theorem same_iff {a b : Obj} : same (batchFingerprint a) (batchFingerprint b) = true ↔ Same a b :=
  ⟨same_sound a b, same_complete a b⟩

/-! ## Depth -/

/-- A value with a place for another. -/
inductive Frame (C : Type) where
  | enum (type : C)
  | dataclass (type : C) (before : List (String × ObjOf C)) (name : String)
    (after : List (String × ObjOf C))
  | list (before after : List (ObjOf C))
  | tuple (before after : List (ObjOf C))
  | mappingKey (type : C) (before : List (ObjOf C × ObjOf C)) (item : ObjOf C)
    (after : List (ObjOf C × ObjOf C))
  | mappingItem (type : C) (before : List (ObjOf C × ObjOf C)) (key : ObjOf C)
    (after : List (ObjOf C × ObjOf C))
  | set (before after : List (ObjOf C))
  | frozenset (before after : List (ObjOf C))

def Frame.fill {C : Type} : Frame C → ObjOf C → ObjOf C
  | .enum type, a => .enum type a
  | .dataclass type before name after, a => .dataclass type (before++(name, a)::after)
  | .list before after, a => .list (before++a::after)
  | .tuple before after, a => .tuple (before++a::after)
  | .mappingKey type before item after, a => .mapping type (before++(a, item)::after)
  | .mappingItem type before key after, a => .mapping type (before++(key, a)::after)
  | .set before after, a => .set (before++a::after)
  | .frozenset before after, a => .frozenset (before++a::after)

/-- A value below frames, the outermost first. -/
def fillAll {C : Type} (frames : List (Frame C)) (a : ObjOf C) : ObjOf C :=
  frames.foldr Frame.fill a

theorem same_node_around {t : Tag} {x y : Fingerprint} (before after : List Fingerprint) :
    same (.node t (before++x::after)) (.node t (before++y::after)) = true ↔ same x y = true := by
  rw [same_node]
  induction before with
  | nil =>
    rw [List.nil_append, List.nil_append, List.forall₂_cons, List.forall₂_same]
    exact and_iff_left fun z _ => same_equivOn.refl trivial
  | cons z before ih =>
    rw [List.cons_append, List.cons_append, List.forall₂_cons, ih]
    exact and_iff_right (same_equivOn.refl trivial)

theorem same_bag_around {t : Tag} {x y : Fingerprint} (before after : List Fingerprint) :
    same (.bag t (before++x::after)) (.bag t (before++y::after)) = true ↔ same x y = true := by
  rw [same_bag_iff]
  constructor
  · intro h
    have := h x
    rw [List.countP_append, List.countP_append, List.countP_cons, List.countP_cons,
      if_pos (same_equivOn.refl trivial)] at this
    by_contra hxy
    rw [if_neg hxy] at this
    omega
  · intro h f
    rw [List.countP_append, List.countP_append, List.countP_cons, List.countP_cons,
      same_equivOn.congr trivial trivial trivial h]

theorem fingerprintFields_eq (xs : List (String × Obj)) :
    fingerprintFields xs = xs.map fun field => batchFingerprint field.2 := by
  induction xs with
  | nil => rfl
  | cons x xs ih => rw [fingerprintFields, List.map_cons, ih]

theorem same_fill (frame : Frame TypeName) (a b : Obj) :
    same (batchFingerprint (frame.fill a)) (batchFingerprint (frame.fill b)) = true ↔
      same (batchFingerprint a) (batchFingerprint b) = true := by
  cases frame with
  | enum type => exact same_node_around [] []
  | dataclass type before name after =>
    simp only [Frame.fill, batchFingerprint, fingerprintFields_eq, List.map_append, List.map_cons]
    exact same_node_around _ _
  | list before after | tuple before after =>
    simp only [Frame.fill, batchFingerprint, fingerprintItems_eq, List.map_append, List.map_cons]
    exact same_node_around _ _
  | mappingKey type before item after =>
    simp only [Frame.fill, batchFingerprint, fingerprintEntries_eq, List.map_append, List.map_cons]
    exact (same_bag_around _ _).trans (same_node_around [] [batchFingerprint item])
  | mappingItem type before key after =>
    simp only [Frame.fill, batchFingerprint, fingerprintEntries_eq, List.map_append, List.map_cons]
    exact (same_bag_around _ _).trans (same_node_around [batchFingerprint key] [])
  | set before after | frozenset before after =>
    simp only [Frame.fill, batchFingerprint, fingerprintItems_eq, List.map_append, List.map_cons]
    exact same_bag_around _ _

/-! ## Classes -/

mutual
def ObjOf.map {C D : Type} (f : C → D) : ObjOf C → ObjOf D
  | .none => .none
  | .bool b => .bool b
  | .int n => .int n
  | .float bits => .float bits
  | .str s => .str s
  | .bytes b => .bytes b
  | .bytearray b => .bytearray b
  | .enum type value => .enum (f type) (ObjOf.map f value)
  | .dataclass type fields => .dataclass (f type) (mapFields f fields)
  | .list items => .list (mapItems f items)
  | .tuple items => .tuple (mapItems f items)
  | .mapping type entries => .mapping (f type) (mapEntries f entries)
  | .set items => .set (mapItems f items)
  | .frozenset items => .frozenset (mapItems f items)
  | .object id => .object id
def mapItems {C D : Type} (f : C → D) : List (ObjOf C) → List (ObjOf D)
  | [] => []
  | x::xs => ObjOf.map f x::mapItems f xs
def mapFields {C D : Type} (f : C → D) : List (String × ObjOf C) → List (String × ObjOf D)
  | [] => []
  | (name, x)::fields => (name, ObjOf.map f x)::mapFields f fields
def mapEntries {C D : Type} (f : C → D) : List (ObjOf C × ObjOf C) → List (ObjOf D × ObjOf D)
  | [] => []
  | (k, x)::entries => (ObjOf.map f k, ObjOf.map f x)::mapEntries f entries
end

/-- `batch_fingerprint` of a value: a key sees its classes by their names. -/
def fingerprint {C : Type} (name : C → TypeName) (a : ObjOf C) : Fingerprint :=
  batchFingerprint (a.map name)

section Maps

variable {C D : Type} (f : C → D)

theorem mapItems_append (xs ys : List (ObjOf C)) :
    mapItems f (xs++ys) = mapItems f xs++mapItems f ys := by
  induction xs with
  | nil => rfl
  | cons x xs ih => rw [List.cons_append, mapItems, mapItems, ih, List.cons_append]

theorem mapFields_append (xs ys : List (String × ObjOf C)) :
    mapFields f (xs++ys) = mapFields f xs++mapFields f ys := by
  induction xs with
  | nil => rfl
  | cons x xs ih => rw [List.cons_append, mapFields, mapFields, ih, List.cons_append]

theorem mapEntries_append (xs ys : List (ObjOf C × ObjOf C)) :
    mapEntries f (xs++ys) = mapEntries f xs++mapEntries f ys := by
  induction xs with
  | nil => rfl
  | cons x xs ih => rw [List.cons_append, mapEntries, mapEntries, ih, List.cons_append]

theorem exists_map_fill (frame : Frame C) :
    ∃ frame' : Frame D, ∀ a, (frame.fill a).map f = frame'.fill (a.map f) := by
  cases frame with
  | enum type => exact ⟨.enum (f type), fun a => rfl⟩
  | dataclass type before name after =>
    exact ⟨.dataclass (f type) (mapFields f before) name (mapFields f after), fun a => by
      simp only [Frame.fill, ObjOf.map, mapFields_append, mapFields]⟩
  | list before after =>
    exact ⟨.list (mapItems f before) (mapItems f after), fun a => by
      simp only [Frame.fill, ObjOf.map, mapItems_append, mapItems]⟩
  | tuple before after =>
    exact ⟨.tuple (mapItems f before) (mapItems f after), fun a => by
      simp only [Frame.fill, ObjOf.map, mapItems_append, mapItems]⟩
  | mappingKey type before item after =>
    exact ⟨.mappingKey (f type) (mapEntries f before) (item.map f) (mapEntries f after), fun a => by
      simp only [Frame.fill, ObjOf.map, mapEntries_append, mapEntries]⟩
  | mappingItem type before key after =>
    exact ⟨.mappingItem (f type) (mapEntries f before) (key.map f) (mapEntries f after), fun a => by
      simp only [Frame.fill, ObjOf.map, mapEntries_append, mapEntries]⟩
  | set before after =>
    exact ⟨.set (mapItems f before) (mapItems f after), fun a => by
      simp only [Frame.fill, ObjOf.map, mapItems_append, mapItems]⟩
  | frozenset before after =>
    exact ⟨.frozenset (mapItems f before) (mapItems f after), fun a => by
      simp only [Frame.fill, ObjOf.map, mapItems_append, mapItems]⟩

theorem mapItems_eq (xs : List (ObjOf C)) : mapItems f xs = xs.map (ObjOf.map f) := by
  induction xs with
  | nil => rfl
  | cons x xs ih => rw [mapItems, List.map_cons, ih]

theorem mapEntries_eq (xs : List (ObjOf C × ObjOf C)) :
    mapEntries f xs = xs.map fun e => (e.1.map f, e.2.map f) := by
  induction xs with
  | nil => rfl
  | cons x xs ih => rw [mapEntries, List.map_cons, ih]

theorem mapFields_names (xs : List (String × ObjOf C)) :
    (mapFields f xs).map Prod.fst = xs.map Prod.fst := by
  induction xs with
  | nil => rfl
  | cons x xs ih => rw [mapFields, List.map_cons, List.map_cons, ih]

mutual
theorem same_map (a b : ObjOf C) (h : Same a b) : Same (a.map f) (b.map f) := by
  match a with
  | .none | .bool _ | .int _ | .str _ | .bytes _ | .bytearray _ | .object _ =>
    cases h
    exact .refl _
  | .float x =>
    cases h with
    | refl => exact .refl _
    | nan ha hb => exact .nan ha hb
  | .enum type x =>
    cases h with
    | refl => exact .refl _
    | enum _ h => exact .enum _ (same_map x _ h)
  | .dataclass type xs =>
    cases h with
    | refl => exact .refl _
    | @dataclass _ _ ys hnames h =>
      exact .dataclass _ (by rw [mapFields_names, mapFields_names, hnames])
        (sameFields_map xs ys h)
  | .list xs =>
    cases h with
    | refl => exact .refl _
    | list h => exact .list (sameItems_map xs _ h)
  | .tuple xs =>
    cases h with
    | refl => exact .refl _
    | tuple h => exact .tuple (sameItems_map xs _ h)
  | .mapping type xs =>
    cases h with
    | refl => exact .refl _
    | @mapping _ _ ys zs hperm hkeys hitems =>
      obtain ⟨hkeys, hitems⟩ := sameEntries_map xs zs hkeys hitems
      refine .mapping _ ?_ hkeys hitems
      rw [mapEntries_eq, mapEntries_eq]
      exact hperm.map _
  | .set xs =>
    cases h with
    | refl => exact .refl _
    | @set _ ys zs hperm h =>
      refine .set ?_ (sameItems_map xs zs h)
      rw [mapItems_eq, mapItems_eq]
      exact hperm.map _
  | .frozenset xs =>
    cases h with
    | refl => exact .refl _
    | @frozenset _ ys zs hperm h =>
      refine .frozenset ?_ (sameItems_map xs zs h)
      rw [mapItems_eq, mapItems_eq]
      exact hperm.map _
theorem sameItems_map (xs ys : List (ObjOf C)) (h : List.Forall₂ Same xs ys) :
    List.Forall₂ Same (mapItems f xs) (mapItems f ys) := by
  match xs with
  | [] =>
    cases h
    exact .nil
  | x::xs =>
    cases h with
    | cons hx h => exact .cons (same_map x _ hx) (sameItems_map xs _ h)
theorem sameFields_map (xs ys : List (String × ObjOf C))
    (h : List.Forall₂ Same (xs.map Prod.snd) (ys.map Prod.snd)) :
    List.Forall₂ Same ((mapFields f xs).map Prod.snd) ((mapFields f ys).map Prod.snd) := by
  match xs, ys with
  | [], [] => exact .nil
  | [], _::_ => cases h
  | _::_, [] => cases h
  | (_, x)::xs, (_, y)::ys =>
    obtain ⟨hx, h⟩ := List.forall₂_cons.mp h
    exact .cons (same_map x y hx) (sameFields_map xs ys h)
theorem sameEntries_map (xs ys : List (ObjOf C × ObjOf C))
    (hkeys : List.Forall₂ Same (xs.map Prod.fst) (ys.map Prod.fst))
    (hitems : List.Forall₂ Same (xs.map Prod.snd) (ys.map Prod.snd)) :
    List.Forall₂ Same ((mapEntries f xs).map Prod.fst) ((mapEntries f ys).map Prod.fst) ∧
      List.Forall₂ Same ((mapEntries f xs).map Prod.snd) ((mapEntries f ys).map Prod.snd) := by
  match xs, ys with
  | [], [] => exact ⟨.nil, .nil⟩
  | [], _::_ => cases hkeys
  | _::_, [] => cases hkeys
  | (k, x)::xs, (l, y)::ys =>
    obtain ⟨hk, hkeys⟩ := List.forall₂_cons.mp hkeys
    obtain ⟨hx, hitems⟩ := List.forall₂_cons.mp hitems
    obtain ⟨h₁, h₂⟩ := sameEntries_map xs ys hkeys hitems
    exact ⟨.cons (same_map k l hk) h₁, .cons (same_map x y hx) h₂⟩
end

variable {f} {g : D → C}

mutual
theorem map_left_inverse (hg : Function.LeftInverse g f) (a : ObjOf C) : (a.map f).map g = a := by
  match a with
  | .none | .bool _ | .int _ | .float _ | .str _ | .bytes _ | .bytearray _ | .object _ => rfl
  | .enum type x => rw [ObjOf.map, ObjOf.map, hg, map_left_inverse hg x]
  | .dataclass type xs => rw [ObjOf.map, ObjOf.map, hg, mapFields_left_inverse hg xs]
  | .list xs => rw [ObjOf.map, ObjOf.map, mapItems_left_inverse hg xs]
  | .tuple xs => rw [ObjOf.map, ObjOf.map, mapItems_left_inverse hg xs]
  | .mapping type xs => rw [ObjOf.map, ObjOf.map, hg, mapEntries_left_inverse hg xs]
  | .set xs => rw [ObjOf.map, ObjOf.map, mapItems_left_inverse hg xs]
  | .frozenset xs => rw [ObjOf.map, ObjOf.map, mapItems_left_inverse hg xs]
theorem mapItems_left_inverse (hg : Function.LeftInverse g f) (xs : List (ObjOf C)) :
    mapItems g (mapItems f xs) = xs := by
  match xs with
  | [] => rfl
  | x::xs => rw [mapItems, mapItems, map_left_inverse hg x, mapItems_left_inverse hg xs]
theorem mapFields_left_inverse (hg : Function.LeftInverse g f)
    (xs : List (String × ObjOf C)) : mapFields g (mapFields f xs) = xs := by
  match xs with
  | [] => rfl
  | (_, x)::xs => rw [mapFields, mapFields, map_left_inverse hg x, mapFields_left_inverse hg xs]
theorem mapEntries_left_inverse (hg : Function.LeftInverse g f)
    (xs : List (ObjOf C × ObjOf C)) : mapEntries g (mapEntries f xs) = xs := by
  match xs with
  | [] => rfl
  | (k, x)::xs =>
    rw [mapEntries, mapEntries, map_left_inverse hg k, map_left_inverse hg x,
      mapEntries_left_inverse hg xs]
end

/-- Names that tell the classes apart change nothing. -/
theorem same_map_iff (hg : Function.LeftInverse g f) {a b : ObjOf C} :
    Same (a.map f) (b.map f) ↔ Same a b := by
  refine ⟨fun h => ?_, same_map f a b⟩
  have := same_map g _ _ h
  rwa [map_left_inverse hg, map_left_inverse hg] at this

end Maps

theorem same_fillAll {C : Type} (name : C → TypeName) (frames : List (Frame C)) (a b : ObjOf C) :
    same (fingerprint name (fillAll frames a)) (fingerprint name (fillAll frames b)) = true ↔
      same (fingerprint name a) (fingerprint name b) = true := by
  induction frames with
  | nil => rfl
  | cons frame frames ih =>
    obtain ⟨frame', hframe⟩ := exists_map_fill name frame
    rw [← ih]
    show same (batchFingerprint ((frame.fill (fillAll frames a)).map _))
      (batchFingerprint ((frame.fill (fillAll frames b)).map _)) = true ↔ _
    rw [hframe, hframe]
    exact same_fill frame' _ _

/-- Values that compare equal but are of other types, or zeros of other signs. -/
def lookalikes {C : Type} (items : List (ObjOf C)) : List (ObjOf C × ObjOf C) :=
  [(.int 1, .bool true), (.int 1, .float 0x3FF0000000000000#64),
    (.bool true, .float 0x3FF0000000000000#64), (.list items, .tuple items),
    (.float 0#64, .float 0x8000000000000000#64)]

/-- Two values have the same key exactly when they have the same structure and the names of
their classes agree, so exactly when they are the same up to order if the names tell the
classes apart. At every depth a key tells apart what it tells apart at the top, and with that
the values of other types that compare equal. -/
theorem fingerprints_exact {C : Type} [Inhabited C] (name : C → TypeName) :
    (∀ a b : ObjOf C, same (fingerprint name a) (fingerprint name b) = true ↔
      Same (a.map name) (b.map name)) ∧
    (Function.Injective name → ∀ a b : ObjOf C,
      (same (fingerprint name a) (fingerprint name b) = true ↔ Same a b)) ∧
    (∀ (frames : List (Frame C)) (a b : ObjOf C),
      same (fingerprint name (fillAll frames a)) (fingerprint name (fillAll frames b)) = true ↔
        same (fingerprint name a) (fingerprint name b) = true) ∧
    ∀ (frames : List (Frame C)) (items : List (ObjOf C)), ∀ p ∈ lookalikes items,
      same (fingerprint name (fillAll frames p.1)) (fingerprint name (fillAll frames p.2)) =
        false := by
  refine ⟨fun a b => same_iff, fun hname a b => ?_, same_fillAll name, ?_⟩
  · exact same_iff.trans (same_map_iff (Function.leftInverse_invFun hname))
  · intro frames items p hp
    rw [Bool.eq_false_iff, ne_eq, same_fillAll]
    simp only [lookalikes, List.mem_cons, List.not_mem_nil, or_false] at hp
    obtain rfl | rfl | rfl | rfl | rfl := hp <;>
      simp [fingerprint, ObjOf.map, batchFingerprint, same, hex, isNan]

theorem fingerprints_exact_set :
    same (fingerprint id (.set [.int 1, .int 2])) (fingerprint id (.set [.int 2, .int 1])) = true :=
  ((@fingerprints_exact TypeName ⟨"", ""⟩ id).2.1 Function.injective_id _ _).mpr
    (.set (List.Perm.swap _ _ _) (List.forall₂_same.mpr fun _ _ => .refl _))

/-- A class: the object itself, and the names that a key shows. -/
structure Class where
  id : ℕ
  name : TypeName
  deriving DecidableEq, Repr

/-- An instance of a class that a function makes anew with every call. -/
def localResult (id : ℕ) : ObjOf Class :=
  .dataclass ⟨id, "jobs", "make.<locals>.Result"⟩ [("value", .int 1)]

theorem fingerprints_conflate_classes :
    same (fingerprint Class.name (localResult 0)) (fingerprint Class.name (localResult 1)) = true ∧
      ¬Same (localResult 0) (localResult 1) := by
  refine ⟨same_equivOn.refl trivial, fun h => ?_⟩
  cases h

end FerricStore.BatchFingerprints
