import Mathlib.Tactic

/-!
# Computations under a byte budget

A metered computation reserves bytes of an optional budget. It ends with a value
and the bytes reserved so far, declines, raises, or finds the budget full. It is
`Exact` when the limit decides only between its unlimited result and `full`: a
limited run gives the unlimited result when its reservations fit, and is full
when they do not. Exactness is kept by sequencing and by loops, so it is proved
once for each operation that looks at the limit.
-/

set_option autoImplicit false

namespace FerricStore

inductive Stop (ε : Type) where
  | declined
  | full
  | raised (e : ε)
  deriving DecidableEq, Repr

def Metered (ε α : Type) := Option ℕ → ℕ → Except (Stop ε) (α × ℕ)

namespace Metered

variable {ε α β : Type}

instance : Monad (Metered ε) where
  pure a := fun _ used => .ok (a, used)
  bind x f := fun limit used =>
    match x limit used with
    | .ok (a, used) => f a limit used
    | .error e => .error e

def decline : Metered ε α := fun _ _ => .error .declined

def raise (e : ε) : Metered ε α := fun _ _ => .error (.raised e)

def require : Option α → Metered ε α
  | some a => pure a
  | none => decline

def ofExcept : Except ε α → Metered ε α
  | .ok a => pure a
  | .error e => raise e

def canReserve (size : ℕ) : Metered ε Bool := fun limit used =>
  .ok (limit.all fun m => used+size ≤ m, used)

/-- The bytes must fit, but nothing is reserved. -/
def ensure (size : ℕ) : Metered ε Unit := fun limit used =>
  if limit.all fun m => used+size ≤ m then .ok ((), used) else .error .full

def reserve (size : ℕ) : Metered ε Unit := fun limit used =>
  if limit.all fun m => used+size ≤ m then .ok ((), used+size) else .error .full

def reserveIf (c : Prop) [Decidable c] (size : ℕ) : Metered ε Unit :=
  if c then reserve size else pure ()

def each (f : α → Metered ε β) : List α → Metered ε (List β)
  | [] => pure []
  | a::as => do
    let b ← f a
    let bs ← each f as
    pure (b::bs)

theorem bind_of_ok {x : Metered ε α} {limit : Option ℕ} {used v : ℕ} {a : α}
    (h : x limit used = .ok (a, v)) (f : α → Metered ε β) :
    (x >>= f) limit used = f a limit v := by
  simp only [bind, h]

theorem bind_of_error {x : Metered ε α} {limit : Option ℕ} {used : ℕ} {e : Stop ε}
    (h : x limit used = .error e) (f : α → Metered ε β) :
    (x >>= f) limit used = .error e := by
  simp only [bind, h]

theorem bind_eq_ok {x : Metered ε α} {f : α → Metered ε β} {limit : Option ℕ}
    {used w : ℕ} {b : β} (h : (x >>= f) limit used = .ok (b, w)) :
    ∃ a v, x limit used = .ok (a, v) ∧ f a limit v = .ok (b, w) := by
  cases hx : x limit used with
  | error e =>
    rw [bind_of_error hx] at h
    cases h
  | ok r =>
    obtain ⟨a, v⟩ := r
    rw [bind_of_ok hx] at h
    exact ⟨a, v, rfl, h⟩

theorem pure_eq_ok {a b : α} {limit : Option ℕ} {used v : ℕ}
    (h : (pure a : Metered ε α) limit used = .ok (b, v)) : a = b ∧ used = v := by
  cases h
  exact ⟨rfl, rfl⟩

theorem reserve_unlimited (size used : ℕ) :
    (reserve size : Metered ε Unit) none used = .ok ((), used+size) := rfl

/-! Successful unlimited runs, as equations between the values they compute. -/

@[simp] theorem bind_ok_iff {x : Metered ε α} {f : α → Metered ε β} {used w : ℕ} {b : β} :
    (x >>= f) none used = .ok (b, w) ↔
      ∃ a v, x none used = .ok (a, v) ∧ f a none v = .ok (b, w) :=
  ⟨bind_eq_ok, fun ⟨_, _, ha, hb⟩ => (bind_of_ok ha f).trans hb⟩

@[simp] theorem pure_ok_iff {a b : α} {used v : ℕ} :
    (pure a : Metered ε α) none used = .ok (b, v) ↔ a = b ∧ used = v :=
  ⟨pure_eq_ok, fun ⟨ha, hu⟩ => by rw [ha, hu]; rfl⟩

@[simp] theorem decline_ok_iff {b : α} {used v : ℕ} :
    (decline : Metered ε α) none used = .ok (b, v) ↔ False :=
  ⟨(fun h => nomatch h), False.elim⟩

@[simp] theorem raise_ok_iff {e : ε} {b : α} {used v : ℕ} :
    (raise e : Metered ε α) none used = .ok (b, v) ↔ False :=
  ⟨(fun h => nomatch h), False.elim⟩

@[simp] theorem require_ok_iff {o : Option α} {a : α} {used v : ℕ} :
    (require o : Metered ε α) none used = .ok (a, v) ↔ o = some a ∧ used = v := by
  cases o with
  | none => simp [require, decline_ok_iff]
  | some b => simp [require, pure_ok_iff]

@[simp] theorem ofExcept_ok_iff {x : Except ε α} {a : α} {used v : ℕ} :
    (ofExcept x : Metered ε α) none used = .ok (a, v) ↔ x = .ok a ∧ used = v := by
  cases x with
  | error e => simp [ofExcept]
  | ok b => simp [ofExcept]

@[simp] theorem reserve_ok_iff {size used v : ℕ} {u : Unit} :
    (reserve size : Metered ε Unit) none used = .ok (u, v) ↔ used+size = v := by
  simp [reserve_unlimited]

@[simp] theorem reserveIf_ok_iff {c : Prop} [Decidable c] {size used v : ℕ} {u : Unit} :
    (reserveIf c size : Metered ε Unit) none used = .ok (u, v) ↔
      used+(if c then size else 0) = v := by
  unfold reserveIf
  split_ifs
  · exact reserve_ok_iff
  · simp [pure_ok_iff]

theorem ite_ok_iff {c : Prop} [Decidable c] {x y : Metered ε α} {a : α} {used v : ℕ} :
    (if c then x else y) none used = .ok (a, v) ↔
      c ∧ x none used = .ok (a, v) ∨ ¬c ∧ y none used = .ok (a, v) := by
  by_cases h : c <;> simp [h]

theorem each_items {f : α → Metered ε β} {as : List α} {used w : ℕ} {bs : List β}
    (h : each f as none used = .ok (bs, w)) :
    ∀ a ∈ as, ∃ u b v, f a none u = .ok (b, v) := by
  induction as generalizing used w bs with
  | nil => simp
  | cons a as ih =>
    simp only [each, bind_ok_iff, pure_ok_iff] at h
    obtain ⟨b, v, hb, cs, u, hcs, rfl, rfl⟩ := h
    intro c hc
    rcases List.mem_cons.mp hc with rfl | hc
    · exact ⟨used, b, v, hb⟩
    · exact ih hcs c hc

/-- A loop whose body emits the wire form of its item, and reserves what it emits,
emits and reserves the wire forms of its items. -/
theorem each_emits {γ : Type} (wire : γ → List β) (content : α → γ)
    {f : α → Metered ε (List β)}
    (hf : ∀ a used v b, f a none used = .ok (b, v) →
      b = wire (content a) ∧ v = used+b.length)
    {as : List α} {used w : ℕ} {bs : List (List β)} (h : each f as none used = .ok (bs, w)) :
    bs.flatten = (as.map content).flatMap wire ∧
      w = used+((as.map content).flatMap wire).length := by
  induction as generalizing used w bs with
  | nil =>
    obtain ⟨rfl, rfl⟩ := pure_eq_ok h
    exact ⟨rfl, rfl⟩
  | cons a as ih =>
    simp only [each, bind_ok_iff, pure_ok_iff] at h
    obtain ⟨b, v, hb, cs, u, hcs, rfl, rfl⟩ := h
    obtain ⟨rfl, rfl⟩ := hf a _ _ _ hb
    obtain ⟨hflat, rfl⟩ := ih hcs
    refine ⟨by simp [hflat], ?_⟩
    simp only [List.map_cons, List.flatMap_cons, List.length_append]
    omega

/-- A loop whose body reserves a size of its result reserves the sizes of its results. -/
theorem each_reserved {f : α → Metered ε β} (size : β → ℕ)
    (hf : ∀ a used v b, f a none used = .ok (b, v) → v = used+size b)
    {as : List α} {used w : ℕ} {bs : List β} (h : each f as none used = .ok (bs, w)) :
    w = used+(bs.map size).sum := by
  induction as generalizing used w bs with
  | nil =>
    obtain ⟨rfl, rfl⟩ := pure_eq_ok h
    rfl
  | cons a as ih =>
    simp only [each, bind_ok_iff, pure_ok_iff] at h
    obtain ⟨b, v, hb, cs, u, hcs, rfl, rfl⟩ := h
    rw [ih hcs, hf a _ _ _ hb, List.map_cons, List.sum_cons, Nat.add_assoc]

/-- A loop that reserves nothing, whose body emits a size of its item. -/
theorem each_sizes {f : α → Metered ε (List β)} (size : α → ℕ)
    (hf : ∀ a used v b, f a none used = .ok (b, v) → b.length = size a ∧ v = used)
    {as : List α} {used w : ℕ} {bs : List (List β)} (h : each f as none used = .ok (bs, w)) :
    bs.flatten.length = (as.map size).sum ∧ w = used := by
  induction as generalizing used w bs with
  | nil =>
    obtain ⟨rfl, rfl⟩ := pure_eq_ok h
    exact ⟨rfl, rfl⟩
  | cons a as ih =>
    simp only [each, bind_ok_iff, pure_ok_iff] at h
    obtain ⟨b, v, hb, cs, u, hcs, rfl, rfl⟩ := h
    obtain ⟨hlen, hv⟩ := hf a _ _ _ hb
    obtain ⟨hflat, hu⟩ := ih hcs
    refine ⟨?_, by omega⟩
    rw [List.flatten_cons, List.length_append, hlen, hflat, List.map_cons, List.sum_cons]

/-- A loop that reserves nothing and whose body is a function under a condition. -/
theorem each_ok_iff {f : α → Metered ε β} (P : α → Prop) (g : α → β)
    (hf : ∀ a used v b, f a none used = .ok (b, v) ↔ P a ∧ g a = b ∧ used = v)
    {as : List α} {used w : ℕ} {bs : List β} :
    each f as none used = .ok (bs, w) ↔ (∀ a ∈ as, P a) ∧ as.map g = bs ∧ used = w := by
  induction as generalizing used w bs with
  | nil => simp [each]
  | cons a as ih =>
    simp only [each, bind_ok_iff, pure_ok_iff, hf, ih, List.forall_mem_cons, List.map_cons]
    constructor
    · rintro ⟨_, _, ⟨ha, rfl, rfl⟩, _, _, ⟨has, rfl, rfl⟩, rfl, rfl⟩
      exact ⟨⟨ha, has⟩, rfl, rfl⟩
    · rintro ⟨⟨ha, has⟩, rfl, rfl⟩
      exact ⟨_, _, ⟨ha, rfl, rfl⟩, _, _, ⟨has, rfl, rfl⟩, rfl, rfl⟩

/-- `lo` is a number of bytes known to be reserved before the computation. -/
class Exact (lo : ℕ) (x : Metered ε α) : Prop where
  limited : ∀ (used v : ℕ) (a : α), lo ≤ used → x none used = .ok (a, v) →
    used ≤ v ∧ ∀ m : ℕ, used ≤ m →
      x (some m) used = if v ≤ m then .ok (a, v) else .error .full
  relaxed : ∀ (m used : ℕ) (r : α × ℕ), x (some m) used = .ok r → x none used = .ok r

namespace Exact

instance pure (lo : ℕ) (a : α) : Exact lo (Pure.pure a : Metered ε α) where
  limited used v b _ h := by
    obtain ⟨rfl, rfl⟩ := pure_eq_ok h
    refine ⟨le_refl _, fun m hm => ?_⟩
    rw [if_pos hm]
    rfl
  relaxed _ _ _ h := h

instance decline (lo : ℕ) : Exact lo (decline : Metered ε α) where
  limited _ _ _ _ h := by cases h
  relaxed _ _ _ h := by cases h

instance raise (lo : ℕ) (e : ε) : Exact lo (raise e : Metered ε α) where
  limited _ _ _ _ h := by cases h
  relaxed _ _ _ h := by cases h

instance require (lo : ℕ) (o : Option α) : Exact lo (require o : Metered ε α) := by
  cases o with
  | none => exact decline lo
  | some a => exact pure lo a

instance reserve (lo size : ℕ) : Exact lo (reserve size : Metered ε Unit) where
  limited used v a _ h := by
    rw [reserve_unlimited] at h
    cases h
    refine ⟨Nat.le_add_right _ _, fun m _ => ?_⟩
    simp [Metered.reserve]
  relaxed m used r h := by
    unfold Metered.reserve at h ⊢
    split_ifs at h
    exact h

instance ite {lo : ℕ} {c : Prop} [Decidable c] {x y : Metered ε α} [hx : Exact lo x]
    [hy : Exact lo y] : Exact lo (if c then x else y) := by
  split_ifs
  · exact hx
  · exact hy

instance reserveIf (lo : ℕ) (c : Prop) [Decidable c] (size : ℕ) :
    Exact lo (reserveIf c size : Metered ε Unit) := ite

/-- The rest of a sequence may rely on the bytes its first step has reserved. -/
theorem bind_known {lo : ℕ} {x : Metered ε α} {f : α → Metered ε β} (hx : Exact lo x)
    (size : α → ℕ) (hsize : ∀ used v a, lo ≤ used → x none used = .ok (a, v) → used+size a ≤ v)
    (hf : ∀ a, Exact (lo+size a) (f a)) : Exact lo (x >>= f) where
  limited used w b hu h := by
    obtain ⟨a, v, ha, hb⟩ := bind_eq_ok h
    obtain ⟨huv, hxm⟩ := hx.limited used v a hu ha
    have hs := hsize used v a hu ha
    obtain ⟨hvw, hfm⟩ := (hf a).limited v w b (by omega) hb
    refine ⟨le_trans huv hvw, fun m hm => ?_⟩
    have hxl := hxm m hm
    by_cases hv : v ≤ m
    · rw [if_pos hv] at hxl
      rw [bind_of_ok hxl, hfm m hv]
    · rw [if_neg hv] at hxl
      rw [bind_of_error hxl, if_neg (by omega)]
  relaxed m used r h := by
    obtain ⟨b, w⟩ := r
    obtain ⟨a, v, ha, hb⟩ := bind_eq_ok h
    rw [bind_of_ok (hx.relaxed m used _ ha)]
    exact (hf a).relaxed m v _ hb

theorem seq {lo : ℕ} {x : Metered ε α} {f : α → Metered ε β} (hx : Exact lo x)
    (hf : ∀ a, Exact lo (f a)) : Exact lo (x >>= f) :=
  bind_known hx (fun _ => 0) (fun used v a hu ha => (hx.limited used v a hu ha).1) hf

theorem reserve_bind {lo size : ℕ} {f : Unit → Metered ε β} (hf : Exact (lo+size) (f ())) :
    Exact lo (Metered.reserve size >>= f) := by
  refine bind_known (reserve lo size) (fun _ => size) (fun used v _ _ h => ?_) fun _ => hf
  rw [reserve_ok_iff] at h
  omega

instance each {lo : ℕ} {f : α → Metered ε β} [hf : ∀ a, Exact lo (f a)] (as : List α) :
    Exact lo (each f as) := by
  induction as with
  | nil => exact pure lo []
  | cons a as ih => exact seq (hf a) fun b => seq ih fun bs => pure lo _

end Exact

/-- The limited runs of an exact computation from an empty budget. -/
theorem Exact.start {x : Metered ε α} (h : Exact 0 x) {a : α} {v : ℕ}
    (hx : x none 0 = .ok (a, v)) (m : ℕ) :
    x (some m) 0 = if v ≤ m then .ok (a, v) else .error .full :=
  (h.limited 0 v a (Nat.le_refl 0) hx).2 m (Nat.zero_le m)

theorem Exact.unlimited {x : Metered ε α} (h : Exact 0 x) {limit : Option ℕ} {r : α × ℕ}
    (hx : x limit 0 = .ok r) : x none 0 = .ok r := by
  cases limit with
  | none => exact hx
  | some m => exact h.relaxed m 0 r hx

end Metered
end FerricStore
