import FerricStore.Budgets
import FerricStore.ValueCodecRoundTrip

/-!
# The decoder's item budget

One budget is charged the count of every list and map header of a response, at every
depth. A limited decode therefore succeeds exactly when the unlimited one does and the
counts of the decoded value sum to no more than the budget; value and end offset are
the same, and every accepted value ends behind its start and inside the data.
-/

set_option autoImplicit false

namespace FerricStore.ValueCodec
open Text Cursor Stateful Budgets

/-- `decode_value_at` at any offset: a negative one is refused by the first
`_require_available`. -/
def decodeValueAtOffset (data : Bytes) (offset : ℤ) : Decoding (Value × ℕ) :=
  if offset < 0 then throw (.ferricStore "protocol value is truncated")
  else decodeValueAt data offset.toNat

mutual
/-- The element counts of all lists and maps of a value. -/
def headerCounts : Value → ℕ
  | .list xs => xs.length+itemCounts xs
  | .tuple xs => xs.length+itemCounts xs
  | .dict es => es.length+entryCounts es
  | _ => 0
def itemCounts : List Value → ℕ
  | [] => 0
  | x::xs => headerCounts x+itemCounts xs
def entryCounts : List (Key × Value) → ℕ
  | [] => 0
  | (_, x)::es => headerCounts x+entryCounts es
end

/-- The counts below the header of the value itself. -/
def innerCounts : Value → ℕ
  | .list xs => itemCounts xs
  | .tuple xs => itemCounts xs
  | .dict es => entryCounts es
  | _ => 0

section Reads

variable (data : Bytes) (offset : ℕ)

theorem readField_charges (size : ℕ) : Charges (readField data offset size) fun _ => 0 :=
  Charges.then (Charges.ite Charges.throw (Charges.pure rfl)) fun _ => Charges.pure rfl

theorem readU32_charges : Charges (readU32 data offset) fun _ => 0 :=
  (readField_charges data offset 4).then fun _ => Charges.pure rfl

theorem readBinary_charges : Charges (readBinary data offset) fun _ => 0 :=
  (readU32_charges data offset).then fun size =>
    (readField_charges data (offset+4) size).then fun _ => Charges.pure rfl

end Reads

theorem consume_charges (count : ℕ) : Charges (consume count) fun _ => count where
  unlimited := by
    intro a r h
    cases h
    rfl
  limited := by
    intro n a r
    unfold consume
    dsimp only
    split_ifs with h
    · simp
      omega
    · simp [eq_comm]
      omega

section Loops

variable {data : Bytes} {decode : ℕ → Decoding (Value × ℕ)}
  (hdecode : ∀ offset, Charges (decode offset) fun r => headerCounts r.1)

include hdecode

theorem decodeItems_charges (count offset : ℕ) :
    Charges (decodeItems decode count offset) fun r => itemCounts r.1 := by
  induction count generalizing offset with
  | zero => exact Charges.pure rfl
  | succ count ih =>
    have hrest : ∀ r : Value × ℕ, Charges (decodeItems decode count r.2 >>= fun s =>
        pure (r.1::s.1, s.2)) fun s => itemCounts s.1.tail :=
      fun r => (ih r.2).last fun t => ⟨_, rfl, rfl⟩
    refine (hdecode offset).bind hrest fun r s _ hs => ?_
    obtain ⟨t, _, -, he⟩ := bind_eq_ok hs
    obtain ⟨rfl, -⟩ := pure_eq_ok he
    rfl

omit hdecode in
theorem decodeItems_length {count offset : ℕ} {r : List Value × ℕ} {b b' : Option ℕ}
    (h : decodeItems decode count offset b = .ok r b') : r.1.length = count := by
  induction count generalizing offset r b b' with
  | zero =>
    cases h
    rfl
  | succ count ih =>
    rw [decodeItems] at h
    obtain ⟨v, _, -, h⟩ := bind_eq_ok h
    obtain ⟨t, _, ht, h⟩ := bind_eq_ok h
    obtain ⟨rfl, -⟩ := pure_eq_ok h
    exact congrArg (·+1) (ih ht)

omit hdecode in
theorem decodeEntries_extends {count offset : ℕ} {es : List (Key × Value)}
    {r : List (Key × Value) × ℕ} {b b' : Option ℕ}
    (h : decodeEntries data decode count es offset b = .ok r b') :
    ∃ new, r.1 = es++new ∧ new.length = count := by
  induction count generalizing es offset b with
  | zero =>
    cases h
    exact ⟨[], (List.append_nil es).symm, rfl⟩
  | succ count ih =>
    rw [decodeEntries] at h
    obtain ⟨⟨key, o⟩, _, -, h⟩ := bind_eq_ok h
    dsimp only at h
    split_ifs at h
    · cases h
    · obtain ⟨v, _, -, h⟩ := bind_eq_ok h
      obtain ⟨new, hr, hnew⟩ := ih h
      exact ⟨(.bytes key, v.1)::new, by rw [hr]; simp, congrArg (·+1) hnew⟩

theorem decodeEntries_charges (count : ℕ) (es : List (Key × Value)) (offset : ℕ) :
    Charges (decodeEntries data decode count es offset)
      fun r => entryCounts (r.1.drop es.length) := by
  induction count generalizing es offset with
  | zero =>
    refine Charges.pure ?_
    rw [List.drop_length]
    rfl
  | succ count ih =>
    refine (readBinary_charges data offset).then fun key => Charges.ite Charges.throw ?_
    refine (hdecode key.2).bind (fun r => ih (es++[(Key.bytes key.1, r.1)]) r.2) fun r s _ hs => ?_
    obtain ⟨new, hnew, -⟩ := decodeEntries_extends hs
    rw [hnew, List.drop_left, List.append_assoc, List.drop_left]
    rfl

theorem decodeTagged_charges (tag offset : ℕ) :
    Charges (decodeTagged data decode tag offset) fun r => headerCounts r.1 := by
  unfold decodeTagged
  split
  · exact Charges.pure rfl
  · exact Charges.pure rfl
  · exact Charges.pure rfl
  · exact (readField_charges data offset 8).then fun _ => Charges.pure rfl
  · exact (readBinary_charges data offset).then fun _ => Charges.pure rfl
  · refine (readU32_charges data offset).then fun count => ?_
    have hitems : Charges (decodeItems decode count (offset+4) >>= fun r =>
        pure (Value.list r.1, r.2)) fun r => innerCounts r.1 :=
      (decodeItems_charges hdecode count (offset+4)).last fun t => ⟨_, rfl, rfl⟩
    rw [decodeList_eq]
    refine (consume_charges count).bind (fun _ => hitems) fun _ r _ hr => ?_
    obtain ⟨t, _, ht, he⟩ := bind_eq_ok hr
    obtain ⟨rfl, -⟩ := pure_eq_ok he
    exact congrArg (·+itemCounts t.1) (decodeItems_length ht)
  · refine (readU32_charges data offset).then fun count => ?_
    have hentries : Charges (decodeEntries data decode count [] (offset+4) >>= fun r =>
        pure (Value.dict r.1, r.2)) fun r => innerCounts r.1 :=
      (decodeEntries_charges hdecode count [] (offset+4)).last fun t => ⟨_, rfl, rfl⟩
    refine (consume_charges count).bind (fun _ => hentries) fun _ r _ hr => ?_
    obtain ⟨t, _, ht, he⟩ := bind_eq_ok hr
    obtain ⟨rfl, -⟩ := pure_eq_ok he
    obtain ⟨new, hnew, hlength⟩ := decodeEntries_extends ht
    rw [List.nil_append] at hnew
    exact congrArg (·+entryCounts t.1) (hnew ▸ hlength)
  · exact (readField_charges data offset 8).then fun _ => Charges.pure rfl
  · exact (readField_charges data offset 8).then fun _ => Charges.pure rfl
  · exact Charges.throw

end Loops

theorem decodeValueFrom_charges (data : Bytes) (levels offset : ℕ) :
    Charges (decodeValueFrom data levels offset) fun r => headerCounts r.1 := by
  induction levels generalizing offset with
  | zero => exact Charges.throw
  | succ levels ih =>
    exact (readField_charges data offset 1).then fun tag => decodeTagged_charges ih _ _

/-! Where an accepted value ends. -/

section Ends

variable {data : Bytes}

theorem readField_within {offset size : ℕ} {x : Bytes} {b b' : Option ℕ}
    (h : readField data offset size b = .ok x b') : offset+size ≤ data.length := by
  unfold readField requireAvailable at h
  split_ifs at h with hsize
  · cases h
  · omega

theorem readU32_within {offset n : ℕ} {b b' : Option ℕ}
    (h : readU32 data offset b = .ok n b') : offset+4 ≤ data.length := by
  obtain ⟨_, _, h, -⟩ := bind_eq_ok h
  exact readField_within h

theorem readBinary_within {offset : ℕ} {r : Bytes × ℕ} {b b' : Option ℕ}
    (h : readBinary data offset b = .ok r b') : offset < r.2 ∧ r.2 ≤ data.length := by
  obtain ⟨size, _, -, h⟩ := bind_eq_ok h
  obtain ⟨x, _, hx, h⟩ := bind_eq_ok h
  obtain ⟨rfl, -⟩ := pure_eq_ok h
  have hend := readField_within hx
  dsimp only
  omega

/-- A successful read at an offset ends behind it and inside the data. -/
def Advances {α : Type} (data : Bytes) (decode : ℕ → Decoding (α × ℕ)) : Prop :=
  ∀ {offset : ℕ} {r : α × ℕ} {b b' : Option ℕ}, decode offset b = .ok r b' →
    offset < r.2 ∧ r.2 ≤ data.length

variable {decode : ℕ → Decoding (Value × ℕ)} (hdecode : Advances data decode)

include hdecode

theorem decodeItems_advances {count offset : ℕ} (hoffset : offset ≤ data.length)
    {r : List Value × ℕ} {b b' : Option ℕ}
    (h : decodeItems decode count offset b = .ok r b') :
    offset ≤ r.2 ∧ r.2 ≤ data.length := by
  induction count generalizing offset r b b' with
  | zero =>
    cases h
    exact ⟨le_rfl, hoffset⟩
  | succ count ih =>
    rw [decodeItems] at h
    obtain ⟨v, _, hv, h⟩ := bind_eq_ok h
    obtain ⟨t, _, ht, h⟩ := bind_eq_ok h
    obtain ⟨rfl, -⟩ := pure_eq_ok h
    have hfirst := hdecode hv
    have hrest := ih hfirst.2 ht
    exact ⟨by dsimp only; omega, hrest.2⟩

theorem decodeEntries_advances {count offset : ℕ} (hoffset : offset ≤ data.length)
    {es : List (Key × Value)} {r : List (Key × Value) × ℕ} {b b' : Option ℕ}
    (h : decodeEntries data decode count es offset b = .ok r b') :
    offset ≤ r.2 ∧ r.2 ≤ data.length := by
  induction count generalizing offset es b with
  | zero =>
    cases h
    exact ⟨le_rfl, hoffset⟩
  | succ count ih =>
    rw [decodeEntries] at h
    obtain ⟨key, _, hkey, h⟩ := bind_eq_ok h
    dsimp only at h
    split_ifs at h
    · cases h
    · obtain ⟨v, _, hv, h⟩ := bind_eq_ok h
      have h₁ := readBinary_within hkey
      have h₂ := hdecode hv
      have h₃ := ih h₂.2 h
      exact ⟨by omega, h₃.2⟩

theorem decodeTagged_advances {tag offset : ℕ} (hoffset : offset ≤ data.length)
    {r : Value × ℕ} {b b' : Option ℕ} (h : decodeTagged data decode tag offset b = .ok r b') :
    offset ≤ r.2 ∧ r.2 ≤ data.length := by
  have hfixed : ∀ {f : Bytes → Value}, (do
      let x ← readField data offset 8
      pure (f x, offset+8)) b = .ok r b' → offset ≤ r.2 ∧ r.2 ≤ data.length := by
    intro f h
    obtain ⟨x, _, hx, h⟩ := bind_eq_ok h
    obtain ⟨rfl, -⟩ := pure_eq_ok h
    have hend := readField_within hx
    exact ⟨by dsimp only; omega, hend⟩
  unfold decodeTagged at h
  split at h
  · cases h
    exact ⟨le_rfl, hoffset⟩
  · cases h
    exact ⟨le_rfl, hoffset⟩
  · cases h
    exact ⟨le_rfl, hoffset⟩
  · exact hfixed h
  · obtain ⟨x, _, hx, h⟩ := bind_eq_ok h
    obtain ⟨rfl, -⟩ := pure_eq_ok h
    have hend := readBinary_within hx
    exact ⟨hend.1.le, hend.2⟩
  · obtain ⟨count, _, hcount, h⟩ := bind_eq_ok h
    obtain ⟨_, _, -, h⟩ := bind_eq_ok h
    rw [decodeList_eq] at h
    obtain ⟨t, _, ht, h⟩ := bind_eq_ok h
    obtain ⟨rfl, -⟩ := pure_eq_ok h
    have hend := decodeItems_advances hdecode (readU32_within hcount) ht
    exact ⟨by dsimp only; omega, hend.2⟩
  · obtain ⟨count, _, hcount, h⟩ := bind_eq_ok h
    obtain ⟨_, _, -, h⟩ := bind_eq_ok h
    obtain ⟨t, _, ht, h⟩ := bind_eq_ok h
    obtain ⟨rfl, -⟩ := pure_eq_ok h
    have hend := decodeEntries_advances hdecode (readU32_within hcount) ht
    exact ⟨by dsimp only; omega, hend.2⟩
  · exact hfixed h
  · exact hfixed h
  · cases h

end Ends

theorem decodeValueFrom_advances (data : Bytes) (levels : ℕ) :
    Advances data (decodeValueFrom data levels) := by
  induction levels with
  | zero =>
    intro offset r b b' h
    cases h
  | succ levels ih =>
    intro offset r b b' h
    rw [decodeValueFrom] at h
    obtain ⟨tag, _, htag, h⟩ := bind_eq_ok h
    have hone := readField_within htag
    have hend := decodeTagged_advances ih hone h
    exact ⟨by omega, hend.2⟩

/-- At every offset a limited decode succeeds exactly when the unlimited one does and the
counts of all headers fit the budget; the value and the end are then the same, the end lies
behind the start and inside the data, and the budget left is the rest. -/
theorem decode_budget_exact (data : Bytes) (offset : ℤ) (n : ℕ) (value : Value) (final : ℕ)
    (left : Option ℕ) :
    decodeValueAtOffset data offset (some n) = .ok (value, final) left ↔
      decodeValueAtOffset data offset none = .ok (value, final) none ∧
        headerCounts value ≤ n ∧ left = some (n-headerCounts value) ∧
        offset < final ∧ final ≤ data.length := by
  unfold decodeValueAtOffset
  split_ifs with hneg
  · simp
  · rw [decodeValueAt, (decodeValueFrom_charges data _ _).limited]
    constructor
    · rintro ⟨h, hle, rfl⟩
      have hend := decodeValueFrom_advances data _ h
      exact ⟨h, hle, rfl, by omega, hend.2⟩
    · rintro ⟨h, hle, rfl, -, -⟩
      exact ⟨h, hle, rfl⟩

end FerricStore.ValueCodec
