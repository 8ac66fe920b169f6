import FerricStore.CollectionCounts
import FerricStore.FlowRouteAgreement
import FerricStore.ManyReading

/-!
# The count of the raw arguments

The count of a create batch is found in its arguments by the walk that the builder makes
too, so it is the number of the items that the builder reads. Every accepted batch ends
its fields with the list of its items.
-/

set_option autoImplicit false

namespace FerricStore.CollectionCounts
open Text BasicCommands FlowOptions FlowCommands FlowManyPayloads CompactBudget FlowCodec

theorem decodeReplace_of_decode {b : Bytes} {s : Str} (h : Text.decode b = some s) :
    decodeReplace b = s := by
  unfold Text.decode at h
  unfold decodeReplace
  generalize utf8Units b.length b = units at h ⊢
  induction units generalizing s with
  | nil =>
    cases h
    rfl
  | cons u units ih =>
    simp only [List.mapM_cons, id] at h
    cases u with
    | none => cases h
    | some c =>
      cases hs : units.mapM id with
      | none =>
        rw [hs] at h
        cases h
      | some t =>
        rw [hs] at h
        cases h
        rw [List.map_cons, ih hs]
        rfl

variable {rt : Runtime}

/-- Text that decodes spells the same keyword before and after. -/
theorem commandToken_text {v : Value} {s : Str} (h : rt.text v = .ok s) :
    rt.commandToken (.str s) = rt.commandToken v := by
  cases v with
  | bytes b =>
    simp only [Runtime.text] at h
    cases hd : Text.decode b with
    | none =>
      rw [hd] at h
      cases h
    | some t =>
      rw [hd] at h
      cases h
      simp only [Runtime.commandToken, decodeReplace_of_decode hd]
      rfl
  | _ =>
    cases h
    rfl

theorem requireArg_ok {args : List Value} {idx : ℕ} {name : String} {v : Value}
    (h : requireArg args idx name = .ok v) : args[idx]? = some v := by
  unfold requireArg at h
  split at h
  · next w hw =>
    cases h
    exact hw
  · cases h

/-- What an accepted batch says about its arguments. -/
theorem manyOptions_ok {name : String} {args : List Value} {selector : Str} {options : Payload}
    {itemToken : ℕ} (h : manyOptions rt name args = .ok (selector, options, itemToken)) :
    ∃ wire rest valid before, args = wire::rest ∧ selector = rt.commandToken wire ∧
      flowOptionPlan rt args = .ok valid ∧
      findItemMarker rt 0 rest (valid.drop 1) = .ok (some before) ∧ itemToken = 1+before ∧
      (options.map Prod.fst).Nodup := by
  obtain ⟨wire, hwire, h⟩ := except_bind_eq_ok h
  obtain ⟨wirePartition, htext, h⟩ := except_bind_eq_ok h
  obtain ⟨token, htoken, h⟩ := except_bind_eq_ok h
  obtain ⟨read, hread, h⟩ := except_bind_eq_ok h
  cases h
  obtain ⟨valid, hvalid, htoken⟩ := except_bind_eq_ok htoken
  obtain ⟨found, hfound, htoken⟩ := except_bind_eq_ok htoken
  obtain ⟨table, -, hread⟩ := except_bind_eq_ok hread
  cases args with
  | nil => cases hwire
  | cons first rest =>
    cases requireArg_ok hwire
    cases found with
    | none => cases htoken
    | some before =>
      cases htoken
      exact ⟨wire, rest, valid, before, rfl, commandToken_text htext, hvalid, hfound, rfl,
        FlowRouting.optionWalk_nodup hread List.nodup_nil⟩

/-- The fields of a batch end with its items. -/
structure Listed (fields : Payload) (items : List Value) : Prop where
  get : Dict.get? fields "items" = some (.list items)
  nodup : (fields.map Prod.fst).Nodup

theorem listed_set {p : Payload} (items : List Value) (hp : (p.map Prod.fst).Nodup) :
    Listed (Dict.set p "items" (.list items)) items :=
  ⟨by rw [Dict.get?_set, if_pos rfl], Dict.nodup_set p _ _ hp⟩

theorem batchFields_nodup {mixed : Bool} {args : List Value} {options : Payload}
    (h : (options.map Prod.fst).Nodup) :
    ((batchFields mixed args options).map Prod.fst).Nodup := by
  unfold batchFields
  split_ifs
  · exact h
  · exact Dict.nodup_set options _ _ h

theorem claimedMany_listed {name : String} {args : List Value} {fields : Payload}
    (h : flowClaimedManyPayload rt name args = .ok fields) : ∃ items, Listed fields items := by
  obtain ⟨⟨selector, options, itemToken⟩, hoptions, h⟩ := except_bind_eq_ok h
  obtain ⟨items, -, h⟩ := except_bind_eq_ok h
  cases h
  obtain ⟨-, -, -, -, -, -, -, -, -, hn⟩ := manyOptions_ok hoptions
  exact ⟨items, listed_set items (batchFields_nodup hn)⟩

theorem fencedMany_listed {name : String} {args : List Value} {includeLease : Bool}
    {fields : Payload} (h : flowFencedManyPayload rt name args includeLease = .ok fields) :
    ∃ items, Listed fields items := by
  obtain ⟨⟨selector, options, itemToken⟩, hoptions, h⟩ := except_bind_eq_ok h
  obtain ⟨items, -, h⟩ := except_bind_eq_ok h
  cases h
  obtain ⟨-, -, -, -, -, -, -, -, -, hn⟩ := manyOptions_ok hoptions
  exact ⟨items, listed_set items (batchFields_nodup hn)⟩

theorem extendedChildren_length {label : Str}
    {head : List Value → Option (List (Key × Value) × List Value)} {n : ℕ} {values items : List Value}
    (h : extendedChildren rt label head n values = .ok items) : items.length = n := by
  induction n generalizing values items with
  | zero =>
    cases values with
    | nil =>
      cases h
      rfl
    | cons v values => cases h
  | succ n ih =>
    unfold extendedChildren at h
    split at h
    · cases h
    · obtain ⟨_, -, h⟩ := except_bind_eq_ok h
      obtain ⟨_, -, h⟩ := except_bind_eq_ok h
      obtain ⟨_, -, h⟩ := except_bind_eq_ok h
      obtain ⟨_, -, h⟩ := except_bind_eq_ok h
      obtain ⟨others, hothers, h⟩ := except_bind_eq_ok h
      cases h
      rw [List.length_cons, ih hothers]

theorem countedChildren_length {label : Str} {minimum n : ℕ}
    {head : List Value → Option (List (Key × Value) × List Value)} {values items : List Value}
    (h : countedChildren rt label minimum head n values = .ok items) : items.length = n := by
  unfold countedChildren at h
  split_ifs at h
  · cases h
  · exact extendedChildren_length h

theorem requireNonnegativeCount_ok {label : Str} {v : Value} {count : ℕ}
    (h : requireNonnegativeCount label v = .ok count) : v = .int count := by
  unfold requireNonnegativeCount at h
  split at h
  · split_ifs at h with hneg
    · cases h
    · cases h
      rw [Int.toNat_of_nonneg (by omega)]
  · cases h

theorem parseCreateItems_length {values items : List Value} {mixed : Bool}
    (h : parseCreateItems values mixed = .ok items) :
    items.length*(if mixed then 3 else 2) = values.length := by
  obtain ⟨rows, hrows, h⟩ := except_bind_eq_ok h
  cases h
  rw [List.length_map]
  exact cut_length hrows

/-- The count that the raw arguments of a create batch declare. -/
theorem flowCreateManyItemCount_ok {args : List Value} {fields : Payload}
    (h : flowCreateManyPayload rt args = .ok fields) :
    ∃ items, Listed fields items ∧
      flowCreateManyItemCount rt args = .ok (some items.length) := by
  obtain ⟨⟨selector, options, itemToken⟩, hoptions, h⟩ := except_bind_eq_ok h
  obtain ⟨items, hitems, h⟩ := except_bind_eq_ok h
  cases h
  obtain ⟨wire, rest, valid, before, rfl, rfl, hvalid, hfound, rfl, hn⟩ := manyOptions_ok hoptions
  refine ⟨items, listed_set items ?_, ?_⟩
  · split_ifs
    · exact hn
    · exact Dict.nodup_set options _ _ hn
  have hmarker : (wire::rest).getD (1+before) .none = rest.getD before .none := by
    rw [Nat.add_comm 1 before]
    rfl
  simp only [createItems, hmarker] at hitems
  simp only [flowCreateManyItemCount, hvalid, hfound, bind, Except.bind]
  by_cases hext : rt.commandToken (rest.getD before .none) = lit "ITEMS_EXT" ∨
      rt.commandToken (rest.getD before .none) = lit "ITEMS_EXT_V2"
  · rw [if_pos hext] at hitems ⊢
    obtain ⟨countArg, hcount, hitems⟩ := except_bind_eq_ok hitems
    obtain ⟨count, hnonneg, hitems⟩ := except_bind_eq_ok hitems
    have hargs := requireArg_ok hcount
    rw [show 1+before+1 = (before+1)+1 by omega, List.getElem?_cons_succ,
      requireNonnegativeCount_ok hnonneg] at hargs
    have hlength : items.length = count := by
      split_ifs at hitems
      · exact countedChildren_length hitems
      · exact countedChildren_length hitems
    rw [hargs]
    simp [hlength]
  · rw [if_neg hext] at hitems ⊢
    have hlength := parseCreateItems_length hitems
    have hvalues : (wire::rest).length-(before+1)-1 =
        items.length*(if rt.commandToken wire = lit "MIXED" then 3 else 2) := by
      rw [List.length_drop] at hlength
      simp only [decide_eq_true_eq] at hlength
      omega
    have hwidth : 0 < if rt.commandToken wire = lit "MIXED" then 3 else 2 := by
      split_ifs <;> omega
    rw [hvalues, Nat.mul_mod_left, if_pos rfl, Nat.mul_div_cancel _ hwidth]

end FerricStore.CollectionCounts
