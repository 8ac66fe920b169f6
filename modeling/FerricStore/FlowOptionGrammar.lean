import FerricStore.OptionEmissions

/-!
# The option grammar and its analysis

An option list ends at an items marker or at the end of the arguments, and `PAYLOAD`
before bytes that spell a keyword leaves a choice. The backward analysis marks exactly
the places where such a list starts. A forward walk that takes each choice by the marks
of the next two places never leaves the marked places.
-/

set_option autoImplicit false

namespace FerricStore.FlowOptionGrammar
open Text FlowOptions

variable {rt : Runtime}

section Grammar

/-- A keyword that ends the options. -/
def IsMarker (rt : Runtime) (v : Value) : Prop := ∃ t ∈ itemMarkers, token rt v = some t

/-- The numbers of arguments that an option may cover, its keyword among them, when
`rest` follows the keyword. -/
inductive Spans (rt : Runtime) : Value → List Value → ℕ → Prop
  | noPayload {v : Value} {rest : List Value} :
    token rt v = some "NOPAYLOAD" → Spans rt v rest 1
  | lastPayload {v : Value} : token rt v = some "PAYLOAD" → Spans rt v [] 1
  | payloadFlag {v next : Value} {more : List Value} : token rt v = some "PAYLOAD" →
    (token rt next).isSome → Spans rt v (next::more) 1
  | payloadValue {v next : Value} {more : List Value} : token rt v = some "PAYLOAD" →
    ¬((token rt next).isSome ∧ isText next) → Spans rt v (next::more) 2
  | partitions {v next : Value} {more : List Value} {n : ℕ} : token rt v = some "PARTITIONS" →
    nonNegativeInt rt next = .ok (some n) → Spans rt v (next::more) (2+n)
  | fixed {v : Value} {rest : List Value} {t : String} : token rt v = some t →
    t ∉ itemMarkers → t ≠ "NOPAYLOAD" → t ≠ "PAYLOAD" → t ≠ "PARTITIONS" →
    Spans rt v rest (fixedWidth t)

/-- The arguments from a place on can be cut into options. -/
inductive Cut (rt : Runtime) (args : List Value) : ℕ → Prop
  | finish : Cut rt args args.length
  | marker {i : ℕ} {v : Value} : args[i]? = some v → IsMarker rt v → Cut rt args i
  | option {i w : ℕ} {v : Value} : args[i]? = some v → Spans rt v (args.drop (i+1)) w →
    Cut rt args (i+w) → Cut rt args i

theorem fixedWidth_cases (t : String) : fixedWidth t = 2 ∨ fixedWidth t = 3 := by
  unfold fixedWidth
  split_ifs
  · exact .inr rfl
  · exact .inl rfl

theorem Spans.positive {v : Value} {rest : List Value} {w : ℕ} (h : Spans rt v rest w) :
    0 < w := by
  cases h with
  | fixed ht =>
    rename_i t _ _ _ _
    have := fixedWidth_cases t
    omega
  | _ => omega

theorem Spans.known {v : Value} {rest : List Value} {w : ℕ} (h : Spans rt v rest w) :
    ∃ t, token rt v = some t ∧ t ∉ itemMarkers := by
  cases h with
  | noPayload ht => exact ⟨_, ht, by decide⟩
  | lastPayload ht => exact ⟨_, ht, by decide⟩
  | payloadFlag ht => exact ⟨_, ht, by decide⟩
  | payloadValue ht => exact ⟨_, ht, by decide⟩
  | partitions ht => exact ⟨_, ht, by decide⟩
  | fixed ht hm => exact ⟨_, ht, hm⟩

section Words

variable {v next : Value} {rest more : List Value} {w : ℕ} {t : String}

theorem spans_noPayload (h : token rt v = some "NOPAYLOAD") : Spans rt v rest w ↔ w = 1 := by
  constructor
  · intro hs
    cases hs <;> simp_all
  · rintro rfl
    exact .noPayload h

theorem spans_lastPayload (h : token rt v = some "PAYLOAD") : Spans rt v [] w ↔ w = 1 := by
  constructor
  · intro hs
    cases hs <;> simp_all
  · rintro rfl
    exact .lastPayload h

theorem spans_payload (h : token rt v = some "PAYLOAD") : Spans rt v (next::more) w ↔
    ((token rt next).isSome = true ∧ w = 1) ∨
      (¬((token rt next).isSome = true ∧ isText next = true) ∧ w = 2) := by
  constructor
  · intro hs
    cases hs with
    | payloadFlag _ hnext => exact .inl ⟨hnext, rfl⟩
    | payloadValue _ hnext => exact .inr ⟨hnext, rfl⟩
    | _ => simp_all
  · rintro (⟨hnext, rfl⟩ | ⟨hnext, rfl⟩)
    · exact .payloadFlag h hnext
    · exact .payloadValue h hnext

theorem spans_partitions (h : token rt v = some "PARTITIONS") : Spans rt v rest w ↔
    ∃ n, nonNegativeInt rt (rest.headD .none) = .ok (some n) ∧ w = 2+n := by
  constructor
  · intro hs
    cases hs with
    | partitions _ hn => exact ⟨_, hn, rfl⟩
    | _ => simp_all
  · rintro ⟨n, hn, rfl⟩
    cases rest with
    | nil => cases hn
    | cons next more => exact .partitions h hn

theorem spans_fixed (h : token rt v = some t) (hm : t ∉ itemMarkers) (hn : t ≠ "NOPAYLOAD")
    (hp : t ≠ "PAYLOAD") (hps : t ≠ "PARTITIONS") : Spans rt v rest w ↔ w = fixedWidth t := by
  constructor
  · intro hs
    cases hs <;> simp_all
  · rintro rfl
    exact .fixed h hm hn hp hps

end Words

/-- What the analysis decides for one keyword, from the marks after it. -/
theorem optionValid_iff {v : Value} {rest : List Value} {valid : List Bool} {first : Bool}
    (h : optionValid rt rest valid (token rt v) = .ok first)
    (hend : rest = [] → valid = [true]) :
    first = true ↔ IsMarker rt v ∨ ∃ w, Spans rt v rest (w+1) ∧ suffix valid w = true := by
  cases ht : token rt v with
  | none =>
    rw [ht] at h
    cases h
    refine ⟨fun h => (by cases h), ?_⟩
    rintro (⟨t, -, hv⟩ | ⟨w, hspans, -⟩)
    · rw [ht] at hv
      cases hv
    · obtain ⟨t, hv, -⟩ := hspans.known
      rw [ht] at hv
      cases hv
  | some t =>
    rw [ht] at h
    by_cases hm : t ∈ itemMarkers
    · simp only [optionValid, if_pos hm] at h
      cases h
      exact ⟨fun _ => .inl ⟨t, hm, ht⟩, fun _ => rfl⟩
    have hnot : ¬IsMarker rt v := by
      rintro ⟨s, hs, hv⟩
      rw [ht] at hv
      cases hv
      exact hm hs
    rw [or_iff_right hnot]
    by_cases hn : t = "NOPAYLOAD"
    · subst hn
      simp only [optionValid, if_neg hm, if_true] at h
      cases h
      simp only [spans_noPayload ht, Nat.add_eq_right, exists_eq_left]
    by_cases hp : t = "PAYLOAD"
    · subst hp
      simp only [optionValid, if_neg hm, if_neg hn, if_true] at h
      cases h
      cases rest with
      | nil =>
        rw [hend rfl]
        simp only [spans_lastPayload ht, Nat.add_eq_right, exists_eq_left]
        exact ⟨fun _ => rfl, fun _ => rfl⟩
      | cons next more =>
        simp only [payloadValid, spans_payload ht]
        constructor
        · intro hs
          split_ifs at hs with hnext htext
          · exact ⟨0, .inl ⟨hnext, rfl⟩, hs⟩
          · rcases Bool.or_eq_true _ _ ▸ hs with hs | hs
            · exact ⟨0, .inl ⟨hnext, rfl⟩, hs⟩
            · exact ⟨1, .inr ⟨fun hboth => htext hboth.2, rfl⟩, hs⟩
          · exact ⟨1, .inr ⟨fun hboth => hnext hboth.1, rfl⟩, hs⟩
        · rintro ⟨w, ⟨hnext, hw⟩ | ⟨hnext, hw⟩, hs⟩
          · obtain rfl : w = 0 := by omega
            simp [hnext, hs]
          · obtain rfl : w = 1 := by omega
            split_ifs with hsome htext
            · exact (hnext ⟨hsome, htext⟩).elim
            · rw [hs, Bool.or_true]
            · exact hs
    by_cases hps : t = "PARTITIONS"
    · subst hps
      simp only [optionValid, if_neg hm, if_neg hn, if_neg hp, if_true] at h
      obtain ⟨count, hcount, h⟩ := except_bind_eq_ok h
      cases h
      simp only [spans_partitions ht, hcount, Except.ok.injEq]
      cases count with
      | none =>
        refine ⟨fun h => (by cases h), fun h => ?_⟩
        obtain ⟨w, ⟨n, hn, _⟩, _⟩ := h
        cases hn
      | some n =>
        refine ⟨fun hs => ⟨n+1, ⟨n, rfl, by omega⟩, hs⟩, ?_⟩
        rintro ⟨w, ⟨m, hm, hw⟩, hs⟩
        cases hm
        obtain rfl : w = n+1 := by omega
        exact hs
    · simp only [optionValid, if_neg hm, if_neg hn, if_neg hp, if_neg hps] at h
      cases h
      have hwidth : fixedWidth t-1+1 = fixedWidth t := by
        have := fixedWidth_cases t
        omega
      simp only [spans_fixed ht hm hn hp hps]
      refine ⟨fun hs => ⟨_, hwidth, hs⟩, ?_⟩
      rintro ⟨w, hw, hs⟩
      rwa [← hw, Nat.add_sub_cancel]

end Grammar

section Marks

variable {args : List Value} {table : List Bool}

theorem plan_length (h : flowOptionPlan rt args = .ok table) : table.length = args.length+1 := by
  induction args generalizing table with
  | nil =>
    cases h
    rfl
  | cons v rest ih =>
    obtain ⟨first, valid, rfl, hvalid, -⟩ := plan_cons_ok h
    rw [List.length_cons, ih hvalid, List.length_cons]

theorem suffix_drop_add (table : List Bool) (k i : ℕ) :
    suffix (table.drop k) i = suffix table (k+i) := by
  rw [suffix, suffix, List.getD_eq_getElem?_getD, List.getD_eq_getElem?_getD, List.getElem?_drop]

theorem suffix_le (h : flowOptionPlan rt args = .ok table) {i : ℕ} (hs : suffix table i = true) :
    i ≤ args.length := by
  by_contra hlt
  have hlength := plan_length h
  rw [suffix, List.getD_eq_getElem?_getD, List.getElem?_eq_none (by omega)] at hs
  cases hs

theorem suffix_length (h : flowOptionPlan rt args = .ok table) :
    suffix table args.length = true := by
  induction args generalizing table with
  | nil =>
    cases h
    rfl
  | cons v rest ih =>
    obtain ⟨first, valid, rfl, hvalid, -⟩ := plan_cons_ok h
    exact ih hvalid

theorem drop_place {i : ℕ} {v : Value} (hv : args[i]? = some v) :
    args.drop i = v::args.drop (i+1) := by
  obtain ⟨hi, rfl⟩ := List.getElem?_eq_some_iff.mp hv
  exact List.drop_eq_getElem_cons hi

/-- The mark of a place, computed from the marks after it. -/
theorem plan_place (h : flowOptionPlan rt args = .ok table) {i : ℕ} {v : Value}
    (hv : args[i]? = some v) :
    optionValid rt (args.drop (i+1)) (table.drop (i+1)) (token rt v) = .ok (suffix table i) ∧
      (args.drop (i+1) = [] → table.drop (i+1) = [true]) := by
  have hi := (List.getElem?_eq_some_iff.mp hv).1
  have hplan := plan_drop h i hi.le
  rw [drop_place hv] at hplan
  obtain ⟨first, valid, htable, hvalid, hfirst⟩ := plan_cons_ok hplan
  have htail : table.drop (i+1) = valid := by
    rw [← List.tail_drop, htable, List.tail_cons]
  have hsuffix : suffix table i = first := by
    have hs := suffix_drop_add table i 0
    rw [htable, Nat.add_zero] at hs
    exact hs.symm
  rw [htail, hsuffix]
  refine ⟨hfirst, fun hnil => ?_⟩
  rw [hnil] at hvalid
  cases hvalid
  rfl

theorem place_iff (h : flowOptionPlan rt args = .ok table) {i : ℕ} {v : Value}
    (hv : args[i]? = some v) : suffix table i = true ↔
      IsMarker rt v ∨ ∃ w, Spans rt v (args.drop (i+1)) w ∧ suffix table (i+w) = true := by
  obtain ⟨hvalid, hend⟩ := plan_place h hv
  rw [optionValid_iff hvalid hend]
  refine or_congr Iff.rfl ⟨?_, ?_⟩
  · rintro ⟨w, hspans, hs⟩
    rw [suffix_drop_add, Nat.add_right_comm] at hs
    exact ⟨w+1, hspans, hs⟩
  · rintro ⟨w, hspans, hs⟩
    obtain ⟨w, rfl⟩ := Nat.exists_eq_succ_of_ne_zero hspans.positive.ne'
    refine ⟨w, hspans, ?_⟩
    rw [suffix_drop_add, Nat.add_right_comm]
    exact hs

theorem suffix_iff_cut (h : flowOptionPlan rt args = .ok table) (i : ℕ) :
    suffix table i = true ↔ Cut rt args i := by
  constructor
  · intro hs
    -- by what is left of the arguments
    induction hleft : args.length-i using Nat.strong_induction_on generalizing i with
    | h left ih =>
      have hle := suffix_le h hs
      rcases hle.eq_or_lt with rfl | hlt
      · exact .finish
      · have hv : args[i]? = some args[i] := List.getElem?_eq_getElem hlt
        rcases (place_iff h hv).mp hs with hmarker | ⟨w, hspans, hnext⟩
        · exact .marker hv hmarker
        · have hpositive := hspans.positive
          exact .option hv hspans (ih (args.length-(i+w)) (by omega) (i+w) hnext rfl)
  · intro hcut
    induction hcut with
    | finish => exact suffix_length h
    | marker hv hmarker => exact (place_iff h hv).mpr (.inl hmarker)
    | option hv hspans _ ih => exact (place_iff h hv).mpr (.inr ⟨_, hspans, ih⟩)

end Marks

section Walk

/-- The walk takes an option list that exists: it takes a width the grammar allows, to a
place that is marked. -/
theorem optionWidth_marked {v : Value} {rest : List Value} {valid : List Bool}
    (h : optionValid rt rest valid (token rt v) = .ok true)
    (hend : rest = [] → valid = [true]) (hmarker : ¬IsMarker rt v) :
    ∃ w, optionWidth rt rest valid (token rt v) = .ok (some (w+1)) ∧ Spans rt v rest (w+1) ∧
      suffix valid w = true := by
  obtain ⟨w, hspans, hs⟩ := ((optionValid_iff h hend).mp rfl).resolve_left hmarker
  obtain ⟨t, ht, hm⟩ := hspans.known
  have hitems : ¬(t = "ITEMS" ∨ t = "ITEMS_EXT") := by
    rintro (rfl | rfl) <;> exact hm (by decide)
  by_cases hn : t = "NOPAYLOAD"
  · subst hn
    obtain rfl : w = 0 := by simpa [spans_noPayload ht] using hspans
    exact ⟨0, by rw [ht]; rfl, hspans, hs⟩
  by_cases hp : t = "PAYLOAD"
  · subst hp
    have hwidth : optionWidth rt rest valid (token rt v) =
        .ok (some (if payloadIsFlag rt valid rest then 1 else 2)) := by
      simp only [ht, optionWidth, hn, false_or, true_and, String.reduceEq, if_false]
      split_ifs <;> rfl
    rw [hwidth]
    cases rest with
    | nil =>
      obtain rfl : w = 0 := by simpa [spans_lastPayload ht] using hspans
      exact ⟨0, rfl, hspans, hs⟩
    | cons next more =>
      cases hflag : payloadIsFlag rt valid (next::more) with
      | true =>
        have hsome : (token rt next).isSome = true := by
          rw [← Option.not_isNone]
          by_contra hnone
          simp_all [payloadIsFlag]
        have hfirst : suffix valid 0 = true := by
          rcases (spans_payload ht).mp hspans with ⟨-, hw⟩ | ⟨hnot, -⟩
          · obtain rfl : w = 0 := by omega
            exact hs
          · have htext : ¬isText next = true := fun htext => hnot ⟨hsome, htext⟩
            simp_all [payloadIsFlag]
        exact ⟨0, rfl, .payloadFlag ht hsome, hfirst⟩
      | false =>
        -- bytes that spell a keyword are a value when the place after them is marked
        have hvalue : ¬((token rt next).isSome = true ∧ isText next = true) := by
          rintro ⟨hsome, htext⟩
          simp_all [payloadIsFlag, Option.isNone_iff_eq_none]
        have hsecond : suffix valid 1 = true := by
          rcases (spans_payload ht).mp hspans with ⟨hsome, hw⟩ | ⟨-, hw⟩
          · obtain rfl : w = 0 := by omega
            have htext : ¬isText next = true := fun htext => hvalue ⟨hsome, htext⟩
            simp_all [payloadIsFlag, Option.isSome_iff_ne_none]
          · obtain rfl : w = 1 := by omega
            exact hs
        exact ⟨1, rfl, .payloadValue ht hvalue, hsecond⟩
  by_cases hps : t = "PARTITIONS"
  · subst hps
    obtain ⟨n, hcount, hw⟩ := (spans_partitions ht).mp hspans
    refine ⟨w, ?_, hspans, hs⟩
    simp only [ht, optionWidth, if_neg hitems, hn, hp, false_and, or_false, if_false, if_true,
      hcount, except_ok_bind, Option.map_some, hw]
  · have hw := (spans_fixed ht hm hn hp hps).mp hspans
    refine ⟨w, ?_, hspans, hs⟩
    simp only [ht, optionWidth, if_neg hitems, hn, hp, hps, false_and, or_false, if_false, hw]

/-- One advance by `option_width` from a place that holds no items marker. -/
def Advances (rt : Runtime) (args : List Value) (table : List Bool) (i j : ℕ) : Prop :=
  ∃ v w, args[i]? = some v ∧ ¬IsMarker rt v ∧
    optionWidth rt (args.drop (i+1)) (table.drop (i+1)) (token rt v) = .ok (some w) ∧ j = i+w

/-- The places where a walk ends. -/
def Ends (rt : Runtime) (args : List Value) (i : ℕ) : Prop :=
  i = args.length ∨ ∃ v, args[i]? = some v ∧ IsMarker rt v

variable {args : List Value} {table : List Bool}

/-- From a marked place the walk ends or advances to a further marked place. -/
theorem marked_advances (h : flowOptionPlan rt args = .ok table) {i : ℕ}
    (hs : suffix table i = true) :
    i ≤ args.length ∧ (Ends rt args i ∨ ∃ j, Advances rt args table i j) ∧
      ∀ j, Advances rt args table i j → i < j ∧ j ≤ args.length ∧ suffix table j = true := by
  have hle := suffix_le h hs
  have hstep : ∀ v, args[i]? = some v → ¬IsMarker rt v → ∃ w,
      optionWidth rt (args.drop (i+1)) (table.drop (i+1)) (token rt v) = .ok (some (w+1)) ∧
        suffix table (i+(w+1)) = true := by
    intro v hv hmarker
    obtain ⟨hvalid, hend⟩ := plan_place h hv
    rw [hs] at hvalid
    obtain ⟨w, hwidth, -, hnext⟩ := optionWidth_marked hvalid hend hmarker
    rw [suffix_drop_add, Nat.add_right_comm] at hnext
    exact ⟨w, hwidth, hnext⟩
  refine ⟨hle, ?_, ?_⟩
  · rcases hle.eq_or_lt with heq | hlt
    · exact .inl (.inl heq)
    · have hv : args[i]? = some args[i] := List.getElem?_eq_getElem hlt
      by_cases hmarker : IsMarker rt args[i]
      · exact .inl (.inr ⟨_, hv, hmarker⟩)
      · obtain ⟨w, hwidth, -⟩ := hstep _ hv hmarker
        exact .inr ⟨i+(w+1), _, w+1, hv, hmarker, hwidth, rfl⟩
  · rintro j ⟨v, w, hv, hmarker, hwidth, rfl⟩
    obtain ⟨w', hwidth', hnext⟩ := hstep v hv hmarker
    rw [hwidth] at hwidth'
    cases hwidth'
    exact ⟨by omega, suffix_le h hnext, hnext⟩

theorem marked_reaches (h : flowOptionPlan rt args = .ok table) {i : ℕ}
    (hs : suffix table i = true) :
    ∃ j, Relation.ReflTransGen (Advances rt args table) i j ∧ Ends rt args j := by
  induction hleft : args.length-i using Nat.strong_induction_on generalizing i with
  | h left ih =>
    obtain ⟨hle, hends | ⟨j, hj⟩, hnext⟩ := marked_advances h hs
    · exact ⟨i, .refl, hends⟩
    · obtain ⟨hlt, hjle, hmarked⟩ := hnext j hj
      obtain ⟨k, hk, hends⟩ := ih (args.length-j) (by omega) hmarked rfl
      exact ⟨k, .head hj hk, hends⟩

/-- The option grammar analysis is sound and complete: where it can be made, it marks
exactly the places from which the arguments can be cut into options, and a walk from such a
place goes on by positive widths, through such places only, to the end or a marker. -/
theorem option_analysis_is_exact (rt : Runtime) (args : List Value) :
    ((∃ table, flowOptionPlan rt args = .ok table) ↔ Quiet rt args) ∧
    ∀ table, flowOptionPlan rt args = .ok table → ∀ start,
      (suffix table start = true ↔ Cut rt args start) ∧
      (suffix table start = true →
        (∀ i, Relation.ReflTransGen (Advances rt args table) start i →
          i ≤ args.length ∧ suffix table i = true ∧
          (Ends rt args i ∨ ∃ j, Advances rt args table i j) ∧
          ∀ j, Advances rt args table i j → i < j ∧ j ≤ args.length) ∧
        ∃ i, Relation.ReflTransGen (Advances rt args table) start i ∧ Ends rt args i) := by
  refine ⟨plan_ok_iff rt args, fun table h start => ⟨suffix_iff_cut h start, fun hs => ?_⟩⟩
  refine ⟨fun i hi => ?_, marked_reaches h hs⟩
  have hmarked : suffix table i = true := by
    induction hi with
    | refl => exact hs
    | tail _ hj ih => exact ((marked_advances h ih).2.2 _ hj).2.2
  obtain ⟨hle, hon, hnext⟩ := marked_advances h hmarked
  exact ⟨hle, hmarked, hon, fun j hj => ⟨(hnext j hj).1, (hnext j hj).2.1⟩⟩

/-- Bytes that spell a keyword after `PAYLOAD`, with both readings open. -/
theorem option_analysis_is_exact_payload :
    ∃ table, flowOptionPlan Runtime.ascii
      [.str (lit "PAYLOAD"), .bytes (utf8 (lit "NOPAYLOAD")), .str (lit "ITEMS")] = .ok table ∧
      Cut Runtime.ascii
        [.str (lit "PAYLOAD"), .bytes (utf8 (lit "NOPAYLOAD")), .str (lit "ITEMS")] 0 := by
  have hplan : flowOptionPlan Runtime.ascii [.str (lit "PAYLOAD"),
      .bytes (utf8 (lit "NOPAYLOAD")), .str (lit "ITEMS")] = .ok [true, true, true, true] := by
    decide +kernel
  exact ⟨_, hplan, (((option_analysis_is_exact Runtime.ascii _).2 _ hplan 0).1).mp rfl⟩

end Walk

end FerricStore.FlowOptionGrammar
