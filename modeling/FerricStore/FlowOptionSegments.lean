import FerricStore.FlowOptionGrammar

/-!
# The segments before an items marker

A search for an items marker passes the options before it one segment at a time. The option
map sees the options alone, without the marker and the items, and its own analysis has
other marks; yet it takes the same segments, so that it reads each of them as if the rest
of the command were not there.
-/

set_option autoImplicit false

namespace FerricStore.FlowOptionGrammar
open Text BasicCommands FlowOptions FlowCommands FlowRouting

variable {rt : Runtime}

section Segments

/-- The segments that the search for a marker passes, and what starts at the marker. -/
inductive Passes (rt : Runtime) :
    List Value → List Bool → List (List Value) → List Value → Prop
  | marker {v : Value} {rest : List Value} {table : List Bool} :
    rt.commandToken v ∈ itemMarkers.map lit → Passes rt (v::rest) table [] (v::rest)
  | option {v : Value} {operands more tail : List Value} {table : List Bool}
    {segs : List (List Value)} : rt.commandToken v ∉ itemMarkers.map lit →
    optionWidth rt (operands++more) table.tail (token rt v) = .ok (some (operands.length+1)) →
    Passes rt more (table.tail.drop operands.length) segs tail →
    Passes rt (v::(operands++more)) table ((v::operands)::segs) tail

theorem Passes.split {args tail : List Value} {table : List Bool} {segs : List (List Value)}
    (h : Passes rt args table segs tail) : args = segs.flatten++tail ∧
      ∃ marker after, tail = marker::after ∧ rt.commandToken marker ∈ itemMarkers.map lit := by
  induction h with
  | marker hmark => exact ⟨rfl, _, _, rfl, hmark⟩
  | option _ _ _ ih =>
    refine ⟨?_, ih.2⟩
    rw [ih.1, List.flatten_cons, List.cons_append, List.cons_append, List.append_assoc]

theorem findItemMarker_append {n : ℕ} (operands : List Value) {more : List Value}
    {table : List Bool} : findItemMarker rt operands.length (operands++more) table = .ok (some n) ↔
      ∃ m, n = operands.length+m ∧
        findItemMarker rt 0 more (table.drop operands.length) = .ok (some m) := by
  rw [findItemMarker_skip]
  cases findItemMarker rt 0 more (table.drop operands.length) with
  | error e => exact ⟨fun h => (nomatch h), fun ⟨_, _, h⟩ => (nomatch h)⟩
  | ok found =>
    cases found with
    | none => exact ⟨fun h => (nomatch h), fun ⟨_, _, h⟩ => (nomatch h)⟩
    | some m =>
      constructor
      · intro h
        cases h
        exact ⟨m, Nat.add_comm m _, rfl⟩
      · rintro ⟨k, rfl, h⟩
        cases h
        rw [Nat.add_comm]
        rfl

theorem Passes.found {args tail : List Value} {table : List Bool} {segs : List (List Value)}
    (h : Passes rt args table segs tail) :
    findItemMarker rt 0 args table = .ok (some segs.flatten.length) := by
  induction h with
  | marker hmark =>
    rw [findItemMarker, if_pos hmark]
    rfl
  | @option v operands more tail table segs hmark hwidth _ ih =>
    have hrest := (findItemMarker_append operands).mpr ⟨_, rfl, ih⟩
    have hroom : ¬(operands++more).length+1 < operands.length+1 := by
      rw [List.length_append]
      omega
    rw [findItemMarker, if_neg hmark, hwidth, except_ok_bind]
    simp only [Option.all_some, hroom, decide_false, Bool.false_eq_true, if_false,
      Option.getD_some, Nat.add_sub_cancel, hrest, except_ok_bind, Option.map_some]
    rw [List.flatten_cons, List.length_append, List.length_cons, Nat.add_right_comm]

theorem optionWidth_pos {rest : List Value} {valid : List Bool} {t : Option String} {w : ℕ}
    (h : optionWidth rt rest valid t = .ok (some w)) : 0 < w := by
  cases t with
  | none => cases h
  | some t =>
    simp only [optionWidth] at h
    split_ifs at h with hitems hflag hparts
    · cases h
    · cases h
      omega
    · obtain ⟨count, -, h⟩ := except_bind_eq_ok h
      cases count with
      | none => cases h
      | some n =>
        cases h
        exact Nat.add_pos_left Nat.two_pos n
    · cases h
      have := fixedWidth_cases t
      omega

/-- A search that finds the marker passes one list of segments. -/
theorem passes_of_found {args : List Value} {table : List Bool} {n : ℕ}
    (h : findItemMarker rt 0 args table = .ok (some n)) :
    ∃ segs tail, Passes rt args table segs tail ∧ segs.flatten.length = n := by
  induction hlength : args.length using Nat.strong_induction_on generalizing args table n with
  | h length ih =>
    cases args with
    | nil => cases h
    | cons v rest =>
      rcases findItemMarker_zero h with ⟨rfl, hmark⟩ | ⟨hmark, w, m, hwidth, rfl, hfound⟩
      · exact ⟨[], _, .marker hmark, rfl⟩
      · have hw := optionWidth_pos hwidth
        have hroom := (findItemMarker_split hfound).1
        obtain ⟨-, opts, marker, after, hopts, hm, -⟩ := findItemMarker_split hfound
        have hfit : w-1 ≤ rest.length := by
          rw [hopts, List.length_append]
          omega
        obtain ⟨operands, more, rfl, hoperands⟩ : ∃ operands more, rest = operands++more ∧
            operands.length = w-1 :=
          ⟨rest.take (w-1), rest.drop (w-1), (List.take_append_drop _ _).symm,
            List.length_take_of_le hfit⟩
        rw [← hoperands] at hfound
        obtain ⟨k, rfl, hk⟩ := (findItemMarker_append operands).mp hfound
        rw [List.length_cons, List.length_append] at hlength
        obtain ⟨segs, tail, hpasses, hlen⟩ := ih more.length (by omega) hk rfl
        have hwidth' : w = operands.length+1 := by omega
        rw [hwidth'] at hwidth
        refine ⟨(v::operands)::segs, tail, .option hmark hwidth hpasses, ?_⟩
        rw [List.flatten_cons, List.length_append, List.length_cons, hlen]
        omega

end Segments

section Flags

variable {args : List Value} {table : List Bool}

/-- A search from a marked place ends at a keyword that the grammar knows for a marker. -/
theorem found_marker_known {skip n : ℕ} (h : flowOptionPlan rt args = .ok table)
    (hs : suffix table skip = true) (hfound : findItemMarker rt skip args table = .ok (some n)) :
    ∃ marker, args[n]? = some marker ∧ IsMarker rt marker := by
  induction args generalizing skip table n with
  | nil => cases hfound
  | cons v rest ih =>
    obtain ⟨first, valid, rfl, hvalid, hfirst⟩ := plan_cons_ok h
    cases skip with
    | succ skip =>
      obtain ⟨m, rfl, hm⟩ := findItemMarker_succ hfound
      exact ih hvalid hs hm
    | zero =>
      rw [suffix_cons_zero] at hs
      subst hs
      have hknown : ∃ t, token rt v = some t := by
        cases ht : token rt v with
        | none =>
          rw [ht] at hfirst
          cases hfirst
        | some t => exact ⟨t, rfl⟩
      obtain ⟨t, ht⟩ := hknown
      have hcommand := commandToken_of_token rt v t ht
      rcases findItemMarker_zero hfound with ⟨rfl, hmark⟩ | ⟨hmark, w, m, hwidth, rfl, hfound⟩
      · rw [hcommand] at hmark
        obtain ⟨s, hs, heq⟩ := List.mem_map.mp hmark
        rw [lit_inj] at heq
        exact ⟨v, rfl, t, heq ▸ hs, ht⟩
      · have hmarker : ¬IsMarker rt v := by
          rintro ⟨s, hs, hv⟩
          rw [commandToken_of_token rt v s hv] at hmark
          exact hmark (List.mem_map_of_mem hs)
        have hend : rest = [] → valid = [true] := by
          rintro rfl
          cases hvalid
          rfl
        obtain ⟨k, hk, -, hnext⟩ := optionWidth_marked hfirst hend hmarker
        rw [List.tail_cons, hk] at hwidth
        cases hwidth
        exact ih hvalid hnext hfound

/-- Where the search passes, both analyses take a `PAYLOAD` the same way, whatever spells
the marker. -/
theorem payloadIsFlag_passed {marker : Value} {after rest : List Value} {valid full : List Bool}
    {w : ℕ} (hvalid : flowOptionPlan rt rest = .ok valid)
    (hfull : flowOptionPlan rt (rest++marker::after) = .ok full)
    (hw : w = if payloadIsFlag rt full (rest++marker::after) then 1 else 2)
    (hfound : findItemMarker rt (w-1) (rest++marker::after) full = .ok (some rest.length)) :
    payloadIsFlag rt full (rest++marker::after) = payloadIsFlag rt valid rest := by
  by_cases hknown : IsMarker rt marker
  · obtain ⟨t, hi, ht⟩ := hknown
    exact payloadIsFlag_at_marker ht hi hvalid hfull hw hfound
  cases hflag : payloadIsFlag rt full (rest++marker::after) with
  | false => exact (payloadIsFlag_value_passed hvalid hw hfound hflag).symm
  | true =>
    rw [hflag, if_pos rfl] at hw
    subst hw
    cases rest with
    | nil => rfl
    | cons next more =>
      simp only [List.cons_append, payloadIsFlag] at hflag ⊢
      split_ifs at hflag with hnone htext
      · rw [if_neg hnone, if_pos htext]
      · -- a flag read from the marks leads to a marker that the grammar knows
        have hstart : suffix full 0 = true := (Bool.and_eq_true _ _ ▸ hflag).1
        obtain ⟨found, hmem, hmarker⟩ := found_marker_known hfull hstart hfound
        have hlast : ((next::more)++marker::after)[(next::more).length]? = some marker := by
          rw [List.getElem?_append_right le_rfl, Nat.sub_self]
          rfl
        rw [hlast] at hmem
        cases hmem
        exact (hknown hmarker).elim

end Flags

section Reading

/-- One option, read from its own arguments. -/
def readSegment (rt : Runtime) (idx : ℕ) (p : Payload) : List Value → Except Err Payload
  | [] => .ok p
  | v::operands => (optionStep rt false idx (rt.commandToken v) operands [] p).map Prod.fst

def readSegments (rt : Runtime) : ℕ → Payload → List (List Value) → Except Err Payload
  | _, p, [] => .ok p
  | idx, p, seg::segs => do
    let p ← readSegment rt idx p seg
    readSegments rt (idx+seg.length) p segs

variable {operands : List Value} {p : Payload} {idx : ℕ} {t : String}

theorem requireNext_append {offset : ℕ} (more : List Value) (option : Str)
    (h : offset < operands.length) :
    requireNext (operands++more) offset idx option = requireNext operands offset idx option := by
  rw [requireNext, List.getElem?_append_left h, requireNext]

theorem namedOption_append (field : String) (more : List Value) (option : Str)
    (h : 2 ≤ operands.length) : namedOption rt field idx option (operands++more) p =
      namedOption rt field idx option operands p := by
  rw [namedOption, requireNext_append more option (by omega : 0 < operands.length),
    requireNext_append more option (by omega : 1 < operands.length), namedOption]

theorem nameOption_append (field : String) (more : List Value) (option : Str)
    (h : 1 ≤ operands.length) : nameOption rt field idx option (operands++more) p =
      nameOption rt field idx option operands p := by
  rw [nameOption, requireNext_append more option h, nameOption]

theorem fieldOption_append (more : List Value) (option : Str) (h : 1 ≤ operands.length) :
    fieldOption rt idx option (operands++more) p = fieldOption rt idx option operands p := by
  rw [fieldOption, fieldOption]
  cases mappedField option with
  | none => rfl
  | some field => simp only [requireNext_append more option h]

theorem collectOption_append (more : List Value) (h : operands.length+1 = fixedWidth t) :
    collectOption rt idx (lit t) (operands++more) p = collectOption rt idx (lit t) operands p := by
  have hone : 1 ≤ operands.length := by
    have := fixedWidth_cases t
    omega
  have hthree {s : String} (hs : lit t = lit s) (hm : s ∈ flowThreeValueOptions) :
      2 ≤ operands.length := by
    rw [lit_inj.mp hs, fixedWidth, if_pos hm] at h
    omega
  unfold collectOption
  refine ite_congr rfl (fun hs => namedOption_append _ _ _ (hthree hs (by decide))) fun _ => ?_
  refine ite_congr rfl (fun _ => nameOption_append _ _ _ hone) fun _ => ?_
  refine ite_congr rfl (fun _ => nameOption_append _ _ _ hone) fun _ => ?_
  refine ite_congr rfl (fun hs => namedOption_append _ _ _ (hthree hs (by decide))) fun _ => ?_
  refine ite_congr rfl (fun hs => namedOption_append _ _ _ (hthree hs (by decide))) fun _ => ?_
  refine ite_congr rfl (fun hs => namedOption_append _ _ _ (hthree hs (by decide))) fun _ => ?_
  exact ite_congr rfl (fun _ => nameOption_append _ _ _ hone) fun _ =>
    fieldOption_append _ _ hone

/-- An option of a fixed width reads its own arguments alone. -/
theorem stateOption_append (more : List Value) (h : operands.length+1 = fixedWidth t) :
    stateOption rt false idx (lit t) (operands++more) p =
      stateOption rt false idx (lit t) operands p := by
  have hone : 1 ≤ operands.length := by
    have := fixedWidth_cases t
    omega
  unfold stateOption
  rw [requireNext_append more (lit t) hone]
  refine ite_congr rfl (fun _ => rfl) fun _ => ?_
  refine ite_congr rfl (fun _ => rfl) fun _ => ?_
  refine ite_congr rfl (fun _ => rfl) fun _ => ?_
  refine ite_congr rfl (fun hs => ?_) fun _ => collectOption_append more h
  rw [lit_inj.mp hs, fixedWidth, if_pos (by decide)] at h
  exact namedOption_append _ _ _ (by omega)

theorem payloadIsFlag_alone {valid : List Bool} {next : Value} {more : List Value}
    (h : payloadIsFlag rt valid (next::more) = false) : payloadIsFlag rt [] [next] = false := by
  simp only [payloadIsFlag] at h ⊢
  split_ifs at h ⊢
  · rfl
  · rfl

theorem requireNonnegativeCount_of_width {label : Str} {count : Value} {k n : ℕ}
    (h : requireNonnegativeCount label count = .ok k)
    (hn : nonNegativeInt rt count = .ok (some n)) : k = n := by
  unfold requireNonnegativeCount at h
  split at h
  · next m =>
    split_ifs at h with hneg
    · cases h
    · cases h
      have hm : nonNegativeInt rt (.int m) = .ok (some m.toNat) := by
        simp [nonNegativeInt, Runtime.toInt, not_lt.mp hneg]
      rw [hm] at hn
      cases hn
      rfl
  · cases h

theorem consumeCounted_exact {label : Str} {count : Value} {n : ℕ} (more : List Value)
    (h : requireNonnegativeCount label count = .ok n) (hn : operands.length = n) :
    consumeCountedArguments label 1 (count::(operands++more)) = .ok (operands, more) := by
  have hroom : ¬n*1 > (operands++more).length := by
    rw [List.length_append]
    omega
  rw [consumeCountedArguments, h, except_ok_bind, if_neg hroom, mul_one, ← hn, List.take_left,
    List.drop_left]

/-- A step of the option map over a segment of the width that the search took reads nothing
behind the segment, and covers all of it. -/
theorem optionStep_segment {more others : List Value} {valid full : List Bool}
    (hm : t ∉ itemMarkers)
    (hwidth : optionWidth rt (operands++others) full (some t) = .ok (some (operands.length+1)))
    (hflag : t = "PAYLOAD" → payloadIsFlag rt full (operands++others) =
      payloadIsFlag rt valid (operands++more)) :
    optionStep rt false idx (lit t) (operands++more) valid p =
        optionStep rt false idx (lit t) operands [] p ∧
      ∀ next, optionStep rt false idx (lit t) operands [] p = .ok next →
        next.2 = operands.length+1 := by
  rcases optionWidth_cases hm hwidth with
    ⟨rfl, hw⟩ | ⟨rfl, hw⟩ | ⟨rfl, n, hcount, hw⟩ | ⟨hn, hp, hps, hw⟩
  · have hstep (rest : List Value) (marks : List Bool) :
        optionStep rt false idx (lit "NOPAYLOAD") rest marks p =
          .ok (Dict.set p "payload" (.bool false), 1) := by
      rw [optionStep, if_pos rfl]
    rw [hstep, hstep]
    refine ⟨rfl, fun next h => ?_⟩
    cases h
    exact hw.symm
  · rw [hflag rfl] at hw
    have hstep (rest : List Value) (marks : List Bool) :
        optionStep rt false idx (lit "PAYLOAD") rest marks p =
          payloadOption rt idx (lit "PAYLOAD") rest marks p := by
      simp [optionStep, lit_inj]
    rw [hstep, hstep]
    cases htaken : payloadIsFlag rt valid (operands++more) with
    | true =>
      rw [htaken, if_pos rfl] at hw
      obtain rfl : operands = [] := List.length_eq_zero_iff.mp (by omega)
      have halone : payloadIsFlag rt [] [] = true := rfl
      rw [payloadOption, if_pos htaken, payloadOption, if_pos halone]
      refine ⟨rfl, fun next h => ?_⟩
      cases h
      rfl
    | false =>
      rw [htaken, if_neg (by decide)] at hw
      obtain ⟨value, rfl⟩ := List.length_eq_one_iff.mp (show operands.length = 1 by omega)
      have halone : payloadIsFlag rt [] [value] = false := payloadIsFlag_alone htaken
      rw [payloadOption, if_neg (Bool.eq_false_iff.mp htaken), payloadOption,
        if_neg (Bool.eq_false_iff.mp halone)]
      refine ⟨rfl, fun next h => ?_⟩
      cases h
      rfl
  · have hstep (rest : List Value) (marks : List Bool) :
        optionStep rt false idx (lit "PARTITIONS") rest marks p = (do
          let segment ← consumeCountedArguments (lit "PARTITIONS") 1 rest
          .ok (Dict.set p "partition_keys" (.list segment.1), 2+segment.1.length)) := by
      simp [optionStep, lit_inj]
    rw [hstep, hstep]
    cases operands with
    | nil =>
      rw [List.length_nil] at hw
      omega
    | cons count values =>
      rw [List.length_cons] at hw
      rw [List.cons_append, List.headD_cons] at hcount
      cases hc : requireNonnegativeCount (lit "PARTITIONS") count with
      | error e =>
        have hfails (xs : List Value) :
            consumeCountedArguments (lit "PARTITIONS") 1 (count::xs) = .error e := by
          rw [consumeCountedArguments, hc]
          rfl
        rw [List.cons_append, hfails, hfails]
        exact ⟨rfl, fun next h => (by cases h)⟩
      | ok k =>
        have hk := requireNonnegativeCount_of_width hc hcount
        have hvalues : values.length = k := by omega
        have halone := consumeCounted_exact [] hc hvalues
        rw [List.append_nil] at halone
        rw [List.cons_append, consumeCounted_exact more hc hvalues, halone]
        refine ⟨rfl, fun next h => ?_⟩
        cases h
        change 2+values.length = _
        rw [List.length_cons]
        omega
  · have hstep (rest : List Value) (marks : List Bool) :
        optionStep rt false idx (lit t) rest marks p =
          stateOption rt false idx (lit t) rest p := by
      simp [optionStep, lit_inj, hn, hp, hps]
    rw [hstep, hstep, stateOption_append more hw]
    refine ⟨rfl, fun next h => ?_⟩
    rw [← hstep operands []] at h
    have hspan := @optionWidth_eq_span rt false t operands operands [] [] hm hps (by simp)
      fun heq => (hp heq).elim
    have hfixed : optionWidth rt operands [] (some t) = .ok (some (fixedWidth t)) := by
      have hitems : ¬(t = "ITEMS" ∨ t = "ITEMS_EXT") := by
        rintro (rfl | rfl) <;> exact hm (by decide)
      simp only [optionWidth, if_neg hitems, hn, hp, hps, false_and, or_false, if_false]
    rw [hfixed] at hspan
    rw [optionStep_span h, hw]
    exact (Option.some.inj (Except.ok.inj hspan)).symm

end Reading

section Agreement

theorem quiet_left {opts tail : List Value} (h : Quiet rt (opts++tail)) : Quiet rt opts := by
  induction opts with
  | nil => trivial
  | cons v opts ih =>
    refine ⟨fun ht => ?_, ih h.2⟩
    cases opts with
    | nil => exact ⟨none, rfl⟩
    | cons next more => exact h.1 ht

variable {args tail : List Value} {full slice : List Bool} {segs : List (List Value)}

/-- The two analyses take every `PAYLOAD` at the head of a segment alike. -/
def FlagsAlike (rt : Runtime) (args : List Value) (full slice : List Bool)
    (segs : List (List Value)) : Prop :=
  ∀ before after v operands, segs = before++(v::operands)::after →
    token rt v = some "PAYLOAD" →
    payloadIsFlag rt (slice.drop (before.flatten.length+1))
        (segs.flatten.drop (before.flatten.length+1)) =
      payloadIsFlag rt (full.drop (before.flatten.length+1))
        (args.drop (before.flatten.length+1))

theorem FlagsAlike.cons {v : Value} {operands more : List Value}
    (hhead : token rt v = some "PAYLOAD" →
      payloadIsFlag rt slice.tail (operands++segs.flatten) =
        payloadIsFlag rt full.tail (operands++more))
    (h : FlagsAlike rt more (full.tail.drop operands.length) (slice.tail.drop operands.length)
      segs) : FlagsAlike rt (v::(operands++more)) full slice ((v::operands)::segs) := by
  intro before after w others hsegs ht
  cases before with
  | nil =>
    cases hsegs
    simpa only [List.flatten_nil, List.length_nil, Nat.zero_add, List.drop_one,
      List.flatten_cons, List.cons_append, List.tail_cons] using hhead ht
  | cons seg before =>
    cases hsegs
    have hrest := h before after w others rfl ht
    have hplace : ((v::operands)::before).flatten.length+1 =
        operands.length+(before.flatten.length+1)+1 := by
      rw [List.flatten_cons, List.length_append, List.length_cons]
      omega
    rw [List.drop_drop, List.drop_drop] at hrest
    rw [hplace, List.flatten_cons, List.cons_append, List.drop_succ_cons, List.drop_succ_cons,
      List.drop_length_add_append, List.drop_length_add_append]
    rwa [List.drop_tail, List.drop_tail] at hrest

/-- The option map of the options reads the segments that the search passes, one by one. -/
theorem Passes.agree (h : Passes rt args full segs tail)
    (hfull : flowOptionPlan rt args = .ok full)
    (hslice : flowOptionPlan rt segs.flatten = .ok slice) :
    FlagsAlike rt args full slice segs ∧
      ∀ idx p, optionWalk rt false idx 0 p segs.flatten slice = readSegments rt idx p segs := by
  induction h generalizing slice with
  | marker =>
    refine ⟨fun before after v operands hsegs => ?_, fun idx p => rfl⟩
    cases before <;> cases hsegs
  | @option v operands more tail table segs hmark hwidth hrest ih =>
    obtain ⟨hmore, marker, after, rfl, hmarker⟩ := hrest.split
    rw [List.flatten_cons, List.cons_append] at hslice
    have hvalid := plan_tail hslice
    have hfull' := plan_tail hfull
    have hdrop := plan_drop hvalid operands.length (by simp)
    have hdrop' := plan_drop hfull' operands.length (by simp)
    rw [List.drop_left] at hdrop hdrop'
    obtain ⟨hflags, hwalk⟩ := ih hdrop' hdrop
    cases ht : token rt v with
    | none =>
      rw [ht] at hwidth
      cases hwidth
    | some t =>
      rw [ht] at hwidth
      have hi := not_marker_of_token ht hmark
      have hplace : operands++more = (operands++segs.flatten)++marker::after := by
        rw [hmore, List.append_assoc]
      have hflag : t = "PAYLOAD" → payloadIsFlag rt table.tail (operands++more) =
          payloadIsFlag rt slice.tail (operands++segs.flatten) := by
        intro hp
        rcases optionWidth_cases hi hwidth with ⟨hn, -⟩ | ⟨-, hw⟩ | ⟨hn, -⟩ | ⟨-, hn, -⟩
        · rw [hp] at hn
          simp at hn
        · have hfound := (findItemMarker_append operands).mpr ⟨_, rfl, hrest.found⟩
          rw [hplace] at hw hfull' hfound ⊢
          rw [← List.length_append] at hfound
          exact payloadIsFlag_passed hvalid hfull' hw hfound
        · rw [hp] at hn
          simp at hn
        · exact (hn hp).elim
      refine ⟨hflags.cons fun hp => (hflag ?_).symm, fun idx p => ?_⟩
      · rw [ht] at hp
        exact Option.some.inj hp
      · obtain ⟨hstep, hcovers⟩ := @optionStep_segment rt operands p idx t segs.flatten more
          slice.tail table.tail hi hwidth hflag
        rw [List.flatten_cons, List.cons_append, optionWalk, commandToken_of_token rt v t ht, hstep,
          readSegments, readSegment, commandToken_of_token rt v t ht]
        cases hresult : optionStep rt false idx (lit t) operands [] p with
        | error e => rfl
        | ok next =>
          rw [except_ok_bind, hcovers next hresult, Nat.add_sub_cancel, optionWalk_skip, hwalk,
            List.length_cons, Nat.add_assoc, Nat.add_comm 1]
          rfl

/-- Slicing the options before the item marker does not change their meaning. A search that
finds the marker passes segments that make up the slice; the analysis of the slice takes
every `PAYLOAD` among them as the analysis of the whole command did, and the option map of
the slice reads these segments, each from its own arguments. -/
theorem slicing_keeps_segments (rt : Runtime) (args : List Value) (start before : ℕ)
    (full : List Bool) (hplan : flowOptionPlan rt args = .ok full)
    (hfound : findItemMarker rt 0 (args.drop start) (full.drop start) = .ok (some before)) :
    ∃ segs slice, Passes rt (args.drop start) (full.drop start) segs (args.drop (start+before)) ∧
      segs.flatten = (args.drop start).take before ∧
      flowOptionPlan rt segs.flatten = .ok slice ∧
      FlagsAlike rt (args.drop start) (full.drop start) slice segs ∧
      optionMap rt false segs.flatten = readSegments rt 0 [] segs := by
  have hstart : start ≤ args.length := by
    by_contra hlt
    rw [List.drop_eq_nil_of_le (by omega)] at hfound
    cases hfound
  have hdrop := plan_drop hplan start hstart
  obtain ⟨segs, tail, hpasses, hlength⟩ := passes_of_found hfound
  obtain ⟨hsplit, -⟩ := hpasses.split
  have htail : args.drop (start+before) = tail := by
    rw [← List.drop_drop, hsplit, ← hlength, List.drop_left]
  obtain ⟨slice, hslice⟩ := (plan_ok_iff rt segs.flatten).mpr
    (quiet_left (hsplit ▸ (plan_ok_iff rt _).mp ⟨_, hdrop⟩))
  obtain ⟨hflags, hwalk⟩ := hpasses.agree hdrop hslice
  refine ⟨segs, slice, htail ▸ hpasses, ?_, hslice, hflags, ?_⟩
  · rw [hsplit, ← hlength, List.take_left]
  · rw [optionMap, hslice, except_ok_bind, hwalk]

/-- A payload in bytes that spells a keyword stands before the marker. -/
theorem slicing_keeps_segments_payload : ∃ segs,
    segs.flatten = [.str (lit "PAYLOAD"), .bytes (utf8 (lit "NOW"))] ∧
    optionMap Runtime.ascii false segs.flatten = readSegments Runtime.ascii 0 [] segs := by
  have hplan : flowOptionPlan Runtime.ascii [.str (lit "MIXED"), .str (lit "PAYLOAD"),
      .bytes (utf8 (lit "NOW")), .str (lit "ITEMS")] = .ok [false, true, true, true, true] := by
    decide +kernel
  obtain ⟨segs, slice, -, hsegs, -, -, hmap⟩ := slicing_keeps_segments Runtime.ascii _ 1 2 _
    hplan (by decide +kernel)
  exact ⟨segs, hsegs, hmap⟩

end Agreement

end FerricStore.FlowOptionGrammar
