import FerricStore.FlowItemMarkers

/-!
# Option lists that the client writes

The client writes an option as a keyword in text and the arguments it covers. What
it writes is read back option by option, whatever the arguments spell: the analysis
finds an option list at every keyword, so it never takes a payload for a flag. Only
a conversion that raises can stop it.
-/

set_option autoImplicit false

namespace FerricStore.FlowOptions
open Text BasicCommands FlowCommands FlowRouting

structure Emitted where
  keyword : String
  args : List Value

def Emitted.flat (e : Emitted) : List Value := .str (lit e.keyword)::e.args

def flat (es : List Emitted) : List Value := es.flatMap Emitted.flat

/-- A keyword with as many arguments as it covers; a payload is not text. -/
structure Emitted.Fits (e : Emitted) : Prop where
  known : e.keyword ∈ flowOptionTokens
  plain : e.keyword ∉ itemMarkers
  flagless : e.keyword ≠ "NOPAYLOAD"
  counted : e.keyword ≠ "PARTITIONS"
  width : e.args.length+1 = fixedWidth e.keyword
  payload : e.keyword = "PAYLOAD" → ∀ v ∈ e.args, isText v = false

theorem flat_cons (e : Emitted) (es : List Emitted) : flat (e::es) = e.flat++flat es := rfl

theorem flat_append (as bs : List Emitted) : flat (as++bs) = flat as++flat bs :=
  List.flatMap_append

theorem upperText_lit (rt : Runtime) {t : String} (h : t ∈ flowOptionTokens) :
    rt.upperText (lit t) = lit t := by
  rw [Runtime.upperText, flowOptionTokens_ascii t h, if_pos rfl, upperAscii_lit h]

theorem token_lit (rt : Runtime) {t : String} (h : t ∈ flowOptionTokens) :
    token rt (.str (lit t)) = some t := by
  have hlen := length_lit_le h
  simp only [token]
  rw [if_neg (by omega), upperText_lit rt h]
  obtain ⟨u, hu⟩ := Option.isSome_iff_exists.mp
    (List.find?_isSome.mpr ⟨t, h, by simp⟩ :
      (flowOptionTokens.find? fun u => lit u = lit t).isSome = true)
  have he : u = t := lit_inj.mp (by simpa using List.find?_some hu)
  rw [hu, he]

theorem commandToken_lit (rt : Runtime) {t : String} (h : t ∈ flowOptionTokens) :
    rt.commandToken (.str (lit t)) = lit t := commandToken_of_token rt _ t (token_lit rt h)

section Quiet

/-- No count after a word that spells `PARTITIONS` stops the analysis. -/
def Quiet (rt : Runtime) : List Value → Prop
  | [] => True
  | v::rest => (token rt v = some "PARTITIONS" →
      ∃ c, nonNegativeInt rt (rest.headD .none) = .ok c) ∧ Quiet rt rest

theorem optionValid_ok {rt : Runtime} {rest : List Value} (valid : List Bool)
    {t : Option String} :
    (∃ first, optionValid rt rest valid t = .ok first) ↔
      (t = some "PARTITIONS" → ∃ c, nonNegativeInt rt (rest.headD .none) = .ok c) := by
  cases t with
  | none => simp [optionValid]
  | some t =>
    by_cases hps : t = "PARTITIONS"
    · subst hps
      simp only [optionValid, itemMarkers, List.mem_cons, String.reduceEq, List.not_mem_nil,
        or_false, if_false, if_true, forall_const]
      cases nonNegativeInt rt (rest.headD .none) <;> simp [bind, Except.bind]
    · refine ⟨fun _ he => absurd (Option.some_inj.mp he) hps, fun _ => ?_⟩
      simp only [optionValid, if_neg hps]
      split_ifs <;> exact ⟨_, rfl⟩

theorem plan_ok_iff (rt : Runtime) (args : List Value) :
    (∃ table, flowOptionPlan rt args = .ok table) ↔ Quiet rt args := by
  induction args with
  | nil => exact ⟨fun _ => trivial, fun _ => ⟨_, rfl⟩⟩
  | cons v rest ih =>
    constructor
    · rintro ⟨table, h⟩
      obtain ⟨first, valid, -, hvalid, hfirst⟩ := plan_cons_ok h
      exact ⟨(optionValid_ok valid).mp ⟨first, hfirst⟩, ih.mp ⟨valid, hvalid⟩⟩
    · rintro ⟨hhead, hrest⟩
      obtain ⟨valid, hvalid⟩ := ih.mpr hrest
      obtain ⟨first, hfirst⟩ := (optionValid_ok valid).mpr hhead
      exact ⟨first::valid, by simp [flowOptionPlan, hvalid, hfirst, bind, Except.bind]⟩

/-- A value that `int` refuses with a type or value error alone still reads as a count. -/
theorem nonNegativeInt_ok {rt : Runtime} {v : Value}
    (h : ∀ e, rt.int v = .error e → e = .typeError ∨ e = .valueError) :
    ∃ c, nonNegativeInt rt v = .ok c := by
  cases hi : rt.int v with
  | ok n => cases v <;> simp [nonNegativeInt, Runtime.toInt, hi]
  | error e => rcases h e hi with rfl | rfl <;> cases v <;> simp [nonNegativeInt, Runtime.toInt, hi]

/-- `int` of text raises nothing but `ValueError`. -/
def TextNumbers (rt : Runtime) : Prop :=
  ∀ v e, (isText v = true ∨ ∃ b, v = .bytes b) → rt.int v = .error e → e = .valueError

theorem nonNegativeInt_text {rt : Runtime} (h : TextNumbers rt) {v : Value}
    (hv : isText v = true ∨ ∃ b, v = .bytes b) : ∃ c, nonNegativeInt rt v = .ok c :=
  nonNegativeInt_ok fun e he => .inr (h v e hv he)

theorem nonNegativeInt_int (rt : Runtime) (n : ℤ) : ∃ c, nonNegativeInt rt (.int n) = .ok c :=
  ⟨_, rfl⟩

/-- What stands before a keyword or the end is read without a count. -/
theorem nonNegativeInt_head {rt : Runtime} (h : TextNumbers rt) {rest : List Value}
    (hr : rest = [] ∨ ∃ s more, rest = .str s::more) :
    ∃ c, nonNegativeInt rt (rest.headD .none) = .ok c := by
  rcases hr with rfl | ⟨s, more, rfl⟩
  · exact ⟨none, rfl⟩
  · exact nonNegativeInt_text h (.inl rfl)

end Quiet

section Boundaries

variable {rt : Runtime}

theorem suffix_drop (table : List Bool) (k : ℕ) : suffix table k = suffix (table.drop k) 0 := by
  simp [suffix, List.getD_eq_getElem?_getD]

theorem plan_append {xs tail : List Value} {table : List Bool}
    (h : flowOptionPlan rt (xs++tail) = .ok table) :
    flowOptionPlan rt tail = .ok (table.drop xs.length) := by
  have hd := plan_drop h xs.length (by simp)
  rwa [List.drop_left] at hd

/-- The keyword of an option list starts one. -/
theorem emitted_valid {e : Emitted} (he : e.Fits) {rest : List Value} {table : List Bool}
    (h : flowOptionPlan rt (e.flat++rest) = .ok table)
    (hnext : suffix (table.drop e.flat.length) 0 = true) : suffix table 0 = true := by
  rw [Emitted.flat, List.cons_append] at h
  obtain ⟨first, valid, rfl, -, hfirst⟩ := plan_cons_ok h
  have hvalid : suffix valid (fixedWidth e.keyword-1) = true := by
    rw [← he.width, suffix_drop]
    simpa [Emitted.flat] using hnext
  rw [token_lit rt he.known] at hfirst
  rw [suffix_cons_zero]
  by_cases hp : e.keyword = "PAYLOAD"
  · rw [hp, optionValid_payload] at hfirst
    cases hfirst
    have hw := he.width
    rw [hp, show fixedWidth "PAYLOAD" = 2 by decide] at hw
    obtain ⟨v, hv⟩ := List.length_eq_one_iff.mp (by omega : e.args.length = 1)
    have htext := he.payload hp v (by simp [hv])
    rw [hp, show fixedWidth "PAYLOAD" = 2 by decide] at hvalid
    rw [hv, List.singleton_append, payloadValid]
    split
    · rw [htext, if_neg (by decide)]
      exact Bool.or_eq_true _ _ ▸ .inr hvalid
    · exact hvalid
  · rw [optionValid_fixed he.plain he.flagless hp he.counted] at hfirst
    cases hfirst
    exact hvalid

theorem emissions_valid {es : List Emitted} (hes : ∀ e ∈ es, e.Fits) {tail : List Value}
    {table : List Bool} (h : flowOptionPlan rt (flat es++tail) = .ok table)
    (htail : suffix (table.drop (flat es).length) 0 = true) : suffix table 0 = true := by
  induction es generalizing table with
  | nil => simpa [flat] using htail
  | cons e es ih =>
    rw [flat_cons, List.append_assoc] at h
    refine emitted_valid (hes e (by simp)) h ?_
    refine ih (fun x hx => hes x (List.mem_cons_of_mem _ hx)) (plan_append h) ?_
    rw [List.drop_drop]
    simpa [flat_cons, Nat.add_comm] using htail

/-- A payload before an option list is no flag. -/
theorem payload_value {v : Value} {rest : List Value} {valid : List Bool}
    (ht : isText v = false) (h : suffix valid 1 = true) :
    payloadIsFlag rt valid (v::rest) = false := by
  simp only [payloadIsFlag]
  split
  · rfl
  · rw [ht, if_neg (by decide), h]
    simp

end Boundaries

section Walks

variable {rt : Runtime}

theorem optionWalk_skip (namesOnly : Bool) (idx : ℕ) (p : Payload) (xs rest : List Value)
    (table : List Bool) :
    optionWalk rt namesOnly idx xs.length p (xs++rest) table =
      optionWalk rt namesOnly (idx+xs.length) 0 p rest (table.drop xs.length) := by
  induction xs generalizing idx table with
  | nil => simp
  | cons x xs ih =>
    rw [List.length_cons, List.cons_append, optionWalk, ih]
    simp [Nat.add_assoc, Nat.add_comm 1]

/-- One option of a written list is read and the walk goes on after it. -/
theorem optionWalk_emitted {namesOnly : Bool} {idx : ℕ} {p q : Payload} {e : Emitted}
    (he : e.Fits) {rest : List Value} {table : List Bool}
    (hstep : optionStep rt namesOnly idx (lit e.keyword) (e.args++rest) table.tail p =
      .ok (q, e.flat.length)) :
    optionWalk rt namesOnly idx 0 p (e.flat++rest) table =
      optionWalk rt namesOnly (idx+e.flat.length) 0 q rest (table.drop e.flat.length) := by
  have hlen : e.flat.length = e.args.length+1 := rfl
  rw [Emitted.flat, List.cons_append, optionWalk, commandToken_lit rt he.known, hstep,
    except_ok_bind]
  simp only [hlen, Nat.add_sub_cancel]
  rw [optionWalk_skip]
  simp [Nat.add_comm, Nat.add_left_comm]

theorem findItemMarker_skip (xs rest : List Value) (table : List Bool) :
    findItemMarker rt xs.length (xs++rest) table =
      (findItemMarker rt 0 rest (table.drop xs.length)).map fun n => n.map (·+xs.length) := by
  induction xs generalizing table with
  | nil =>
    cases h : findItemMarker rt 0 rest table with
    | error e => simp [h, Except.map]
    | ok n => cases n <;> simp [h, Except.map]
  | cons x xs ih =>
    rw [List.length_cons, List.cons_append, findItemMarker, ih, List.drop_tail]
    cases findItemMarker rt 0 rest (table.drop (xs.length+1)) with
    | error e => rfl
    | ok n => cases n <;> simp [Except.map, bind, Except.bind, Nat.add_assoc]

/-- The width that the search gives a written option. -/
theorem optionWidth_emitted (rt : Runtime) {e : Emitted} (he : e.Fits) (rest : List Value)
    {table : List Bool}
    (hnext : suffix (table.drop e.flat.length) 0 = true) :
    optionWidth rt (e.args++rest) table.tail (some e.keyword) = .ok (some e.flat.length) := by
  have hlen : e.flat.length = fixedWidth e.keyword := he.width
  have hitems : ¬ (e.keyword = "ITEMS" ∨ e.keyword = "ITEMS_EXT") := by
    rintro (hi | hi) <;> exact he.plain (by rw [hi]; decide)
  simp only [optionWidth, if_neg hitems, if_neg he.counted]
  rw [if_neg, hlen]
  rintro (hn | ⟨hp, hflag⟩)
  · exact he.flagless hn
  · have hw := he.width
    rw [hp, show fixedWidth "PAYLOAD" = 2 by decide] at hw
    obtain ⟨v, hv⟩ := List.length_eq_one_iff.mp (by omega : e.args.length = 1)
    have htext := he.payload hp v (by simp [hv])
    have hvalid : suffix table.tail 1 = true := by
      rw [suffix_drop, List.drop_tail]
      simpa [Emitted.flat, hv] using hnext
    rw [hv, List.singleton_append, payload_value htext hvalid] at hflag
    cases hflag

/-- The search for the marker passes over a written option list. -/
theorem findItemMarker_emissions {es : List Emitted} (hes : ∀ e ∈ es, e.Fits)
    {marker : String} (hm : marker ∈ itemMarkers) {after : List Value} {table : List Bool}
    (h : flowOptionPlan rt (flat es++.str (lit marker)::after) = .ok table) :
    findItemMarker rt 0 (flat es++.str (lit marker)::after) table =
      .ok (some (flat es).length) := by
  have hknown : marker ∈ flowOptionTokens := by
    simp only [itemMarkers, List.mem_cons, List.not_mem_nil, or_false] at hm
    rcases hm with rfl | rfl | rfl <;> decide +kernel
  have hmarker {t : List Bool}
      (ht : flowOptionPlan rt (.str (lit marker)::after) = .ok t) : suffix t 0 = true := by
    obtain ⟨first, valid, rfl, -, hfirst⟩ := plan_cons_ok ht
    rw [token_lit rt hknown] at hfirst
    simp only [optionValid, if_pos hm] at hfirst
    cases hfirst
    rfl
  induction es generalizing table with
  | nil =>
    change findItemMarker rt 0 (.str (lit marker)::after) table = .ok (some 0)
    rw [findItemMarker, commandToken_lit rt hknown, if_pos (List.mem_map_of_mem hm)]
  | cons e es ih =>
    have he := hes e (by simp)
    have hrest := fun x hx => hes x (List.mem_cons_of_mem _ hx)
    rw [flat_cons, List.append_assoc] at h ⊢
    have hplan := plan_append h
    have hnext : suffix (table.drop e.flat.length) 0 = true := by
      refine emissions_valid hrest hplan ?_
      exact hmarker (plan_append hplan)
    have hwidth := optionWidth_emitted rt he (flat es++.str (lit marker)::after) hnext
    have hnot : rt.commandToken (.str (lit e.keyword)) ∉ itemMarkers.map lit := by
      rw [commandToken_lit rt he.known]
      intro hin
      obtain ⟨u, hu, hlit⟩ := List.mem_map.mp hin
      exact he.plain (lit_inj.mp hlit ▸ hu)
    have hlen : e.flat.length = e.args.length+1 := rfl
    rw [Emitted.flat, List.cons_append, findItemMarker, if_neg hnot, token_lit rt he.known,
      hwidth, except_ok_bind, if_neg, Option.getD_some, hlen, Nat.add_sub_cancel,
      findItemMarker_skip, List.drop_tail, ← hlen, ih hrest hplan]
    · simp [Except.map, bind, Except.bind]
      omega
    · simp [hlen]

end Walks

end FerricStore.FlowOptions
