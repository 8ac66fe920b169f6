import FerricStore.FlowQueryBuilders

/-!
# Convenience queries bind what they name

Every builder appends its predicates in stages, and the parameters of a stage have names of
their own: fixed ones, or a root and the number of the predicate. So the names never meet, and
the text of the whole query reads back as the predicates over these names, whatever the names
and states of metadata contain.
-/

set_option autoImplicit false

namespace FerricStore.FlowQueries
open FerricStore.Text FerricStore.DecimalText FerricStore.Dict FerricStore.TokenScanner

/-! ### Parameter names -/

inductive Fixed where
  | partitionKey
  | type
  | lineageId
  | state
  | fromMs
  | toMs
  | leaseFromMs
  | leaseToMs
  deriving DecidableEq, Repr

def Fixed.name : Fixed → String
  | .partitionKey => "partition_key"
  | .type => "type"
  | .lineageId => "lineage_id"
  | .state => "state"
  | .fromMs => "from_ms"
  | .toMs => "to_ms"
  | .leaseFromMs => "lease_from_ms"
  | .leaseToMs => "lease_to_ms"

inductive Family where
  | terminal
  | attribute
  | stateMeta
  deriving DecidableEq, Repr

def Family.root : Family → String
  | .terminal => "terminal"
  | .attribute => "attribute"
  | .stateMeta => "state_meta"

inductive ParamName where
  | fixed (f : Fixed)
  | numbered (g : Family) (i : ℕ)
  deriving DecidableEq, Repr

namespace ParamName

def text : ParamName → Str
  | fixed f => lit f.name
  | .numbered g i => FlowQueries.numbered g.root i

/-- The stage of a builder that uses the name. -/
def stage : ParamName → ℕ
  | fixed .partitionKey => 0
  | fixed .type | fixed .lineageId => 1
  | fixed .state | .numbered .terminal _ => 2
  | .numbered .attribute _ => 3
  | .numbered .stateMeta _ => 4
  | fixed .fromMs | fixed .toMs | fixed .leaseFromMs | fixed .leaseToMs => 5

theorem fixed_last (f : Fixed) : (lit f.name).getLast?.any isDigit = false := by
  cases f <;> rfl

theorem numbered_last (g : Family) (i : ℕ) :
    (FlowQueries.numbered g.root i).getLast?.any isDigit = true := by
  obtain ⟨hne, hdigits⟩ := toString_digits i
  rw [FlowQueries.numbered, List.getLast?_append_of_ne_nil _ hne, List.getLast?_eq_some_getLast hne]
  exact List.all_eq_true.mp hdigits _ (List.getLast_mem hne)

theorem text_inj {m n : ParamName} (h : m.text = n.text) : m = n := by
  cases m with
  | fixed f =>
    cases n with
    | fixed f' =>
      have hname : f.name = f'.name := lit_inj.mp h
      cases f <;> cases f' <;> first | rfl | exact absurd hname (by decide)
    | numbered g i =>
      have hlast := fixed_last f
      rw [show lit f.name = _ from h, text, numbered_last] at hlast
      cases hlast
  | numbered g i =>
    cases n with
    | fixed f =>
      have hlast := fixed_last f
      rw [show lit f.name = _ from h.symm, text, numbered_last] at hlast
      cases hlast
    | numbered g' j =>
      have hhead : ∀ g i, (FlowQueries.numbered (Family.root g) i).head? = (lit g.root).head? := by
        intro g i
        cases g <;> rfl
      have hroot : g = g' := by
        have := (hhead g i).symm.trans ((congrArg List.head? h).trans (hhead g' j))
        cases g <;> cases g' <;> first | rfl | exact absurd this (by decide)
      subst hroot
      rw [toString_inj (List.append_cancel_left h)]

theorem named (n : ParamName) : Named n.text := by
  cases n with
  | fixed f => cases f <;> exact ⟨by decide, rfl⟩
  | numbered g i =>
    have hdigits := (toString_digits i).2
    have hall : (FlowQueries.numbered g.root i).all inName = true := by
      rw [FlowQueries.numbered, List.all_append, Bool.and_eq_true]
      refine ⟨by cases g <;> rfl, ?_⟩
      rw [List.all_eq_true] at hdigits ⊢
      intro c hc
      simp [inName, inWord, hdigits c hc]
    exact ⟨List.append_ne_nil_of_right_ne_nil _ (toString_digits i).1, hall⟩

end ParamName

/-! ### Predicates and their parameters -/

/-- A parameter and the value bound to it. -/
abbrev Bound := ParamName × Value

namespace Predicate

/-- The predicate as the text writes it. -/
def rendered (p : Predicate Bound) : Option Str :=
  conditionText p.field.selector p.operator ((p.operands.map fun o => o.1.text).map placeholder)

def labelled (p : Predicate Bound) : Predicate Str :=
  ⟨p.field, p.operator, p.operands.map fun o => o.1.text⟩

def values (p : Predicate Bound) : Predicate Value := ⟨p.field, p.operator, p.operands.map Prod.snd⟩

end Predicate

def namesOf (ps : List (Predicate Bound)) : List ParamName := (operandsOf ps).map Prod.fst

theorem namesOf_append (ps qs : List (Predicate Bound)) :
    namesOf (ps++qs) = namesOf ps++namesOf qs := by
  simp [namesOf, operandsOf]

/-- The predicates of a builder with the parameters they name. -/
structure Renders (b : FlowCollectionQuery) (ps : List (Predicate Bound)) : Prop where
  predicates : List.Forall₂ (fun text p => p.rendered = some text) b.predicates ps
  params : b.params = (operandsOf ps).map fun o => (o.1.text, o.2)
  nodup : (namesOf ps).Nodup
  takes : ∀ p ∈ ps, p.operator.Takes p.operands.length

def Below (s : ℕ) (ps : List (Predicate Bound)) : Prop := ∀ n ∈ namesOf ps, n.stage < s

theorem Below.mono {s t : ℕ} {ps : List (Predicate Bound)} (h : Below s ps) (hst : s ≤ t) :
    Below t ps :=
  fun n hn => (h n hn).trans_le hst

theorem keys_params {ps : List (Predicate Bound)} :
    keys ((operandsOf ps).map fun o => (o.1.text, o.2)) = (namesOf ps).map ParamName.text := by
  simp [keys, namesOf, Function.comp_def]

/-- Setting fresh parameters appends them. -/
theorem set_operands (params : Dict Str Value) (os : List Bound)
    (hfresh : ∀ o ∈ os, o.1.text ∉ keys params) (hnodup : (os.map Prod.fst).Nodup) :
    os.foldl (fun d o => set d o.1.text o.2) params = params++os.map fun o => (o.1.text, o.2) := by
  induction os generalizing params with
  | nil => simp
  | cons o os ih =>
    rw [List.map_cons, List.nodup_cons] at hnodup
    rw [List.foldl_cons, set_of_not_mem _ _ _ (hfresh o List.mem_cons_self), ih _ ?_ hnodup.2]
    · simp
    · intro o' ho' hmem
      rw [keys, List.map_append, List.mem_append] at hmem
      rcases hmem with hmem | hmem
      · exact hfresh o' (List.mem_cons_of_mem _ ho') hmem
      · have htext : o'.1 = o.1 := ParamName.text_inj (by simpa using hmem)
        exact hnodup.1 (List.mem_map.mpr ⟨o', ho', htext⟩)

/-- One more predicate whose parameters are new. -/
theorem Renders.add {b : FlowCollectionQuery} {ps : List (Predicate Bound)} (h : Renders b ps)
    {p : Predicate Bound} {text : Str} (htext : p.rendered = some text)
    (htakes : p.operator.Takes p.operands.length) (hnodup : (p.operands.map Prod.fst).Nodup)
    (hfresh : ∀ o ∈ p.operands, o.1 ∉ namesOf ps) :
    Renders { b with
      predicates := b.predicates++[text]
      params := p.operands.foldl (fun d o => set d o.1.text o.2) b.params } (ps++[p]) where
  predicates := List.rel_append h.predicates (.cons htext .nil)
  params := by
    show List.foldl _ _ _ = _
    rw [set_operands, h.params]
    · simp [operandsOf]
    · intro o ho hmem
      rw [h.params, keys_params, List.mem_map] at hmem
      obtain ⟨n, hn, hname⟩ := hmem
      exact hfresh o ho (ParamName.text_inj hname ▸ hn)
    · exact hnodup
  nodup := by
    rw [namesOf_append, List.nodup_append]
    refine ⟨h.nodup, by simpa [namesOf, operandsOf] using hnodup, ?_⟩
    intro n hn m hm heq
    obtain ⟨o, ho, rfl⟩ := List.mem_map.mp hm
    exact hfresh o (by simpa [operandsOf] using ho) (heq ▸ hn)
  takes := by
    intro q hq
    rcases List.mem_append.mp hq with hq | hq
    · exact h.takes q hq
    · obtain rfl := List.mem_singleton.mp hq
      exact htakes

/-- What a stage of a builder appends: predicates asking `asked`, with names of the stage. -/
def Adds (s t : ℕ) (b b' : FlowCollectionQuery) (asked : List (Predicate Value)) : Prop :=
  ∀ ps, Renders b ps → Below s ps → ∃ new, Renders b' (ps++new) ∧ Below t (ps++new) ∧
    (new.map Predicate.values).Perm asked

theorem Adds.none {s t : ℕ} (h : s ≤ t) (b : FlowCollectionQuery) : Adds s t b b [] :=
  fun ps hps hbelow => ⟨[], by simpa using hps, by simpa using hbelow.mono h, .nil⟩

/-- One predicate whose parameters belong to the stage. -/
theorem adds_predicate {s : ℕ} {b : FlowCollectionQuery} {p : Predicate Bound} {text : Str}
    (htext : p.rendered = some text) (htakes : p.operator.Takes p.operands.length)
    (hnodup : (p.operands.map Prod.fst).Nodup) (hstage : ∀ o ∈ p.operands, o.1.stage = s) :
    Adds s (s+1) b { b with
      predicates := b.predicates++[text]
      params := p.operands.foldl (fun d o => set d o.1.text o.2) b.params } [p.values] := by
  intro ps hps hbelow
  refine ⟨[p], hps.add htext htakes hnodup fun o ho hmem => ?_, fun n hn => ?_, .refl _⟩
  · have hlt := hbelow _ hmem
    rw [hstage o ho] at hlt
    exact hlt.false
  · rw [namesOf_append, List.mem_append] at hn
    rcases hn with hn | hn
    · exact Nat.lt_succ_of_lt (hbelow n hn)
    · obtain ⟨o, ho, rfl⟩ := List.mem_map.mp hn
      rw [hstage o (by simpa [operandsOf] using ho)]
      exact Nat.lt_succ_self s

/-! ### The stages -/

theorem normalizeFlowQueryParameter_same {name : Str} {v w : Value}
    (h : normalizeFlowQueryParameter name v = .ok w) : w = v := by
  unfold normalizeFlowQueryParameter normalizeFlowQueryParameter.exceeds
    normalizeFlowQueryParameter.unsupported at h
  split at h
  case h_1 s =>
    split at h
    · cases h
    · split at h
      · cases h
      · split at h <;> cases h
        rfl
  case h_3 =>
    cases h
    rfl
  case h_6 => cases h
  all_goals
    split at h
    all_goals cases h
    rfl

theorem equality_ok {b b' : FlowCollectionQuery} {selector parameter : Str} {v : Value}
    (h : b.equality selector parameter v = .ok b') : b' = { b with
      params := set b.params parameter v
      predicates := b.predicates++[selector++lit " = "++placeholder parameter] } := by
  obtain ⟨u, -, h⟩ := bind_eq_ok.mp h
  obtain ⟨u', -, h⟩ := bind_eq_ok.mp h
  obtain ⟨w, hw, h⟩ := bind_eq_ok.mp h
  obtain ⟨u'', -, h⟩ := bind_eq_ok.mp h
  rw [normalizeFlowQueryParameter_same hw] at h
  cases h
  rfl

theorem takes_eq (o : Bound) : Operator.eq.Takes [o].length :=
  ⟨fun k hk => by cases hk; rfl, nofun⟩

/-- The condition that a field has a value. -/
def has (f : FlowField) (v : Value) : Predicate Value := ⟨f, .eq, [v]⟩

theorem adds_equality {b b' : FlowCollectionQuery} {selector parameter : Str} {v : Value}
    {f : FlowField} {n : ParamName} (hf : f.selector = selector) (hn : n.text = parameter)
    (h : b.equality selector parameter v = .ok b') : Adds n.stage (n.stage+1) b b' [has f v] := by
  subst hf hn
  rw [equality_ok h]
  exact adds_predicate (p := ⟨f, .eq, [(n, v)]⟩) rfl (takes_eq _) (List.nodup_singleton _)
    fun o ho => by rw [List.mem_singleton.mp ho]

theorem builtin_selector (f : Builtin) : (FlowField.builtin f).selector = lit f.name := by
  simp [FlowField.selector, flowMetadataSelector, FlowField.name, FlowField.segments]

theorem adds_between {b : FlowCollectionQuery} (field : Builtin) {lower upper : Fixed}
    {low high : ℤ}
    (hlower : (ParamName.fixed lower).stage = 5) (hupper : (ParamName.fixed upper).stage = 5)
    (hne : lower ≠ upper) :
    Adds 5 6 b (b.between field.name lower.name upper.name low high)
      [⟨.builtin field, .between, [.int low, .int high]⟩] := by
  refine adds_predicate (p := ⟨.builtin field, .between,
    [(.fixed lower, .int low), (.fixed upper, .int high)]⟩) ?_
    ⟨fun k hk => by cases hk; rfl, nofun⟩ (by simpa using hne) ?_
  · simp [Predicate.rendered, conditionText, builtin_selector, ParamName.text]
  · intro o ho
    rcases List.mem_pair.mp ho with rfl | rfl
    · exact hlower
    · exact hupper

/-- The predicates of a window. -/
def Window.conditions (w : Window) : List (Predicate Value) :=
  if w.fromMs = none ∧ w.toMs = none then []
  else [⟨.builtin .updatedAtMs, .between,
    [.int (w.fromMs.getD 0), .int (w.toMs.getD maxTime)]⟩]

theorem optionalTime_ok {n : Option ℤ} {default : ℤ} {name : String} {m : ℤ}
    (h : optionalTime n default name = .ok m) : m = n.getD default := by
  cases n with
  | none =>
    cases h
    rfl
  | some n =>
    rw [optionalTime, boundedTime] at h
    by_cases hrange : 0 ≤ n ∧ n ≤ maxTime
    · rw [if_pos hrange] at h
      cases h
      rfl
    · rw [if_neg hrange] at h
      cases h

theorem adds_window {b b' : FlowCollectionQuery} {w : Window}
    (h : b.window w.fromMs w.toMs = .ok b') : Adds 5 6 b b' w.conditions := by
  unfold FlowCollectionQuery.window at h
  unfold Window.conditions
  by_cases hnone : w.fromMs = none ∧ w.toMs = none
  · rw [if_pos hnone] at h ⊢
    cases h
    exact Adds.none (by decide) b
  · rw [if_neg hnone] at h ⊢
    obtain ⟨u, -, h⟩ := bind_eq_ok.mp h
    obtain ⟨lower, hlower, h⟩ := bind_eq_ok.mp h
    obtain ⟨upper, hupper, h⟩ := bind_eq_ok.mp h
    obtain rfl := optionalTime_ok hlower
    obtain rfl := optionalTime_ok hupper
    by_cases hlt : w.toMs.getD maxTime < w.fromMs.getD 0
    · rw [if_pos hlt] at h
      cases h
    · rw [if_neg hlt] at h
      cases h
      exact @adds_between _ .updatedAtMs .fromMs .toMs _ _ rfl rfl (by decide)

/-- A state the terminal builders accept. -/
def terminalConditions (state : Option Str) : List (Predicate Value) :=
  if anyState state then
    [⟨.builtin .state, .isIn, terminalStates.map fun s => .str (lit s)⟩]
  else [has (.builtin .state) (.str (state.getD []))]

theorem adds_terminalState {b b' : FlowCollectionQuery} {state : Option Str}
    (h : addTerminalState b state = .ok b') : Adds 2 3 b b' (terminalConditions state) := by
  unfold addTerminalState at h
  unfold terminalConditions
  by_cases hany : anyState state = true
  · rw [if_pos hany] at h ⊢
    cases h
    refine adds_predicate (p := ⟨.builtin .state, .isIn,
      [(.numbered .terminal 0, .str (lit "completed")),
        (.numbered .terminal 1, .str (lit "failed")),
        (.numbered .terminal 2, .str (lit "cancelled"))]⟩)
      rfl ⟨nofun, fun _ => by decide⟩ (by decide) ?_
    intro o ho
    simp only [List.mem_cons, List.not_mem_nil, or_false] at ho
    rcases ho with rfl | rfl | rfl <;> rfl
  · rw [if_neg hany] at h ⊢
    cases state with
    | none => exact absurd rfl hany
    | some s =>
      simp only at h
      by_cases hmem : s ∈ terminalStates.map lit
      · rw [if_pos hmem] at h
        exact adds_equality (n := .fixed .state) rfl rfl h
      · rw [if_neg hmem] at h
        cases h

/-- The metadata predicates of a stage, numbered one after another. -/
theorem adds_equalities {g : Family} (items : List (FlowField × Value)) {k : ℕ}
    {b b' : FlowCollectionQuery} (hitems : ∀ e ∈ items, e.1.name = g.root)
    (h : FlowCollectionQuery.equalities g.root k (items.map fun e => (e.1.segments, e.2)) b =
      .ok b')
    {ps : List (Predicate Bound)} (hps : Renders b ps)
    (hnames : ∀ n ∈ namesOf ps, n.stage < (ParamName.numbered g 0).stage ∨
      ∃ i < k, n = .numbered g i) :
    ∃ new, Renders b' (ps++new) ∧ Below ((ParamName.numbered g 0).stage+1) (ps++new) ∧
      new.map Predicate.values = items.map fun e => has e.1 e.2 := by
  have hstage : ∀ i, (ParamName.numbered g i).stage = (ParamName.numbered g 0).stage := by
    intro i
    cases g <;> rfl
  induction items generalizing k b ps with
  | nil =>
    cases h
    refine ⟨[], by simpa using hps, fun n hn => ?_, rfl⟩
    rw [List.append_nil] at hn
    rcases hnames n hn with hlt | ⟨i, -, rfl⟩
    · exact Nat.lt_succ_of_lt hlt
    · rw [hstage]
      exact Nat.lt_succ_self _
  | cons e items ih =>
    obtain ⟨f, v⟩ := e
    obtain ⟨b₁, hfirst, h⟩ := bind_eq_ok.mp h
    have hone : Renders b₁ (ps++[⟨f, .eq, [(.numbered g k, v)]⟩]) := by
      rw [equality_ok hfirst]
      refine hps.add (p := ⟨f, .eq, [(.numbered g k, v)]⟩) ?_ (takes_eq _)
        (List.nodup_singleton _) ?_
      · have hname : f.name = g.root := hitems (f, v) List.mem_cons_self
        show some (flowMetadataSelector f.name f.segments++lit " = "++
          placeholder (numbered g.root k)) = _
        rw [hname]
      · intro o ho hmem
        rw [List.mem_singleton.mp ho] at hmem
        rcases hnames _ hmem with hlt | ⟨i, hi, heq⟩
        · rw [hstage] at hlt
          exact hlt.false
        · cases heq
          exact hi.false
    have hlast : ∀ n ∈ namesOf (ps++[⟨f, .eq, [(.numbered g k, v)]⟩]),
        n.stage < (ParamName.numbered g 0).stage ∨ ∃ i < k+1, n = .numbered g i := by
      intro n hn
      rw [namesOf_append, List.mem_append] at hn
      rcases hn with hn | hn
      · refine (hnames n hn).imp_right ?_
        rintro ⟨i, hi, rfl⟩
        exact ⟨i, Nat.lt_succ_of_lt hi, rfl⟩
      · exact .inr ⟨k, Nat.lt_succ_self k, by simpa [namesOf, operandsOf] using hn⟩
    obtain ⟨new, hnew, hbelow, hvalues⟩ :=
      ih (fun e he => hitems e (List.mem_cons_of_mem _ he)) h hone hlast
    rw [List.append_assoc] at hnew hbelow
    refine ⟨_::new, hnew, hbelow, ?_⟩
    rw [List.map_cons, List.map_cons, hvalues]
    rfl

/-- A metadata entry as a condition, if its name is a text. -/
def metadataCondition (field : Str → FlowField) (e : Key × Value) : Option (Predicate Value) :=
  match e.1 with
  | .str n => some (has (field n) e.2)
  | _ => none

def attributeConditions (m : Mapping) : List (Predicate Value) :=
  m.filterMap (metadataCondition .attribute)

/-- The conditions of an entry of state metadata: a nested one names its state, a flat one is
about the state of the call. -/
def stateMetaCondition (state : Option Str) (e : Key × Value) : List (Predicate Value) :=
  match e.2 with
  | .dict inner =>
    match e.1 with
    | .str s => inner.filterMap (metadataCondition (.stateMeta s))
    | _ => []
  | v => (metadataCondition (.stateMeta (state.getD [])) (e.1, v)).toList

def stateMetaConditions (state : Option Str) (m : Mapping) : List (Predicate Value) :=
  m.flatMap (stateMetaCondition state)

theorem normalizedSegment_ok {context : String} {maximum : ℕ} {reject : Bool} {k : Key} {s : Str}
    (h : normalizedSegment context maximum reject k = .ok s) : k = .str s := by
  cases k with
  | str n =>
    unfold normalizedSegment normalizeFlowSelectorSegment at h
    simp only at h
    split at h
    · cases h
    · split at h
      · cases h
      · split at h
        · cases h
        · split at h
          · cases h
          · cases h
            rfl
  | _ => cases h

/-- The entries under their names ask what the mapping asks. -/
theorem namedAs_conditions {context : String} (field : Str → FlowField) {values : Mapping}
    {named : List (Str × Value)} (h : List.Forall₂ (NamedAs context) values named) :
    values.filterMap (metadataCondition field) = named.map fun e => has (field e.1) e.2 := by
  induction h with
  | nil => rfl
  | @cons e o _ _ hhead htail ih =>
    obtain ⟨k, v⟩ := e
    obtain ⟨n, w⟩ := o
    obtain ⟨hname, hvalue⟩ := hhead
    obtain rfl := normalizedSegment_ok hname
    obtain rfl : v = w := hvalue
    rw [List.map_cons, ← ih]
    rfl

theorem metadataEntries_conditions {context : String} (field : Str → FlowField) {values : Mapping}
    {maximum : ℤ} {out : List (Str × Value)}
    (h : metadataEntries context values maximum = .ok out) :
    (out.map fun e => has (field e.1) e.2).Perm (values.filterMap (metadataCondition field)) := by
  obtain ⟨-, named, hnamed, -, rfl⟩ := metadataEntries_ok.mp h
  rw [namedAs_conditions field hnamed]
  exact (List.mergeSort_perm _ _).map _

theorem adds_metadata {b b' : FlowCollectionQuery} {m : Mapping}
    (h : b.metadata "attribute" m = .ok b') : Adds 3 4 b b' (attributeConditions m) := by
  obtain ⟨entries, hentries, h⟩ := bind_eq_ok.mp h
  intro ps hps hbelow
  obtain ⟨new, hnew, hbelow', hvalues⟩ := adds_equalities (g := .attribute) (k := 0)
    (entries.map fun e => (.attribute e.1, e.2))
    (fun e he => by obtain ⟨x, -, rfl⟩ := List.mem_map.mp he; rfl)
    (by rw [List.map_map]; exact h) hps fun n hn => .inl (hbelow n hn)
  refine ⟨new, hnew, hbelow', ?_⟩
  rw [hvalues, List.map_map]
  exact metadataEntries_conditions .attribute hentries

theorem grouped_conditions {values : Mapping} {groups : List (Str × List (Str × Value))}
    (h : List.Forall₂ GroupedAs values groups) :
    ((flatten groups).map fun e => has (.stateMeta e.1.1 e.1.2) e.2).Perm
      (stateMetaConditions none values) := by
  induction h with
  | nil => exact .refl _
  | @cons e g _ _ hhead htail ih =>
    obtain ⟨k, v⟩ := e
    obtain ⟨hstate, inner, hinner, hnamed⟩ := hhead
    obtain rfl := normalizedSegment_ok hstate
    obtain rfl : v = .dict inner := hinner
    have hfirst := metadataEntries_conditions (.stateMeta g.1) hnamed
    simpa [flatten, stateMetaConditions, stateMetaCondition, Function.comp_def] using
      hfirst.append ih

theorem adds_stateMetadata {b b' : FlowCollectionQuery} {m : Mapping}
    (h : b.stateMetadata m = .ok b') : Adds 4 5 b b' (stateMetaConditions none m) := by
  obtain ⟨entries, hentries, h⟩ := bind_eq_ok.mp h
  obtain ⟨groups, hgroups, -, heq, -⟩ := (stateEntries_ok List.nodup_nil).mp hentries
  obtain rfl : entries = flatten groups := heq
  intro ps hps hbelow
  obtain ⟨new, hnew, hbelow', hvalues⟩ := adds_equalities (g := .stateMeta) (k := 0)
    (((flatten groups).mergeSort FlowCollectionQuery.entryLe).map fun e =>
      (.stateMeta e.1.1 e.1.2, e.2))
    (fun e he => by obtain ⟨x, -, rfl⟩ := List.mem_map.mp he; rfl)
    (by rw [List.map_map]; exact h) hps fun n hn => .inl (hbelow n hn)
  refine ⟨new, hnew, hbelow', ?_⟩
  rw [hvalues, List.map_map]
  exact ((List.mergeSort_perm _ _).map _).trans (grouped_conditions hgroups)

theorem requiredText_ok {s t : Str} {name : String} (h : requiredText s name = .ok t) : t = s := by
  unfold requiredText at h
  split at h
  · cases h
  · cases h
    rfl

theorem flatMap_filter {α β : Type} (p : α → Bool) (f : α → List β) (xs : List α)
    (h : ∀ x ∈ xs, p x = false → f x = []) : (xs.filter p).flatMap f = xs.flatMap f := by
  induction xs with
  | nil => rfl
  | cons x xs ih =>
    have hrest := ih fun y hy => h y (List.mem_cons_of_mem _ hy)
    rw [List.filter_cons]
    split
    · rw [List.flatMap_cons, List.flatMap_cons, hrest]
    · rename_i hx
      rw [List.flatMap_cons, hrest, h x List.mem_cons_self (by simpa using hx), List.nil_append]

/-- Normalising state metadata keeps its conditions. -/
theorem normalizeStateMeta_conditions {stateMeta : Option Mapping} {state : Option Str}
    {m : Mapping} (h : normalizeStateMeta stateMeta state = .ok m) :
    stateMetaConditions none m = stateMetaConditions state (stateMeta.getD []) := by
  by_cases hnil : stateMeta.getD [] = []
  · rw [normalizeStateMeta, hnil] at h
    cases h
    rw [hnil]
    rfl
  rw [normalizeStateMeta_eq hnil _ rfl] at h
  generalize stateMeta.getD [] = entries at h
  by_cases hlen : maxPredicates < entries.length
  · rw [if_pos hlen] at h
    cases h
  rw [if_neg hlen] at h
  by_cases hmix : (entries.any (fun e => isMapping e.2) &&
      entries.any fun e => !isMapping e.2) = true
  · rw [if_pos hmix] at h
    cases h
  rw [if_neg hmix] at h
  by_cases hmapping : entries.any (fun e => isMapping e.2) = true
  · rw [if_pos hmapping] at h
    have hall : ∀ e ∈ entries, isMapping e.2 = true := by simpa [hmapping] using hmix
    by_cases hempty : entries.filter (fun e => keepsEntry e.2) = []
    · rw [if_pos hempty] at h
      cases h
    rw [if_neg hempty] at h
    cases h
    rw [stateMetaConditions, flatMap_filter]
    · refine List.flatMap_congr fun e he => ?_
      obtain ⟨k, v⟩ := e
      cases v with
      | dict inner => cases k <;> rfl
      | _ => exact absurd (hall _ he) Bool.false_ne_true
    · rintro ⟨k, v⟩ he hdropped
      cases v with
      | dict inner =>
        obtain rfl : inner = [] := by simpa [keepsEntry] using hdropped
        cases k <;> rfl
      | _ => cases hdropped
  · rw [if_neg hmapping] at h
    have hflat : ∀ e ∈ entries, isMapping e.2 = false := by simpa using hmapping
    have hkeeps : entries.filter (fun e => keepsEntry e.2) = entries := by
      rw [List.filter_eq_self]
      rintro ⟨k, v⟩ he
      cases v with
      | dict inner => exact absurd (hflat _ he) Bool.true_eq_false_eq_False
      | _ => rfl
    by_cases hany : anyState state = true
    · rw [if_pos hany] at h
      cases h
    rw [if_neg hany] at h
    obtain ⟨s, hs, h⟩ := bind_eq_ok.mp h
    obtain rfl := requiredText_ok hs
    cases h
    rw [hkeeps]
    simp only [stateMetaConditions, stateMetaCondition, List.flatMap_cons, List.flatMap_nil,
      List.append_nil]
    rw [List.filterMap_eq_flatMap_toList]
    refine List.flatMap_congr fun e he => ?_
    obtain ⟨k, v⟩ := e
    cases v with
    | dict inner => exact absurd (hflat _ he) Bool.true_eq_false_eq_False
    | _ => rfl

/-! ### The builders, stage by stage -/

/-- What a finished stage has asked so far. -/
def Asks (s : ℕ) (b : FlowCollectionQuery) (asked : List (Predicate Value)) : Prop :=
  ∃ ps, Renders b ps ∧ Below s ps ∧ (ps.map Predicate.values).Perm asked

theorem Asks.add {s t : ℕ} {b b' : FlowCollectionQuery} {asked more : List (Predicate Value)}
    (h : Asks s b asked) (hadds : Adds s t b b' more) : Asks t b' (asked++more) := by
  obtain ⟨ps, hps, hbelow, hperm⟩ := h
  obtain ⟨new, hnew, hbelow', hperm'⟩ := hadds ps hps hbelow
  exact ⟨ps++new, hnew, hbelow', by simpa using hperm.append hperm'⟩

theorem Asks.raise {s t : ℕ} {b : FlowCollectionQuery} {asked : List (Predicate Value)}
    (h : Asks s b asked) (hst : s ≤ t) : Asks t b asked := by
  obtain ⟨ps, hps, hbelow, hperm⟩ := h
  exact ⟨ps, hps, hbelow.mono hst, hperm⟩

theorem requiredPartition_ok {v w : Value} (h : requiredPartition v = .ok w) : w = v := by
  unfold requiredPartition requiredPartition.size at h
  cases v with
  | str s =>
    simp only at h
    split at h
    · cases h
    · split at h
      · cases h
      · split at h
        · cases h
        · cases h
          rfl
  | bytes b =>
    simp only at h
    split at h
    · cases h
    · cases h
      rfl
  | _ => cases h

theorem builder_asks {scope : Scope} {b : FlowCollectionQuery} (h : builder scope = .ok b) :
    Asks 1 b [has (.builtin .partitionKey) scope.partitionKey] := by
  obtain ⟨partition, hpartition, h⟩ := bind_eq_ok.mp h
  obtain ⟨limit, -, h⟩ := bind_eq_ok.mp h
  obtain rfl := requiredPartition_ok hpartition
  by_cases hcold : scope.includeCold = some true
  · rw [if_pos hcold] at h
    cases h
  rw [if_neg hcold] at h
  by_cases hconsistent : scope.consistentProjection = some true
  · rw [if_pos hconsistent] at h
    cases h
  rw [if_neg hconsistent] at h
  cases h
  refine ⟨[⟨.builtin .partitionKey, .eq, [(.fixed .partitionKey, scope.partitionKey)]⟩],
    ⟨.cons ?_ .nil, rfl, List.nodup_singleton _, ?_⟩, ?_, .refl _⟩
  · simp [Predicate.rendered, conditionText, builtin_selector, ParamName.text, Builtin.name,
      Fixed.name]
  · intro p hp
    rw [List.mem_singleton.mp hp]
    exact takes_eq _
  · intro n hn
    rw [List.mem_singleton.mp hn]
    exact Nat.one_pos

def typeConditions (flowType : Str) : List (Predicate Value) :=
  if flowType = [] ∨ flowType = lit "any" then [] else [has (.builtin .type) (.str flowType)]

theorem adds_type {b b' : FlowCollectionQuery} {flowType : Str} (h : addType b flowType = .ok b') :
    Adds 1 2 b b' (typeConditions flowType) := by
  obtain ⟨t, ht, h⟩ := bind_eq_ok.mp h
  have hne : flowType ≠ [] := by
    rintro rfl
    cases ht
  rw [requiredText_ok ht] at h
  unfold typeConditions
  by_cases hany : flowType = lit "any"
  · rw [if_neg (by simpa using hany)] at h
    rw [if_pos (.inr hany)]
    cases h
    exact Adds.none (by decide) b
  · rw [if_pos hany] at h
    rw [if_neg (by simp [hne, hany])]
    exact adds_equality (n := .fixed .type) rfl rfl h

/-- A state that is asked for unless it is `any`. -/
def stateConditions (state : Str) : List (Predicate Value) :=
  if state = lit "any" then [] else [has (.builtin .state) (.str state)]

theorem adds_equalState {b b' : FlowCollectionQuery} {state : Str}
    (h : equalState b state = .ok b') : Adds 2 3 b b' [has (.builtin .state) (.str state)] := by
  obtain ⟨t, ht, h⟩ := bind_eq_ok.mp h
  rw [requiredText_ok ht] at h
  exact adds_equality (n := .fixed .state) rfl rfl h

theorem adds_state {b b' : FlowCollectionQuery} {state : Str}
    (h : (if state ≠ lit "any" then equalState b state else .ok b) = .ok b') :
    Adds 2 3 b b' (stateConditions state) := by
  unfold stateConditions
  by_cases hany : state = lit "any"
  · rw [if_neg (by simpa using hany)] at h
    rw [if_pos hany]
    cases h
    exact Adds.none (by decide) b
  · rw [if_pos hany] at h
    rw [if_neg hany]
    exact adds_equalState h

def searchStateConditions (state : Option Str) (terminalOnly : Option Bool) :
    List (Predicate Value) :=
  if terminalOnly = some true then terminalConditions state
  else if anyState state then []
  else [has (.builtin .state) (.str (state.getD []))]

theorem adds_searchState {b b' : FlowCollectionQuery} {state : Option Str}
    {terminalOnly : Option Bool} (h : addSearchState b state terminalOnly = .ok b') :
    Adds 2 3 b b' (searchStateConditions state terminalOnly) := by
  unfold addSearchState at h
  unfold searchStateConditions
  by_cases hterminal : terminalOnly = some true
  · rw [if_pos hterminal] at h ⊢
    exact adds_terminalState h
  rw [if_neg hterminal] at h ⊢
  by_cases hany : anyState state = true
  · rw [if_pos hany] at h ⊢
    cases h
    exact Adds.none (by decide) b
  · rw [if_neg hany] at h ⊢
    exact adds_equalState h

/-! ### The whole query -/

/-- What a list query asks. -/
def listConditions (flowType : Str) (scope : Scope) (state : Option Str) (window : Window)
    (attributes : Option Mapping) : List (Predicate Value) :=
  [has (.builtin .partitionKey) scope.partitionKey]++typeConditions flowType++
    stateConditions (state.getD (lit "queued"))++attributeConditions (attributes.getD [])++
    window.conditions

/-- What a call asks, listed from its arguments. -/
def Call.conditions (clock : ℤ) (c : Call) : List (Predicate Value) :=
  match c.kind with
  | .list flowType scope state window => listConditions flowType scope state window c.attributes
  | .search flowType scope state window terminalOnly =>
    [has (.builtin .partitionKey) scope.partitionKey]++typeConditions flowType++
      searchStateConditions state terminalOnly++attributeConditions (c.attributes.getD [])++
      stateMetaConditions state (c.stateMeta.getD [])++window.conditions
  | .terminal flowType scope state window =>
    [has (.builtin .partitionKey) scope.partitionKey]++typeConditions flowType++
      terminalConditions state++window.conditions
  | .failure flowType scope window =>
    listConditions flowType scope (some (lit "failed")) window none
  | .lineage selector identifier scope state window _ =>
    [has (.builtin .partitionKey) scope.partitionKey]++
      ((lineageSelectors.filter fun f => lit f.name = selector).map fun f =>
        has (.builtin f) (.str identifier))++
      stateConditions (state.getD (lit "any"))++window.conditions
  | .stuck flowType partitionKey _ olderThanMs nowMs =>
    [has (.builtin .partitionKey) partitionKey, has (.builtin .type) (.str flowType),
      has (.builtin .state) (.str (lit "running")),
      ⟨.builtin .leaseDeadlineMs, .between,
        [.int 0, .int (nowMs.getD clock-olderThanMs.getD 0)]⟩]

/-- The direction a builder orders its records in. -/
def FlowCollectionQuery.order (b : FlowCollectionQuery) : FlowOrder :=
  ⟨.builtin b.orderField, if b.reverse then .desc else .asc⟩

/-- The built text is the query over the names of its parameters. -/
theorem build_ok {b : FlowCollectionQuery} {ps : List (Predicate Bound)} {text : Str}
    {params : Dict Str Value} (hps : Renders b ps) (h : b.build = .ok (text, params)) :
    params = b.params ∧ ps.length ≤ maxPredicates ∧ Reads text
      (Query.tokens ⟨.runs, ps.map Predicate.labelled, [b.order], some b.limit, none, some .records,
        []⟩) := by
  obtain ⟨u, hcapacity, h⟩ := bind_eq_ok.mp h
  obtain ⟨u', -, h⟩ := bind_eq_ok.mp h
  cases h
  refine ⟨rfl, ?_, ?_⟩
  · unfold FlowCollectionQuery.ensurePredicateCapacity at hcapacity
    split at hcapacity
    · cases hcapacity
    · rename_i hroom
      rw [← hps.predicates.length_eq]
      simp only [FlowCollectionQuery.remainingPredicates] at hroom
      omega
  · have htexts : List.Forall₂ Reads b.predicates
        ((ps.map Predicate.labelled).map Predicate.tokens) := by
      obtain ⟨hpredicates, -, -, htakes⟩ := hps
      rw [List.map_map, List.forall₂_map_right_iff]
      generalize b.predicates = texts at hpredicates ⊢
      induction hpredicates with
      | nil => exact .nil
      | @cons text p _ _ hhead htail ih =>
        refine .cons (reads_condition ?_ ?_ hhead) (ih ?_)
        · simpa using htakes p List.mem_cons_self
        · intro n hn
          obtain ⟨o, -, rfl⟩ := List.mem_map.mp hn
          exact o.1.named
        · exact fun q hq => htakes q (List.mem_cons_of_mem _ hq)
    have hjoined := reads_intercalate (s := lit " AND ") (u := [word "AND"]) rfl rfl rfl htexts
    have hfrom := reads_after (a := lit "FROM runs WHERE ")
      (t := [word "FROM", word "runs", word "WHERE"]) rfl hjoined rfl
    have horders := reads_then hfrom (reads_orders [b.order]) rfl
    have hlimit := reads_then horders (reads_limit (some b.limit)) rfl
    have hall := reads_then hlimit (b := lit " RETURN RECORDS")
      (u := [word "RETURN", word "RECORDS"]) rfl rfl
    have htokens : Query.tokens ⟨.runs, ps.map Predicate.labelled, [b.order], some b.limit, none,
        some .records, []⟩ = [word "FROM", word "runs", word "WHERE"]++
          [word "AND"].intercalate ((ps.map Predicate.labelled).map Predicate.tokens)++
          orderTokens [b.order]++limitTokens (some b.limit)++[word "RETURN", word "RECORDS"] := by
      simp [Query.tokens, cursorTokens, returnTokens, projectionTokens, Source.name,
        ReturnShape.name]
    have htext : renderOrders [b.order] = lit " ORDER BY "++lit b.orderField.name++lit " "++
        lit (if b.reverse then Direction.desc else Direction.asc).name := by
      simp [renderOrders, FlowCollectionQuery.order, builtin_selector]
    rw [htokens]
    rw [htext, renderLimit] at hall
    simpa only [List.append_assoc] using hall

/-- Every predicate is looked up with the value supplied for it. -/
theorem labelled_values {ps : List (Predicate Bound)} (hnodup : (namesOf ps).Nodup) :
    (ps.map Predicate.labelled).mapM (Predicate.traverse
        (get? ((operandsOf ps).map fun o => (o.1.text, o.2)))) =
      some (ps.map Predicate.values) := by
  refine mapM_of_forall₂ (List.forall₂_map_left_iff.mpr (List.forall₂_map_right_iff.mpr
    (List.forall₂_same.mpr fun p hp => Predicate.traverse_of_rel ⟨rfl, rfl, ?_⟩)))
  refine List.forall₂_map_left_iff.mpr (List.forall₂_map_right_iff.mpr
    (List.forall₂_same.mpr fun o ho => get?_of_mem ?_ ?_))
  · rw [keys_params]
    exact hnodup.map fun _ _ => ParamName.text_inj
  · exact List.mem_map.mpr ⟨o, List.mem_flatMap.mpr ⟨p, hp, ho⟩, rfl⟩

theorem guard_ok {α : Type} {c : Prop} [Decidable c] {x : Except QueryError α} {message : String}
    {a : α} (h : (if c then valueError message else x) = .ok a) : ¬ c ∧ x = .ok a := by
  by_cases hc : c
  · rw [if_pos hc] at h
    cases h
  · exact ⟨hc, by rwa [if_neg hc] at h⟩

theorem list_asks {flowType : Str} {scope : Scope} {state : Option Str} {window : Window}
    {attributes : Option Mapping} {built : Str × Dict Str Value}
    (h : buildFlowListQuery flowType scope state window attributes = .ok built) :
    ∃ b s, Asks s b (listConditions flowType scope state window attributes) ∧
      b.build = .ok built := by
  unfold buildFlowListQuery at h
  obtain ⟨-, h⟩ := guard_ok h
  obtain ⟨-, h⟩ := guard_ok h
  obtain ⟨b₀, h₀, h⟩ := bind_eq_ok.mp h
  obtain ⟨b₁, h₁, h⟩ := bind_eq_ok.mp h
  obtain ⟨b₂, h₂, h⟩ := bind_eq_ok.mp h
  obtain ⟨b₃, h₃, h⟩ := bind_eq_ok.mp h
  obtain ⟨b₄, h₄, h⟩ := bind_eq_ok.mp h
  have hstate : Adds 2 3 b₁ b₂ (stateConditions (state.getD (lit "queued"))) := by
    cases state with
    | none => exact adds_equality (n := .fixed .state) rfl rfl h₂
    | some s => exact adds_state h₂
  exact ⟨b₄, 6, (((((builder_asks h₀).add (adds_type h₁)).add hstate).add
    (adds_metadata h₃)).raise (by decide)).add (adds_window h₄), h⟩

theorem search_asks {flowType : Str} {scope : Scope} {state : Option Str} {window : Window}
    {terminalOnly : Option Bool} {attributes stateMeta : Option Mapping}
    {built : Str × Dict Str Value}
    (h : buildFlowSearchQuery flowType scope state window terminalOnly attributes stateMeta =
      .ok built) :
    ∃ b s, Asks s b ([has (.builtin .partitionKey) scope.partitionKey]++typeConditions flowType++
      searchStateConditions state terminalOnly++attributeConditions (attributes.getD [])++
      stateMetaConditions state (stateMeta.getD [])++window.conditions) ∧ b.build = .ok built := by
  unfold buildFlowSearchQuery at h
  obtain ⟨m, hm, h⟩ := bind_eq_ok.mp h
  obtain ⟨-, h⟩ := guard_ok h
  obtain ⟨-, h⟩ := guard_ok h
  obtain ⟨b₀, h₀, h⟩ := bind_eq_ok.mp h
  obtain ⟨b₁, h₁, h⟩ := bind_eq_ok.mp h
  obtain ⟨b₂, h₂, h⟩ := bind_eq_ok.mp h
  obtain ⟨b₃, h₃, h⟩ := bind_eq_ok.mp h
  obtain ⟨b₄, h₄, h⟩ := bind_eq_ok.mp h
  obtain ⟨b₅, h₅, h⟩ := bind_eq_ok.mp h
  have htype : Adds 1 2 b₀ b₁ (typeConditions flowType) := by
    unfold typeConditions
    by_cases hany : flowType = [] ∨ flowType = lit "any"
    · rw [if_pos hany] at h₁ ⊢
      cases h₁
      exact Adds.none (by decide) b₀
    · rw [if_neg hany] at h₁ ⊢
      exact adds_equality (n := .fixed .type) rfl rfl h₁
  rw [← normalizeStateMeta_conditions hm]
  exact ⟨b₅, 6, (((((builder_asks h₀).add htype).add (adds_searchState h₂)).add
    (adds_metadata h₃)).add (adds_stateMetadata h₄)).add (adds_window h₅), h⟩

theorem lineage_asks {selector identifier : Str} {scope : Scope} {state : Option Str}
    {window : Window} {terminalOnly : Option Bool} {attributes : Option Mapping}
    {built : Str × Dict Str Value}
    (h : buildFlowLineageQuery selector identifier scope state window terminalOnly attributes =
      .ok built) :
    ∃ b s, Asks s b ([has (.builtin .partitionKey) scope.partitionKey]++
      ((lineageSelectors.filter fun f => lit f.name = selector).map fun f =>
        has (.builtin f) (.str identifier))++
      stateConditions (state.getD (lit "any"))++window.conditions) ∧ b.build = .ok built := by
  unfold buildFlowLineageQuery at h
  obtain ⟨hselector, h⟩ := guard_ok h
  obtain ⟨-, h⟩ := guard_ok h
  obtain ⟨hattributes, h⟩ := guard_ok h
  obtain ⟨b₀, h₀, h⟩ := bind_eq_ok.mp h
  obtain ⟨t, ht, h⟩ := bind_eq_ok.mp h
  obtain ⟨b₁, h₁, h⟩ := bind_eq_ok.mp h
  obtain ⟨b₂, h₂, h⟩ := bind_eq_ok.mp h
  obtain ⟨b₃, h₃, h⟩ := bind_eq_ok.mp h
  obtain ⟨b₄, h₄, h⟩ := bind_eq_ok.mp h
  rw [requiredText_ok ht] at h₁
  rw [not_not] at hattributes hselector
  rw [hattributes] at h₃
  have hlineage : Adds 1 2 b₀ b₁ ((lineageSelectors.filter fun f => lit f.name = selector).map
      fun f => has (.builtin f) (.str identifier)) := by
    obtain ⟨f, hf, rfl⟩ := List.mem_map.mp hselector
    have hone : lineageSelectors.filter (fun g => lit g.name = lit f.name) = [f] := by
      simp only [lineageSelectors, List.mem_cons, List.not_mem_nil, or_false] at hf
      rcases hf with rfl | rfl | rfl <;> rfl
    rw [hone]
    exact adds_equality (n := .fixed .lineageId) (builtin_selector f) rfl h₁
  have hstate : Adds 2 3 b₁ b₂ (stateConditions (state.getD (lit "any"))) := by
    cases state with
    | none =>
      cases h₂
      rw [Option.getD_none, stateConditions, if_pos rfl]
      exact Adds.none (by decide) b₁
    | some s => exact adds_state h₂
  have hasks := (((((builder_asks h₀).add hlineage).add hstate).add
    (adds_metadata h₃)).raise (by decide)).add (adds_window h₄)
  exact ⟨b₄, 6, by simpa [attributeConditions] using hasks, h⟩

theorem stuck_asks {clock : ℤ} {flowType : Str} {partitionKey : Value}
    {count olderThanMs nowMs : Option ℤ} {built : Str × Dict Str Value}
    (h : buildFlowStuckQuery clock flowType partitionKey count olderThanMs nowMs = .ok built) :
    ∃ b s, Asks s b [has (.builtin .partitionKey) partitionKey,
      has (.builtin .type) (.str flowType), has (.builtin .state) (.str (lit "running")),
      ⟨.builtin .leaseDeadlineMs, .between,
        [.int 0, .int (nowMs.getD clock-olderThanMs.getD 0)]⟩] ∧ b.build = .ok built := by
  unfold buildFlowStuckQuery at h
  obtain ⟨t, ht, h⟩ := bind_eq_ok.mp h
  rw [requiredText_ok ht] at h
  obtain ⟨-, h⟩ := guard_ok h
  obtain ⟨now, hnow, h⟩ := bind_eq_ok.mp h
  obtain ⟨older, holder, h⟩ := bind_eq_ok.mp h
  obtain ⟨-, h⟩ := guard_ok h
  obtain ⟨b₀, h₀, h⟩ := bind_eq_ok.mp h
  obtain ⟨b₁, h₁, h⟩ := bind_eq_ok.mp h
  obtain ⟨b₂, h₂, h⟩ := bind_eq_ok.mp h
  rw [optionalTime_ok hnow, optionalTime_ok holder] at h
  obtain ⟨ps, hps, hbelow, hperm⟩ := builder_asks h₀
  have hfirst : Asks 1 { b₀ with orderField := .leaseDeadlineMs }
      [has (.builtin .partitionKey) partitionKey] :=
    ⟨ps, ⟨hps.predicates, hps.params, hps.nodup, hps.takes⟩, hbelow, hperm⟩
  have hstate := (hfirst.add (adds_equality (f := .builtin .type) (n := .fixed .type) rfl rfl
    h₁)).add (adds_equality (f := .builtin .state) (n := .fixed .state) rfl rfl h₂)
  exact ⟨_, 6, (hstate.raise (by decide)).add (@adds_between _ .leaseDeadlineMs
    .leaseFromMs .leaseToMs _ _ rfl rfl (by decide)), h⟩

theorem terminal_asks {flowType : Str} {scope : Scope} {state : Option Str} {window : Window}
    {built : Str × Dict Str Value}
    (h : buildFlowTerminalQuery flowType scope state window = .ok built) :
    ∃ b s, Asks s b ([has (.builtin .partitionKey) scope.partitionKey]++typeConditions flowType++
      terminalConditions state++window.conditions) ∧ b.build = .ok built := by
  unfold buildFlowTerminalQuery at h
  obtain ⟨b₀, h₀, h⟩ := bind_eq_ok.mp h
  obtain ⟨t, ht, h⟩ := bind_eq_ok.mp h
  rw [requiredText_ok ht] at h
  obtain ⟨-, h⟩ := guard_ok h
  obtain ⟨b₁, h₁, h⟩ := bind_eq_ok.mp h
  obtain ⟨b₂, h₂, h⟩ := bind_eq_ok.mp h
  obtain ⟨b₃, h₃, h⟩ := bind_eq_ok.mp h
  exact ⟨b₃, 6, ((((builder_asks h₀).add (adds_type h₁)).add (adds_terminalState h₂)).raise
    (by decide)).add (adds_window h₃), h⟩

theorem Call.conditions_ne_nil (clock : ℤ) (c : Call) : c.conditions clock ≠ [] := by
  unfold Call.conditions
  cases c.kind <;> simp [listConditions]

/-- A successful call renders its conditions. -/
theorem Call.asks {clock : ℤ} {c : Call} {built : Str × Dict Str Value}
    (h : c.build clock = .ok built) :
    ∃ b s, Asks s b (c.conditions clock) ∧ b.build = .ok built := by
  unfold Call.build at h
  unfold Call.conditions
  cases hkind : c.kind with
  | list flowType scope state window => exact list_asks (by simpa only [hkind] using h)
  | search flowType scope state window terminalOnly =>
    exact search_asks (by simpa only [hkind] using h)
  | terminal flowType scope state window => exact terminal_asks (by simpa only [hkind] using h)
  | failure flowType scope window =>
    exact list_asks (by simpa only [hkind, buildFlowFailureQuery] using h)
  | lineage selector identifier scope state window terminalOnly =>
    exact lineage_asks (by simpa only [hkind] using h)
  | stuck flowType partitionKey count olderThanMs nowMs =>
    exact stuck_asks (by simpa only [hkind] using h)

/-- The outcome of a convenience builder does not depend on the order of its mappings, and what
it builds reads back as the conditions of the call over parameters of their own. -/
theorem query_builders_are_safe (clock : ℤ) (c : Call) :
    (∀ c', c.Reordered c' → (c'.build clock).toOption = (c.build clock).toOption) ∧
    ∀ text params, c.build clock = .ok (text, params) →
      ∃ ts predicates order limit, tokenize text = some ts ∧
        parseQuery ts = some ⟨.runs, predicates, [order], some limit, none, some .records, []⟩ ∧
        predicates.length ≤ maxPredicates ∧
        (parameterTokens ts).Nodup ∧ parameterTokens ts = keys params ∧
        ∃ asked, predicates.mapM (Predicate.traverse (get? params)) = some asked ∧
          asked.Perm (c.conditions clock) := by
  refine ⟨fun c' h => (h.agree clock).toOption.symm, fun text params h => ?_⟩
  obtain ⟨b, s, ⟨ps, hps, -, hperm⟩, hbuild⟩ := Call.asks h
  obtain ⟨rfl, hlength, hreads⟩ := build_ok hps hbuild
  have htakes : ∀ p ∈ ps.map Predicate.labelled, p.operator.Takes p.operands.length := by
    intro p hp
    obtain ⟨q, hq, rfl⟩ := List.mem_map.mp hp
    simpa [Predicate.labelled] using hps.takes q hq
  have hne : ps.map Predicate.labelled ≠ [] := by
    intro hnil
    rw [List.map_eq_nil_iff] at hnil
    subst hnil
    exact c.conditions_ne_nil clock hperm.symm.eq_nil
  have hnames : parameterTokens (Query.tokens ⟨.runs, ps.map Predicate.labelled, [b.order],
      some b.limit, none, some .records, []⟩) = (namesOf ps).map ParamName.text := by
    rw [parameterTokens_query htakes]
    simp [operandsOf, namesOf, Predicate.labelled, List.flatMap_map, List.map_flatMap,
      Function.comp_def]
  refine ⟨_, _, _, _, hreads, parseQuery_tokens hne htakes rfl, by simpa using hlength, ?_, ?_,
    ps.map Predicate.values, ?_, hperm⟩
  · rw [hnames]
    exact hps.nodup.map fun _ _ => ParamName.text_inj
  · rw [hnames, hps.params, keys_params]
  · rw [hps.params]
    exact labelled_values hps.nodup

/-- A search by an attribute and state metadata whose names hold quotes, brackets and at signs. -/
def quotedSearch (attributes : Mapping) : Call where
  kind := .search (lit "order") { partitionKey := .str (lit "a") } none {} none
  attributes := some attributes
  stateMeta := some [(.str (lit "o'k"), .dict [(.str (lit "x"), .bool true)])]

theorem quotedSearch_entries :
    metadataEntries "attribute" [(.str (lit "it's @x"), .int 1), (.str (lit "]"), .int 2)] 10 =
      .ok [(lit "]", .int 2), (lit "it's @x", .int 1)] := by
  refine metadataEntries_ok.mpr ⟨by decide, [(lit "it's @x", .int 1), (lit "]", .int 2)],
    .cons ⟨rfl, rfl⟩ (.cons ⟨rfl, rfl⟩ .nil), by decide, ?_⟩
  rw [sortNames_perm (.swap _ _ _) (by decide), List.mergeSort_of_pairwise]
  decide

theorem quotedSearch_state :
    stateEntries 8 [(.str (lit "o'k"), .dict [(.str (lit "x"), .bool true)])] [] [] =
      .ok [((lit "o'k", lit "x"), .bool true)] := by
  refine (stateEntries_ok List.nodup_nil).mpr ⟨[(lit "o'k", [(lit "x", .bool true)])],
    .cons ⟨rfl, _, rfl, metadataEntries_ok.mpr ⟨by decide, [(lit "x", .bool true)],
      .cons ⟨rfl, rfl⟩ .nil, by decide, ?_⟩⟩ .nil, by decide, rfl, .inr (by decide)⟩
  rw [List.mergeSort_singleton]

theorem quotedSearch_build : ∃ built, (quotedSearch [(.str (lit "it's @x"), .int 1),
    (.str (lit "]"), .int 2)]).build 0 = .ok built := by
  refine ⟨?outcome, bind_eq_ok.mpr ⟨_, rfl, bind_eq_ok.mpr ⟨_, rfl, bind_eq_ok.mpr ⟨_, rfl,
    bind_eq_ok.mpr ⟨_, rfl, bind_eq_ok.mpr ⟨_, bind_eq_ok.mpr ⟨_, quotedSearch_entries, rfl⟩,
      bind_eq_ok.mpr ⟨?b, bind_eq_ok.mpr ⟨_, quotedSearch_state, ?stated⟩, ?built⟩⟩⟩⟩⟩⟩⟩
  case stated =>
    rw [List.mergeSort_singleton]
    rfl
  case built =>
    refine bind_eq_ok.mpr ⟨_, rfl, bind_eq_ok.mpr ⟨(), by decide,
      bind_eq_ok.mpr ⟨(), by decide +kernel, ?_⟩⟩⟩
    rfl

theorem query_builders_are_safe_quoted :
    ((quotedSearch [(.str (lit "]"), .int 2), (.str (lit "it's @x"), .int 1)]).build 0).toOption =
      ((quotedSearch [(.str (lit "it's @x"), .int 1), (.str (lit "]"), .int 2)]).build 0).toOption ∧
    ∃ text params ts, (quotedSearch [(.str (lit "it's @x"), .int 1),
        (.str (lit "]"), .int 2)]).build 0 = .ok (text, params) ∧ tokenize text = some ts ∧
      (parameterTokens ts).Nodup ∧ parameterTokens ts = keys params := by
  have hsafe := query_builders_are_safe 0
    (quotedSearch [(.str (lit "it's @x"), .int 1), (.str (lit "]"), .int 2)])
  refine ⟨hsafe.1 _ ⟨rfl, .some (.swap _ _ _), .some (.refl _)⟩, ?_⟩
  obtain ⟨⟨text, params⟩, hbuild⟩ := quotedSearch_build
  obtain ⟨ts, predicates, order, limit, htokens, -, -, hnodup, hkeys, -⟩ := hsafe.2 _ _ hbuild
  exact ⟨text, params, ts, hbuild, htokens, hnodup, hkeys⟩

end FerricStore.FlowQueries
