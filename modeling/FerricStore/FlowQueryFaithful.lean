import FerricStore.FlowQueryGrammar

/-!
# Compiled queries say what was built

Every literal operand of a query has a label of its own, the next generated name; a
named parameter keeps its name, which no generated name can be. The compiler writes
the query over these labels and fills the parameters so that looking a label up gives
the operand's own value. Quoting keeps any metadata name inside one token. So the text
parses back to the labelled query, and the parameters put the values back.
-/

set_option autoImplicit false

namespace FerricStore.FlowQueries
open FerricStore.Text FerricStore.DecimalText FerricStore.Dict FerricStore.TokenScanner

/-! ### Labels and meanings -/

def labels : ℕ → List FlowOperand → List Str × ℕ
  | k, [] => ([], k)
  | k, .parameter p::rest => (p.name::(labels k rest).1, (labels k rest).2)
  | k, .bound _::rest => (generatedName k::(labels (k+1) rest).1, (labels (k+1) rest).2)

def labelPredicates : ℕ → List (Predicate FlowOperand) → List (Predicate Str) × ℕ
  | k, [] => ([], k)
  | k, p::rest =>
    let names := labels k p.operands
    (⟨p.field, p.operator, names.1⟩::(labelPredicates names.2 rest).1,
      (labelPredicates names.2 rest).2)

def cursorLabel : FlowOperand → Str
  | .parameter p => p.name
  | .bound _ => cursorName

/-- The query over placeholders: literals are numbered in the order of the query. -/
def placeholders (q : Query FlowOperand) : Query Str :=
  ⟨q.source, (labelPredicates 0 q.predicates).1, q.orders, q.limit, q.cursor.map cursorLabel,
    q.returnShape, q.projection⟩

section Traversals

variable {α β γ : Type}

def Predicate.traverse (f : α → Option β) (p : Predicate α) : Option (Predicate β) := do
  let operands ← p.operands.mapM f
  some ⟨p.field, p.operator, operands⟩

/-- The query with every operand replaced, if every operand has a replacement. -/
def Query.traverse (f : α → Option β) (q : Query α) : Option (Query β) := do
  let predicates ← q.predicates.mapM (Predicate.traverse f)
  let cursor ← q.cursor.mapM f
  some ⟨q.source, predicates, q.orders, q.limit, cursor, q.returnShape, q.projection⟩

theorem mapM_of_forall₂ {f : α → Option β} {as : List α} {bs : List β}
    (h : List.Forall₂ (fun a b => f a = some b) as bs) : as.mapM f = some bs := by
  induction h with
  | nil => rfl
  | cons hhead htail ih => simp [List.mapM_cons, hhead, ih]

/-- The same predicate up to operands related by `R`. -/
def Predicate.Rel (R : α → β → Prop) (p : Predicate α) (p' : Predicate β) : Prop :=
  p.field = p'.field ∧ p.operator = p'.operator ∧ List.Forall₂ R p.operands p'.operands

theorem Predicate.Rel.mono {R S : α → β → Prop} (h : ∀ a b, R a b → S a b) {p : Predicate α}
    {p' : Predicate β} (hp : p.Rel R p') : p.Rel S p' :=
  ⟨hp.1, hp.2.1, hp.2.2.imp fun a b hab => h a b hab⟩

theorem Predicate.traverse_of_rel {f : α → Option β} {p : Predicate α} {p' : Predicate β}
    (h : p.Rel (fun a b => f a = some b) p') : p.traverse f = some p' := by
  obtain ⟨field, operator, operands⟩ := p
  obtain ⟨rfl, rfl, hoperands⟩ := h
  simp [Predicate.traverse, mapM_of_forall₂ hoperands]

theorem Query.traverse_of_rel {f : α → Option β} {q : Query α} {predicates : List (Predicate β)}
    {cursor : Option β}
    (hpredicates : List.Forall₂ (Predicate.Rel fun a b => f a = some b) q.predicates predicates)
    (hcursor : q.cursor.mapM f = some cursor) :
    q.traverse f = some
      ⟨q.source, predicates, q.orders, q.limit, cursor, q.returnShape, q.projection⟩ := by
  have hmap : q.predicates.mapM (Predicate.traverse f) = some predicates :=
    mapM_of_forall₂ (hpredicates.imp fun _ _ h => Predicate.traverse_of_rel h)
  simp [Query.traverse, hmap, hcursor]

end Traversals

/-- The value an operand stands for. -/
def resolve (bindings : Dict Str FlowBoundValue) : FlowOperand → Option FlowBoundValue
  | .parameter p => get? bindings p.name
  | .bound v => some v

/-- What a query asks, its parameters replaced by the values bound to them. -/
def FlowQuery.meaning (q : FlowQuery) : Option (Query FlowBoundValue) :=
  q.query.traverse (resolve (update [] q.bindings))

/-- The parameters put in the place of the placeholders. -/
def Query.substitute (params : Dict Str FlowBoundValue) (q : Query Str) :
    Option (Query FlowBoundValue) :=
  q.traverse (get? params)

/-- The query a text writes. -/
def readQuery (text : Str) : Option (Query Str) := (tokenize text).bind parseQuery

/-! ### The rendered clauses -/

theorem reads_bracketed (s : Str) :
    Reads (lit "["++quote s++lit "]") [.mark .openBracket, .quoted s, .mark .closeBracket] :=
  reads_then (reads_after (a := lit "[") (t := [.mark .openBracket]) rfl (reads_quote s) rfl)
    (u := [.mark .closeBracket]) rfl rfl

theorem reads_segments (segments : List Str) :
    Reads (segments.flatMap fun s => lit "["++quote s++lit "]") (segmentTokens segments) := by
  induction segments with
  | nil => exact reads_nil
  | cons s segments ih =>
    refine reads_after (reads_bracketed s) ih ?_
    rw [List.getLast?_append]
    rfl

theorem reads_selector {root : String} (h : Reads (lit root) [word root]) (segments : List Str) :
    Reads (flowMetadataSelector root segments) (word root::segmentTokens segments) := by
  refine reads_then h (reads_segments segments) ?_
  cases segments <;> rfl

theorem reads_field (f : FlowField) : Reads f.selector f.tokens := by
  refine reads_selector ?_ f.segments
  rcases f with b | n | ⟨s, n⟩
  · cases b <;> exact rfl
  · rw [FlowField.name]
    exact rfl
  · rw [FlowField.name]
    exact rfl

theorem reads_projected (p : Projected) : Reads p.selector p.tokens := by
  cases p with
  | field f => exact reads_field f
  | event n => exact reads_selector (by rw [Projected.name]; exact rfl) _
  | runMap m => exact reads_selector (by cases m <;> exact rfl) _

theorem reads_order (o : FlowOrder) :
    Reads (o.field.selector++lit " "++lit o.direction.name) o.tokens := by
  have h := reads_around (s := lit " ") (u := []) (reads_field o.field) rfl
    (b := lit o.direction.name) (v := [word o.direction.name])
    (by cases o.direction <;> exact rfl) rfl rfl
  simpa [FlowOrder.tokens] using h

/-- A name that reads as one parameter behind an at sign. -/
def Named (name : Str) : Prop := name ≠ [] ∧ name.all inName = true

theorem reads_placeholder {name : Str} (h : Named name) :
    Reads (placeholder name) [.parameter name] :=
  reads_parameter h.1 h.2

theorem reads_joined {items : List Str} {tss : List (List Token)}
    (h : List.Forall₂ Reads items tss) :
    Reads ((lit ", ").intercalate items) (commaSeparated tss) :=
  reads_intercalate (u := [.mark .comma]) (by exact rfl) rfl rfl h

theorem forall₂_maps {α β γ : Type} {R : β → γ → Prop} {f : α → β} {g : α → γ} {as : List α}
    (h : ∀ a ∈ as, R (f a) (g a)) : List.Forall₂ R (as.map f) (as.map g) := by
  rw [List.forall₂_map_left_iff, List.forall₂_map_right_iff, List.forall₂_same]
  exact h

theorem reads_orders (orders : List FlowOrder) : Reads (renderOrders orders) (orderTokens orders) := by
  by_cases h : orders = []
  · simp only [renderOrders, orderTokens, if_pos h]
    exact reads_nil
  · simp only [renderOrders, orderTokens, if_neg h]
    exact reads_after (a := lit " ORDER BY ") (t := [word "ORDER", word "BY"]) rfl
      (reads_joined (forall₂_maps fun o _ => reads_order o)) rfl

theorem reads_projection (projection : List Projected) :
    Reads (renderProjection projection) (projectionTokens projection) := by
  by_cases h : projection = []
  · simp only [renderProjection, projectionTokens, if_pos h]
    exact reads_nil
  · simp only [renderProjection, projectionTokens, if_neg h]
    refine reads_then (reads_after (a := lit " (") (t := [.mark .openParen]) rfl
      (reads_joined (forall₂_maps fun p _ => reads_projected p)) rfl) (u := [.mark .closeParen]) rfl rfl

theorem reads_limit (limit : Option ℕ) :
    Reads (renderLimit limit) (limitTokens limit) := by
  cases limit with
  | none => exact reads_nil
  | some n =>
    exact reads_after (a := lit " LIMIT ") (t := [word "LIMIT"]) rfl
      (reads_number (toString_digits n).1 (toString_digits n).2) rfl

/-! ### Labels are the compiler's own -/

theorem named_generated (k : ℕ) : Named (generatedName k) := by
  have hdigits := (toString_digits k).2
  refine ⟨by simp [generatedName, generatedParameterPrefix, lit], ?_⟩
  rw [generatedName, List.all_append, Bool.and_eq_true]
  refine ⟨rfl, ?_⟩
  rw [List.all_eq_true] at hdigits ⊢
  intro c hc
  simp [inName, inWord, hdigits c hc]

theorem flowParam_ok {name : Str} (h : flowParam name = .ok ()) :
    Named name ∧ generatedParameterPrefix.isPrefixOf name = false := by
  unfold flowParam at h
  cases hname : validateFlowQueryParameterName name with
  | error e =>
    rw [hname] at h
    cases h
  | ok u =>
    rw [hname] at h
    constructor
    · unfold validateFlowQueryParameterName at hname
      split at hname
      · cases hname
      · split at hname
        · cases hname
        · split at hname
          · cases hname
          · split at hname
            · assumption
            · cases hname
    · by_contra hprefix
      have hp : generatedParameterPrefix.isPrefixOf name = true := by simpa using hprefix
      simp only [hp, if_true] at h
      cases h

theorem generated_reserved (k : ℕ) :
    generatedParameterPrefix.isPrefixOf (generatedName k) = true := by
  rw [List.isPrefixOf_iff_prefix]
  exact List.prefix_append _ _

theorem generatedName_inj {j k : ℕ} (h : generatedName j = generatedName k) : j = k := by
  exact toString_inj (List.append_cancel_left h)

theorem cursorName_ne (k : ℕ) : cursorName ≠ generatedName k := by
  intro h
  have hsplit : cursorName = generatedParameterPrefix++lit "cursor" := rfl
  rw [hsplit, generatedName] at h
  have hdigits := (toString_digits k).2
  rw [← List.append_cancel_left h] at hdigits
  exact absurd hdigits (by decide)

theorem labels_named (k : ℕ) (operands : List FlowOperand) :
    ∀ n ∈ (labels k operands).1, Named n := by
  induction operands generalizing k with
  | nil => simp [labels]
  | cons o rest ih =>
    cases o with
    | parameter p =>
      intro n hn
      rcases List.mem_cons.mp hn with rfl | hn
      · exact (flowParam_ok p.made).1
      · exact ih k n hn
    | bound v =>
      intro n hn
      rcases List.mem_cons.mp hn with rfl | hn
      · exact named_generated k
      · exact ih (k+1) n hn

theorem labels_length (k : ℕ) (operands : List FlowOperand) :
    (labels k operands).1.length = operands.length := by
  induction operands generalizing k with
  | nil => rfl
  | cons o rest ih => cases o <;> simp [labels, ih]

/-! ### One step of the compiler -/

theorem bind_eq_ok {α β : Type} {x : Except QueryError α} {f : α → Except QueryError β} {b : β} :
    x >>= f = .ok b ↔ ∃ a, x = .ok a ∧ f a = .ok b := by
  cases x with
  | error e => simp [bind, Except.bind]
  | ok a => simp [bind, Except.bind]

/-- The parameters while the predicates are compiled: the bindings are still there, and
a reserved name is the label of a literal already met. -/
structure Filled (bindings : Dict Str FlowBoundValue) (c : Compiler) : Prop where
  old : ∀ n, generatedParameterPrefix.isPrefixOf n = false →
    get? c.params n = get? bindings n
  generated : ∀ n ∈ keys c.params, generatedParameterPrefix.isPrefixOf n = true →
    ∃ i < c.generated, n = generatedName i

/-- What compiling operands over labels `names` does to the parameters. -/
structure Labelled (bindings : Dict Str FlowBoundValue) (c c' : Compiler)
    (operands : List FlowOperand) (names : List Str) (vs : List FlowBoundValue) : Prop where
  filled : Filled bindings c'
  extends_ : ∀ n v, get? c.params n = some v → get? c'.params n = some v
  looked : List.Forall₂ (fun n v => get? c'.params n = some v) names vs
  resolved : List.Forall₂ (fun o v => resolve bindings o = some v) operands vs
  keys_iff : ∀ n, n ∈ keys c'.params ↔ n ∈ keys c.params ∨ n ∈ names

theorem mem_keys_of_get? {d : Dict Str FlowBoundValue} {n : Str} {v : FlowBoundValue}
    (h : get? d n = some v) : n ∈ keys d :=
  (get?_isSome_iff d n).mp (by simp [h])

theorem value_ok {bindings : Dict Str FlowBoundValue} {c c' : Compiler} {f : FlowField}
    {o : FlowOperand} {text : Str} {v : FlowBoundValue} (hc : Filled bindings c)
    (h : c.value f o = .ok ((text, v), c')) :
    ∃ n, labels c.generated [o] = ([n], c'.generated) ∧ text = placeholder n ∧
      Labelled bindings c c' [o] [n] [v] := by
  cases o with
  | parameter p =>
    unfold Compiler.value at h
    cases hget : get? c.params p.name with
    | none =>
      simp only [hget] at h
      cases h
    | some w =>
      simp only [hget] at h
      obtain ⟨u, -, h⟩ := bind_eq_ok.mp h
      cases h
      have hold := hc.old p.name (flowParam_ok p.made).2
      refine ⟨p.name, rfl, rfl, hc, fun _ _ h => h, .cons hget .nil,
        .cons (by rw [resolve, ← hold, hget]) .nil, ?_⟩
      intro n
      rw [List.mem_singleton]
      refine ⟨Or.inl, ?_⟩
      rintro (hn | rfl)
      · exact hn
      · exact mem_keys_of_get? hget
  | bound w =>
    obtain ⟨u, -, h⟩ := bind_eq_ok.mp h
    cases h
    have hfresh : generatedName c.generated ∉ keys c.params := by
      intro hmem
      obtain ⟨i, hi, heq⟩ := hc.generated _ hmem (generated_reserved _)
      exact absurd (generatedName_inj heq) (by omega)
    refine ⟨generatedName c.generated, rfl, rfl, ⟨?_, ?_⟩, ?_, .cons ?_ .nil, .cons rfl .nil, ?_⟩
    · intro n hn
      rw [get?_set_ne, hc.old n hn]
      rintro rfl
      rw [generated_reserved] at hn
      cases hn
    · intro n hn hreserved
      rcases (mem_keys_set _ _ _ _).mp hn with rfl | hn
      · exact ⟨c.generated, Nat.lt_succ_self _, rfl⟩
      · obtain ⟨i, hi, rfl⟩ := hc.generated n hn hreserved
        exact ⟨i, Nat.lt_succ_of_lt hi, rfl⟩
    · intro n x hx
      rw [get?_set_ne, hx]
      rintro rfl
      exact hfresh (mem_keys_of_get? hx)
    · simp [get?_set]
    · intro n
      rw [List.mem_singleton, or_comm]
      exact mem_keys_set _ _ _ _

theorem Labelled.append {bindings : Dict Str FlowBoundValue} {c c' c'' : Compiler}
    {os os' : List FlowOperand} {ns ns' : List Str} {vs vs' : List FlowBoundValue}
    (h : Labelled bindings c c' os ns vs) (h' : Labelled bindings c' c'' os' ns' vs') :
    Labelled bindings c c'' (os++os') (ns++ns') (vs++vs') where
  filled := h'.filled
  extends_ n v hn := h'.extends_ n v (h.extends_ n v hn)
  looked := List.rel_append (h.looked.imp fun n v hn => h'.extends_ n v hn) h'.looked
  resolved := List.rel_append h.resolved h'.resolved
  keys_iff n := by
    rw [h'.keys_iff, h.keys_iff, List.mem_append, or_assoc]

theorem labels_cons (k : ℕ) (o : FlowOperand) (rest : List FlowOperand) {n : Str} {j : ℕ}
    (h : labels k [o] = ([n], j)) :
    labels k (o::rest) = (n::(labels j rest).1, (labels j rest).2) := by
  cases o with
  | parameter p =>
    cases h
    rfl
  | bound v =>
    cases h
    rfl

theorem values_ok {bindings : Dict Str FlowBoundValue} {c c' : Compiler} {f : FlowField}
    {os : List FlowOperand} {vs : List (Str × FlowBoundValue)} (hc : Filled bindings c)
    (h : c.values f os = .ok (vs, c')) :
    c'.generated = (labels c.generated os).2 ∧
      vs.map Prod.fst = (labels c.generated os).1.map placeholder ∧
      Labelled bindings c c' os (labels c.generated os).1 (vs.map Prod.snd) := by
  induction os generalizing c vs with
  | nil =>
    cases h
    exact ⟨rfl, rfl, hc, fun _ _ h => h, .nil, .nil, fun n => by simp [labels]⟩
  | cons o rest ih =>
    obtain ⟨⟨⟨text, v⟩, c₁⟩, hvalue, h⟩ := bind_eq_ok.mp h
    obtain ⟨⟨ws, c₂⟩, hvalues, h⟩ := bind_eq_ok.mp h
    cases h
    obtain ⟨n, hlabels, rfl, hfirst⟩ := value_ok hc hvalue
    obtain ⟨hgenerated, htexts, hrest⟩ := ih hfirst.filled hvalues
    rw [labels_cons _ _ _ hlabels]
    exact ⟨hgenerated, by simp [htexts], hfirst.append hrest⟩

/-- The text of a condition whose operands are written as given. -/
def conditionText (selector : Str) : Operator → List Str → Option Str
  | .eq, v::_ => some (selector++lit " = "++v)
  | .isIn, vs => some (selector++lit " IN ("++(lit ", ").intercalate vs++lit ")")
  | .between, lower::upper::_ => some (selector++lit " BETWEEN "++lower++lit " AND "++upper)
  | .fromTo, lower::upper::_ => some (selector++lit " FROM "++lower++lit " TO "++upper)
  | .null, _ => some (selector++lit " IS NULL")
  | .missing, _ => some (selector++lit " IS MISSING")
  | _, _ => none

theorem reads_condition {f : FlowField} {o : Operator} {names : List Str}
    (htakes : o.Takes names.length) (hnamed : ∀ n ∈ names, Named n) {text : Str}
    (h : conditionText f.selector o (names.map placeholder) = some text) :
    Reads text (Predicate.tokens ⟨f, o, names⟩) := by
  have hf := reads_field f
  cases o with
  | eq =>
    obtain ⟨a, rfl⟩ := List.length_eq_one_iff.mp (htakes.1 1 rfl)
    cases h
    have ha := reads_placeholder (hnamed a (by simp))
    simpa [Predicate.tokens, Operator.tokens] using
      reads_around (s := lit " = ") (u := [.mark .equals]) hf rfl ha rfl rfl
  | isIn =>
    cases h
    have hnames : Reads ((lit ", ").intercalate (names.map placeholder))
        (commaSeparated (names.map fun n => [.parameter n])) :=
      reads_joined (forall₂_maps fun n hn => reads_placeholder (hnamed n hn))
    have hopen := reads_around (s := lit " IN (") (u := [word "IN", .mark .openParen])
      hf rfl hnames rfl rfl
    simpa [Predicate.tokens, Operator.tokens] using
      reads_then hopen (b := lit ")") (u := [.mark .closeParen]) rfl rfl
  | between =>
    obtain ⟨a, b, rfl⟩ := List.length_eq_two.mp (htakes.1 2 rfl)
    cases h
    have ha := reads_placeholder (hnamed a (by simp))
    have hb := reads_placeholder (hnamed b (by simp))
    have hlower := reads_around (s := lit " BETWEEN ") (u := [word "BETWEEN"]) hf rfl ha rfl rfl
    simpa [Predicate.tokens, Operator.tokens, List.intercalate_cons_cons] using
      reads_around (s := lit " AND ") (u := [word "AND"]) hlower rfl hb rfl rfl
  | fromTo =>
    obtain ⟨a, b, rfl⟩ := List.length_eq_two.mp (htakes.1 2 rfl)
    cases h
    have ha := reads_placeholder (hnamed a (by simp))
    have hb := reads_placeholder (hnamed b (by simp))
    have hlower := reads_around (s := lit " FROM ") (u := [word "FROM"]) hf rfl ha rfl rfl
    simpa [Predicate.tokens, Operator.tokens, List.intercalate_cons_cons] using
      reads_around (s := lit " TO ") (u := [word "TO"]) hlower rfl hb rfl rfl
  | null =>
    cases h
    exact reads_then hf (u := [word "IS", word "NULL"]) rfl rfl
  | missing =>
    cases h
    exact reads_then hf (u := [word "IS", word "MISSING"]) rfl rfl

theorem predicate_ok {bindings : Dict Str FlowBoundValue} {c c' : Compiler}
    {p : Predicate FlowOperand} {text : Str} (hc : Filled bindings c)
    (hp : p.operator.Takes p.operands.length) (h : c.predicate p = .ok (text, c')) :
    c'.generated = (labels c.generated p.operands).2 ∧
      Reads text (Predicate.tokens ⟨p.field, p.operator, (labels c.generated p.operands).1⟩) ∧
      ∃ vs, Labelled bindings c c' p.operands (labels c.generated p.operands).1 vs := by
  obtain ⟨f, o, os⟩ := p
  have htakes : o.Takes (labels c.generated os).1.length := by rwa [labels_length]
  have hnamed := labels_named c.generated os
  have hnothing : os = [] → Labelled bindings c c os (labels c.generated os).1 [] := by
    rintro rfl
    exact ⟨hc, fun _ _ h => h, .nil, .nil, fun n => by simp [labels]⟩
  by_cases hnull : o = .null
  · subst hnull
    obtain rfl := List.length_eq_zero_iff.mp (hp.1 0 rfl)
    cases h
    exact ⟨rfl, reads_condition htakes hnamed rfl, [], hnothing rfl⟩
  by_cases hmissing : o = .missing
  · subst hmissing
    obtain rfl := List.length_eq_zero_iff.mp (hp.1 0 rfl)
    cases h
    exact ⟨rfl, reads_condition htakes hnamed rfl, [], hnothing rfl⟩
  · have hvalues : ∃ vs, c.values f os = .ok (vs, c') ∧
        conditionText f.selector o (vs.map Prod.fst) = some text := by
      cases o with
      | null => exact absurd rfl hnull
      | missing => exact absurd rfl hmissing
      | eq =>
        obtain ⟨⟨vs, c₁⟩, hvs, h⟩ := bind_eq_ok.mp h
        cases vs with
        | nil => cases h
        | cons v vs =>
          cases h
          exact ⟨_, hvs, rfl⟩
      | isIn =>
        obtain ⟨⟨vs, c₁⟩, hvs, h⟩ := bind_eq_ok.mp h
        obtain ⟨u, -, h⟩ := bind_eq_ok.mp h
        cases h
        exact ⟨_, hvs, rfl⟩
      | between =>
        obtain ⟨⟨vs, c₁⟩, hvs, h⟩ := bind_eq_ok.mp h
        match vs with
        | [] => cases h
        | [v] => cases h
        | v::w::vs =>
          obtain ⟨u, -, h⟩ := bind_eq_ok.mp h
          cases h
          exact ⟨_, hvs, rfl⟩
      | fromTo =>
        obtain ⟨⟨vs, c₁⟩, hvs, h⟩ := bind_eq_ok.mp h
        match vs with
        | [] => cases h
        | [v] => cases h
        | v::w::vs =>
          obtain ⟨u, -, h⟩ := bind_eq_ok.mp h
          cases h
          exact ⟨_, hvs, rfl⟩
    obtain ⟨vs, hvs, htext⟩ := hvalues
    obtain ⟨hgenerated, htexts, hlabelled⟩ := values_ok hc hvs
    rw [htexts] at htext
    exact ⟨hgenerated, reads_condition htakes hnamed htext, _, hlabelled⟩

/-- The operands of all predicates, in order. -/
def operandsOf {α : Type} (ps : List (Predicate α)) : List α := ps.flatMap Predicate.operands

theorem predicates_ok {bindings : Dict Str FlowBoundValue} {c c' : Compiler}
    {ps : List (Predicate FlowOperand)} {texts : List Str} (hc : Filled bindings c)
    (hps : ∀ p ∈ ps, p.operator.Takes p.operands.length)
    (h : c.predicates ps = .ok (texts, c')) :
    c'.generated = (labelPredicates c.generated ps).2 ∧
      List.Forall₂ Reads texts ((labelPredicates c.generated ps).1.map Predicate.tokens) ∧
      ∃ vps : List (Predicate FlowBoundValue),
        Labelled bindings c c' (operandsOf ps) (operandsOf (labelPredicates c.generated ps).1)
          (operandsOf vps) ∧
        List.Forall₂ (Predicate.Rel fun n v => get? c'.params n = some v)
          (labelPredicates c.generated ps).1 vps ∧
        List.Forall₂ (Predicate.Rel fun o v => resolve bindings o = some v) ps vps := by
  induction ps generalizing c texts with
  | nil =>
    cases h
    exact ⟨rfl, .nil, [], ⟨hc, fun _ _ h => h, .nil, .nil, fun n => by simp [operandsOf,
      labelPredicates]⟩, .nil, .nil⟩
  | cons p ps ih =>
    obtain ⟨⟨text, c₁⟩, hpredicate, h⟩ := bind_eq_ok.mp h
    obtain ⟨⟨rest, c₂⟩, hpredicates, h⟩ := bind_eq_ok.mp h
    cases h
    obtain ⟨hgenerated, hreads, vs, hfirst⟩ := predicate_ok hc (hps p List.mem_cons_self) hpredicate
    obtain ⟨hlast, htexts, vps, hrest, hlooked, hresolved⟩ := ih hfirst.filled
      (fun x hx => hps x (List.mem_cons_of_mem _ hx)) hpredicates
    rw [hgenerated] at hlast htexts hrest hlooked
    refine ⟨hlast, .cons hreads htexts, ⟨p.field, p.operator, vs⟩::vps, ?_, ?_, ?_⟩
    · exact hfirst.append hrest
    · exact .cons ⟨rfl, rfl, hfirst.looked.imp fun n v hn => hrest.extends_ n v hn⟩ hlooked
    · exact .cons ⟨rfl, rfl, hfirst.resolved⟩ hresolved

theorem cursor_ok {bindings : Dict Str FlowBoundValue} {c c' : Compiler} {o : FlowOperand}
    {text : Str} (hc : Filled bindings c) (h : c.cursor o = .ok (text, c')) :
    text = placeholder (cursorLabel o) ∧ Named (cursorLabel o) ∧
      (∀ n v, get? c.params n = some v → get? c'.params n = some v) ∧
      (∃ v, get? c'.params (cursorLabel o) = some v ∧ resolve bindings o = some v) ∧
      ∀ n, n ∈ keys c'.params ↔ n ∈ keys c.params ∨ n = cursorLabel o := by
  cases o with
  | parameter p =>
    unfold Compiler.cursor at h
    obtain ⟨hnamed, hunreserved⟩ := flowParam_ok p.made
    cases hget : get? c.params p.name with
    | none =>
      simp only [hget] at h
      cases h
    | some w =>
      simp only [hget] at h
      obtain ⟨u, -, h⟩ := bind_eq_ok.mp h
      cases h
      refine ⟨rfl, hnamed, fun _ _ h => h, ⟨w, hget, ?_⟩, fun n => ⟨Or.inl, ?_⟩⟩
      · rw [resolve, ← hc.old _ hunreserved, hget]
      · rintro (hn | rfl)
        · exact hn
        · exact mem_keys_of_get? hget
  | bound w =>
    obtain ⟨u, -, h⟩ := bind_eq_ok.mp h
    cases h
    have hfresh : cursorName ∉ keys c.params := by
      intro hmem
      obtain ⟨i, -, heq⟩ := hc.generated _ hmem rfl
      exact cursorName_ne i heq
    refine ⟨rfl, ⟨by simp [cursorLabel, cursorName, lit], rfl⟩, ?_,
      ⟨w, by simp [cursorLabel, get?_set], rfl⟩, ?_⟩
    · intro n x hx
      rw [get?_set_ne, hx]
      rintro rfl
      exact hfresh (mem_keys_of_get? hx)
    · intro n
      rw [or_comm]
      exact mem_keys_set _ _ _ _

/-! ### The whole query -/

theorem labelPredicates_takes {k : ℕ} {ps : List (Predicate FlowOperand)}
    (h : ∀ p ∈ ps, p.operator.Takes p.operands.length) :
    ∀ p ∈ (labelPredicates k ps).1, p.operator.Takes p.operands.length := by
  induction ps generalizing k with
  | nil => simp [labelPredicates]
  | cons p ps ih =>
    intro p' hp'
    rcases List.mem_cons.mp hp' with rfl | hp'
    · simpa [labels_length] using h p List.mem_cons_self
    · exact ih (fun x hx => h x (List.mem_cons_of_mem _ hx)) p' hp'

theorem labelPredicates_map {γ : Type} (g : FlowField → Operator → ℕ → γ) (k : ℕ)
    (ps : List (Predicate FlowOperand)) :
    (labelPredicates k ps).1.map (fun p => g p.field p.operator p.operands.length) =
      ps.map fun p => g p.field p.operator p.operands.length := by
  induction ps generalizing k with
  | nil => rfl
  | cons p ps ih => simp [labelPredicates, labels_length, ih]

theorem placeholders_tokenCount (q : Query FlowOperand) :
    generatedTokenCount (placeholders q) = generatedTokenCount q := by
  have hcounts := labelPredicates_map (fun f o n => predicateTokenCount
    (⟨f, o, List.replicate n ()⟩ : Predicate Unit)) 0 q.predicates
  have hshape : ∀ {α : Type} (p : Predicate α), predicateTokenCount
      (⟨p.field, p.operator, List.replicate p.operands.length ()⟩ : Predicate Unit) =
      predicateTokenCount p := by
    intro α p
    obtain ⟨f, o, os⟩ := p
    cases o <;> simp [predicateTokenCount]
  simp only [hshape] at hcounts
  have hlength : (labelPredicates 0 q.predicates).1.length = q.predicates.length := by
    simpa using congrArg List.length (labelPredicates_map (fun _ _ _ => ()) 0 q.predicates)
  have hsum : ((labelPredicates 0 q.predicates).1.map predicateTokenCount).sum =
      (q.predicates.map predicateTokenCount).sum := congrArg List.sum hcounts
  simp only [generatedTokenCount, placeholders, hsum, hlength, Option.isSome_map]
  rfl

/-- The placeholders of a token sequence. -/
def parameterTokens (ts : List Token) : List Str := ts.filterMap fun
  | .parameter name => some name
  | _ => none

theorem parameterTokens_append (ts us : List Token) :
    parameterTokens (ts++us) = parameterTokens ts++parameterTokens us :=
  List.filterMap_append

theorem parameterTokens_intercalate {sep : Token} (hsep : parameterTokens [sep] = [])
    (tss : List (List Token)) :
    parameterTokens ([sep].intercalate tss) = tss.flatMap parameterTokens := by
  induction tss with
  | nil => rfl
  | cons ts tss ih =>
    cases tss with
    | nil => simp
    | cons us tss =>
      rw [List.intercalate_cons_cons, parameterTokens_append, parameterTokens_append, ih, hsep]
      simp

theorem parameterTokens_segments (segments : List Str) :
    parameterTokens (segmentTokens segments) = [] := by
  induction segments with
  | nil => rfl
  | cons s segments ih =>
    rw [segmentTokens, List.flatMap_cons, parameterTokens_append]
    exact ih

theorem parameterTokens_selector (root : String) (segments : List Str) :
    parameterTokens (word root::segmentTokens segments) = [] :=
  parameterTokens_segments segments

theorem parameterTokens_predicate {p : Predicate Str} (h : p.operator.Takes p.operands.length) :
    parameterTokens p.tokens = p.operands := by
  obtain ⟨f, o, names⟩ := p
  have hf : parameterTokens f.tokens = [] := parameterTokens_selector _ _
  have hnames : (names.map fun n => [Token.parameter n]).flatMap parameterTokens = names := by
    simp [List.flatMap_map, parameterTokens, List.flatMap_singleton']
  simp only at h
  rw [Predicate.tokens, parameterTokens_append, hf, List.nil_append]
  cases o with
  | eq =>
    obtain ⟨a, rfl⟩ := List.length_eq_one_iff.mp (h.1 1 rfl)
    rfl
  | isIn =>
    rw [Operator.tokens, parameterTokens_append, parameterTokens_append, commaSeparated,
      parameterTokens_intercalate rfl, hnames]
    exact List.append_nil names
  | between =>
    rw [Operator.tokens]
    exact (parameterTokens_intercalate rfl _).trans hnames
  | fromTo =>
    rw [Operator.tokens]
    exact (parameterTokens_intercalate rfl _).trans hnames
  | null =>
    obtain rfl := List.length_eq_zero_iff.mp (h.1 0 rfl)
    rfl
  | missing =>
    obtain rfl := List.length_eq_zero_iff.mp (h.1 0 rfl)
    rfl

theorem parameterTokens_commas {tss : List (List Token)} (h : ∀ ts ∈ tss, parameterTokens ts = []) :
    parameterTokens (commaSeparated tss) = [] := by
  rw [commaSeparated, parameterTokens_intercalate rfl, List.flatMap_eq_nil_iff]
  exact h

theorem parameterTokens_orders (orders : List FlowOrder) :
    parameterTokens (orderTokens orders) = [] := by
  by_cases h : orders = []
  · rw [orderTokens, if_pos h]
    rfl
  · rw [orderTokens, if_neg h, parameterTokens_append, parameterTokens_commas]
    · rfl
    · simp only [List.mem_map, forall_exists_index, and_imp, forall_apply_eq_imp_iff₂]
      intro o _
      rw [FlowOrder.tokens, parameterTokens_append, FlowField.tokens, parameterTokens_selector]
      rfl

theorem parameterTokens_projection (projection : List Projected) :
    parameterTokens (projectionTokens projection) = [] := by
  by_cases h : projection = []
  · rw [projectionTokens, if_pos h]
    rfl
  · rw [projectionTokens, if_neg h, parameterTokens_append, parameterTokens_append,
      parameterTokens_commas]
    · rfl
    · simp only [List.mem_map, forall_exists_index, and_imp, forall_apply_eq_imp_iff₂]
      exact fun p _ => parameterTokens_selector _ _

/-- The placeholders of the sequence are the operands and the cursor, in order. -/
theorem parameterTokens_query {q : Query Str}
    (htakes : ∀ p ∈ q.predicates, p.operator.Takes p.operands.length) :
    parameterTokens q.tokens = operandsOf q.predicates++q.cursor.toList := by
  have hlimit : parameterTokens (limitTokens q.limit) = [] := by
    cases q.limit <;> rfl
  have hcursor : parameterTokens (cursorTokens q.cursor) = q.cursor.toList := by
    cases q.cursor <;> rfl
  have hreturn : parameterTokens (returnTokens q.returnShape) = [] := by
    cases q.returnShape <;> rfl
  have hpredicates : (q.predicates.map Predicate.tokens).flatMap parameterTokens =
      operandsOf q.predicates := by
    rw [operandsOf, List.flatMap_map]
    exact List.flatMap_congr fun p hp => parameterTokens_predicate (htakes p hp)
  simp only [Query.tokens, parameterTokens_append, parameterTokens_orders,
    parameterTokens_projection, hlimit, hcursor, hreturn, List.append_nil, List.nil_append]
  rw [parameterTokens_intercalate rfl, hpredicates]
  rfl

theorem shape_predicates {α : Type} {q : Query α} (h : validateShape q = .ok ()) :
    q.predicates ≠ [] := by
  intro hne
  rw [validateShape, if_pos (Or.inl hne)] at h
  cases h

theorem refused_ok {c : Prop} [Decidable c] {e : QueryError} {α β : Type}
    {k : α → Except QueryError β} {x : Except QueryError β} {b : β}
    (h : (if c then Except.error e >>= k else x) = .ok b) : ¬ c ∧ x = .ok b := by
  by_cases hc : c
  · rw [if_pos hc] at h
    cases h
  · exact ⟨hc, by rwa [if_neg hc] at h⟩

theorem parameterNames_unreserved {q : Query FlowOperand} {n : Str} (h : n ∈ parameterNames q) :
    generatedParameterPrefix.isPrefixOf n = false := by
  rw [parameterNames, List.mem_filterMap] at h
  obtain ⟨o, -, ho⟩ := h
  cases o with
  | parameter p =>
    cases ho
    exact (flowParam_ok p.made).2
  | bound v => cases ho

theorem parameterNames_labels {q : Query FlowOperand} {n : Str} (h : n ∈ parameterNames q) :
    n ∈ operandsOf (placeholders q).predicates++(placeholders q).cursor.toList := by
  have hlabels : ∀ k os, ∀ n ∈ os.filterMap FlowOperand.parameterName, n ∈ (labels k os).1 := by
    intro k os
    induction os generalizing k with
    | nil => simp
    | cons o rest ih =>
      intro n hn
      cases o with
      | parameter p =>
        rcases List.mem_cons.mp hn with rfl | hn
        · exact List.mem_cons_self
        · exact List.mem_cons_of_mem _ (ih k n hn)
      | bound v => exact List.mem_cons_of_mem _ (ih (k+1) n hn)
  have hpredicates : ∀ k ps, ∀ n ∈ (operandsOf ps).filterMap FlowOperand.parameterName,
      n ∈ operandsOf (labelPredicates k ps).1 := by
    intro k ps
    induction ps generalizing k with
    | nil => simp [operandsOf]
    | cons p ps ih =>
      intro n hn
      rw [operandsOf, List.flatMap_cons, List.filterMap_append, List.mem_append] at hn
      rw [labelPredicates, operandsOf, List.flatMap_cons, List.mem_append]
      exact hn.imp (hlabels k p.operands n) (ih _ n)
  rw [parameterNames, List.filterMap_append, List.mem_append] at h
  rw [List.mem_append]
  refine h.imp (hpredicates 0 q.predicates n) ?_
  intro hn
  cases hcursor : q.cursor with
  | none => simp [hcursor] at hn
  | some o =>
    cases o with
    | parameter p => simpa [placeholders, hcursor, cursorLabel, FlowOperand.parameterName] using hn
    | bound v => simp [hcursor, FlowOperand.parameterName] at hn

/-- What a compiled text and its parameters are made of. -/
structure Compiled (q : Query FlowOperand) (bindings : Dict Str FlowBoundValue) (text : Str)
    (params : Dict Str FlowBoundValue) : Prop where
  text_reads : Reads text (placeholders q).tokens
  keys_iff : ∀ n, n ∈ keys params ↔ n ∈ keys bindings ∨
    n ∈ operandsOf (placeholders q).predicates++(placeholders q).cursor.toList
  meaning : ∃ m, q.traverse (resolve bindings) = some m ∧
    (placeholders q).substitute params = some m

theorem compileFlowQuery_ok {q : Query FlowOperand} {shape : ReturnShape}
    {bindings params : Dict Str FlowBoundValue} {text : Str}
    (hps : ∀ p ∈ q.predicates, p.operator.Takes p.operands.length)
    (hshape : q.returnShape = some shape)
    (hbindings : ∀ n ∈ keys bindings, generatedParameterPrefix.isPrefixOf n = false)
    (h : compileFlowQuery q shape bindings = .ok (text, params)) :
    Compiled q bindings text params := by
  obtain ⟨u, -, h⟩ := bind_eq_ok.mp h
  obtain ⟨⟨texts, c⟩, hpredicates, h⟩ := bind_eq_ok.mp h
  obtain ⟨⟨cursor, c'⟩, hcursor, h⟩ := bind_eq_ok.mp h
  obtain ⟨u', -, h⟩ := bind_eq_ok.mp h
  obtain ⟨u'', -, h⟩ := bind_eq_ok.mp h
  cases h
  have hfilled : Filled bindings ⟨bindings, 0⟩ := by
    refine ⟨fun _ _ => rfl, fun n hn hreserved => ?_⟩
    rw [hbindings n hn] at hreserved
    cases hreserved
  obtain ⟨-, hreads, vps, hlabelled, hlooked, hresolved⟩ := predicates_ok hfilled hps hpredicates
  have hclause : Reads cursor (cursorTokens (q.cursor.map cursorLabel)) ∧
      cursor.head?.all isBreak = true ∧
      (∀ n v, get? c.params n = some v → get? c'.params n = some v) ∧
      (∃ vc, (q.cursor.map cursorLabel).mapM (get? c'.params) = some vc ∧
        q.cursor.mapM (resolve bindings) = some vc) ∧
      ∀ n, n ∈ keys c'.params ↔ n ∈ keys c.params ∨ n ∈ (q.cursor.map cursorLabel).toList := by
    cases hoperand : q.cursor with
    | none =>
      rw [hoperand] at hcursor
      cases hcursor
      exact ⟨reads_nil, rfl, fun _ _ h => h, ⟨none, rfl, rfl⟩, fun n => by simp⟩
    | some o =>
      rw [hoperand] at hcursor
      obtain ⟨⟨t, c₁⟩, ht, hcursor⟩ := bind_eq_ok.mp hcursor
      cases hcursor
      obtain ⟨rfl, hnamed, hextends, ⟨v, hv, hv'⟩, hkeys⟩ := cursor_ok hlabelled.filled ht
      refine ⟨?_, rfl, hextends, ⟨some v, by simp [hv], by simp [hv']⟩, fun n => by simpa using hkeys n⟩
      exact reads_after (a := lit " CURSOR ") (t := [word "CURSOR"]) rfl
        (reads_placeholder hnamed) rfl
  obtain ⟨hcursorReads, hcursorHead, hextends, ⟨vc, hvc, hvc'⟩, hkeys⟩ := hclause
  refine ⟨?_, ?_, ?_⟩
  · have hjoined : Reads ((lit " AND ").intercalate texts)
        ([word "AND"].intercalate ((labelPredicates 0 q.predicates).1.map Predicate.tokens)) :=
      reads_intercalate (s := lit " AND ") (u := [word "AND"]) rfl rfl rfl hreads
    have hopening : Reads (lit "FROM "++lit q.source.name++lit " WHERE ")
        [word "FROM", word q.source.name, word "WHERE"] := by
      cases q.source <;> exact rfl
    have hfrom := reads_after hopening hjoined (by
      rw [List.getLast?_append]
      rfl)
    have horders := reads_then hfrom (reads_orders q.orders) (by
      by_cases h : q.orders = [] <;> simp only [renderOrders, h, if_true, if_false] <;> rfl)
    have hlimit := reads_then horders (reads_limit q.limit) (by cases q.limit <;> rfl)
    have hcursors := reads_then hlimit hcursorReads hcursorHead
    have hreturn := reads_around (s := lit " RETURN ") (u := [word "RETURN"]) hcursors rfl
      (b := lit shape.name) (v := [word shape.name]) (by cases shape <;> exact rfl) rfl rfl
    have hall := reads_then hreturn (reads_projection q.projection) (by
      by_cases h : q.projection = [] <;>
        simp only [renderProjection, h, if_true, if_false] <;> rfl)
    have htokens : (placeholders q).tokens =
        [word "FROM", word q.source.name, word "WHERE"]++
          [word "AND"].intercalate ((labelPredicates 0 q.predicates).1.map Predicate.tokens)++
          orderTokens q.orders++limitTokens q.limit++cursorTokens (q.cursor.map cursorLabel)++
          [word "RETURN"]++[word shape.name]++projectionTokens q.projection := by
      simp [Query.tokens, placeholders, returnTokens, hshape]
    rw [htokens]
    exact hall
  · intro n
    rw [hkeys, hlabelled.keys_iff, or_assoc, List.mem_append]
    rfl
  · have hlast := hlooked.imp fun (p : Predicate Str) (p' : Predicate FlowBoundValue) h =>
      Predicate.Rel.mono (fun n v hn => hextends n v hn) h
    exact ⟨_, Query.traverse_of_rel hresolved hvc', Query.traverse_of_rel (q := placeholders q) hlast hvc⟩

theorem compile_ok {q : FlowQuery} {text : Str} {params : Dict Str FlowBoundValue}
    (h : q.compile = .ok (text, params)) :
    q.query.predicates ≠ [] ∧ (∃ shape, q.query.returnShape = some shape) ∧
      (∀ n ∈ keys (update [] q.bindings), n ∈ parameterNames q.query) ∧
      Compiled q.query (update [] q.bindings) text params := by
  unfold FlowQuery.compile at h
  obtain ⟨u, hshape, h⟩ := bind_eq_ok.mp h
  obtain ⟨-, h⟩ := refused_ok h
  obtain ⟨hunknown, h⟩ := refused_ok h
  have hrequired : ∀ n ∈ keys (update [] q.bindings), n ∈ parameterNames q.query := by
    simpa using hunknown
  cases hreturn : q.query.returnShape with
  | none =>
    simp only [hreturn] at h
    cases h
  | some shape =>
    simp only [hreturn] at h
    exact ⟨shape_predicates hshape, ⟨shape, rfl⟩, hrequired,
      compileFlowQuery_ok (fun p hp => takes_of_postInit (q.predicates p hp)) hreturn
        (fun n hn => parameterNames_unreserved (hrequired n hn)) h⟩

/-- A compiled text splits into the counted tokens, parses to the query over its
placeholders, which are the parameters' names, and gives back what was asked; so no
query of another meaning compiles to the same text and parameters. -/
theorem compile_is_faithful (q : FlowQuery) (text : Str) (params : Dict Str FlowBoundValue)
    (h : q.compile = .ok (text, params)) :
    (∃ ts, tokenize text = some ts ∧ ts.length = generatedTokenCount q.query ∧
      parseQuery ts = some (placeholders q.query) ∧
      ∀ n, n ∈ keys params ↔ Token.parameter n ∈ ts) ∧
    (∃ m, q.meaning = some m ∧ (placeholders q.query).substitute params = some m) ∧
    ∀ (q' : FlowQuery) (params' : Dict Str FlowBoundValue), q'.compile = .ok (text, params') →
      (∀ n, get? params' n = get? params n) → q'.meaning = q.meaning := by
  obtain ⟨hne, ⟨shape, hshape⟩, hrequired, hcompiled⟩ := compile_ok h
  have htakes := labelPredicates_takes (k := 0) fun p hp => takes_of_postInit (q.predicates p hp)
  have hlabelled : ∀ {r : Query FlowOperand}, r.predicates ≠ [] →
      (labelPredicates 0 r.predicates).1 ≠ [] := by
    intro r hr
    cases hps : r.predicates with
    | nil => exact absurd hps hr
    | cons p ps => simp [labelPredicates]
  refine ⟨⟨_, hcompiled.text_reads, ?_, ?_, ?_⟩, hcompiled.meaning, ?_⟩
  · rw [@query_tokens_length _ shape htakes hshape, placeholders_tokenCount]
  · exact parseQuery_tokens (q := placeholders q.query) (hlabelled hne) htakes hshape
  · intro n
    have hmem : Token.parameter n ∈ (placeholders q.query).tokens ↔
        n ∈ parameterTokens (placeholders q.query).tokens := by
      rw [parameterTokens, List.mem_filterMap]
      constructor
      · exact fun hn => ⟨_, hn, rfl⟩
      · rintro ⟨t, ht, hn⟩
        split at hn
        · cases hn
          exact ht
        · cases hn
    rw [hmem, parameterTokens_query htakes, hcompiled.keys_iff]
    exact ⟨fun hn => hn.elim (fun hb => parameterNames_labels (hrequired n hb)) id, Or.inr⟩
  · intro q' params' h' hparams
    obtain ⟨hne', ⟨shape', hshape'⟩, -, hcompiled'⟩ := compile_ok h'
    have htakes' := labelPredicates_takes (k := 0) fun p hp =>
      takes_of_postInit (q'.predicates p hp)
    have hread := parseQuery_tokens (q := placeholders q.query) (hlabelled hne) htakes hshape
    have hread' := parseQuery_tokens (q := placeholders q'.query) (hlabelled hne') htakes' hshape'
    have htokens : (placeholders q.query).tokens = (placeholders q'.query).tokens :=
      Option.some.inj (hcompiled.text_reads.symm.trans hcompiled'.text_reads)
    have hsame : placeholders q.query = placeholders q'.query :=
      Option.some.inj (hread.symm.trans (by rw [htokens]; exact hread'))
    obtain ⟨m, hm, hsubstitute⟩ := hcompiled.meaning
    obtain ⟨m', hm', hsubstitute'⟩ := hcompiled'.meaning
    have hget : get? params' = get? params := funext hparams
    rw [Query.substitute, hget, ← hsame] at hsubstitute'
    have heq : m = m' := Option.some.inj (hsubstitute.symm.trans hsubstitute')
    rw [FlowQuery.meaning, FlowQuery.meaning, hm, hm', heq]

/-- A count of the runs of one partition whose attribute, named with a quote and an at
sign, has a literal value. -/
def quotedAttributeCount : FlowQuery where
  query := ⟨.runs, [⟨.builtin .partitionKey, .eq, [.parameter ⟨lit "p", rfl⟩]⟩,
    ⟨.attribute (lit "it's @x"), .eq, [.bound ⟨.int 7, rfl⟩]⟩], [], none, none, some .count, []⟩
  bindings := [(lit "p", ⟨.str (lit "a"), rfl⟩)]
  fields p hp := by
    rcases List.mem_pair.mp hp with rfl | rfl
    · exact ⟨lit "partition_key", none, none, rfl⟩
    · exact ⟨lit "attribute", none, some (lit "it's @x"), rfl⟩
  predicates p hp := by
    rcases List.mem_pair.mp hp with rfl | rfl <;> rfl
  orders o ho := by cases ho
  projection p hp := by cases hp
  made := rfl

theorem compile_is_faithful_quoted :
    (∃ ts, tokenize (lit "FROM runs WHERE partition_key = @p AND attribute['it''s @x'] = @_fql_0 "
          ++lit "RETURN COUNT") = some ts ∧
      ts.length = generatedTokenCount quotedAttributeCount.query ∧
      parseQuery ts = some (placeholders quotedAttributeCount.query) ∧
      ∀ n, n ∈ [lit "p", lit "_fql_0"] ↔ Token.parameter n ∈ ts) ∧
    ∃ m, quotedAttributeCount.meaning = some m :=
  have h := compile_is_faithful quotedAttributeCount
    (lit "FROM runs WHERE partition_key = @p AND attribute['it''s @x'] = @_fql_0 "
      ++lit "RETURN COUNT")
    [(lit "p", ⟨.str (lit "a"), rfl⟩), (lit "_fql_0", ⟨.int 7, rfl⟩)] rfl
  ⟨h.1, h.2.1.imp fun _ hm => hm.1⟩

theorem update_keeps (d e : Dict Str FlowBoundValue) (h : (keys d).Nodup) :
    (keys (update d e)).Nodup ∧ ∀ n, n ∉ keys e → get? (update d e) n = get? d n := by
  induction e generalizing d with
  | nil => exact ⟨h, fun _ _ => rfl⟩
  | cons p e ih =>
    obtain ⟨hnodup, hget⟩ := ih (set d p.1 p.2) (nodup_set d p.1 p.2 h)
    refine ⟨hnodup, fun n hn => ?_⟩
    rw [keys, List.map_cons, List.mem_cons, not_or] at hn
    exact (hget n hn.2).trans (get?_set_ne _ _ _ _ (Ne.symm hn.1))

/-- Binding keeps the query and every value already bound. -/
theorem bind_bound {q q' : FlowQuery} {params values : Dict Str Value}
    (h : q.bind params values = .ok q') : q'.query = q.query ∧
      ∀ n v, get? (update [] q.bindings) n = some v → get? (update [] q'.bindings) n = some v := by
  unfold FlowQuery.bind at h
  obtain ⟨supplied, -, h⟩ := bind_eq_ok.mp h
  obtain ⟨-, h⟩ := refused_ok h
  obtain ⟨normalizedValues, -, h⟩ := bind_eq_ok.mp h
  obtain ⟨-, h⟩ := refused_ok h
  obtain ⟨-, h⟩ := refused_ok h
  obtain ⟨hrebound, h⟩ := refused_ok h
  cases h
  refine ⟨rfl, fun n v hv => ?_⟩
  have hcurrent := (update_keeps [] q.bindings List.nodup_nil).1
  obtain ⟨hnodup, hget⟩ := update_keeps (update [] q.bindings) (update supplied normalizedValues)
    hcurrent
  have hn : n ∉ keys (update supplied normalizedValues) := by
    intro hmem
    refine hrebound ?_
    rw [Ne, List.filter_eq_nil_iff]
    intro hnone
    exact hnone n hmem (by simpa using mem_keys_of_get? hv)
  have hsorted : (keys ((update (update [] q.bindings) (update supplied normalizedValues)).mergeSort
      fun a b => a.1 ≤ b.1)).Nodup :=
    ((List.mergeSort_perm _ _).map Prod.fst).nodup_iff.mpr hnodup
  rw [get?_update _ _ _ hsorted, get?_nil, Option.or_none]
  refine get?_of_mem hsorted ((List.mergeSort_perm _ _).mem_iff.mpr (mem_of_get? ?_))
  rw [hget n hn, hv]

end FerricStore.FlowQueries
