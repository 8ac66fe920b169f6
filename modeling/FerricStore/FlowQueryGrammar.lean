import FerricStore.FlowQueries

/-!
# The grammar of FQL

What a query text says, apart from the compiler: the token sequence of a query whose
operands are placeholders, and a recursive-descent parser for such sequences. The
parser reads one token ahead, so a separated list ends where its separator is missing.
It recovers every query whose predicates have their arity, and the sequence has as
many tokens as the compiler counts.
-/

set_option autoImplicit false

namespace FerricStore.FlowQueries
open FerricStore.Text FerricStore.DecimalText FerricStore.TokenScanner

def word (s : String) : Token := .word (lit s)

def segmentTokens (segments : List Str) : List Token :=
  segments.flatMap fun s => [.mark .openBracket, .quoted s, .mark .closeBracket]

def FlowField.tokens (f : FlowField) : List Token := word f.name::segmentTokens f.segments

def Projected.tokens (p : Projected) : List Token := word p.name::segmentTokens p.segments

def commaSeparated (tss : List (List Token)) : List Token := [.mark .comma].intercalate tss

def Operator.tokens : Operator → List Str → List Token
  | .eq, names => .mark .equals::names.map .parameter
  | .isIn, names => [word "IN", .mark .openParen]++
      commaSeparated (names.map fun n => [.parameter n])++[Token.mark .closeParen]
  | .between, names => word "BETWEEN"::[word "AND"].intercalate (names.map fun n => [.parameter n])
  | .fromTo, names => word "FROM"::[word "TO"].intercalate (names.map fun n => [.parameter n])
  | .null, _ => [word "IS", word "NULL"]
  | .missing, _ => [word "IS", word "MISSING"]

def Predicate.tokens (p : Predicate Str) : List Token :=
  p.field.tokens++p.operator.tokens p.operands

def FlowOrder.tokens (o : FlowOrder) : List Token := o.field.tokens++[word o.direction.name]

def orderTokens (orders : List FlowOrder) : List Token :=
  if orders = [] then []
  else [word "ORDER", word "BY"]++commaSeparated (orders.map FlowOrder.tokens)

def limitTokens : Option ℕ → List Token
  | none => []
  | some n => [word "LIMIT", .number (lit (toString n))]

def cursorTokens : Option Str → List Token
  | none => []
  | some name => [word "CURSOR", .parameter name]

def projectionTokens (projection : List Projected) : List Token :=
  if projection = [] then []
  else [Token.mark .openParen]++commaSeparated (projection.map Projected.tokens)++[Token.mark .closeParen]

def returnTokens (shape : Option ReturnShape) : List Token :=
  word "RETURN"::shape.toList.map fun s => word s.name

def Query.tokens (q : Query Str) : List Token :=
  [word "FROM", word q.source.name, word "WHERE"]++
    ([word "AND"].intercalate (q.predicates.map Predicate.tokens)++
      (orderTokens q.orders++(limitTokens q.limit++(cursorTokens q.cursor++
        (returnTokens q.returnShape++projectionTokens q.projection)))))

/-! ### The parser -/

abbrev Parser (α : Type) := List Token → Option (α × List Token)

/-- One or more items with a separator between them; every item takes a token, so the
length of the input is fuel enough. -/
def separatedFuel {α : Type} (p : Parser α) (sep : Token) : ℕ → Parser (List α)
  | 0, _ => none
  | fuel+1, ts => do
    let (a, ts) ← p ts
    match ts with
    | [] => some ([a], [])
    | t::rest =>
      if t = sep then do
        let (as, ts) ← separatedFuel p sep fuel rest
        some (a::as, ts)
      else some ([a], t::rest)

def separated {α : Type} (p : Parser α) (sep : Token) : Parser (List α) := fun ts =>
  separatedFuel p sep ts.length ts

def parseSegments : List Token → List Str × List Token
  | .mark .openBracket::.quoted s::.mark .closeBracket::ts =>
    let (ss, rest) := parseSegments ts
    (s::ss, rest)
  | ts => ([], ts)

def selected (name : Str) : List Str → Option Projected
  | [] =>
    if name = lit "fields" then some (.event none)
    else if name = lit "attributes" then some (.runMap .attributes)
    else if name = lit "state_meta" then some (.runMap .stateMeta)
    else (builtins.find? fun b => name = lit b.name).map fun b => .field (.builtin b)
  | [n] =>
    if name = lit "attribute" then some (.field (.attribute n))
    else if name = lit "fields" then some (.event (some n))
    else none
  | [s, n] => if name = lit "state_meta" then some (.field (.stateMeta s n)) else none
  | _ => none

def parseProjected : Parser Projected
  | .word name::ts => do
    let (segments, rest) := parseSegments ts
    let p ← selected name segments
    some (p, rest)
  | _ => none

def parseField : Parser FlowField := fun ts => do
  match ← parseProjected ts with
  | (.field f, rest) => some (f, rest)
  | _ => none

def parseParameter : Parser Str
  | .parameter name::ts => some (name, ts)
  | _ => none

/-- Two placeholders with a keyword between them. -/
def parseRange (keyword : String) : Parser (List Str)
  | .parameter a::t::.parameter b::ts => if t = word keyword then some ([a, b], ts) else none
  | _ => none

def parseCondition : Parser (Operator × List Str)
  | .mark .equals::.parameter name::ts => some ((.eq, [name]), ts)
  | t::ts =>
    if t = word "IN" then
      match ts with
      | .mark .openParen::ts => do
        match ← separated parseParameter (.mark .comma) ts with
        | (names, .mark .closeParen::rest) => some ((.isIn, names), rest)
        | _ => none
      | _ => none
    else if t = word "BETWEEN" then
      (parseRange "AND" ts).map fun r => ((.between, r.1), r.2)
    else if t = word "FROM" then
      (parseRange "TO" ts).map fun r => ((.fromTo, r.1), r.2)
    else if t = word "IS" then
      match ts with
      | u::rest =>
        if u = word "NULL" then some ((.null, []), rest)
        else if u = word "MISSING" then some ((.missing, []), rest)
        else none
      | [] => none
    else none
  | [] => none

def parsePredicate : Parser (Predicate Str) := fun ts => do
  let (f, ts) ← parseField ts
  let ((operator, names), ts) ← parseCondition ts
  some (⟨f, operator, names⟩, ts)

def parseOrder : Parser FlowOrder := fun ts => do
  let (f, ts) ← parseField ts
  match ts with
  | t::rest =>
    if t = word "ASC" then some (⟨f, .asc⟩, rest)
    else if t = word "DESC" then some (⟨f, .desc⟩, rest)
    else none
  | [] => none

def parseSource : Parser Source
  | t::u::v::ts =>
    if t = word "FROM" ∧ v = word "WHERE" then
      if u = word "runs" then some (.runs, ts)
      else if u = word "events" then some (.events, ts)
      else none
    else none
  | _ => none

def parseOrders : Parser (List FlowOrder)
  | t::u::ts =>
    if t = word "ORDER" ∧ u = word "BY" then separated parseOrder (.mark .comma) ts
    else some ([], t::u::ts)
  | ts => some ([], ts)

def parseLimit : Parser (Option ℕ)
  | t::.number s::ts =>
    if t = word "LIMIT" then some (some (numeral s), ts) else some (none, t::.number s::ts)
  | ts => some (none, ts)

def parseCursor : Parser (Option Str)
  | t::.parameter name::ts =>
    if t = word "CURSOR" then some (some name, ts) else some (none, t::.parameter name::ts)
  | ts => some (none, ts)

def parseReturn : Parser ReturnShape
  | t::u::ts =>
    if t = word "RETURN" then
      if u = word "RECORD" then some (.record, ts)
      else if u = word "RECORDS" then some (.records, ts)
      else if u = word "COUNT" then some (.count, ts)
      else none
    else none
  | _ => none

def parseProjection : Parser (List Projected)
  | .mark .openParen::ts => do
    match ← separated parseProjected (.mark .comma) ts with
    | (ps, .mark .closeParen::rest) => some (ps, rest)
    | _ => none
  | ts => some ([], ts)

/-- The query a whole token sequence writes. -/
def parseQuery (ts : List Token) : Option (Query Str) := do
  let (source, ts) ← parseSource ts
  let (predicates, ts) ← separated parsePredicate (word "AND") ts
  let (orders, ts) ← parseOrders ts
  let (limit, ts) ← parseLimit ts
  let (cursor, ts) ← parseCursor ts
  let (shape, ts) ← parseReturn ts
  let (projection, ts) ← parseProjection ts
  match ts with
  | [] => some ⟨source, predicates, orders, limit, cursor, some shape, projection⟩
  | _ => none

/-! ### The parser recovers the query -/

@[simp] theorem word_inj {s t : String} : word s = word t ↔ s = t := by
  simp [word, lit_inj]

@[simp] theorem word_ne_mark (s : String) (m : Mark) : word s ≠ .mark m := by
  simp [word]

theorem separatedFuel_tokens {α : Type} {p : Parser α} {s : Token} {g : α → List Token}
    {as : List α} {r : List Token} {n : ℕ} (hfuel : as.length ≤ n) (hne : as ≠ [])
    (hmid : ∀ a ∈ as, ∀ more, p (g a++s::more) = some (a, s::more))
    (hlast : ∀ a ∈ as, p (g a++r) = some (a, r)) (hrest : r.head? ≠ some s) :
    separatedFuel p s n ([s].intercalate (as.map g)++r) = some (as, r) := by
  induction as generalizing n with
  | nil => exact absurd rfl hne
  | cons a as ih =>
    obtain ⟨n, rfl⟩ : ∃ k, n = k+1 :=
      Nat.exists_eq_add_one_of_ne_zero (by simp only [List.length_cons] at hfuel; omega)
    cases as with
    | nil =>
      simp only [List.map_cons, List.map_nil, List.intercalate_singleton, separatedFuel,
        hlast a List.mem_cons_self, Option.bind_eq_bind, Option.bind_some]
      cases r with
      | nil => rfl
      | cons t r => simp [show t ≠ s from fun h => hrest (by simp [h])]
    | cons b as =>
      have hback := ih (n := n) (by simpa using hfuel) (by simp)
        (fun x hx => hmid x (List.mem_cons_of_mem _ hx))
        (fun x hx => hlast x (List.mem_cons_of_mem _ hx))
      rw [List.map_cons, List.map_cons, List.intercalate_cons_cons]
      rw [List.map_cons] at hback
      simp only [List.append_assoc, List.cons_append, List.nil_append, separatedFuel,
        hmid a List.mem_cons_self, Option.bind_eq_bind, Option.bind_some, if_true]
      simp [hback]

theorem length_le_intercalate {α : Type} (sep : List α) {tss : List (List α)}
    (h : ∀ ts ∈ tss, ts ≠ []) : tss.length ≤ (sep.intercalate tss).length := by
  induction tss with
  | nil => simp
  | cons ts tss ih =>
    have hts : 0 < ts.length := List.length_pos_iff.mpr (h ts List.mem_cons_self)
    have hback := ih fun x hx => h x (List.mem_cons_of_mem _ hx)
    cases tss with
    | nil => simpa [Nat.one_le_iff_ne_zero, Nat.pos_iff_ne_zero] using hts
    | cons us tss =>
      rw [List.intercalate_cons_cons]
      simp only [List.length_cons, List.length_append] at hback ⊢
      omega

/-- A separated list is read back up to a token that is not the separator. -/
theorem separated_tokens {α : Type} {p : Parser α} {s : Token} {g : α → List Token}
    {as : List α} {r : List Token} (hne : as ≠ []) (henc : ∀ a ∈ as, g a ≠ [])
    (hmid : ∀ a ∈ as, ∀ more, p (g a++s::more) = some (a, s::more))
    (hlast : ∀ a ∈ as, p (g a++r) = some (a, r)) (hrest : r.head? ≠ some s) :
    separated p s ([s].intercalate (as.map g)++r) = some (as, r) := by
  refine separatedFuel_tokens ?_ hne hmid hlast hrest
  have hlen := @length_le_intercalate _ [s] (as.map g) (by simpa using henc)
  simp only [List.length_map, List.length_append] at hlen ⊢
  omega

theorem parseSegments_tokens (segments : List Str) {rest : List Token}
    (h : rest.head? ≠ some (.mark .openBracket)) :
    parseSegments (segmentTokens segments++rest) = (segments, rest) := by
  induction segments with
  | nil =>
    rw [segmentTokens, List.flatMap_nil, List.nil_append, parseSegments]
    rintro s ts rfl
    exact h rfl
  | cons s segments ih =>
    simp only [segmentTokens, List.flatMap_cons, List.cons_append, List.nil_append,
      parseSegments] at ih ⊢
    rw [ih]

theorem selected_self (p : Projected) : selected (lit p.name) p.segments = some p := by
  cases p with
  | field f =>
    rcases f with b | n | ⟨s, n⟩
    · cases b <;> rfl
    · simp [selected, Projected.name, Projected.segments, FlowField.name, FlowField.segments]
    · simp [selected, Projected.name, Projected.segments, FlowField.name, FlowField.segments]
  | event n => cases n <;> simp [selected, Projected.name, Projected.segments, lit_inj]
  | runMap m => cases m <;> rfl

theorem parseProjected_tokens (p : Projected) {rest : List Token}
    (h : rest.head? ≠ some (.mark .openBracket)) :
    parseProjected (p.tokens++rest) = some (p, rest) := by
  rw [Projected.tokens, List.cons_append, word, parseProjected, parseSegments_tokens _ h]
  simp [selected_self]

theorem parseField_tokens (f : FlowField) {rest : List Token}
    (h : rest.head? ≠ some (.mark .openBracket)) :
    parseField (f.tokens++rest) = some (f, rest) := by
  have hp : parseProjected (f.tokens++rest) = some (.field f, rest) :=
    parseProjected_tokens (.field f) h
  simp [parseField, hp]

/-- How many operands a predicate of the operator may have. -/
def Operator.Takes (o : Operator) (n : ℕ) : Prop := (∀ k ∈ o.arity, n = k) ∧ (o = .isIn → 1 ≤ n)

theorem takes_of_postInit {α : Type} {p : Predicate α} (h : p.postInit = .ok ()) :
    p.operator.Takes p.operands.length := by
  unfold Predicate.postInit at h
  split at h
  · cases h
  · rename_i harity
    split at h
    · cases h
    · rename_i hin
      refine ⟨fun k hk => ?_, fun ho => ?_⟩
      · by_contra hne
        refine harity ?_
        rw [Option.any_eq_true]
        exact ⟨k, hk, by simpa using hne⟩
      · by_contra hlen
        exact hin ⟨ho, fun hbounds => hlen hbounds.1⟩

theorem parseRange_tokens (keyword : String) (a b : Str) (rest : List Token) :
    parseRange keyword (.parameter a::word keyword::.parameter b::rest) = some ([a, b], rest) := by
  simp [parseRange]

theorem parseCondition_tokens {o : Operator} {names : List Str} (h : o.Takes names.length)
    (rest : List Token) : parseCondition (o.tokens names++rest) = some ((o, names), rest) := by
  cases o with
  | eq =>
    obtain ⟨a, rfl⟩ := List.length_eq_one_iff.mp (h.1 1 rfl)
    rfl
  | isIn =>
    have hne : names ≠ [] := List.length_pos_iff.mp (h.2 rfl)
    have hlist := separated_tokens (p := parseParameter) (s := .mark .comma)
      (g := fun n => [.parameter n]) (r := .mark .closeParen::rest) hne
      (fun _ _ => by simp) (fun _ _ _ => rfl) (fun _ _ => rfl) (by simp)
    simp only [Operator.tokens, commaSeparated, List.cons_append, List.nil_append,
      List.append_assoc, parseCondition]
    simp [hlist]
  | between =>
    obtain ⟨a, b, rfl⟩ := List.length_eq_two.mp (h.1 2 rfl)
    simp [Operator.tokens, parseCondition, List.intercalate_cons_cons, parseRange_tokens]
  | fromTo =>
    obtain ⟨a, b, rfl⟩ := List.length_eq_two.mp (h.1 2 rfl)
    simp [Operator.tokens, parseCondition, List.intercalate_cons_cons, parseRange_tokens]
  | null =>
    obtain rfl := List.length_eq_zero_iff.mp (h.1 0 rfl)
    simp [Operator.tokens, parseCondition]
  | missing =>
    obtain rfl := List.length_eq_zero_iff.mp (h.1 0 rfl)
    simp [Operator.tokens, parseCondition]

theorem operator_tokens_head (o : Operator) (names : List Str) (rest : List Token) :
    (o.tokens names++rest).head? ≠ some (.mark .openBracket) := by
  cases o <;> simp [Operator.tokens]

theorem parsePredicate_tokens {p : Predicate Str} (h : p.operator.Takes p.operands.length)
    (rest : List Token) : parsePredicate (p.tokens++rest) = some (p, rest) := by
  rw [Predicate.tokens, List.append_assoc, parsePredicate,
    parseField_tokens p.field (operator_tokens_head _ _ _)]
  simp [parseCondition_tokens h]

theorem parseOrder_tokens (o : FlowOrder) (rest : List Token) :
    parseOrder (o.tokens++rest) = some (o, rest) := by
  obtain ⟨f, d⟩ := o
  have hf : parseField (f.tokens++(word d.name::rest)) = some (f, word d.name::rest) :=
    parseField_tokens f (by simp)
  rw [FlowOrder.tokens, List.append_assoc, List.singleton_append, parseOrder, hf]
  cases d <;> simp [Direction.name]

theorem parseOrders_tokens (orders : List FlowOrder) {r : List Token}
    (hcomma : r.head? ≠ some (.mark .comma)) (horder : r.head? ≠ some (word "ORDER")) :
    parseOrders (orderTokens orders++r) = some (orders, r) := by
  by_cases h : orders = []
  · rw [orderTokens, if_pos h, List.nil_append, h]
    match r with
    | [] => rfl
    | [t] => rfl
    | t::u::ts =>
      rw [parseOrders, if_neg]
      rintro ⟨rfl, -⟩
      exact horder rfl
  · simp only [orderTokens, if_neg h, commaSeparated, List.cons_append, List.nil_append,
      parseOrders, true_and, if_true]
    exact separated_tokens h (fun o _ => by simp [FlowOrder.tokens])
      (fun o _ more => parseOrder_tokens o _) (fun o _ => parseOrder_tokens o _) hcomma

theorem parseLimit_tokens (limit : Option ℕ) {r : List Token}
    (h : r.head? ≠ some (word "LIMIT")) :
    parseLimit (limitTokens limit++r) = some (limit, r) := by
  cases limit with
  | none =>
    rw [limitTokens, List.nil_append]
    unfold parseLimit
    split
    · rename_i t s ts
      rw [if_neg]
      rintro rfl
      exact h rfl
    · rfl
  | some n =>
    rw [limitTokens, List.cons_append, List.singleton_append, parseLimit, if_pos rfl,
      numeral_toString]

theorem parseCursor_tokens (cursor : Option Str) {r : List Token}
    (h : r.head? ≠ some (word "CURSOR")) :
    parseCursor (cursorTokens cursor++r) = some (cursor, r) := by
  cases cursor with
  | none =>
    rw [cursorTokens, List.nil_append]
    unfold parseCursor
    split
    · rename_i t s ts
      rw [if_neg]
      rintro rfl
      exact h rfl
    · rfl
  | some name => simp [cursorTokens, parseCursor]

theorem parseReturn_tokens (shape : ReturnShape) (rest : List Token) :
    parseReturn (returnTokens (some shape)++rest) = some (shape, rest) := by
  cases shape <;> simp [returnTokens, parseReturn, ReturnShape.name]

theorem parseProjection_tokens (projection : List Projected) :
    parseProjection (projectionTokens projection) = some (projection, []) := by
  by_cases h : projection = []
  · rw [projectionTokens, if_pos h, h]
    rfl
  · have hlist := separated_tokens (p := parseProjected) (s := .mark .comma)
      (g := Projected.tokens) (r := [.mark .closeParen]) h
      (fun p _ => by simp [Projected.tokens])
      (fun p _ r => parseProjected_tokens p (by simp))
      (fun p _ => parseProjected_tokens p (by simp)) (by simp)
    simp only [projectionTokens, if_neg h, commaSeparated, List.cons_append, List.nil_append,
      parseProjection]
    simp [hlist]

/-- The heads of the optional clauses: each is its keyword or what follows it. -/
theorem clause_heads (q : Query Str) :
    let returning := returnTokens q.returnShape++projectionTokens q.projection
    let cursor := cursorTokens q.cursor++returning
    let limit := limitTokens q.limit++cursor
    returning.head? = some (word "RETURN") ∧
      (cursor.head? = some (word "RETURN") ∨ cursor.head? = some (word "CURSOR")) ∧
      (limit.head? = cursor.head? ∨ limit.head? = some (word "LIMIT")) ∧
      ((orderTokens q.orders++limit).head? = limit.head? ∨
        (orderTokens q.orders++limit).head? = some (word "ORDER")) := by
  refine ⟨by simp [returnTokens], ?_, ?_, ?_⟩
  · cases q.cursor <;> simp [cursorTokens, returnTokens]
  · cases q.limit <;> simp [limitTokens]
  · by_cases h : q.orders = [] <;> simp [orderTokens, h]

/-- Parsing the tokens of a query gives the query. -/
theorem parseQuery_tokens {q : Query Str} {shape : ReturnShape} (hne : q.predicates ≠ [])
    (htakes : ∀ p ∈ q.predicates, p.operator.Takes p.operands.length)
    (hshape : q.returnShape = some shape) : parseQuery q.tokens = some q := by
  obtain ⟨hreturn, hcursor, hlimit, horder⟩ := clause_heads q
  obtain ⟨source, predicates, orders, limit, cursor, returnShape, projection⟩ := q
  simp only at hne htakes hshape hreturn hcursor hlimit horder
  subst hshape
  have hsource : ∀ ts, parseSource ([word "FROM", word source.name, word "WHERE"]++ts) =
      some (source, ts) := by
    intro ts
    cases source <;> simp [parseSource, Source.name]
  have hpredicates := separated_tokens (p := parsePredicate) (s := word "AND")
    (g := Predicate.tokens) (r := orderTokens orders++(limitTokens limit++
      (cursorTokens cursor++(returnTokens (some shape)++projectionTokens projection)))) hne
    (fun p _ => by simp [Predicate.tokens, FlowField.tokens])
    (fun p hp r => parsePredicate_tokens (htakes p hp) _)
    (fun p hp => parsePredicate_tokens (htakes p hp) _)
    (by rcases hcursor with h | h <;> rcases hlimit with h' | h' <;> rcases horder with h'' | h'' <;>
      simp [h, h', h''])
  have horders := parseOrders_tokens orders (r := limitTokens limit++
      (cursorTokens cursor++(returnTokens (some shape)++projectionTokens projection)))
    (by rcases hcursor with h | h <;> rcases hlimit with h' | h' <;> simp [h, h', word])
    (by rcases hcursor with h | h <;> rcases hlimit with h' | h' <;> simp [h, h'])
  have hlimits := parseLimit_tokens limit (r :=
      cursorTokens cursor++(returnTokens (some shape)++projectionTokens projection))
    (by rcases hcursor with h | h <;> simp [h])
  have hcursors := parseCursor_tokens cursor
    (r := returnTokens (some shape)++projectionTokens projection) (by simp [hreturn])
  rw [parseQuery, Query.tokens, hsource]
  simp [hpredicates, horders, hlimits, hcursors, parseReturn_tokens, parseProjection_tokens]

/-! ### Tokens and placeholders counted -/

theorem intercalate_length {α : Type} (sep : α) (tss : List (List α)) :
    ([sep].intercalate tss).length = (tss.length-1)+(tss.map List.length).sum := by
  induction tss with
  | nil => rfl
  | cons ts tss ih =>
    cases tss with
    | nil => simp
    | cons us tss =>
      rw [List.intercalate_cons_cons, List.length_append, List.length_append, ih]
      simp only [List.length_cons, List.length_nil, List.map_cons, List.sum_cons]
      omega

theorem segmentTokens_length (segments : List Str) :
    (segmentTokens segments).length = 3*segments.length := by
  induction segments with
  | nil => rfl
  | cons s segments ih =>
    simp only [segmentTokens, List.flatMap_cons, List.length_append, List.length_cons,
      List.length_nil] at ih ⊢
    omega

theorem field_tokens_length (f : FlowField) : f.tokens.length = fieldTokenCount f := by
  rcases f with b | n | ⟨s, n⟩ <;> rfl

theorem selector_fields (n : Option Str) :
    (Projected.event n).selector = lit "fields" ↔ n = none := by
  cases n with
  | none => simp [Projected.selector, flowMetadataSelector, Projected.segments, Projected.name]
  | some s =>
    simp [Projected.selector, flowMetadataSelector, Projected.segments, Projected.name, lit]

theorem projected_tokens_length (p : Projected) :
    p.tokens.length = projectionFieldTokenCount p := by
  cases p with
  | field f => exact field_tokens_length f
  | runMap m => rfl
  | event n =>
    rw [projectionFieldTokenCount]
    cases n with
    | none => rw [if_pos ((selector_fields none).mpr rfl)]; rfl
    | some s => rw [if_neg fun h => by simpa using (selector_fields _).mp h]; rfl

theorem predicate_tokens_length {p : Predicate Str} (h : p.operator.Takes p.operands.length) :
    p.tokens.length = predicateTokenCount p := by
  obtain ⟨f, o, names⟩ := p
  have hf := field_tokens_length f
  simp only at h
  simp only [Predicate.tokens, predicateTokenCount, List.length_append, hf]
  cases o with
  | eq =>
    have hlen := h.1 1 rfl
    simp [Operator.tokens, hlen]
  | isIn =>
    have hlen := h.2 rfl
    simp only [Operator.tokens, commaSeparated, List.length_append, intercalate_length,
      List.length_map, List.map_map, List.length_cons, List.length_nil]
    have hones : (names.map (List.length ∘ fun n => [Token.parameter n])).sum = names.length := by
      simp [Function.comp_def]
    rw [hones]
    omega
  | between =>
    obtain ⟨a, b, rfl⟩ := List.length_eq_two.mp (h.1 2 rfl)
    simp [Operator.tokens, List.intercalate_cons_cons]
  | fromTo =>
    obtain ⟨a, b, rfl⟩ := List.length_eq_two.mp (h.1 2 rfl)
    simp [Operator.tokens, List.intercalate_cons_cons]
  | null => simp [Operator.tokens]
  | missing => simp [Operator.tokens]

/-- The sequence has as many tokens as the compiler counts. -/
theorem query_tokens_length {q : Query Str} {shape : ReturnShape}
    (htakes : ∀ p ∈ q.predicates, p.operator.Takes p.operands.length)
    (hshape : q.returnShape = some shape) : q.tokens.length = generatedTokenCount q := by
  have hpredicates : (q.predicates.map (List.length ∘ Predicate.tokens)) =
      q.predicates.map predicateTokenCount :=
    List.map_congr_left fun p hp => predicate_tokens_length (htakes p hp)
  have horders : (orderTokens q.orders).length = if q.orders = [] then 0
      else 2+(q.orders.length-1)+(q.orders.map fun o => fieldTokenCount o.field+1).sum := by
    by_cases h : q.orders = []
    · simp [orderTokens, h]
    · have hlengths : q.orders.map (List.length ∘ FlowOrder.tokens) =
          q.orders.map fun o => fieldTokenCount o.field+1 :=
        List.map_congr_left fun o _ => by simp [FlowOrder.tokens, field_tokens_length]
      simp only [orderTokens, if_neg h, commaSeparated, List.length_append,
        intercalate_length, List.length_map, List.map_map, hlengths, List.length_cons,
        List.length_nil]
      omega
  have hprojection : (projectionTokens q.projection).length = if q.projection = [] then 0
      else 2+(q.projection.length-1)+(q.projection.map projectionFieldTokenCount).sum := by
    by_cases h : q.projection = []
    · simp [projectionTokens, h]
    · have hlengths : q.projection.map (List.length ∘ Projected.tokens) =
          q.projection.map projectionFieldTokenCount :=
        List.map_congr_left fun p _ => projected_tokens_length p
      simp only [projectionTokens, if_neg h, commaSeparated, List.length_append,
        intercalate_length, List.length_map, List.map_map, hlengths, List.length_cons,
        List.length_nil]
      omega
  have hlimit : (limitTokens q.limit).length = if q.limit.isSome then 2 else 0 := by
    cases q.limit <;> rfl
  have hcursor : (cursorTokens q.cursor).length = if q.cursor.isSome then 2 else 0 := by
    cases q.cursor <;> rfl
  simp only [Query.tokens, generatedTokenCount, List.length_append, intercalate_length,
    List.length_map, List.map_map, hpredicates, horders, hprojection, hlimit, hcursor,
    returnTokens, hshape, Option.toList_some, List.length_cons, List.length_nil]
  omega

end FerricStore.FlowQueries
