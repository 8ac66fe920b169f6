import FerricStore.DecimalText

/-!
# Splitting a query text into tokens

Words, numbers, named parameters, punctuation and quoted segments with doubled
quotes, separated by ASCII blanks. The scanner is a finite automaton with the
text of the open token as its memory: every code point is one step, and the end of
the text closes what is open. Two texts that scan on their own scan as their
concatenation when a blank or a punctuation mark stands at the seam, whichever
side of it.
-/

set_option autoImplicit false

namespace FerricStore.TokenScanner
open FerricStore.Text FerricStore.DecimalText

inductive Mark where
  | openBracket
  | closeBracket
  | openParen
  | closeParen
  | comma
  | equals
  deriving DecidableEq, Repr

inductive Token where
  | word (s : Str)
  | number (s : Str)
  | parameter (name : Str)
  | mark (m : Mark)
  | quoted (s : Str)
  deriving DecidableEq, Repr

def isLetter (c : CodePoint) : Bool :=
  (65 ≤ c.val && c.val ≤ 90) || (97 ≤ c.val && c.val ≤ 122) || c.val == 95

def inWord (c : CodePoint) : Bool := isLetter c || isDigit c

def inName (c : CodePoint) : Bool := inWord c || c.val == 45 || c.val == 46

def isBlank (c : CodePoint) : Bool := c.val == 32 || c.val == 9 || c.val == 10 || c.val == 13

def isQuote (c : CodePoint) : Bool := c.val == 39

def markOf (c : CodePoint) : Option Mark :=
  match c.val with
  | 91 => some .openBracket
  | 93 => some .closeBracket
  | 40 => some .openParen
  | 41 => some .closeParen
  | 44 => some .comma
  | 61 => some .equals
  | _ => none

/-- The open token and its text so far; `closing` has just read a quote that ends the
segment unless a second one follows. -/
inductive Mode where
  | between
  | word (s : Str)
  | number (s : Str)
  | parameter (name : Str)
  | quoted (s : Str)
  | closing (s : Str)
  deriving DecidableEq

def close : Mode → Option (List Token)
  | .between => some []
  | .word s => some [.word s]
  | .number s => some [.number s]
  | .parameter [] => none
  | .parameter (c::s) => some [.parameter (c::s)]
  | .quoted _ => none
  | .closing s => some [.quoted s]

/-- What a code point starts when no token is open. -/
def start (c : CodePoint) : Option (List Token × Mode) :=
  if isBlank c then some ([], .between)
  else if isLetter c then some ([], .word [c])
  else if isDigit c then some ([], .number [c])
  else if c.val == 64 then some ([], .parameter [])
  else if isQuote c then some ([], .quoted [])
  else (markOf c).map fun m => ([.mark m], .between)

def restart (m : Mode) (c : CodePoint) : Option (List Token × Mode) := do
  let done ← close m
  let (ts, m') ← start c
  some (done++ts, m')

def step : Mode → CodePoint → Option (List Token × Mode)
  | .between, c => start c
  | .word s, c => if inWord c then some ([], .word (s++[c])) else restart (.word s) c
  | .number s, c => if isDigit c then some ([], .number (s++[c])) else restart (.number s) c
  | .parameter s, c =>
    if inName c then some ([], .parameter (s++[c])) else restart (.parameter s) c
  | .quoted s, c => if isQuote c then some ([], .closing s) else some ([], .quoted (s++[c]))
  | .closing s, c => if isQuote c then some ([], .quoted (s++[c])) else restart (.closing s) c

/-- The tokens completed while a text is read, and the mode it leaves. -/
def run : Mode → Str → Option (List Token × Mode)
  | m, [] => some ([], m)
  | m, c::cs => do
    let (ts, m') ← step m c
    let (us, m'') ← run m' cs
    some (ts++us, m'')

def scan (m : Mode) (text : Str) : Option (List Token) := do
  let (ts, m') ← run m text
  let us ← close m'
  some (ts++us)

def tokenize (text : Str) : Option (List Token) := scan .between text

theorem run_append (m : Mode) (a b : Str) :
    run m (a++b) = (do
      let (ts, m') ← run m a
      let (us, m'') ← run m' b
      some (ts++us, m'')) := by
  induction a generalizing m with
  | nil => cases h : run m b <;> simp [run, h]
  | cons c a ih => simp [run, ih, Option.bind_assoc]

/-- A blank or a punctuation mark: it belongs to no other token outside quotes. -/
def isBreak (c : CodePoint) : Bool := isBlank c || (markOf c).isSome

theorem isBreak_cases {c : CodePoint} (h : isBreak c = true) :
    c.val = 32 ∨ c.val = 9 ∨ c.val = 10 ∨ c.val = 13 ∨ c.val = 91 ∨ c.val = 93 ∨
      c.val = 40 ∨ c.val = 41 ∨ c.val = 44 ∨ c.val = 61 := by
  rw [isBreak, Bool.or_eq_true] at h
  rcases h with h | h
  · simp only [isBlank, Bool.or_eq_true, beq_iff_eq] at h
    omega
  · unfold markOf at h
    split at h <;> simp_all

theorem isBreak_outside {c : CodePoint} (h : isBreak c = true) :
    inWord c = false ∧ isDigit c = false ∧ inName c = false ∧ isQuote c = false := by
  rcases isBreak_cases h with h | h | h | h | h | h | h | h | h | h <;>
    simp [inName, inWord, isLetter, isDigit, isQuote, h]

theorem step_break {m : Mode} {c : CodePoint} {done : List Token} (hc : isBreak c = true)
    (hm : close m = some done) : step m c = restart m c := by
  obtain ⟨hw, hd, hn, hq⟩ := isBreak_outside hc
  cases m with
  | between =>
    simp only [step, restart, close, Option.bind_eq_bind, Option.bind_some]
    cases h : start c <;> simp
  | word s => simp [step, hw]
  | number s => simp [step, hd]
  | parameter s => simp [step, hn]
  | quoted s => simp [close] at hm
  | closing s => simp [step, hq]

theorem start_break {c : CodePoint} (hc : isBreak c = true) :
    ∃ ts, start c = some (ts, .between) := by
  rw [isBreak, Bool.or_eq_true] at hc
  by_cases hb : isBlank c = true
  · exact ⟨[], by rw [start, if_pos hb]⟩
  · have hbreak : isBreak c = true := by simpa [isBreak] using hc
    obtain ⟨hw, hd, -, hq⟩ := isBreak_outside hbreak
    have hl : isLetter c = false := by
      rw [inWord, Bool.or_eq_false_iff] at hw
      exact hw.1
    have ha : (c.val == 64) = false := by
      rcases isBreak_cases hbreak with h | h | h | h | h | h | h | h | h | h <;> simp [h]
    obtain ⟨m, hm⟩ := Option.isSome_iff_exists.mp (hc.resolve_left hb)
    exact ⟨[.mark m], by simp [start, hb, hl, hd, ha, hq, hm]⟩

/-- The text splits into the tokens. -/
def Reads (text : Str) (ts : List Token) : Prop := tokenize text = some ts

theorem reads_iff {text : Str} {ts : List Token} :
    Reads text ts ↔ ∃ us m vs, run .between text = some (us, m) ∧ close m = some vs ∧
      ts = us++vs := by
  constructor
  · intro h
    rw [Reads, tokenize, scan, Option.bind_eq_bind, Option.bind_eq_some_iff] at h
    obtain ⟨⟨us, m⟩, hrun, h⟩ := h
    simp only [Option.bind_eq_bind, Option.bind_eq_some_iff] at h
    obtain ⟨vs, hclose, h⟩ := h
    cases h
    exact ⟨us, m, vs, hrun, hclose, rfl⟩
  · rintro ⟨us, m, vs, hrun, hclose, rfl⟩
    simp [Reads, tokenize, scan, hrun, hclose]

theorem reads_nil : Reads [] [] := rfl

/-- Reading goes on at a break as if the text began there. -/
theorem reads_append_break {a b : Str} {c : CodePoint} {ts us : List Token} (ha : Reads a ts)
    (hb : Reads (c::b) us) (hc : isBreak c = true) : Reads (a++c::b) (ts++us) := by
  obtain ⟨ts₁, m₁, vs₁, hrun₁, hclose₁, rfl⟩ := reads_iff.mp ha
  obtain ⟨ts₂, m₂, vs₂, hrun₂, hclose₂, rfl⟩ := reads_iff.mp hb
  rw [run, step] at hrun₂
  obtain ⟨ws, hstart⟩ := start_break hc
  rw [hstart] at hrun₂
  have hstep : step m₁ c = some (vs₁++ws, .between) := by
    rw [step_break hc hclose₁, restart, hclose₁, hstart]
    rfl
  refine reads_iff.mpr ⟨ts₁++(vs₁++ts₂), m₂, vs₂, ?_, hclose₂, by simp⟩
  rw [run_append, hrun₁]
  simp only [Option.bind_eq_bind, Option.bind_some, run, hstep] at hrun₂ ⊢
  obtain ⟨⟨xs, m⟩, hrest, h⟩ := Option.bind_eq_some_iff.mp hrun₂
  cases h
  simp [hrest]

theorem run_break_last {a : Str} {c : CodePoint} {us vs : List Token} {m : Mode}
    (hrun : run .between (a++[c]) = some (us, m)) (hclose : close m = some vs)
    (hc : isBreak c = true) : m = .between := by
  rw [run_append] at hrun
  obtain ⟨⟨ts, m₁⟩, -, hrun⟩ := Option.bind_eq_some_iff.mp hrun
  obtain ⟨⟨ws, m₂⟩, hlast, hrun⟩ := Option.bind_eq_some_iff.mp hrun
  cases hrun
  simp only [run, Option.bind_eq_bind] at hlast
  obtain ⟨⟨xs, m₃⟩, hstep, hlast⟩ := Option.bind_eq_some_iff.mp hlast
  cases hlast
  cases hclosed : close m₁ with
  | some done =>
    obtain ⟨ys, hstart⟩ := start_break hc
    rw [step_break hc hclosed, restart, hclosed, hstart] at hstep
    cases hstep
    rfl
  | none =>
    obtain ⟨-, -, hn, hq⟩ := isBreak_outside hc
    cases m₁ with
    | between => cases hclosed
    | word s => cases hclosed
    | number s => cases hclosed
    | closing s => cases hclosed
    | quoted s =>
      simp only [step, hq, Bool.false_eq_true, if_false, Option.some.injEq, Prod.mk.injEq] at hstep
      rw [← hstep.2] at hclose
      cases hclose
    | parameter s =>
      simp [step, hn, restart, hclosed] at hstep

theorem reads_break_append {a b : Str} {c : CodePoint} {ts us : List Token}
    (ha : Reads (a++[c]) ts) (hb : Reads b us) (hc : isBreak c = true) :
    Reads (a++[c]++b) (ts++us) := by
  obtain ⟨ts₁, m₁, vs₁, hrun₁, hclose₁, rfl⟩ := reads_iff.mp ha
  obtain ⟨ts₂, m₂, vs₂, hrun₂, hclose₂, rfl⟩ := reads_iff.mp hb
  have hm := run_break_last hrun₁ hclose₁ hc
  subst hm
  cases hclose₁
  refine reads_iff.mpr ⟨ts₁++ts₂, m₂, vs₂, ?_, hclose₂, by simp⟩
  rw [run_append, hrun₁]
  simp [hrun₂]

/-- A text that is empty or begins with a break reads on its own. -/
theorem reads_then {a b : Str} {t u : List Token} (ha : Reads a t) (hb : Reads b u)
    (h : b.head?.all isBreak = true) : Reads (a++b) (t++u) := by
  cases b with
  | nil =>
    cases hb
    simpa using ha
  | cons c b => exact reads_append_break ha hb (by simpa using h)

theorem reads_after {a b : Str} {t u : List Token} (ha : Reads a t) (hb : Reads b u)
    (h : a.getLast?.all isBreak = true) : Reads (a++b) (t++u) := by
  rcases List.eq_nil_or_concat a with rfl | ⟨a, c, rfl⟩
  · cases ha
    simpa using hb
  · rw [List.concat_eq_append] at ha h ⊢
    exact reads_break_append ha hb (by simpa using h)

theorem reads_around {a s b : Str} {t u v : List Token} (ha : Reads a t)
    (hsep : Reads s u) (hb : Reads b v) (hfirst : s.head?.any isBreak = true)
    (hlast : s.getLast?.any isBreak = true) : Reads (a++s++b) (t++u++v) := by
  have hback : Reads (s++b) (u++v) := by
    refine reads_after hsep hb ?_
    cases h : s.getLast? with
    | none => rfl
    | some c => simpa [h] using hlast
  rw [List.append_assoc, List.append_assoc]
  refine reads_then ha hback ?_
  cases s with
  | nil => simp at hfirst
  | cons c s => simpa using hfirst

theorem run_word (s w : Str) (h : w.all inWord = true) :
    run (.word s) w = some ([], .word (s++w)) := by
  induction w generalizing s with
  | nil => simp [run]
  | cons c w ih =>
    rw [List.all_cons, Bool.and_eq_true] at h
    simp [run, step, h.1, ih _ h.2]

theorem reads_word {c : CodePoint} {w : Str} (hc : isLetter c = true) (hw : w.all inWord = true) :
    Reads (c::w) [.word (c::w)] := by
  have hb : isBlank c = false := by
    simp only [isLetter, Bool.or_eq_true, Bool.and_eq_true, decide_eq_true_eq, beq_iff_eq] at hc
    simp only [isBlank, Bool.or_eq_false_iff, beq_eq_false_iff_ne]
    omega
  refine reads_iff.mpr ⟨[], .word (c::w), _, ?_, rfl, rfl⟩
  rw [run, step, start, if_neg (by simp [hb]), if_pos hc]
  simp [run_word _ _ hw]

theorem run_number (s w : Str) (h : w.all isDigit = true) :
    run (.number s) w = some ([], .number (s++w)) := by
  induction w generalizing s with
  | nil => simp [run]
  | cons c w ih =>
    rw [List.all_cons, Bool.and_eq_true] at h
    simp [run, step, h.1, ih _ h.2]

theorem reads_number {w : Str} (hne : w ≠ []) (hw : w.all isDigit = true) :
    Reads w [.number w] := by
  obtain ⟨c, w, rfl⟩ := List.exists_cons_of_ne_nil hne
  rw [List.all_cons, Bool.and_eq_true] at hw
  have hdigit := hw.1
  simp only [isDigit, Bool.and_eq_true, decide_eq_true_eq] at hdigit
  have hb : isBlank c = false := by
    simp only [isBlank, Bool.or_eq_false_iff, beq_eq_false_iff_ne]
    omega
  have hl : isLetter c = false := by
    simp only [isLetter, Bool.or_eq_false_iff, Bool.and_eq_false_iff, decide_eq_false_iff_not,
      beq_eq_false_iff_ne]
    omega
  refine reads_iff.mpr ⟨[], .number (c::w), _, ?_, rfl, rfl⟩
  rw [run, step, start, if_neg (by simp [hb]), if_neg (by simp [hl]), if_pos hw.1]
  simp [run_number _ _ hw.2]

theorem run_parameter (s w : Str) (h : w.all inName = true) :
    run (.parameter s) w = some ([], .parameter (s++w)) := by
  induction w generalizing s with
  | nil => simp [run]
  | cons c w ih =>
    rw [List.all_cons, Bool.and_eq_true] at h
    simp [run, step, h.1, ih _ h.2]

theorem reads_parameter {name : Str} (hne : name ≠ []) (hw : name.all inName = true) :
    Reads (64::name) [.parameter name] := by
  refine reads_iff.mpr ⟨[], .parameter name, [.parameter name], ?_, ?_, rfl⟩
  · have hstart : start 64 = some ([], .parameter []) := by decide
    rw [run, step, hstart]
    simp [run_parameter _ _ hw]
  · obtain ⟨c, w, rfl⟩ := List.exists_cons_of_ne_nil hne
    rfl

/-- A segment with every quote written twice. -/
def doubled (s : Str) : Str := s.flatMap fun c => if isQuote c then [c, c] else [c]

def quote (s : Str) : Str := lit "'"++doubled s++lit "'"

theorem run_doubled (s w : Str) : run (.quoted s) (doubled w) = some ([], .quoted (s++w)) := by
  induction w generalizing s with
  | nil => simp [run, doubled]
  | cons c w ih =>
    simp only [doubled, List.flatMap_cons] at ih ⊢
    by_cases hc : isQuote c = true
    · simp [hc, run, step, ih]
    · simp [hc, run, step, ih]

theorem reads_quote (s : Str) : Reads (quote s) [.quoted s] := by
  have hopen : run .between (lit "'") = some ([], .quoted []) := rfl
  have hclose : run (.quoted s) (lit "'") = some ([], .closing s) := rfl
  refine reads_iff.mpr ⟨[], .closing s, _, ?_, rfl, rfl⟩
  rw [quote, run_append, run_append, hopen]
  simp [run_doubled, hclose]

/-- Texts joined by a separator that begins and ends with a break. -/
theorem reads_intercalate {s : Str} {u : List Token} (hsep : Reads s u)
    (hfirst : s.head?.any isBreak = true) (hlast : s.getLast?.any isBreak = true)
    {texts : List Str} {tss : List (List Token)} (h : List.Forall₂ Reads texts tss) :
    Reads (s.intercalate texts) (u.intercalate tss) := by
  induction h with
  | nil => exact reads_nil
  | cons hhead htail ih =>
    cases htail with
    | nil => simpa using hhead
    | cons hnext hrest =>
      rw [List.intercalate_cons_cons, List.intercalate_cons_cons]
      exact reads_around hhead hsep ih hfirst hlast

end FerricStore.TokenScanner
