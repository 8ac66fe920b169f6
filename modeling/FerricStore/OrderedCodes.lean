import Mathlib.Data.List.Lex
import Mathlib.Tactic

/-!
# Codes that keep the order

Two words are in the strict relation `Below` when they differ at some place and the first
is smaller there, so what follows that place does not matter. A code of symbols whose
words are ordered so, with a stop word below every symbol, gives a code of sequences that
keeps the lexicographic order. The sequences can be the symbols of another code.
-/

set_option autoImplicit false

namespace FerricStore.OrderedCodes

variable {α β : Type} [LinearOrder α] [LinearOrder β]

/-- The words differ, and the first is smaller where they do. -/
def Below (u v : List β) : Prop :=
  ∃ p x y s t, u = p++x::s ∧ v = p++y::t ∧ x < y

theorem Below.append {u v : List β} (h : Below u v) (s t : List β) : Below (u++s) (v++t) := by
  obtain ⟨p, x, y, u', v', rfl, rfl, hxy⟩ := h
  exact ⟨p, x, y, u'++s, v'++t, by simp, by simp, hxy⟩

theorem Below.prepend {u v : List β} (h : Below u v) (q : List β) : Below (q++u) (q++v) := by
  obtain ⟨p, x, y, u', v', rfl, rfl, hxy⟩ := h
  exact ⟨q++p, x, y, u', v', by simp, by simp, hxy⟩

theorem Below.lt {u v : List β} (h : Below u v) : u < v := by
  obtain ⟨p, x, y, s, t, rfl, rfl, hxy⟩ := h
  induction p with
  | nil => exact List.Lex.rel hxy
  | cons z p ih => exact List.Lex.cons ih

theorem Below.of_head {x y : β} {s t : List β} (h : x < y) : Below (x::s) (y::t) :=
  ⟨[], x, y, s, t, rfl, rfl, h⟩

theorem Below.cons {x : β} {s t : List β} (h : Below s t) : Below (x::s) (x::t) :=
  h.prepend [x]

/-- A code of symbols with a stop word that starts no symbol and is below all of them. -/
structure OrderedCode (P : α → Prop) (code : α → List β) (stop : List β) : Prop where
  symbol : ∀ a b, P a → P b → a < b → Below (code a) (code b)
  stop : ∀ a, P a → Below stop (code a)

/-- The code of a sequence. -/
def sequence (code : α → List β) (stop : List β) (as : List α) : List β :=
  as.flatMap code++stop

section Sequences

variable {P : α → Prop} {code : α → List β} {stop : List β}

theorem sequence_below (h : OrderedCode P code stop) {as bs : List α} (ha : ∀ a ∈ as, P a)
    (hb : ∀ b ∈ bs, P b) (hlt : as < bs) :
    Below (sequence code stop as) (sequence code stop bs) := by
  induction hlt with
  | @nil b bs =>
    have hstop := (h.stop b (hb b List.mem_cons_self)).append [] (bs.flatMap code++stop)
    simpa [sequence] using hstop
  | @rel a as b bs hab =>
    have hsymbol := h.symbol a b (ha a List.mem_cons_self) (hb b List.mem_cons_self) hab
    have happend := hsymbol.append (as.flatMap code++stop) (bs.flatMap code++stop)
    simpa [sequence] using happend
  | @cons a as bs _ ih =>
    have hrest := ih (fun x hx => ha x (List.mem_cons_of_mem _ hx))
      (fun x hx => hb x (List.mem_cons_of_mem _ hx))
    have hprepend := hrest.prepend (code a)
    simpa [sequence] using hprepend

/-- Nonempty sequences are symbols of another code with the same stop word. -/
theorem sequence_code (h : OrderedCode P code stop) :
    OrderedCode (fun as => as ≠ [] ∧ ∀ a ∈ as, P a) (sequence code stop) stop where
  symbol _ _ ha hb hlt := sequence_below h ha.2 hb.2 hlt
  stop as ha := by
    cases as with
    | nil => exact absurd rfl ha.1
    | cons a as =>
      have hstop := (h.stop a (ha.2 a List.mem_cons_self)).append [] (as.flatMap code++stop)
      simpa [sequence] using hstop

/-- A sequence with its stop word is no initial part of another one. -/
theorem sequence_append_inj (h : OrderedCode P code stop) {as bs : List α}
    (ha : ∀ a ∈ as, P a) (hb : ∀ b ∈ bs, P b) {s t : List β}
    (heq : sequence code stop as++s = sequence code stop bs++t) : as = bs := by
  rcases lt_trichotomy as bs with hlt | rfl | hlt
  · exact absurd heq (ne_of_lt ((sequence_below h ha hb hlt).append s t).lt)
  · rfl
  · exact absurd heq (ne_of_gt ((sequence_below h hb ha hlt).append t s).lt)

/-- Sequences are ordered before what follows them. -/
theorem sequence_append_lt (h : OrderedCode P code stop) {as bs : List α}
    (ha : ∀ a ∈ as, P a) (hb : ∀ b ∈ bs, P b) {s t : List β} :
    sequence code stop as++s < sequence code stop bs++t ↔ as < bs ∨ as = bs ∧ s < t := by
  have hforward : ∀ {xs ys : List α} {u v : List β}, (∀ a ∈ xs, P a) → (∀ b ∈ ys, P b) →
      xs < ys ∨ xs = ys ∧ u < v →
      sequence code stop xs++u < sequence code stop ys++v := by
    rintro xs ys u v hx hy (hlt | ⟨rfl, huv⟩)
    · exact ((sequence_below h hx hy hlt).append u v).lt
    · exact List.append_left_lt huv
  constructor
  · intro hlt
    rcases lt_trichotomy as bs with hab | rfl | hab
    · exact .inl hab
    · rcases lt_trichotomy s t with hst | rfl | hst
      · exact .inr ⟨rfl, hst⟩
      · exact absurd hlt (lt_irrefl _)
      · exact absurd hlt (lt_asymm (hforward hb ha (.inr ⟨rfl, hst⟩)))
    · exact absurd hlt (lt_asymm (hforward hb ha (.inl hab)))
  · exact hforward ha hb

end Sequences

end FerricStore.OrderedCodes
