import FerricStore.Text

/-!
# Decimal numerals in text, and length-prefixed framing

The decimal text of a number is made of digits, so a mark that is no digit ends it. A
sequence of byte strings, each after its length in decimal and a colon, can be taken
apart in one way only, whatever the byte strings contain.
-/

set_option autoImplicit false

namespace FerricStore.DecimalText
open FerricStore.Text

def isDigit (c : CodePoint) : Bool := 48 ≤ c.val && c.val ≤ 57

/-- The number a run of decimal digits writes. -/
def numeral (s : Str) : ℕ := s.foldl (fun n c => 10*n+(c.val-48)) 0

theorem lit_toString (n : ℕ) :
    lit (toString n) = (Nat.toDigits 10 n).map fun c => ⟨c.toNat, char_toNat_lt c⟩ := by
  rw [lit, Nat.toString_eq_repr, Nat.toList_repr]

theorem numeral_toString (n : ℕ) : numeral (lit (toString n)) = n := by
  rw [numeral, lit_toString, List.foldl_map]
  exact Nat.ofDigitChars_ten_toDigits

theorem toString_inj {m n : ℕ} (h : lit (toString m) = lit (toString n)) : m = n := by
  rw [← numeral_toString m, ← numeral_toString n, h]

theorem toString_digits (n : ℕ) : lit (toString n) ≠ [] ∧ (lit (toString n)).all isDigit = true := by
  rw [lit_toString]
  refine ⟨by simp [Nat.toDigits_ne_nil], ?_⟩
  rw [List.all_map, List.all_eq_true]
  intro c hc
  have hdigit := Nat.isDigit_of_mem_toDigits (by decide) (by decide) hc
  simpa [isDigit, Char.isDigit, UInt32.le_iff_toNat_le] using hdigit

theorem int_toString (n : ℤ) :
    lit (toString n) = if n < 0 then 45::lit (toString n.natAbs) else lit (toString n.natAbs) := by
  cases n with
  | ofNat k => rw [if_neg (by simp)]; rfl
  | negSucc k => rw [if_pos (Int.negSucc_lt_zero k)]; simp [lit, Int.repr]

theorem int_toString_inj {m n : ℤ} (h : lit (toString m) = lit (toString n)) : m = n := by
  have hhead : ∀ (k : ℕ) (s : Str), lit (toString k) ≠ 45::s := by
    intro k s hs
    have hdigits := (toString_digits k).2
    rw [hs, List.all_cons, Bool.and_eq_true] at hdigits
    exact absurd hdigits.1 (by decide)
  rw [int_toString, int_toString] at h
  split_ifs at h with hm hn hn
  · have habs := toString_inj (List.cons.inj h).2
    omega
  · exact absurd h.symm (hhead _ _)
  · exact absurd h (hhead _ _)
  · have habs := toString_inj h
    omega

/-- What stands before the first separator and what stands after it are determined. -/
theorem separated_inj {α : Type} {sep : α} {xs ys rest rest' : List α} (hx : sep ∉ xs)
    (hy : sep ∉ ys) (h : xs++sep::rest = ys++sep::rest') : xs = ys ∧ rest = rest' := by
  induction xs generalizing ys with
  | nil =>
    cases ys with
    | nil => exact ⟨rfl, (List.cons.inj h).2⟩
    | cons y ys =>
      obtain ⟨rfl, -⟩ := List.cons.inj h
      exact absurd List.mem_cons_self hy
  | cons x xs ih =>
    cases ys with
    | nil =>
      obtain ⟨rfl, -⟩ := List.cons.inj h
      exact absurd List.mem_cons_self hx
    | cons y ys =>
      obtain ⟨rfl, htail⟩ := List.cons.inj h
      obtain ⟨rfl, hrest⟩ := ih (fun hm => hx (List.mem_cons_of_mem _ hm))
        (fun hm => hy (List.mem_cons_of_mem _ hm)) htail
      exact ⟨rfl, hrest⟩

/-- The ASCII bytes of the decimal text. -/
def decimalBytes (n : ℕ) : Bytes := utf8 (lit (toString n))

theorem decimalBytes_points (n : ℕ) : (decimalBytes n).map bytePoint = lit (toString n) := by
  refine (utf8_ascii _ ?_).2
  have hdigits := (toString_digits n).2
  rw [List.all_eq_true] at hdigits
  rw [isAscii, List.all_eq_true]
  intro c hc
  have hdigit := hdigits c hc
  simp only [isDigit, Bool.and_eq_true, decide_eq_true_eq] at hdigit ⊢
  omega

theorem decimalBytes_inj {m n : ℕ} (h : decimalBytes m = decimalBytes n) : m = n := by
  refine toString_inj ?_
  rw [← decimalBytes_points m, ← decimalBytes_points n, h]

theorem colon_not_decimal (n : ℕ) : (58 : UInt8) ∉ decimalBytes n := by
  intro h
  have hpoint : bytePoint 58 ∈ lit (toString n) := by
    rw [← decimalBytes_points n]
    exact List.mem_map_of_mem h
  have hdigits := (toString_digits n).2
  rw [List.all_eq_true] at hdigits
  exact absurd (hdigits _ hpoint) (by decide)

/-- A byte string after its length. -/
def frame (component : Bytes) : Bytes := decimalBytes component.length++58::component

theorem frame_append_inj {a b x y : Bytes} (h : frame a++x = frame b++y) : a = b ∧ x = y := by
  simp only [frame, List.append_assoc, List.cons_append] at h
  obtain ⟨hlength, hrest⟩ := separated_inj (colon_not_decimal _) (colon_not_decimal _) h
  exact List.append_inj hrest (decimalBytes_inj hlength)

/-- Framed sequences of any lengths agree exactly when their components do. -/
theorem frames_inj {as bs : List Bytes} (h : as.flatMap frame = bs.flatMap frame) : as = bs := by
  induction as generalizing bs with
  | nil =>
    cases bs with
    | nil => rfl
    | cons b bs => simp [frame] at h
  | cons a as ih =>
    cases bs with
    | nil => simp [frame] at h
    | cons b bs =>
      rw [List.flatMap_cons, List.flatMap_cons] at h
      obtain ⟨rfl, hrest⟩ := frame_append_inj h
      rw [ih hrest]

end FerricStore.DecimalText
