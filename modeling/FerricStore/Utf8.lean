import FerricStore.Text

/-!
# UTF-8 is a bijection between text and well-formed bytes

The strict decoder takes back every code point that is no surrogate from the bytes that
encode it, whatever follows. A unit that it accepts is the encoding of its code point, so
decoded text encodes to the bytes it was read from.
-/

set_option autoImplicit false

namespace FerricStore.Text

theorem point_val (c : CodePoint) : point c.val = c := by
  apply Fin.ext
  exact Nat.mod_eq_of_lt c.isLt

theorem toNat_ofNat {n : ℕ} (h : n < 256) : (UInt8.ofNat n).toNat = n := by
  rw [UInt8.toNat_ofNat']
  exact Nat.mod_eq_of_lt h

theorem isContinuation_ofNat {n : ℕ} (h : n < 64) :
    isContinuation (UInt8.ofNat (0x80+n)) = true := by
  rw [isContinuation, toNat_ofNat (by omega)]
  simp
  omega

/-- The first unit of an encoded code point is the code point. -/
theorem utf8Unit_utf8Point (c : CodePoint) (h : isSurrogate c = false) (rest : Bytes) :
    ∃ b t, utf8Point c = b::t ∧ utf8Unit b (t++rest) = (some c, t.length+1) := by
  have hc := c.isLt
  simp only [isSurrogate, Bool.and_eq_false_iff, decide_eq_false_iff_not] at h
  unfold utf8Point
  split_ifs with h1 h2 h3
  · refine ⟨_, [], rfl, ?_⟩
    simp only [utf8Unit]
    rw [toNat_ofNat (by omega), if_pos (by omega), point_val]
    rfl
  · refine ⟨_, [_], rfl, ?_⟩
    have hlead : 0xC0+c.val/64 < 256 := by omega
    simp only [utf8Unit, toNat_ofNat hlead, List.cons_append]
    rw [if_neg (by omega), if_pos (by simp; omega), if_pos (isContinuation_ofNat (by omega)),
      toNat_ofNat (by omega)]
    have hval : (0xC0+c.val/64-0xC0)*64+(0x80+c.val%64-0x80) = c.val := by omega
    rw [hval, point_val]
    rfl
  · refine ⟨_, [_, _], rfl, ?_⟩
    have hlead : 0xE0+c.val/4096 < 256 := by omega
    have hsecond : 0x80+c.val/64%64 < 256 := by omega
    simp only [utf8Unit, toNat_ofNat hlead, toNat_ofNat hsecond, List.cons_append]
    rw [if_neg (by omega), if_neg (by simp; omega), if_pos (by simp; omega), if_neg ?_,
      if_neg (by rw [isContinuation_ofNat (by omega)]; decide), toNat_ofNat (by omega)]
    · have hval : (0xE0+c.val/4096-0xE0)*4096+(0x80+c.val/64%64-0x80)*64+
          (0x80+c.val%64-0x80) = c.val := by omega
      rw [hval, point_val]
      rfl
    · simp only [Bool.not_eq_true', Bool.and_eq_false_iff, decide_eq_false_iff_not, not_or, not_not]
      constructor
      · split_ifs <;> omega
      · split_ifs <;> omega
  · refine ⟨_, [_, _, _], rfl, ?_⟩
    have hlead : 0xF0+c.val/262144 < 256 := by omega
    have hsecond : 0x80+c.val/4096%64 < 256 := by omega
    have hthird : 0x80+c.val/64%64 < 256 := by omega
    simp only [utf8Unit, toNat_ofNat hlead, toNat_ofNat hsecond, toNat_ofNat hthird,
      List.cons_append]
    rw [if_neg (by omega), if_neg (by simp; omega), if_neg (by simp; omega),
      if_pos (by simp; omega), if_neg ?_,
      if_neg (by rw [isContinuation_ofNat (by omega)]; decide),
      if_neg (by rw [isContinuation_ofNat (by omega)]; decide), toNat_ofNat (by omega)]
    · have hval : (0xF0+c.val/262144-0xF0)*262144+(0x80+c.val/4096%64-0x80)*4096+
          (0x80+c.val/64%64-0x80)*64+(0x80+c.val%64-0x80) = c.val := by omega
      rw [hval, point_val]
      rfl
    · simp only [Bool.not_eq_true', Bool.and_eq_false_iff, decide_eq_false_iff_not, not_or, not_not]
      constructor
      · split_ifs <;> omega
      · split_ifs <;> omega

theorem utf8Units_utf8 (s : Str) (h : encodable s = true) (fuel : ℕ)
    (hf : (utf8 s).length ≤ fuel) : utf8Units fuel (utf8 s) = s.map some := by
  induction s generalizing fuel with
  | nil => cases fuel <;> rfl
  | cons c s ih =>
    simp only [encodable, List.all_cons, Bool.and_eq_true, Bool.not_eq_true'] at h
    obtain ⟨b, t, hpoint, hunit⟩ := utf8Unit_utf8Point c h.1 (utf8 s)
    have hutf8 : utf8 (c::s) = b::(t++utf8 s) := by
      rw [utf8, List.flatMap_cons, hpoint]
      rfl
    rw [hutf8] at hf ⊢
    cases fuel with
    | zero => simp at hf
    | succ fuel =>
      simp only [List.length_cons, List.length_append] at hf
      simp only [utf8Units, hunit, Nat.add_sub_cancel, List.drop_left, List.map_cons]
      rw [ih (by simpa [encodable] using h.2) fuel (by omega)]

/-- Decoding takes back the text that was encoded. -/
theorem decode_utf8 {s : Str} (h : encodable s = true) : decode (utf8 s) = some s := by
  rw [decode, utf8Units_utf8 s h _ le_rfl]
  induction s with
  | nil => rfl
  | cons c s ih =>
    have htail := ih (by
      simp only [encodable, List.all_cons, Bool.and_eq_true] at h
      exact h.2)
    rw [List.map_cons, List.mapM_cons, htail]
    rfl


theorem ofNat_eq {n : ℕ} {b : UInt8} (h : n = b.toNat) : UInt8.ofNat n = b := by
  rw [h, UInt8.ofNat_toNat]

theorem continuation_bounds {b : UInt8} (h : isContinuation b = true) :
    0x80 ≤ b.toNat ∧ b.toNat ≤ 0xBF := by
  simpa [isContinuation] using h

theorem point_of_lt {n : ℕ} (h : n < 0x110000) : (point n).val = n := Nat.mod_eq_of_lt h

theorem not_surrogate {c : CodePoint} (h : c.val < 0xD800 ∨ 0xDFFF < c.val) :
    isSurrogate c = false := by
  simp only [isSurrogate, Bool.and_eq_false_iff, decide_eq_false_iff_not]
  omega

theorem unit_inj {n m : ℕ} {k : ℕ} {c : CodePoint} (h : (some (point n), m) = (some c, k))
    (hn : n < 0x110000) : c.val = n ∧ m = k := by
  obtain ⟨hc, hk⟩ := Prod.mk.inj h
  rw [← Option.some.inj hc]
  exact ⟨point_of_lt hn, hk⟩

theorem utf8Point_two {c : CodePoint} {b x : UInt8} (hb : 0xC2 ≤ b.toNat ∧ b.toNat ≤ 0xDF)
    (hx : 0x80 ≤ x.toNat ∧ x.toNat ≤ 0xBF)
    (hc : c.val = (b.toNat-0xC0)*64+(x.toNat-0x80)) : utf8Point c = [b, x] := by
  rw [utf8Point, if_neg (by omega), if_pos (by omega), ofNat_eq (b := b) (by omega),
    ofNat_eq (b := x) (by omega)]

theorem utf8Point_three {c : CodePoint} {b x y : UInt8} (hb : 0xE0 ≤ b.toNat ∧ b.toNat ≤ 0xEF)
    (hx : 0x80 ≤ x.toNat ∧ x.toNat ≤ 0xBF) (hlow : b.toNat = 0xE0 → 0xA0 ≤ x.toNat)
    (hy : 0x80 ≤ y.toNat ∧ y.toNat ≤ 0xBF)
    (hc : c.val = (b.toNat-0xE0)*4096+(x.toNat-0x80)*64+(y.toNat-0x80)) :
    utf8Point c = [b, x, y] := by
  rw [utf8Point, if_neg (by omega), if_neg (by omega), if_pos (by omega),
    ofNat_eq (b := b) (by omega), ofNat_eq (b := x) (by omega), ofNat_eq (b := y) (by omega)]

theorem utf8Point_four {c : CodePoint} {b x y z : UInt8}
    (hb : 0xF0 ≤ b.toNat ∧ b.toNat ≤ 0xF4) (hx : 0x80 ≤ x.toNat ∧ x.toNat ≤ 0xBF)
    (hlow : b.toNat = 0xF0 → 0x90 ≤ x.toNat)
    (hy : 0x80 ≤ y.toNat ∧ y.toNat ≤ 0xBF) (hz : 0x80 ≤ z.toNat ∧ z.toNat ≤ 0xBF)
    (hc : c.val = (b.toNat-0xF0)*262144+(x.toNat-0x80)*4096+(y.toNat-0x80)*64+(z.toNat-0x80)) :
    utf8Point c = [b, x, y, z] := by
  rw [utf8Point, if_neg (by omega), if_neg (by omega), if_neg (by omega),
    ofNat_eq (b := b) (by omega), ofNat_eq (b := x) (by omega), ofNat_eq (b := y) (by omega),
    ofNat_eq (b := z) (by omega)]

/-- The bounds of a second byte, from the test that the decoder makes. -/
theorem second_bounds {lead : ℕ} {x : UInt8}
    (h : ((decide ((if lead = 0xE0 then 0xA0 else if lead = 0xF0 then 0x90 else 0x80) ≤ x.toNat) &&
      decide (x.toNat ≤ if lead = 0xED then 0x9F else if lead = 0xF4 then 0x8F else 0xBF)) = true)) :
    (0x80 ≤ x.toNat ∧ x.toNat ≤ 0xBF) ∧ (lead = 0xE0 → 0xA0 ≤ x.toNat) ∧
      (lead = 0xF0 → 0x90 ≤ x.toNat) ∧ (lead = 0xED → x.toNat ≤ 0x9F) ∧
      (lead = 0xF4 → x.toNat ≤ 0x8F) := by
  simp only [Bool.and_eq_true, decide_eq_true_eq] at h
  obtain ⟨hlo, hhi⟩ := h
  split_ifs at hlo hhi <;> omega

/-- An accepted unit is the encoding of its code point. -/
theorem utf8Unit_sound {b : UInt8} {rest : Bytes} {c : CodePoint} {n : ℕ}
    (h : utf8Unit b rest = (some c, n)) :
    isSurrogate c = false ∧ ∃ t after, rest = t++after ∧ n = t.length+1 ∧ utf8Point c = b::t := by
  have hb := b.toNat_lt
  simp only [utf8Unit] at h
  by_cases h1 : b.toNat < 0x80
  · rw [if_pos h1] at h
    obtain ⟨hc, rfl⟩ := unit_inj h (by omega)
    refine ⟨not_surrogate (by omega), [], rest, rfl, rfl, ?_⟩
    rw [utf8Point, if_pos (by omega), hc, UInt8.ofNat_toNat]
  rw [if_neg h1] at h
  by_cases h2 : 0xC2 ≤ b.toNat ∧ b.toNat ≤ 0xDF
  · rw [if_pos (by simpa using h2)] at h
    cases rest with
    | nil => cases h
    | cons x tail =>
      simp only at h
      split_ifs at h with hx
      · have hx := continuation_bounds hx
        obtain ⟨hc, rfl⟩ := unit_inj h (by omega)
        exact ⟨not_surrogate (by omega), [x], tail, rfl, rfl, utf8Point_two h2 hx hc⟩
      · cases h
  rw [if_neg (by simpa using h2)] at h
  by_cases h3 : 0xE0 ≤ b.toNat ∧ b.toNat ≤ 0xEF
  · rw [if_pos (by simpa using h3)] at h
    rcases rest with _ | ⟨x, _ | ⟨y, tail⟩⟩
    · cases h
    · simp only at h
      split_ifs at h <;> cases h
    · simp only at h
      by_cases hx : (decide ((if b.toNat = 0xE0 then 0xA0 else if b.toNat = 0xF0 then 0x90
          else 0x80) ≤ x.toNat) && decide (x.toNat ≤ if b.toNat = 0xED then 0x9F
          else if b.toNat = 0xF4 then 0x8F else 0xBF)) = true
      · obtain ⟨hbounds, hlow, -, hhigh, -⟩ := second_bounds hx
        rw [if_neg (by rw [hx]; decide)] at h
        by_cases hy : isContinuation y = true
        · rw [if_neg (by rw [hy]; decide)] at h
          have hy := continuation_bounds hy
          obtain ⟨hc, rfl⟩ := unit_inj h (by omega)
          exact ⟨not_surrogate (by omega), [x, y], tail, rfl, rfl,
            utf8Point_three h3 hbounds hlow hy hc⟩
        · rw [if_pos (by simpa using hy)] at h
          cases h
      · rw [if_pos (by rw [Bool.eq_false_of_not_eq_true hx]; rfl)] at h
        cases h
  rw [if_neg (by simpa using h3)] at h
  by_cases h4 : 0xF0 ≤ b.toNat ∧ b.toNat ≤ 0xF4
  · rw [if_pos (by simpa using h4)] at h
    rcases rest with _ | ⟨x, _ | ⟨y, _ | ⟨z, tail⟩⟩⟩
    · cases h
    · simp only at h
      split_ifs at h <;> cases h
    · simp only at h
      split_ifs at h <;> cases h
    · simp only at h
      by_cases hx : (decide ((if b.toNat = 0xE0 then 0xA0 else if b.toNat = 0xF0 then 0x90
          else 0x80) ≤ x.toNat) && decide (x.toNat ≤ if b.toNat = 0xED then 0x9F
          else if b.toNat = 0xF4 then 0x8F else 0xBF)) = true
      · obtain ⟨hbounds, -, hlow, -, hhigh⟩ := second_bounds hx
        rw [if_neg (by rw [hx]; decide)] at h
        by_cases hy : isContinuation y = true
        · rw [if_neg (by rw [hy]; decide)] at h
          by_cases hz : isContinuation z = true
          · rw [if_neg (by rw [hz]; decide)] at h
            have hy := continuation_bounds hy
            have hz := continuation_bounds hz
            obtain ⟨hc, rfl⟩ := unit_inj h (by omega)
            exact ⟨not_surrogate (by omega), [x, y, z], tail, rfl, rfl,
              utf8Point_four h4 hbounds hlow hy hz hc⟩
          · rw [if_pos (by simpa using hz)] at h
            cases h
        · rw [if_pos (by simpa using hy)] at h
          cases h
      · rw [if_pos (by rw [Bool.eq_false_of_not_eq_true hx]; rfl)] at h
        cases h
  rw [if_neg (by simpa using h4)] at h
  cases h

theorem utf8Units_sound {fuel : ℕ} {bs : Bytes} {s : Str} (hf : bs.length ≤ fuel)
    (h : (utf8Units fuel bs).mapM id = some s) : encodable s = true ∧ utf8 s = bs := by
  induction fuel generalizing bs s with
  | zero =>
    obtain rfl := List.length_eq_zero_iff.mp (Nat.le_zero.mp hf)
    cases h
    exact ⟨rfl, rfl⟩
  | succ fuel ih =>
    cases bs with
    | nil =>
      cases h
      exact ⟨rfl, rfl⟩
    | cons b rest =>
      simp only [utf8Units, List.mapM_cons, id] at h
      rcases hunit : utf8Unit b rest with ⟨unit, n⟩
      rw [hunit] at h
      cases unit with
      | none => cases h
      | some c =>
        obtain ⟨hc, t, after, rfl, rfl, hpoint⟩ := utf8Unit_sound hunit
        rw [Nat.add_sub_cancel, List.drop_left] at h
        cases hrest : (utf8Units fuel after).mapM id with
        | none =>
          rw [hrest] at h
          cases h
        | some tail =>
          rw [hrest] at h
          cases h
          simp only [List.length_cons, List.length_append] at hf
          obtain ⟨htail, hbytes⟩ := ih (by omega) hrest
          refine ⟨?_, ?_⟩
          · simp only [encodable, List.all_cons, hc, Bool.not_false, Bool.true_and]
            exact htail
          · rw [utf8, List.flatMap_cons, hpoint, ← hbytes]
            rfl

/-- Decoded text encodes to the bytes it was decoded from. -/
theorem decode_sound {bs : Bytes} {s : Str} (h : decode bs = some s) :
    encodable s = true ∧ utf8 s = bs := utf8Units_sound le_rfl h

end FerricStore.Text
