import FerricStore.BigEndian

/-!
# Text as code points, and UTF-8

A string is a list of code points, lone surrogates included, as an interpreter
with unpaired surrogates stores it. Encoding rejects surrogates and is total on
every other string. Decoding splits the bytes into units, each one code point or
one maximal ill-formed part, so the strict and the replacing decoder read the
same units. Case mapping is fixed on ASCII only; the rest of the Unicode tables
stays with the caller.
-/

set_option autoImplicit false

namespace FerricStore

abbrev CodePoint := Fin 0x110000

abbrev Str := List CodePoint

instance instNeZeroCodePoints : NeZero 0x110000 := ⟨by decide⟩

instance instLawfulCodePoint : LawfulBEq CodePoint := inferInstance

instance instLawfulStr : LawfulBEq Str := inferInstance

instance instLawfulBytes : LawfulBEq Bytes := inferInstance

namespace Text

theorem char_toNat_lt (c : Char) : c.toNat < 0x110000 := by
  have hv : c.toNat = c.val.toNat := rfl
  rcases c.valid with h | h <;> omega

/-- The code points of a literal of the program text. -/
def lit (s : String) : Str := s.toList.map fun c => ⟨c.toNat, char_toNat_lt c⟩

theorem lit_inj {s t : String} : lit s = lit t ↔ s = t := by
  constructor
  · intro h
    have hchar : Function.Injective fun c : Char => (⟨c.toNat, char_toNat_lt c⟩ : CodePoint) := by
      intro a b hab
      exact Char.toNat_inj.mp (Fin.mk.inj hab)
    exact String.toList_inj.mp (List.map_injective_iff.mpr hchar h)
  · exact congrArg lit

def isSurrogate (c : CodePoint) : Bool := 0xD800 ≤ c.val && c.val ≤ 0xDFFF

def isAscii (s : Str) : Bool := s.all fun c => c.val < 0x80

def utf8Size (c : CodePoint) : ℕ :=
  if c.val ≤ 0x7F then 1 else if c.val ≤ 0x7FF then 2 else if c.val ≤ 0xFFFF then 3 else 4

def utf8Point (c : CodePoint) : Bytes :=
  if c.val ≤ 0x7F then [UInt8.ofNat c.val]
  else if c.val ≤ 0x7FF then
    [UInt8.ofNat (0xC0+c.val/64), UInt8.ofNat (0x80+c.val%64)]
  else if c.val ≤ 0xFFFF then
    [UInt8.ofNat (0xE0+c.val/4096), UInt8.ofNat (0x80+c.val/64%64),
      UInt8.ofNat (0x80+c.val%64)]
  else
    [UInt8.ofNat (0xF0+c.val/262144), UInt8.ofNat (0x80+c.val/4096%64),
      UInt8.ofNat (0x80+c.val/64%64), UInt8.ofNat (0x80+c.val%64)]

def encodable (s : Str) : Bool := s.all fun c => !isSurrogate c

def utf8 (s : Str) : Bytes := s.flatMap utf8Point

def encode (s : Str) : Option Bytes := if encodable s then some (utf8 s) else none

theorem utf8Point_length (c : CodePoint) : (utf8Point c).length = utf8Size c := by
  unfold utf8Point utf8Size
  split_ifs <;> rfl

theorem utf8Size_bounds (c : CodePoint) : 1 ≤ utf8Size c ∧ utf8Size c ≤ 4 := by
  unfold utf8Size
  split_ifs <;> omega

theorem utf8_length (s : Str) : (utf8 s).length = (s.map utf8Size).sum := by
  induction s with
  | nil => rfl
  | cons c s ih =>
    simp only [utf8, List.flatMap_cons, List.length_append, utf8Point_length,
      List.map_cons, List.sum_cons] at *
    rw [ih]

theorem length_le_utf8_length (s : Str) : s.length ≤ (utf8 s).length := by
  rw [utf8_length]
  induction s with
  | nil => simp
  | cons c s ih =>
    have hc := (utf8Size_bounds c).1
    simp only [List.length_cons, List.map_cons, List.sum_cons]
    omega

theorem utf8_length_le (s : Str) : (utf8 s).length ≤ 4*s.length := by
  rw [utf8_length]
  induction s with
  | nil => simp
  | cons c s ih =>
    have hc := (utf8Size_bounds c).2
    simp only [List.length_cons, List.map_cons, List.sum_cons]
    omega

theorem utf8_length_ascii (s : Str) (h : isAscii s = true) : (utf8 s).length = s.length := by
  rw [utf8_length]
  induction s with
  | nil => rfl
  | cons c s ih =>
    simp only [isAscii, List.all_cons, Bool.and_eq_true, decide_eq_true_eq] at h
    have hc : utf8Size c = 1 := by
      unfold utf8Size
      rw [if_pos (by omega)]
    have ht := ih (by simpa [isAscii] using h.2)
    simp only [List.map_cons, List.sum_cons, List.length_cons, hc, ht]
    omega

theorem encodable_of_ascii (s : Str) (h : isAscii s = true) : encodable s = true := by
  simp only [isAscii, encodable, List.all_eq_true, decide_eq_true_eq] at *
  intro c hc
  have hb := h c hc
  simp only [isSurrogate, Bool.not_eq_true', Bool.and_eq_false_iff, decide_eq_false_iff_not]
  omega

def isContinuation (b : UInt8) : Bool := 0x80 ≤ b.toNat && b.toNat ≤ 0xBF

def point (n : ℕ) : CodePoint := ⟨n % 0x110000, Nat.mod_lt _ (by decide)⟩

/-- The first unit of a non-empty byte string: the code point it spells, or
`none` for a maximal ill-formed part, with the number of bytes it covers. -/
def utf8Unit (b : UInt8) (rest : Bytes) : Option CodePoint × ℕ :=
  let lead := b.toNat
  let lo := if lead = 0xE0 then 0xA0 else if lead = 0xF0 then 0x90 else 0x80
  let hi := if lead = 0xED then 0x9F else if lead = 0xF4 then 0x8F else 0xBF
  let second (c : UInt8) : Bool := lo ≤ c.toNat && c.toNat ≤ hi
  if lead < 0x80 then (some (point lead), 1)
  else if 0xC2 ≤ lead && lead ≤ 0xDF then
    match rest with
    | c::_ => if isContinuation c then
        (some (point ((lead-0xC0)*64+(c.toNat-0x80))), 2) else (none, 1)
    | [] => (none, 1)
  else if 0xE0 ≤ lead && lead ≤ 0xEF then
    match rest with
    | c::d::_ => if !second c then (none, 1) else if !isContinuation d then (none, 2) else
        (some (point ((lead-0xE0)*4096+(c.toNat-0x80)*64+(d.toNat-0x80))), 3)
    | [c] => if second c then (none, 2) else (none, 1)
    | [] => (none, 1)
  else if 0xF0 ≤ lead && lead ≤ 0xF4 then
    match rest with
    | c::d::e::_ => if !second c then (none, 1) else if !isContinuation d then (none, 2)
        else if !isContinuation e then (none, 3) else
        (some (point ((lead-0xF0)*262144+(c.toNat-0x80)*4096+(d.toNat-0x80)*64+
          (e.toNat-0x80))), 4)
    | [c, d] => if !second c then (none, 1) else if isContinuation d then (none, 3)
        else (none, 2)
    | [c] => if second c then (none, 2) else (none, 1)
    | [] => (none, 1)
  else (none, 1)

def utf8Units : ℕ → Bytes → List (Option CodePoint)
  | 0, _ => []
  | _+1, [] => []
  | fuel+1, b::rest =>
    let unit := utf8Unit b rest
    unit.1 :: utf8Units fuel (rest.drop (unit.2-1))

/-- The strict decoder, which fails on any ill-formed part. -/
def decode (bs : Bytes) : Option Str := (utf8Units bs.length bs).mapM id

/-- The replacing decoder, one U+FFFD for each ill-formed part. -/
def decodeReplace (bs : Bytes) : Str :=
  (utf8Units bs.length bs).map fun u => u.getD 0xFFFD

def upperAscii (c : CodePoint) : CodePoint :=
  if 0x61 ≤ c.val ∧ c.val ≤ 0x7A then point (c.val-0x20) else c

def lowerAscii (c : CodePoint) : CodePoint :=
  if 0x41 ≤ c.val ∧ c.val ≤ 0x5A then point (c.val+0x20) else c

def upperBytes (bs : Bytes) : Bytes :=
  bs.map fun b => if 0x61 ≤ b.toNat ∧ b.toNat ≤ 0x7A then b-0x20 else b

def lowerBytes (bs : Bytes) : Bytes :=
  bs.map fun b => if 0x41 ≤ b.toNat ∧ b.toNat ≤ 0x5A then b+0x20 else b

/-- The code point of an ASCII byte. -/
def bytePoint (b : UInt8) : CodePoint := point b.toNat

theorem utf8Units_ascii (bs : Bytes) (h : ∀ b ∈ bs, b.toNat < 0x80) :
    utf8Units bs.length bs = bs.map fun b => some (bytePoint b) := by
  induction bs with
  | nil => rfl
  | cons b bs ih =>
    have hb := h b (by simp)
    have hu : utf8Unit b bs = (some (bytePoint b), 1) := by
      unfold utf8Unit
      simp only [hb, if_true]
      rfl
    simp only [List.length_cons, utf8Units, hu, Nat.sub_self, List.drop_zero, List.map_cons]
    rw [ih fun c hc => h c (by simp [hc])]

theorem decodeReplace_ascii (bs : Bytes) (h : ∀ b ∈ bs, b.toNat < 0x80) :
    decodeReplace bs = bs.map bytePoint := by
  simp [decodeReplace, utf8Units_ascii bs h]

theorem upperBytes_ascii (bs : Bytes) (h : ∀ b ∈ upperBytes bs, b.toNat < 0x80) :
    ∀ b ∈ bs, b.toNat < 0x80 := by
  intro b hb
  have hu := h _ (List.mem_map_of_mem hb)
  by_contra hge
  rw [if_neg (by omega)] at hu
  omega

theorem bytePoint_val (b : UInt8) : (bytePoint b).val = b.toNat := by
  have hb := b.toNat_lt
  simp only [bytePoint, point]
  exact Nat.mod_eq_of_lt (by omega)

theorem upperAscii_bytePoint (b : UInt8) : upperAscii (bytePoint b) =
    bytePoint (if 0x61 ≤ b.toNat ∧ b.toNat ≤ 0x7A then b-0x20 else b) := by
  unfold upperAscii
  rw [bytePoint_val]
  by_cases hb : 0x61 ≤ b.toNat ∧ b.toNat ≤ 0x7A
  · have hs : (b-0x20).toNat = b.toNat-0x20 := by
      rw [UInt8.toNat_sub_of_le b 0x20 (UInt8.le_iff_toNat_le.mpr (by simpa using by omega))]
      rfl
    rw [if_pos hb, if_pos hb, bytePoint, hs]
  · rw [if_neg hb, if_neg hb]

theorem upperBytes_points (bs : Bytes) :
    (bs.map bytePoint).map upperAscii = (upperBytes bs).map bytePoint := by
  simp only [upperBytes, List.map_map]
  exact List.map_congr_left fun b _ => upperAscii_bytePoint b

theorem isAscii_points (bs : Bytes) (h : ∀ b ∈ bs, b.toNat < 0x80) :
    isAscii (bs.map bytePoint) = true := by
  simp only [isAscii, List.all_map, List.all_eq_true, Function.comp_apply, decide_eq_true_eq]
  intro b hb
  rw [bytePoint_val]
  exact h b hb

theorem utf8_ascii (s : Str) (h : isAscii s = true) :
    (∀ b ∈ utf8 s, b.toNat < 0x80) ∧ (utf8 s).map bytePoint = s := by
  induction s with
  | nil => exact ⟨fun b hb => (List.not_mem_nil hb).elim, rfl⟩
  | cons c s ih =>
    simp only [isAscii, List.all_cons, Bool.and_eq_true, decide_eq_true_eq] at h
    obtain ⟨hlow, hmap⟩ := ih (by simpa [isAscii] using h.2)
    have hval : (UInt8.ofNat c.val).toNat = c.val := by
      rw [UInt8.toNat_ofNat']
      exact Nat.mod_eq_of_lt (by omega)
    have hc : utf8 (c::s) = UInt8.ofNat c.val::utf8 s := by
      simp only [utf8, List.flatMap_cons, utf8Point]
      rw [if_pos (by omega)]
      rfl
    rw [hc]
    refine ⟨?_, ?_⟩
    · intro b hb
      rcases List.mem_cons.mp hb with rfl | hb
      · omega
      · exact hlow b hb
    · rw [List.map_cons, hmap]
      congr 1
      exact Fin.ext (by rw [bytePoint_val, hval])

end Text
end FerricStore
