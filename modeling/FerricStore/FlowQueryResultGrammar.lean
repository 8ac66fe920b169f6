import Mathlib.Data.Nat.Bitwise
import Mathlib.Data.Nat.Size
import FerricStore.FlowQueryResults

/-!
# The language of compact query results

The compact decoder is a sequence of readers, each of which accepts exactly the bytes of a part
of the schema. So the whole accepts exactly the results of the schema, and every one it returns
passes the generic decoder with the same content.
-/

set_option autoImplicit false

namespace FerricStore.FlowQueryResults
open Text Cursor Stateful Budgets ValueCodec ValueGrammar Grammars

/-! ### The schema -/

def counterBytes : Grammar ℕ := fun n w c => n ≤ maxInteger ∧ w = BigEndian.encode 8 n ∧ c = 0

def Quality.bytes (q : Quality) : Bytes :=
  [UInt8.ofNat q.exactness, UInt8.ofNat q.freshness, UInt8.ofNat q.coverage,
    UInt8.ofNat q.pagination]

def Usage.bytes (u : Usage) : Bytes := u.counters.flatMap (BigEndian.encode 8)

def pageBytes : Option Bytes → Bytes
  | none => 0::BigEndian.encode 4 nullU32
  | some cursor => 1::(BigEndian.encode 4 cursor.length++cursor)

structure ValidCursor (cursor : Bytes) : Prop where
  size : minCursorBytes ≤ cursor.length ∧ cursor.length ≤ maxCursorBytes
  text : decode cursor ≠ none
  marked : (utf8 cursorMark).isPrefixOf cursor = true

/-- The fields from an index on whose bits are set. -/
def selected (bitmap : ℕ) : ℕ → List String → List String
  | _, [] => []
  | index, name::names =>
    if bitmap.testBit index then name::selected bitmap (index+1) names
    else selected bitmap (index+1) names

/-- A record, and what it takes from a budget: its fields and their collections. -/
def recordBytes : Grammar Record := fun record w c => ∃ bitmap ws cs,
  bitmap < 2^recordFields.length ∧ record.map Prod.fst = selected bitmap 0 recordFields ∧
    Sequence (tagged (maxValueNesting+1)) (record.map Prod.snd) ws cs ∧
    w = BigEndian.encode 4 bitmap++ws ∧ c = record.length+cs

def Body.kind : Body → UInt8
  | .page _ _ => 0
  | .count _ => 1

def bodyBytes (u : Usage) : Grammar Body := fun body w c =>
  match body with
  | .page cursor records => (∀ x ∈ cursor, ValidCursor x) ∧ records.length ≤ maxRecords ∧
      u.resultRecords = records.length ∧ records.length ≤ u.scannedEntries ∧
      ∃ ws cs, Sequence recordBytes records ws cs ∧
        w = pageBytes cursor++(BigEndian.encode 4 records.length++ws) ∧ c = records.length+cs
  | .count n => u.resultRecords = 1 ∧ n ≤ maxInteger ∧ w = BigEndian.encode 8 n ∧ c = 0

def sectionBytes : Grammar CompactResult := fun r w c => ∃ body, bodyBytes r.usage r.body body c ∧
  (∀ n ∈ r.usage.counters, n ≤ maxInteger) ∧ r.usage.valid = true ∧
  w = r.body.kind::(r.quality.bytes++(r.usage.bytes++body))

/-- A whole result; the last counter but two is the number of its bytes. -/
def resultBytes : Grammar CompactResult := fun r w c =>
  (∃ rest, w = tag::rest ∧ sectionBytes r rest c) ∧ r.usage.responseBytes = w.length

/-! ### The readers -/

section Readers

variable {α β : Type} {p : Parser Err α} {G : Grammar α}

/-- Bytes that are there anyway may be required first. -/
theorem reads_require {size : ℕ} (hp : Reads p G) (hsize : ∀ a w c, G a w c → size ≤ w.length) :
    Reads (require size >>= fun _ => p) G where
  sound {data offset e a b b'} hoffset h := by
    obtain ⟨⟨u, o⟩, s, hu, h⟩ := bind_eq_ok h
    unfold require at hu
    split_ifs at hu
    · cases hu
    · cases hu
      exact hp.sound hoffset h
  complete {data rest w offset c a b} hs hg hb := by
    have havailable := hs.available
    have hlength := hsize a w c hg
    have hrequire : require size data offset b = .ok ((), offset) b := by
      rw [require, if_neg (by omega)]
      rfl
    show (require size data offset >>= fun r => p data r.2) b = _
    rw [bind_of_ok hrequire]
    exact hp.complete hs hg hb

theorem reads_refuse (message : String) :
    Reads (refuse message : Parser Err α) fun _ _ _ => False := Reads.fail _

/-- A reader behind a check that refuses. -/
theorem reads_unless {c : Prop} [Decidable c] (message : String) (hp : Reads p G) :
    Reads (if c then refuse message else p) fun a w k => ¬ c ∧ G a w k := by
  refine ((reads_refuse message).ite hp).congr fun a w k => ?_
  split_ifs with hc <;> simp [hc]

theorem readNatural_reads (size : ℕ) : Reads (readNatural size) fun n w c =>
    n < 256^size ∧ w = BigEndian.encode size n ∧ c = 0 := by
  refine reads_require (Reads.natural Err.structError size) ?_
  rintro n w c ⟨-, rfl, -⟩
  rw [BigEndian.encode_length]

/-- A value of so few bytes, and a value behind it. -/
theorem reads_natural {f : ℕ → Parser Err β} {H : ℕ → Grammar β} {q : Parser Err ℕ} {size : ℕ}
    (hq : Reads q fun n w c => n < 256^size ∧ w = BigEndian.encode size n ∧ c = 0)
    (hf : ∀ n, Reads (f n) (H n)) : Reads (q >>= f) fun b w c =>
      ∃ n rest, n < 256^size ∧ H n b rest c ∧ w = BigEndian.encode size n++rest := by
  refine (hq.bind hf).congr fun b w c => ?_
  constructor
  · rintro ⟨n, _, _, rest, c, ⟨hn, rfl, rfl⟩, h, rfl, rfl⟩
    exact ⟨n, rest, hn, by rwa [Nat.zero_add], rfl⟩
  · rintro ⟨n, rest, hn, h, rfl⟩
    exact ⟨n, _, 0, rest, c, ⟨hn, rfl, rfl⟩, h, rfl, (Nat.zero_add c).symm⟩

theorem reads_byte {f : UInt8 → Parser Err β} {H : UInt8 → Grammar β} {short : Err}
    (hf : ∀ b, Reads (f b) (H b)) : Reads (byte short >>= f) fun x w c =>
      ∃ b rest, H b x rest c ∧ w = b::rest := by
  refine ((Reads.byte short).bind hf).congr fun x w c => ?_
  constructor
  · rintro ⟨b, _, _, rest, c, ⟨rfl, rfl⟩, h, rfl, rfl⟩
    exact ⟨b, rest, by rwa [Nat.zero_add], rfl⟩
  · rintro ⟨b, rest, h, rfl⟩
    exact ⟨b, [b], 0, rest, c, ⟨rfl, rfl⟩, h, rfl, (Nat.zero_add c).symm⟩

theorem reads_charge {count : ℕ} {excess : Err} (hp : Reads p G) :
    Reads (charge excess count >>= fun _ => p) fun a w c => ∃ k, G a w k ∧ c = count+k := by
  refine ((Reads.charge excess count).bind fun _ => hp).congr fun a w c => ?_
  constructor
  · rintro ⟨u, _, _, w, k, ⟨rfl, rfl⟩, h, rfl, rfl⟩
    exact ⟨k, h, rfl⟩
  · rintro ⟨k, h, rfl⟩
    exact ⟨(), [], count, w, k, ⟨rfl, rfl⟩, h, rfl, rfl⟩

end Readers

theorem maxInteger_lt {n : ℕ} (h : n ≤ maxInteger) : n < 256^8 := by
  unfold maxInteger at h
  omega

theorem readCounter_reads : Reads readCounter counterBytes := by
  refine (reads_natural (readNatural_reads 8) fun n => reads_unless _ (Reads.pure n)).congr
    fun n w c => ?_
  constructor
  · rintro ⟨m, rest, hm, ⟨hle, rfl, rfl, rfl⟩, rfl⟩
    exact ⟨Nat.not_lt.mp hle, by simp, rfl⟩
  · rintro ⟨hn, rfl, rfl⟩
    exact ⟨n, [], maxInteger_lt hn, ⟨Nat.not_lt.mpr hn, rfl, rfl, rfl⟩, by simp⟩

theorem readCode_reads {n : ℕ} (hn : n ≤ 256) : Reads (readCode n) fun k w c =>
    w = [UInt8.ofNat k] ∧ c = 0 := by
  refine (reads_byte (H := fun b (k : Fin n) w c => b = UInt8.ofNat k ∧ w = [] ∧ c = 0)
    fun b => ?_).congr
    fun k w c => ?_
  · by_cases h : b.toNat < n
    · simp only [dif_pos h]
      refine (Reads.pure _).congr fun k w c => ?_
      refine and_congr_left fun _ => ⟨?_, ?_⟩
      · rintro rfl
        simp
      · intro hb
        apply Fin.ext
        show k.val = b.toNat
        rw [hb, UInt8.toNat_ofNat', Nat.mod_eq_of_lt (by have := k.isLt; omega)]
    · simp only [dif_neg h]
      refine (reads_refuse _).congr fun k w c => ⟨False.elim, ?_⟩
      rintro ⟨rfl, -⟩
      refine h ?_
      rw [UInt8.toNat_ofNat', Nat.mod_eq_of_lt (by have := k.isLt; omega)]
      exact k.isLt
  · constructor
    · rintro ⟨b, rest, ⟨rfl, rfl, rfl⟩, rfl⟩
      exact ⟨rfl, rfl⟩
    · rintro ⟨rfl, rfl⟩
      exact ⟨_, [], ⟨rfl, rfl, rfl⟩, rfl⟩

theorem readQuality_reads : Reads readQuality fun q w c => w = q.bytes ∧ c = 0 := by
  refine ((readCode_reads (by decide)).bind fun exactness => (readCode_reads (by decide)).bind
    fun freshness => (readCode_reads (by decide)).bind fun coverage =>
      (readCode_reads (by decide)).map).congr fun q w c => ?_
  constructor
  · rintro ⟨e, _, _, _, _, ⟨rfl, rfl⟩, ⟨f, _, _, _, _, ⟨rfl, rfl⟩, ⟨g, _, _, _, _, ⟨rfl, rfl⟩,
      ⟨h, ⟨rfl, rfl⟩, rfl⟩, rfl, rfl⟩, rfl, rfl⟩, rfl, rfl⟩
    exact ⟨rfl, rfl⟩
  · rintro ⟨rfl, rfl⟩
    exact ⟨_, _, _, _, _, ⟨rfl, rfl⟩, ⟨_, _, _, _, _, ⟨rfl, rfl⟩, ⟨_, _, _, _, _, ⟨rfl, rfl⟩,
      ⟨_, ⟨rfl, rfl⟩, rfl⟩, rfl, rfl⟩, rfl, rfl⟩, rfl, rfl⟩

theorem counters_sequence {ns : List ℕ} {w : Bytes} {c : ℕ} :
    Sequence counterBytes ns w c ↔
      (∀ n ∈ ns, n ≤ maxInteger) ∧ w = ns.flatMap (BigEndian.encode 8) ∧ c = 0 := by
  constructor
  · intro h
    induction h with
    | nil => exact ⟨by simp, rfl, rfl⟩
    | cons hhead _ ih =>
      obtain ⟨hn, rfl, rfl⟩ := hhead
      obtain ⟨hall, rfl, rfl⟩ := ih
      exact ⟨by simpa using ⟨hn, hall⟩, rfl, rfl⟩
  · rintro ⟨hall, rfl, rfl⟩
    induction ns with
    | nil => exact .nil
    | cons n ns ih =>
      have hrest := ih fun m hm => hall m (List.mem_cons_of_mem n hm)
      exact .cons ⟨hall n List.mem_cons_self, rfl, rfl⟩ hrest

theorem counters_ofCounters {ns : List ℕ} (h : ns.length = usageFields.length) :
    (Usage.ofCounters ns).counters = ns := by
  match ns, h with
  | [_, _, _, _, _, _, _, _, _, _, _], _ => rfl

theorem ofCounters_counters (u : Usage) : Usage.ofCounters u.counters = u := rfl

theorem readUsage_reads : Reads readUsage fun u w c =>
    (∀ n ∈ u.counters, n ≤ maxInteger) ∧ u.valid = true ∧ w = u.bytes ∧ c = 0 := by
  refine ((readCounter_reads.times _).bind fun ns => reads_unless _ (Reads.pure _)).congr
    fun u w c => ?_
  constructor
  · rintro ⟨ns, w₁, c₁, w₂, c₂, ⟨hlength, hs⟩, ⟨hvalid, rfl, rfl, rfl⟩, rfl, rfl⟩
    obtain ⟨hall, rfl, rfl⟩ := counters_sequence.mp hs
    rw [Usage.bytes, counters_ofCounters hlength]
    exact ⟨hall, not_not.mp hvalid, by simp, rfl⟩
  · rintro ⟨hall, hvalid, rfl, rfl⟩
    refine ⟨u.counters, _, 0, [], 0, ⟨rfl, counters_sequence.mpr ⟨hall, rfl, rfl⟩⟩,
      ⟨?_, rfl, rfl, rfl⟩, by simp [Usage.bytes], rfl⟩
    rw [ofCounters_counters]
    exact not_not.mpr hvalid

theorem pageBytes_length (cursor : Option Bytes) : 5 ≤ (pageBytes cursor).length := by
  cases cursor <;> simp [pageBytes]

theorem readPage_reads : Reads readPage fun cursor w c =>
    (∀ x ∈ cursor, ValidCursor x) ∧ w = pageBytes cursor ∧ c = 0 := by
  refine reads_require ?_ fun cursor w c h => h.2.1 ▸ pageBytes_length cursor
  refine (reads_byte fun hasMore => reads_natural (Reads.natural Err.structError 4) fun size =>
    (Reads.pure none).ite (reads_unless _ ((Reads.field truncatedResult size).bind fun cursor =>
      reads_unless _ (reads_unless _ (Reads.pure (some cursor)))))).congr fun cursor w c => ?_
  constructor
  · rintro ⟨hasMore, _, ⟨size, rest, hsize, h, rfl⟩, rfl⟩
    split_ifs at h with hnone
    · obtain ⟨rfl, rfl, rfl⟩ := h
      obtain ⟨rfl, rfl⟩ := hnone
      exact ⟨by simp, rfl, rfl⟩
    · obtain ⟨hbounds, x, _, _, _, _, ⟨rfl, rfl, rfl⟩, ⟨htext, hmark, rfl, rfl, rfl⟩, rfl, rfl⟩ := h
      simp only [not_or, not_not, Nat.not_lt] at hbounds
      obtain ⟨rfl, hlow, -, hhigh⟩ := hbounds
      refine ⟨?_, by simp [pageBytes], rfl⟩
      rintro y ⟨⟩
      exact ⟨⟨hlow, hhigh⟩, htext, not_not.mp hmark⟩
  · rintro ⟨hvalid, rfl, rfl⟩
    cases cursor with
    | none =>
      refine ⟨0, _, ⟨nullU32, [], by decide, ?_, by simp⟩, rfl⟩
      rw [if_pos ⟨rfl, rfl⟩]
      exact ⟨rfl, rfl, rfl⟩
    | some cursor =>
      obtain ⟨⟨hlow, hhigh⟩, htext, hmark⟩ := hvalid cursor rfl
      have hnull : cursor.length < nullU32 := hhigh.trans_lt (by decide)
      refine ⟨1, _, ⟨cursor.length, cursor, hnull.trans (by decide), ?_, rfl⟩, rfl⟩
      rw [if_neg (by simp)]
      refine ⟨?_, cursor, cursor, 0, [], 0, ⟨rfl, rfl, rfl⟩,
        ⟨htext, not_not.mpr hmark, rfl, rfl, rfl⟩, by simp, rfl⟩
      rw [not_or, not_or, not_or, not_not, Nat.not_lt, Nat.not_lt]
      exact ⟨rfl, hlow, hnull.ne, hhigh⟩

/-! ### Records -/

theorem readValue_reads : Reads readValue (tagged (maxValueNesting+1)) :=
  valueParser_reads (maxValueNesting+1)

theorem readFields_reads (bitmap index : ℕ) (names : List String) :
    Reads (readFields bitmap index names) fun record w c =>
      record.map Prod.fst = selected bitmap index names ∧
        Sequence (tagged (maxValueNesting+1)) (record.map Prod.snd) w c := by
  induction names generalizing index with
  | nil =>
    refine (Reads.pure []).congr fun record w c => ?_
    constructor
    · rintro ⟨rfl, rfl, rfl⟩
      exact ⟨rfl, .nil⟩
    · rintro ⟨hnames, hs⟩
      obtain rfl := List.map_eq_nil_iff.mp hnames
      cases hs
      exact ⟨rfl, rfl, rfl⟩
  | cons name names ih =>
    unfold readFields selected
    by_cases hbit : bitmap.testBit index = true
    · rw [if_pos hbit]
      simp only [if_pos hbit]
      refine (readValue_reads.bind fun v => (ih (index+1)).map).congr fun record w c => ?_
      constructor
      · rintro ⟨v, _, _, _, _, hv, ⟨rest, ⟨hnames, hs⟩, rfl⟩, rfl, rfl⟩
        exact ⟨by rw [List.map_cons, hnames], .cons hv hs⟩
      · rintro ⟨hnames, hs⟩
        cases record with
        | nil => cases hnames
        | cons f rest =>
          obtain ⟨hname, hrest⟩ := List.cons.inj hnames
          obtain ⟨n, v⟩ := f
          obtain rfl : n = name := hname
          cases hs with
          | cons hv hs => exact ⟨v, _, _, _, _, hv, ⟨rest, ⟨hrest, hs⟩, rfl⟩, rfl, rfl⟩
    · rw [if_neg hbit]
      simp only [if_neg hbit]
      exact ih (index+1)

theorem ldiff_mask (bitmap k : ℕ) : bitmap.ldiff (2^k-1) = 0 ↔ bitmap < 2^k := by
  constructor
  · intro h
    refine Nat.lt_pow_two_of_testBit _ fun i hi => ?_
    have hbit := congrArg (Nat.testBit · i) h
    simpa [Nat.testBit_ldiff, Nat.testBit_two_pow_sub_one, Nat.not_lt.mpr hi] using hbit
  · intro h
    refine Nat.eq_of_testBit_eq fun i => ?_
    rw [Nat.testBit_ldiff, Nat.testBit_two_pow_sub_one, Nat.zero_testBit]
    by_cases hi : i < k
    · simp [hi]
    · rw [Nat.testBit_lt_two_pow (h.trans_le (Nat.pow_le_pow_right (by decide) (Nat.not_lt.mp hi)))]
      rfl

theorem selected_length (bitmap index : ℕ) (names : List String) :
    (selected bitmap index names).length =
      (List.range names.length).countP fun i => bitmap.testBit (index+i) := by
  induction names generalizing index with
  | nil => rfl
  | cons name names ih =>
    rw [List.length_cons, List.range_succ_eq_map, List.countP_cons, List.countP_map, selected]
    have hback := ih (index+1)
    simp only [Function.comp_def, Nat.add_zero, Nat.succ_eq_add_one] at hback ⊢
    have hshift : (fun i => bitmap.testBit (index+(i+1))) =
        fun i => bitmap.testBit (index+1+i) := by
      funext i
      rw [Nat.add_assoc, Nat.add_comm 1]
    rw [hshift, ← hback]
    split_ifs <;> simp

theorem bitCount_selected {bitmap : ℕ} {names : List String} (h : bitmap < 2^names.length) :
    bitCount bitmap = (selected bitmap 0 names).length := by
  rw [selected_length, bitCount]
  simp only [Nat.zero_add]
  have hsize : bitmap.size ≤ names.length := Nat.size_le.mpr h
  obtain ⟨k, hk⟩ := Nat.exists_eq_add_of_le hsize
  rw [hk, List.range_add, List.countP_append, List.countP_map]
  have hzero : (List.range k).countP (bitmap.testBit ∘ fun i => bitmap.size+i) = 0 := by
    rw [List.countP_eq_zero]
    intro i _
    rw [Function.comp_apply, Nat.testBit_lt_two_pow]
    · simp
    · exact (Nat.lt_size_self bitmap).trans_le
        (Nat.pow_le_pow_right (by decide) (Nat.le_add_right _ _))
  rw [hzero, Nat.add_zero]

theorem readRecord_reads : Reads readRecord recordBytes := by
  refine (reads_natural (readNatural_reads 4) fun bitmap => reads_unless _
    (reads_charge (readFields_reads bitmap 0 recordFields))).congr fun record w c => ?_
  constructor
  · rintro ⟨bitmap, ws, -, ⟨hmask, cs, ⟨hnames, hs⟩, rfl⟩, rfl⟩
    have hlt := (ldiff_mask bitmap recordFields.length).mp (not_not.mp hmask)
    refine ⟨bitmap, ws, cs, hlt, hnames, hs, rfl, ?_⟩
    rw [bitCount_selected hlt, ← hnames, List.length_map]
  · rintro ⟨bitmap, ws, cs, hlt, hnames, hs, rfl, rfl⟩
    refine ⟨bitmap, ws, hlt.trans (by decide), ⟨not_not.mpr ((ldiff_mask _ _).mpr hlt), cs,
      ⟨hnames, hs⟩, ?_⟩, rfl⟩
    rw [bitCount_selected hlt, ← hnames, List.length_map]

/-! ### The sections -/

theorem readBody_reads (kind : UInt8) (u : Usage) : Reads (readBody kind u) fun body w c =>
    kind = body.kind ∧ bodyBytes u body w c := by
  unfold readBody
  by_cases hpage : kind = 0
  · subst hpage
    rw [if_pos rfl]
    refine (readPage_reads.bind fun cursor => reads_natural (readNatural_reads 4) fun count =>
      reads_unless _ (reads_unless _ (reads_charge (readRecord_reads.times count).map))).congr
        fun body w c => ?_
    constructor
    · rintro ⟨cursor, _, _, _, _, ⟨hvalid, rfl, rfl⟩, ⟨count, ws, hlt, ⟨hmax, husage, cs,
        ⟨records, ⟨rfl, hs⟩, rfl⟩, rfl⟩, rfl⟩, rfl, rfl⟩
      rw [not_or, not_not] at husage
      exact ⟨rfl, hvalid, Nat.not_lt.mp hmax, husage.1, Nat.not_lt.mp husage.2, ws, cs, hs, rfl,
        Nat.zero_add _⟩
    · rintro ⟨hkind, hbody⟩
      cases body with
      | count n => cases hkind
      | page cursor records =>
        obtain ⟨hvalid, hmax, husage, hscanned, ws, cs, hs, rfl, rfl⟩ := hbody
        refine ⟨cursor, _, 0, _, _, ⟨hvalid, rfl, rfl⟩, ⟨records.length, ws,
          hmax.trans_lt (by decide), ⟨Nat.not_lt.mpr hmax, ?_, cs, ⟨records, ⟨rfl, hs⟩, rfl⟩, rfl⟩,
          rfl⟩, rfl, (Nat.zero_add _).symm⟩
        rw [not_or, not_not]
        exact ⟨husage, Nat.not_lt.mpr hscanned⟩
  rw [if_neg hpage]
  by_cases hcount : kind = 1
  · subst hcount
    rw [if_pos rfl]
    refine (reads_unless _ (reads_natural (readNatural_reads 8) fun count =>
      reads_unless _ (Reads.pure (Body.count count)))).congr fun body w c => ?_
    constructor
    · rintro ⟨husage, n, _, -, ⟨hmax, rfl, rfl, rfl⟩, rfl⟩
      exact ⟨rfl, not_not.mp husage, Nat.not_lt.mp hmax, by simp, rfl⟩
    · rintro ⟨hkind, hbody⟩
      cases body with
      | page cursor records => cases hkind
      | count n =>
        obtain ⟨husage, hmax, rfl, rfl⟩ := hbody
        exact ⟨not_not.mpr husage, n, [], maxInteger_lt hmax, ⟨Nat.not_lt.mpr hmax, rfl, rfl, rfl⟩,
          by simp⟩
  · rw [if_neg hcount]
    refine (reads_refuse _).congr fun body w c => ⟨False.elim, ?_⟩
    rintro ⟨rfl, -⟩
    cases body with
    | page cursor records => exact hpage rfl
    | count n => exact hcount rfl

theorem readSections_reads : Reads readSections sectionBytes := by
  refine (reads_byte fun kind => readQuality_reads.bind fun q => readUsage_reads.bind fun u =>
    (readBody_reads kind u).map).congr fun r w c => ?_
  constructor
  · rintro ⟨_, _, ⟨q, _, _, _, _, ⟨rfl, rfl⟩, ⟨u, _, _, _, _, ⟨hall, hvalid, rfl, rfl⟩,
      ⟨body, ⟨rfl, hbody⟩, rfl⟩, rfl, rfl⟩, rfl, rfl⟩, rfl⟩
    exact ⟨_, by simpa using hbody, hall, hvalid, rfl⟩
  · rintro ⟨body, hbody, hall, hvalid, rfl⟩
    exact ⟨_, _, ⟨r.quality, _, 0, _, c, ⟨rfl, rfl⟩, ⟨r.usage, _, 0, _, c, ⟨hall, hvalid, rfl, rfl⟩,
      ⟨r.body, ⟨rfl, hbody⟩, rfl⟩, rfl, (Nat.zero_add c).symm⟩, rfl, (Nat.zero_add c).symm⟩, rfl⟩

theorem counters_bytes_length (ns : List ℕ) :
    (ns.flatMap (BigEndian.encode 8)).length = ns.length*8 := by
  induction ns with
  | nil => rfl
  | cons n ns ih =>
    rw [List.flatMap_cons, List.length_append, BigEndian.encode_length, ih, List.length_cons]
    omega

theorem sectionBytes_length {r : CompactResult} {w : Bytes} {c : ℕ} (h : sectionBytes r w c) :
    93 ≤ w.length := by
  obtain ⟨body, -, -, -, rfl⟩ := h
  have husage : r.usage.bytes.length = 88 := counters_bytes_length _
  simp only [List.length_cons, List.length_append, husage, Quality.bytes, List.length_nil]
  omega

/-! ### The whole result -/

/-- The reader of the tag and the sections, where another tag is refused. -/
def readSome : Parser Err CompactResult := do
  require 94
  let found ← byte .indexError
  if found ≠ tag then refuse "another tag" else readSections

theorem readSome_reads : Reads readSome fun r w c =>
    ∃ rest, w = tag::rest ∧ sectionBytes r rest c := by
  refine reads_require (Reads.marked tag readSections_reads) ?_
  rintro r w c ⟨rest, rfl, hrest⟩
  have hlength := sectionBytes_length hrest
  rw [List.length_cons]
  omega

theorem readTagged_some {data : Bytes} {offset e : ℕ} {r : CompactResult} {b b' : Option ℕ} :
    readTagged data offset b = .ok (some r, e) b' ↔ readSome data offset b = .ok (r, e) b' := by
  have hcases : ∀ (t : UInt8) (o : ℕ) (s : Option ℕ),
      ((if t ≠ tag then pure none else (do
        let r ← readSections
        pure (some r)) : Parser Err (Option CompactResult)) data o s = .ok (some r, e) b') ↔
      (if t ≠ tag then refuse "another tag" else readSections : Parser Err CompactResult) data o s =
        .ok (r, e) b' := by
    intro t o s
    by_cases ht : t ≠ tag
    · rw [if_pos ht, if_pos ht]
      constructor <;> intro h <;> cases h
    · rw [if_neg ht, if_neg ht, bind_apply]
      constructor
      · intro h
        obtain ⟨⟨x, o'⟩, s', hx, h⟩ := bind_eq_ok h
        cases h
        exact hx
      · intro h
        rw [bind_of_ok h]
        rfl
  constructor
  · intro h
    obtain ⟨⟨u, o⟩, s, hu, h⟩ := bind_eq_ok h
    obtain ⟨⟨t, o'⟩, s', ht, h⟩ := bind_eq_ok h
    show (require 94 data offset >>= fun r => _) b = _
    rw [bind_of_ok hu]
    show (byte _ data o >>= fun r => _) s = _
    rw [bind_of_ok ht]
    exact (hcases t o' s').mp h
  · intro h
    obtain ⟨⟨u, o⟩, s, hu, h⟩ := bind_eq_ok h
    obtain ⟨⟨t, o'⟩, s', ht, h⟩ := bind_eq_ok h
    show (require 94 data offset >>= fun r => _) b = _
    rw [bind_of_ok hu]
    show (byte _ data o >>= fun r => _) s = _
    rw [bind_of_ok ht]
    exact (hcases t o' s').mpr h

theorem checkEnd_ok {data : Bytes} {start offset : ℕ} {r x : CompactResult} {e : ℕ}
    {b b' : Option ℕ} : checkEnd start r data offset b = .ok (x, e) b' ↔
      offset = data.length ∧ r.usage.responseBytes = data.length-start ∧ x = r ∧ e = offset ∧
        b' = b := by
  unfold checkEnd
  by_cases hend : offset = data.length
  · rw [if_neg (not_not.mpr hend)]
    by_cases hbytes : r.usage.responseBytes = data.length-start
    · rw [if_neg (not_not.mpr hbytes)]
      constructor
      · rintro ⟨⟩
        exact ⟨hend, hbytes, rfl, rfl, rfl⟩
      · rintro ⟨-, -, rfl, rfl, rfl⟩
        rfl
    · rw [if_pos hbytes]
      exact ⟨nofun, fun h => absurd h.2.1 hbytes⟩
  · rw [if_pos hend]
    exact ⟨nofun, fun h => absurd h.1 hend⟩

theorem readResult_some {data : Bytes} {start : ℕ} {r : CompactResult} {b b' : Option ℕ} :
    readResult data start b = .ok (some r) b' ↔
      readSome data start b = .ok (r, data.length) b' ∧
        r.usage.responseBytes = data.length-start := by
  unfold readResult
  constructor
  · intro h
    obtain ⟨⟨found, offset⟩, s, hfound, h⟩ := bind_eq_ok h
    cases found with
    | none => cases h
    | some x =>
      obtain ⟨⟨y, e⟩, s', hend, hlast⟩ := bind_eq_ok h
      obtain ⟨rfl, hbytes, rfl, rfl, rfl⟩ := checkEnd_ok.mp hend
      cases hlast
      exact ⟨readTagged_some.mp hfound, hbytes⟩
  · rintro ⟨hread, hbytes⟩
    rw [bind_of_ok (readTagged_some.mpr hread)]
    show (checkEnd start r data data.length >>= fun x => _) b' = _
    rw [bind_of_ok (checkEnd_ok.mpr ⟨rfl, hbytes, rfl, rfl, rfl⟩)]
    rfl

/-- The reader accepts exactly the schema. -/
theorem readResult_accepts {data : Bytes} {start : ℕ} {r : CompactResult} {b b' : Option ℕ} :
    readResult data start b = .ok (some r) b' ↔ start ≤ data.length ∧
      ∃ c, resultBytes r (data.drop start) c ∧ Affords b c ∧ b' = spend b c := by
  rw [readResult_some]
  constructor
  · rintro ⟨hread, hbytes⟩
    have hstart : start ≤ data.length := by
      by_contra hlt
      rw [Nat.not_le] at hlt
      unfold readSome at hread
      obtain ⟨⟨u, o⟩, s, hu, -⟩ := bind_eq_ok hread
      rw [require, if_pos (by omega)] at hu
      cases hu
    obtain ⟨w, rest, c, hs, he, hw, hb, rfl⟩ := readSome_reads.sound hstart hread
    have hrest : rest = [] := by
      have hlength := hs.advance.length
      exact List.length_eq_zero_iff.mp (by omega)
    subst hrest
    have hdrop : data.drop start = w := by simpa using hs.drop
    refine ⟨hstart, c, ⟨hdrop ▸ hw, ?_⟩, hb, rfl⟩
    rw [hbytes, List.length_drop]
  · rintro ⟨hstart, c, ⟨hw, hbytes⟩, hb, rfl⟩
    have hs : Suffix data start (data.drop start++[]) := by
      rw [List.append_nil]
      exact ⟨hstart, rfl⟩
    have hend : start+(data.drop start).length = data.length := by
      rw [List.length_drop]
      omega
    have hread := readSome_reads.complete hs hw hb
    rw [hend] at hread
    exact ⟨hread, by rw [hbytes, List.length_drop]⟩

theorem decode_some {data : Bytes} {offset : ℤ} {v : Value} {b b' : Option ℕ} :
    decodeCompactFlowQueryResult data offset b = .ok (some v) b' ↔
      0 ≤ offset ∧ ∃ r, v = r.value ∧ readResult data offset.toNat b = .ok (some r) b' := by
  unfold decodeCompactFlowQueryResult
  by_cases hneg : offset < 0
  · rw [if_pos hneg]
    exact ⟨nofun, fun h => absurd h.1 (by omega)⟩
  rw [if_neg hneg]
  cases hread : readResult data offset.toNat b with
  | ok found s =>
    cases found with
    | none => exact ⟨nofun, fun ⟨_, r, _, h⟩ => by cases h⟩
    | some r =>
      constructor
      · rintro ⟨⟩
        exact ⟨by omega, r, rfl, rfl⟩
      · rintro ⟨-, x, rfl, h⟩
        cases h
        rfl
  | error e s =>
    constructor
    · cases e <;> nofun
    · rintro ⟨-, x, -, h⟩
      cases h

/-! ### No read passes the end -/

/-- An error that no read past the end raises. -/
def Harmless (e : Err) : Prop := e ≠ .indexError ∧ e ≠ .structError

theorem Harmless.of_ferricStore {e : Err} (h : e.isFerricStoreError = true) : Harmless e := by
  constructor <;>
  · rintro rfl
    cases h

/-- With so many bytes left, no read that nothing guards passes the end. -/
structure Within {α : Type} (n : ℕ) (p : Parser Err α) : Prop where
  harmless : ∀ {data : Bytes} {offset : ℕ} {b b' : Option ℕ} {e : Err}, offset+n ≤ data.length →
    p data offset b = .error e b' → Harmless e

section Bounds

variable {α β : Type} {p q : Parser Err α} {f : α → Parser Err β} {G : Grammar α} {n : ℕ}

theorem Within.pure (a : α) : Within n (Pure.pure a : Parser Err α) := ⟨fun _ h => nomatch h⟩

theorem Within.fail {e : Err} (he : Harmless e) : Within n (Grammars.fail e : Parser Err α) := by
  refine ⟨fun _ h => ?_⟩
  cases h
  exact he

theorem Within.refuse (message : String) :
    Within n (FlowQueryResults.refuse message : Parser Err α) :=
  Within.fail (.of_ferricStore rfl)

theorem Within.ite {c : Prop} {_ : Decidable c} (hp : Within n p) (hq : Within n q) :
    Within n (if c then p else q) := by
  split_ifs
  · exact hp
  · exact hq

/-- A step that takes at most so many bytes of those left. -/
theorem Within.step {k : ℕ} (hp : Within (k+n) p) (hreads : Reads p G)
    (hsize : ∀ a w c, G a w c → w.length ≤ k) (hf : ∀ a, Within n (f a)) :
    Within (k+n) (p >>= f) := by
  refine ⟨fun {data offset b b' e} hn h => ?_⟩
  cases hrun : p data offset b with
  | error e' s =>
    rw [bind_apply, bind_of_error hrun] at h
    cases h
    exact hp.harmless hn hrun
  | ok r s =>
    rw [bind_apply, bind_of_ok hrun] at h
    obtain ⟨w, rest, c, hs, he, hw, -⟩ := hreads.sound (by omega) hrun
    have hlength := hsize _ _ _ hw
    refine (hf r.1).harmless ?_ h
    omega

theorem Within.bind (hp : Within n p) (hreads : Reads p G) (hf : ∀ a, Within 0 (f a)) :
    Within n (p >>= f) := by
  refine ⟨fun {data offset b b' e} hn h => ?_⟩
  cases hrun : p data offset b with
  | error e' s =>
    rw [bind_apply, bind_of_error hrun] at h
    cases h
    exact hp.harmless hn hrun
  | ok r s =>
    rw [bind_apply, bind_of_ok hrun] at h
    obtain ⟨w, rest, c, hs, he, -⟩ := hreads.sound (by omega) hrun
    refine (hf r.1).harmless ?_ h
    rw [he]
    exact hs.available

theorem Within.require {size : ℕ} (hp : Within size p) :
    Within n (FlowQueryResults.require size >>= fun _ => p) := by
  refine ⟨fun {data offset b b' e} _ h => ?_⟩
  rw [bind_apply] at h
  by_cases hsize : offset+size > data.length
  · rw [FlowQueryResults.require, if_pos hsize] at h
    cases h
    exact .of_ferricStore rfl
  · have hrun : FlowQueryResults.require size data offset b = .ok ((), offset) b := by
      rw [FlowQueryResults.require, if_neg hsize]
      rfl
    rw [bind_of_ok hrun] at h
    exact hp.harmless (by omega) h

/-- A byte that is there. -/
theorem Within.byte {short : Err} {g : UInt8 → Parser Err β} (hg : ∀ x, Within n (g x)) :
    Within (n+1) (Grammars.byte short >>= g) := by
  refine ⟨fun {data offset b b' e} hn h => ?_⟩
  have hlt : offset < data.length := by omega
  have hrun : Grammars.byte short data offset b = .ok (data[offset], offset+1) b := by
    rw [Grammars.byte, List.getElem?_eq_getElem hlt]
    rfl
  rw [bind_apply, bind_of_ok hrun] at h
  exact (hg _).harmless (by omega) h

theorem Within.field {short : Err} (hshort : Harmless short) (size : ℕ) :
    Within n (Grammars.field short size) := by
  refine ⟨fun {data offset b b' e} _ h => ?_⟩
  unfold Grammars.field at h
  split_ifs at h
  · cases h
    exact hshort
  · cases h

/-- A number that is there. -/
theorem Within.natural {short : Err} {size : ℕ} {g : ℕ → Parser Err β} (hg : ∀ x, Within n (g x)) :
    Within (size+n) (Grammars.natural short size >>= g) := by
  refine ⟨fun {data offset b b' e} hn h => ?_⟩
  have hrun : Grammars.natural short size data offset b =
      .ok (BigEndian.decode (slice data offset size), offset+size) b := by
    have hfield : Grammars.field short size data offset b =
        .ok (slice data offset size, offset+size) b := by
      rw [Grammars.field, if_neg (by omega)]
      rfl
    rw [Grammars.natural, bind_apply, bind_of_ok hfield]
    rfl
  rw [bind_apply, bind_of_ok hrun] at h
  exact (hg _).harmless (by omega) h

theorem Within.charge {excess : Err} (hexcess : Harmless excess) (count : ℕ) :
    Within n (Grammars.charge excess count) := by
  refine ⟨fun {data offset b b' e} _ h => ?_⟩
  cases b with
  | none => cases h
  | some r =>
    unfold Grammars.charge at h
    dsimp only at h
    split_ifs at h
    cases h
    exact hexcess

theorem Within.times (hp : Within 0 p) (hreads : Reads p G) (count : ℕ) :
    Within 0 (Grammars.times p count) := by
  induction count with
  | zero => exact Within.pure []
  | succ count ih =>
    exact hp.bind hreads fun a => ih.bind (hreads.times count) fun as => Within.pure _

end Bounds

theorem truncated_harmless : Harmless truncated := .of_ferricStore rfl

theorem byte_within : Within 0 (byte truncated) := by
  refine ⟨fun {data offset b b' e} _ h => ?_⟩
  unfold byte at h
  cases hx : data[offset]? with
  | some x =>
    rw [hx] at h
    cases h
  | none =>
    rw [hx] at h
    cases h
    exact truncated_harmless

theorem natural_within (size : ℕ) : Within 0 (natural truncated size) :=
  (Within.field truncated_harmless size).bind (Reads.field truncated size) fun _ => Within.pure _

theorem binaryParser_within : Within 0 binaryParser :=
  (natural_within 4).bind (Reads.natural truncated 4) fun size =>
    Within.field truncated_harmless size

theorem distinct_within {p : Parser Err Value} {G : Grammar Value} (hp : Within 0 p)
    (hreads : Reads p G) (count : ℕ) (seen : List (Bytes × Value)) :
    Within 0 (distinct duplicateKey binaryParser p count seen) := by
  induction count generalizing seen with
  | zero => exact Within.pure seen
  | succ count ih =>
    exact binaryParser_within.bind binaryParser_reads fun k =>
      Within.ite (Within.fail (.of_ferricStore rfl)) (hp.bind hreads fun v => ih _)

theorem counted_within {α : Type} {q : ℕ → Parser Err (List α)} (hq : ∀ n, Within 0 (q n)) :
    Within 0 (do
      let count ← natural truncated 4
      charge collectionLimit count
      q count) :=
  (natural_within 4).bind (Reads.natural truncated 4) fun count =>
    (Within.charge (.of_ferricStore rfl) count).bind (Reads.charge collectionLimit count)
      fun _ => hq count

theorem taggedParser_within {p : Parser Err Value} {G : Grammar Value} (hp : Within 0 p)
    (hreads : Reads p G) : ∀ tag, Within 0 (taggedParser p tag)
  | 0 => Within.pure _
  | 1 => Within.pure _
  | 2 => Within.pure _
  | 3 => (Within.bind (Within.field truncated_harmless 8) (Reads.field truncated 8)
      fun _ => Within.pure _).bind (Reads.integer truncated 8) fun _ => Within.pure _
  | 4 => binaryParser_within.bind binaryParser_reads fun _ => Within.pure _
  | 5 => (counted_within fun n => hp.times hreads n).bind hreads.listOf fun _ => Within.pure _
  | 6 => (counted_within fun n => distinct_within hp hreads n []).bind
      (binaryParser_reads.mapOf hreads) fun _ => Within.pure _
  | 7 => (Within.field truncated_harmless 8).bind (Reads.field truncated 8) fun _ => Within.pure _
  | 8 => (natural_within 8).bind (Reads.natural truncated 8) fun _ => Within.pure _
  | _+9 => Within.fail (.of_ferricStore rfl)

theorem valueParser_within (n : ℕ) : Within 0 (valueParser n) := by
  induction n with
  | zero => exact Within.fail (.of_ferricStore rfl)
  | succ n ih =>
    have hparser : valueParser (n+1) = (do
        let tag ← byte truncated
        taggedParser (valueParser n) tag.toNat : Parser Err Value) := by
      funext data offset
      exact valueParser_eq data offset n
    rw [hparser]
    exact byte_within.bind (Reads.byte truncated) fun tag =>
      taggedParser_within ih (valueParser_reads n) tag.toNat

theorem readNatural_within (size : ℕ) : Within 0 (readNatural size) := by
  refine Within.require ⟨fun {data offset b b' e} hn h => ?_⟩
  have hlast := @Within.natural ℕ 0 .structError size (fun m => (Pure.pure m : Parser Err ℕ))
    fun m => Within.pure m
  refine @Within.harmless _ _ _ hlast data offset b b' _ hn ?_
  rw [bind_apply, bind_of_error h]

theorem readCode_within {n m : ℕ} : Within (m+1) (readCode n) := by
  refine Within.byte fun code => ?_
  by_cases h : code.toNat < n
  · simp only [dif_pos h]
    exact Within.pure _
  · simp only [dif_neg h]
    exact Within.refuse _

theorem readCode_step {β : Type} {n m : ℕ} (hn : n ≤ 256) {f : Fin n → Parser Err β}
    (hf : ∀ x, Within m (f x)) : Within (1+m) (readCode n >>= f) := by
  refine Within.step ?_ (readCode_reads hn) ?_ hf
  · rw [Nat.add_comm]
    exact readCode_within
  · rintro a w c ⟨rfl, -⟩
    exact le_rfl

theorem readQuality_within : Within 4 readQuality := by
  have hcodes : Within (1+(1+(1+(1+0)))) readQuality :=
    readCode_step (by decide) fun exactness => readCode_step (by decide) fun freshness =>
      readCode_step (by decide) fun coverage => readCode_step (by decide) fun pagination =>
        Within.pure _
  exact hcodes

theorem readUsage_within : Within 0 readUsage := by
  have hcounter : Within 0 readCounter := (readNatural_within 8).bind (readNatural_reads 8) fun n =>
    Within.ite (Within.refuse _) (Within.pure n)
  exact (hcounter.times readCounter_reads _).bind (readCounter_reads.times _) fun ns =>
    Within.ite (Within.refuse _) (Within.pure _)

theorem readPage_within : Within 0 readPage := by
  refine Within.require (Within.byte (n := 4) fun hasMore => Within.natural (n := 0) fun size => ?_)
  exact Within.ite (Within.pure none) (Within.ite (Within.refuse _)
    ((Within.field (.of_ferricStore rfl) size).bind (Reads.field truncatedResult size) fun cursor =>
      Within.ite (Within.refuse _) (Within.ite (Within.refuse _) (Within.pure (some cursor)))))

theorem readFields_within (bitmap index : ℕ) (names : List String) :
    Within 0 (readFields bitmap index names) := by
  induction names generalizing index with
  | nil => exact Within.pure []
  | cons name names ih =>
    exact Within.ite ((valueParser_within (maxValueNesting+1)).bind readValue_reads fun v =>
      (ih (index+1)).bind (readFields_reads bitmap (index+1) names) fun rest => Within.pure _)
        (ih (index+1))

theorem readRecord_within : Within 0 readRecord :=
  (readNatural_within 4).bind (readNatural_reads 4) fun bitmap => Within.ite (Within.refuse _)
    ((Within.charge (.of_ferricStore rfl) _).bind (Reads.charge Err.decodedCollectionLimit _)
      fun _ => readFields_within bitmap 0 recordFields)

theorem readBody_within (kind : UInt8) (u : Usage) : Within 0 (readBody kind u) := by
  refine Within.ite ?_ (Within.ite (Within.ite (Within.refuse _) ?_) (Within.refuse _))
  · exact readPage_within.bind readPage_reads fun cursor =>
      (readNatural_within 4).bind (readNatural_reads 4) fun count =>
        Within.ite (Within.refuse _) (Within.ite (Within.refuse _)
          ((Within.charge (.of_ferricStore rfl) count).bind
            (Reads.charge Err.decodedCollectionLimit count) fun _ =>
              (readRecord_within.times readRecord_reads count).bind
                (readRecord_reads.times count) fun records => Within.pure _))
  · exact (readNatural_within 8).bind (readNatural_reads 8) fun count =>
      Within.ite (Within.refuse _) (Within.pure _)

theorem readSections_within : Within 5 readSections :=
  Within.byte fun kind => readQuality_within.bind readQuality_reads fun _ =>
    readUsage_within.bind readUsage_reads fun u =>
      (readBody_within kind u).bind (readBody_reads kind u) fun _ => Within.pure _

theorem readTagged_within : Within 0 readTagged := by
  refine Within.require ?_
  have hbyte : Within (5+1) (byte .indexError >>= fun found =>
      if found ≠ tag then (Pure.pure none : Parser Err (Option CompactResult)) else (do
        let r ← readSections
        Pure.pure (some r))) := Within.byte fun found => Within.ite (Within.pure none)
    (readSections_within.bind readSections_reads fun r => Within.pure _)
  exact ⟨fun hn h => hbyte.harmless (by omega) h⟩

/-- No read of the decoder passes the end of the data. -/
theorem readResult_harmless {data : Bytes} {start : ℕ} {e : Err} {b b' : Option ℕ}
    (h : readResult data start b = .error e b') : Harmless e := by
  unfold readResult at h
  cases hrun : readTagged data start b with
  | error e' s =>
    rw [bind_of_error hrun] at h
    cases h
    by_cases hstart : start ≤ data.length
    · exact readTagged_within.harmless hstart hrun
    · unfold readTagged at hrun
      have hrequire : require 94 data start b = .error truncatedResult b := by
        rw [require, if_pos (by omega)]
        rfl
      rw [bind_apply, bind_of_error hrequire] at hrun
      cases hrun
      exact .of_ferricStore rfl
  | ok r s =>
    rw [bind_of_ok hrun] at h
    obtain ⟨found, offset⟩ := r
    cases found with
    | none => cases h
    | some r =>
      unfold checkEnd at h
      dsimp only at h
      split_ifs at h
      · cases h
        exact .of_ferricStore rfl
      · cases h
        exact .of_ferricStore rfl
      · cases h

/-! ### Encoding -/

/-- The bits of the fields with these names. -/
def bitmapOf (names : List String) : List String → ℕ
  | [] => 0
  | field::fields => (if field ∈ names then 1 else 0)+2*bitmapOf names fields

theorem bitmapOf_lt (names fields : List String) : bitmapOf names fields < 2^fields.length := by
  induction fields with
  | nil => exact Nat.one_pos
  | cons field fields ih =>
    rw [bitmapOf, List.length_cons, Nat.pow_succ]
    split_ifs <;> omega

/-- Reading a shifted bitmap selects the fields behind. -/
theorem selected_shift {bitmap low : ℕ} (hlow : low < 2) (index : ℕ) (fields : List String) :
    selected (low+2*bitmap) (index+1) fields = selected bitmap index fields := by
  have hbit : ∀ i, (low+2*bitmap).testBit (i+1) = bitmap.testBit i := by
    intro i
    rw [Nat.testBit_succ]
    congr 1
    omega
  induction fields generalizing index with
  | nil => rfl
  | cons field fields ih =>
    rw [selected, selected, hbit, ih (index+1)]

theorem selected_bitmapOf (names fields : List String) :
    selected (bitmapOf names fields) 0 fields = fields.filter (· ∈ names) := by
  induction fields with
  | nil => rfl
  | cons field fields ih =>
    have hrest : ∀ low < 2, selected (low+2*bitmapOf names fields) 1 fields =
        fields.filter (· ∈ names) := fun low hlow => (selected_shift hlow 0 fields).trans ih
    rw [selected, bitmapOf, List.filter_cons]
    by_cases hmem : field ∈ names
    · rw [if_pos hmem, hrest 1 (by decide)]
      simp [hmem, Nat.testBit_zero]
    · rw [if_neg hmem, hrest 0 (by decide)]
      simp [hmem, Nat.testBit_zero]

/-- A record's fields, in the order of the schema, are the fields of its bitmap. -/
theorem selected_names {names fields : List String} (hfields : fields.Nodup)
    (hnames : names.Sublist fields) :
    selected (bitmapOf names fields) 0 fields = names := by
  rw [selected_bitmapOf]
  induction hnames with
  | slnil => rfl
  | @cons names fields field hsub ih =>
    obtain ⟨hfield, hnodup⟩ := List.nodup_cons.mp hfields
    have hout : field ∉ names := fun h => hfield (hsub.subset h)
    rw [List.filter_cons_of_neg (by simpa using hout)]
    exact ih hnodup
  | @cons_cons names fields field hsub ih =>
    obtain ⟨hfield, hnodup⟩ := List.nodup_cons.mp hfields
    rw [List.filter_cons_of_pos (by simp)]
    have hrest : fields.filter (· ∈ field::names) = fields.filter (· ∈ names) := by
      refine List.filter_congr fun x hx => ?_
      have hne : x ≠ field := fun h => hfield (h ▸ hx)
      simp [hne]
    rw [hrest, ih hnodup]

/-- A record as the schema writes it, its values under the value codec. -/
def encodeRecord (record : Record) : Except Err Bytes := do
  let values ← record.mapM fun f => encodeValue f.2 none
  .ok (BigEndian.encode 4 (bitmapOf (record.map Prod.fst) recordFields)++values.flatten)

def encodeBody : Body → Except Err Bytes
  | .page cursor records => do
    let encoded ← records.mapM encodeRecord
    .ok (pageBytes cursor++(BigEndian.encode 4 records.length++encoded.flatten))
  | .count n => .ok (BigEndian.encode 8 n)

def encodeResult (r : CompactResult) : Except Err Bytes := do
  let body ← encodeBody r.body
  .ok (tag::r.body.kind::(r.quality.bytes++(r.usage.bytes++body)))

/-- A record of the schema: fields in their order, values that the codec gives back. -/
structure ValidRecord (record : Record) : Prop where
  fields : (record.map Prod.fst).Sublist recordFields
  values : ∀ f ∈ record, norm f.2 = f.2

/-- A result of the schema. -/
structure ValidResult (r : CompactResult) : Prop where
  counters : ∀ n ∈ r.usage.counters, n ≤ maxInteger
  usage : r.usage.valid = true
  body : match r.body with
    | .page cursor records => (∀ x ∈ cursor, ValidCursor x) ∧ records.length ≤ maxRecords ∧
        r.usage.resultRecords = records.length ∧ records.length ≤ r.usage.scannedEntries ∧
        ∀ record ∈ records, ValidRecord record
    | .count n => r.usage.resultRecords = 1 ∧ n ≤ maxInteger

theorem tagged_of_encode {v : Value} {w : Bytes} (h : encodeValue v none = .ok w)
    (hnorm : norm v = v) : ∃ c, tagged (maxValueNesting+1) v w c := by
  have hspells := encodeValue_spells v w h w [] 0 (by
    rw [List.append_nil]
    exact Suffix.start w)
  rw [hnorm, Nat.zero_add] at hspells
  obtain ⟨w', rest, c, hs, he, hw, -⟩ := (valueParser_reads (maxValueNesting+1)).sound
    (Nat.zero_le _) hspells
  have hdrop : w = w'++rest := hs.drop
  have hrest : rest = [] := by
    have hlength := congrArg List.length hdrop
    rw [List.length_append] at hlength
    exact List.length_eq_zero_iff.mp (by omega)
  rw [hrest, List.append_nil] at hdrop
  exact ⟨c, hdrop ▸ hw⟩

theorem mapM_cons_ok {α β : Type} {f : α → Except Err β} {a : α} {as : List α} {bs : List β}
    (h : (a::as).mapM f = .ok bs) :
    ∃ b rest, f a = .ok b ∧ as.mapM f = .ok rest ∧ bs = b::rest := by
  rw [List.mapM_cons] at h
  obtain ⟨b, hb, h⟩ := except_bind_eq_ok h
  obtain ⟨rest, hrest, h⟩ := except_bind_eq_ok h
  cases h
  exact ⟨b, rest, hb, hrest, rfl⟩

/-- Items whose encodings have a grammar make a sequence of it. -/
theorem sequence_of_mapM {α : Type} {f : α → Except Err Bytes} {G : Grammar α} {as : List α}
    {ws : List Bytes} (hf : ∀ a ∈ as, ∀ w, f a = .ok w → ∃ c, G a w c)
    (h : as.mapM f = .ok ws) : ∃ c, Sequence G as ws.flatten c := by
  induction as generalizing ws with
  | nil =>
    cases h
    exact ⟨0, .nil⟩
  | cons a as ih =>
    obtain ⟨w, rest, hw, hrest, rfl⟩ := mapM_cons_ok h
    obtain ⟨c, hc⟩ := hf a List.mem_cons_self w hw
    obtain ⟨cs, hcs⟩ := ih (fun x hx => hf x (List.mem_cons_of_mem a hx)) hrest
    exact ⟨c+cs, .cons hc hcs⟩

theorem Sequence.map {α β : Type} {G : Grammar β} {g : α → β} {as : List α} {w : Bytes} {c : ℕ}
    (h : Sequence (fun a => G (g a)) as w c) : Sequence G (as.map g) w c := by
  induction h with
  | nil => exact .nil
  | cons ha _ ih => exact .cons ha ih

theorem recordFields_nodup : recordFields.Nodup := by decide

theorem recordBytes_of_encode {record : Record} {w : Bytes} (hvalid : ValidRecord record)
    (h : encodeRecord record = .ok w) : ∃ c, recordBytes record w c := by
  obtain ⟨values, hvalues, h⟩ := except_bind_eq_ok h
  cases h
  obtain ⟨cs, hs⟩ := sequence_of_mapM (G := fun f => tagged (maxValueNesting+1) f.2)
    (fun f hf w hw => tagged_of_encode hw (hvalid.values f hf)) hvalues
  exact ⟨_, _, _, cs, bitmapOf_lt _ recordFields,
    (selected_names recordFields_nodup hvalid.fields).symm, Sequence.map hs, rfl, rfl⟩

/-- A valid result is written in the language of the schema. -/
theorem resultBytes_of_encode {r : CompactResult} {w : Bytes} (hvalid : ValidResult r)
    (h : encodeResult r = .ok w) (hbytes : r.usage.responseBytes = w.length) :
    ∃ c, resultBytes r w c := by
  obtain ⟨body, hbody, h⟩ := except_bind_eq_ok h
  cases h
  obtain ⟨quality, usage, content⟩ := r
  have hsection : ∃ c, bodyBytes usage content body c := by
    have hcontent := hvalid.body
    cases content with
    | count n =>
      cases hbody
      exact ⟨0, hcontent.1, hcontent.2, rfl, rfl⟩
    | page cursor records =>
      obtain ⟨encoded, hencoded, hlast⟩ := except_bind_eq_ok hbody
      cases hlast
      obtain ⟨hcursor, hmax, husage, hscanned, hrecords⟩ := hcontent
      obtain ⟨cs, hs⟩ := sequence_of_mapM
        (fun record hrecord w hw => recordBytes_of_encode (hrecords record hrecord) hw) hencoded
      exact ⟨_, hcursor, hmax, husage, hscanned, _, cs, hs, rfl, rfl⟩
  obtain ⟨c, hc⟩ := hsection
  exact ⟨c, ⟨_, rfl, body, hc, hvalid.counters, hvalid.usage, rfl⟩, hbytes⟩

end FerricStore.FlowQueryResults
