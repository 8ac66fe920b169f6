import FerricStore.FlowCodec
import FerricStore.ValueCodecBudget

/-!
# The width of a claim row

A compact claim response does not say how many columns its rows have. The decoder tries
six, five and four in turn, each from the same budget, and returns the first that reads
the whole response. Rows whose binaries stay below 2^24 bytes, in a response below
6*2^24 bytes, are read back whatever their width: a column read one width too far
starts with a length byte zero or 255 where a map has to start with its tag, or takes that
tag for the high byte of a length no response of that size can hold.
-/

set_option autoImplicit false

namespace FerricStore.ClaimRowWidths
open Text Cursor Stateful Budgets ValueCodec
open FlowCodec (u32 nullU32)

/-! ## The decoder -/

def compactFlowClaimJobs : UInt8 := 0x80

def readCompactBinary (data : Bytes) (offset : ℕ) : Decoding (Bytes × ℕ) := do
  let size ← readU32 data offset
  if size = nullU32 then
    throw (.ferricStore "protocol compact value expected binary")
  else do
    let b ← readField data (offset+4) size
    pure (b, offset+4+size)

def readCompactOptionalBinary (data : Bytes) (offset : ℕ) : Decoding (Option Bytes × ℕ) := do
  let size ← readU32 data offset
  if size = nullU32 then pure (none, offset+4)
  else do
    let b ← readField data (offset+4) size
    pure (some b, offset+4+size)

def optionalValue : Option Bytes → Value
  | none => .none
  | some b => .bytes b

/-- The attributes column; `none` stands for the `return None` on another value. -/
def readAttributes (data : Bytes) (offset : ℕ) : Decoding (Option Value × ℕ) := do
  let (attrs, offset) ← decodeValueAt data offset
  match attrs with
  | .dict entries => pure (some (.dict entries), offset)
  | _ => pure (none, offset)

/-- The columns a width adds to the first four. -/
def readExtraColumns (data : Bytes) (width offset : ℕ) : Decoding (Option (List Value) × ℕ) :=
  if width = 5 then do
    let (attrs, offset) ← readAttributes data offset
    pure (attrs.map fun attrs => [attrs], offset)
  else if width = 6 then do
    let (runState, offset) ← readCompactOptionalBinary data offset
    let (attrs, offset) ← readAttributes data offset
    pure (attrs.map fun attrs => [optionalValue runState, attrs], offset)
  else pure (some [], offset)

/-- The body of the row loop. -/
def readRow (data : Bytes) (width offset : ℕ) : Decoding (Option (List Value) × ℕ) := do
  consume width
  let (idValue, offset) ← readCompactBinary data offset
  let (partition, offset) ← readCompactOptionalBinary data offset
  let (lease, offset) ← readCompactBinary data offset
  let fencing ← readField data offset 8
  let (extra, offset) ← readExtraColumns data width (offset+8)
  pure (extra.map fun extra =>
    [Value.bytes idValue, optionalValue partition, .bytes lease,
      .int (BigEndian.decodeSigned fencing)]++extra, offset)

def readRows (data : Bytes) (width : ℕ) :
    ℕ → List (List Value) → ℕ → Decoding (Option (List (List Value)))
  | 0, items, offset => pure (if offset = data.length then some items else none)
  | count+1, items, offset => do
    let (row, offset) ← readRow data width offset
    match row with
    | none => pure none
    | some row => readRows data width count (items++[row]) offset

/-- The `except` clauses of both functions. -/
def contain {α : Type} (x : Decoding (Option α)) : Decoding (Option α) := fun budget =>
  match x budget with
  | .ok a left => .ok a left
  | .error .decodedCollectionLimit left => .error .decodedCollectionLimit left
  | .error (.duplicateMapKey message) left => .error (.duplicateMapKey message) left
  | .error e left =>
    if e = .indexError ∨ e = .structError ∨ e.isFerricStoreError = true then .ok none left
    else .error e left

def tryDecodeCustomClaimJobsWidth (data : Bytes) (offset count width : ℕ) :
    Decoding (Option (List (List Value))) :=
  contain (readRows data width count [] offset)

/-- The loop over the widths; `limitError` is set once a width ran out of budget. -/
def tryWidths (data : Bytes) (offset count : ℕ) (checkpoint : Option ℕ) :
    List ℕ → Bool → Decoding (Option (List (List Value)))
  | [], limitError => if limitError then throw .decodedCollectionLimit else pure none
  | width::widths, limitError => fun _ =>
    match tryDecodeCustomClaimJobsWidth data offset count width checkpoint with
    | .ok (some decoded) left => .ok (some decoded) left
    | .ok none left => tryWidths data offset count checkpoint widths limitError left
    | .error .decodedCollectionLimit left =>
      tryWidths data offset count checkpoint widths true left
    | .error e left => .error e left

def tryDecodeCustomClaimJobs (data : Bytes) (offset : ℕ) :
    Decoding (Option (List (List Value))) :=
  contain do
    let count ← readU32 data (offset+1)
    consume count
    let checkpoint ← get
    tryWidths data (offset+5) count checkpoint [6, 5, 4] false

/-! ## Rows and their encoding -/

/-- A map the value codec encodes. -/
structure Attributes where
  entries : List (Key × Value)
  wire : Bytes
  encodes : encodeValue (.dict entries) none = .ok wire

/-- A binary column. -/
abbrev Short := { b : Bytes // b.length < 2^24 }

inductive Width where
  | four
  | five
  | six
  deriving DecidableEq, Repr

def Width.columns : Width → ℕ
  | .four => 4
  | .five => 5
  | .six => 6

inductive ExtraColumns : Width → Type where
  | bare : ExtraColumns .four
  | attributes (attrs : Attributes) : ExtraColumns .five
  | runState (state : Option Short) (attrs : Attributes) : ExtraColumns .six

structure Row (w : Width) where
  id : Short
  partition : Option Short
  lease : Short
  fencing : ℤ
  fencing_low : i64Min ≤ fencing
  fencing_high : fencing ≤ i64Max
  extra : ExtraColumns w

def binaryWire (b : Short) : Bytes := u32 b.1.length++b.1

def optionalWire : Option Short → Bytes
  | none => u32 nullU32
  | some b => binaryWire b

def ExtraColumns.wire {w : Width} : ExtraColumns w → Bytes
  | .bare => []
  | .attributes attrs => attrs.wire
  | .runState state attrs => optionalWire state++attrs.wire

/-- The columns as they are read back. -/
def ExtraColumns.values {w : Width} : ExtraColumns w → List Value
  | .bare => []
  | .attributes attrs => [norm (.dict attrs.entries)]
  | .runState state attrs =>
    [optionalValue (state.map Subtype.val), norm (.dict attrs.entries)]

/-- What the maps of a row take from the budget. -/
def ExtraColumns.counts {w : Width} : ExtraColumns w → ℕ
  | .bare => 0
  | .attributes attrs => headerCounts (norm (.dict attrs.entries))
  | .runState _ attrs => headerCounts (norm (.dict attrs.entries))

namespace Row

variable {w : Width}

def wire (row : Row w) : Bytes :=
  binaryWire row.id++(optionalWire row.partition++(binaryWire row.lease++
    (BigEndian.encodeSigned 8 row.fencing++row.extra.wire)))

def values (row : Row w) : List Value :=
  [Value.bytes row.id, optionalValue (row.partition.map Subtype.val), .bytes row.lease,
    .int row.fencing]++row.extra.values

def counts (row : Row w) : ℕ := w.columns+row.extra.counts

end Row

def rowsWire {w : Width} (rows : List (Row w)) : Bytes := (rows.map Row.wire).flatten

def rowsCounts {w : Width} (rows : List (Row w)) : ℕ := (rows.map Row.counts).sum

def claimJobsWire {w : Width} (rows : List (Row w)) : Bytes :=
  compactFlowClaimJobs::(u32 rows.length++rowsWire rows)

/-- What a response takes from the budget at its true width. -/
def claimJobsCounts {w : Width} (rows : List (Row w)) : ℕ := rows.length+rowsCounts rows

/-! ## Reading columns -/

theorem u32_small {n : ℕ} (h : n < 2^24) : u32 n = 0::BigEndian.encode 3 n := by
  have hzero : n/256/256/256 = 0 := by omega
  simp [u32, BigEndian.encode, hzero]

theorem consume_afford {budget : Option ℕ} {count : ℕ} (h : Affords budget count) :
    consume count budget = .ok () (spend budget count) :=
  (consume_charges count).afford rfl h

theorem consume_cases (count : ℕ) (budget : Option ℕ) :
    (∃ left, consume count budget = .ok () left) ∨
      consume count budget = .error .decodedCollectionLimit budget := by
  cases budget with
  | none => exact .inl ⟨none, rfl⟩
  | some r =>
    unfold consume
    dsimp only
    split
    · exact .inr rfl
    · exact .inl ⟨_, rfl⟩

section Columns

variable {data rest : Bytes} {offset : ℕ} (budget : Option ℕ)

theorem short_length (b : Short) : b.1.length < 256^4 ∧ b.1.length ≠ nullU32 := by
  have := b.2
  unfold nullU32
  omega

theorem readCompactBinary_suffix (b : Short) (h : Suffix data offset (binaryWire b++rest)) :
    readCompactBinary data offset budget =
      .ok (b.1, offset+(binaryWire b).length) budget := by
  obtain ⟨hlength, hnull⟩ := short_length b
  rw [binaryWire, List.append_assoc] at h
  have ha : Suffix data (offset+4) (b.1++rest) := by simpa [u32] using h.advance
  rw [readCompactBinary, bind_of_ok (readU32_suffix budget hlength h), if_neg hnull,
    bind_of_ok (readField_suffix budget rfl ha)]
  simp [binaryWire, u32, Nat.add_assoc]

theorem readCompactOptionalBinary_suffix (b : Option Short)
    (h : Suffix data offset (optionalWire b++rest)) :
    readCompactOptionalBinary data offset budget =
      .ok (b.map Subtype.val, offset+(optionalWire b).length) budget := by
  cases b with
  | none =>
    rw [readCompactOptionalBinary, bind_of_ok (readU32_suffix budget (by decide) h), if_pos rfl]
    simp [optionalWire, u32]
  | some b =>
    obtain ⟨hlength, hnull⟩ := short_length b
    simp only [optionalWire, binaryWire, List.append_assoc] at h
    have ha : Suffix data (offset+4) (b.1++rest) := by simpa [u32] using h.advance
    rw [readCompactOptionalBinary, bind_of_ok (readU32_suffix budget hlength h), if_neg hnull,
      bind_of_ok (readField_suffix budget rfl ha)]
    simp [optionalWire, binaryWire, u32, Nat.add_assoc]

theorem readAttributes_suffix (attrs : Attributes)
    (hb : Affords budget (headerCounts (norm (.dict attrs.entries))))
    (h : Suffix data offset (attrs.wire++rest)) :
    readAttributes data offset budget =
      .ok (some (norm (.dict attrs.entries)), offset+attrs.wire.length)
        (spend budget (headerCounts (norm (.dict attrs.entries)))) := by
  have hvalue := encodeValue_spells _ _ attrs.encodes data rest offset h
  have hrun := (decodeValueFrom_charges data _ offset).afford hvalue hb
  rw [readAttributes, decodeValueAt, bind_of_ok hrun]
  rfl

theorem readExtraColumns_five (data : Bytes) (offset : ℕ) :
    readExtraColumns data 5 offset = (do
      let (attrs, offset) ← readAttributes data offset
      pure (attrs.map fun attrs => [attrs], offset)) := rfl

theorem readExtraColumns_six (data : Bytes) (offset : ℕ) :
    readExtraColumns data 6 offset = (do
      let (runState, offset) ← readCompactOptionalBinary data offset
      let (attrs, offset) ← readAttributes data offset
      pure (attrs.map fun attrs => [optionalValue runState, attrs], offset)) := rfl

theorem readExtraColumns_suffix {w : Width} (extra : ExtraColumns w)
    (hb : Affords budget extra.counts) (h : Suffix data offset (extra.wire++rest)) :
    readExtraColumns data w.columns offset budget =
      .ok (some extra.values, offset+extra.wire.length) (spend budget extra.counts) := by
  cases extra with
  | bare =>
    rw [ExtraColumns.counts, spend_zero]
    rfl
  | attributes attrs =>
    have hattrs := readAttributes_suffix budget attrs hb h
    rw [Width.columns, readExtraColumns_five, bind_of_ok hattrs]
    rfl
  | runState state attrs =>
    rw [ExtraColumns.wire, List.append_assoc] at h
    have hstate := readCompactOptionalBinary_suffix budget state h
    have hattrs := readAttributes_suffix budget attrs hb h.advance
    rw [Width.columns, readExtraColumns_six, bind_of_ok hstate]
    dsimp only
    rw [bind_of_ok hattrs]
    simp [ExtraColumns.values, ExtraColumns.wire, ExtraColumns.counts, Nat.add_assoc]

/-- The four columns every row has. -/
def Row.headWire {w : Width} (row : Row w) : Bytes :=
  binaryWire row.id++(optionalWire row.partition++(binaryWire row.lease++
    BigEndian.encodeSigned 8 row.fencing))

theorem Row.wire_eq {w : Width} (row : Row w) : row.wire = row.headWire++row.extra.wire := by
  simp [Row.wire, Row.headWire]

/-- At any width a row is its four columns, and what that width reads behind them. -/
theorem readRow_head {w : Width} (row : Row w) {width : ℕ} {left : Option ℕ}
    (hb : consume width budget = .ok () left)
    (h : Suffix data offset (row.headWire++rest)) :
    readRow data width offset budget =
      (do
        let (extra, offset) ← readExtraColumns data width (offset+row.headWire.length)
        pure (extra.map fun extra =>
          [Value.bytes row.id, optionalValue (row.partition.map Subtype.val), .bytes row.lease,
            .int row.fencing]++extra, offset) : Decoding (Option (List Value) × ℕ)) left := by
  simp only [Row.headWire, List.append_assoc] at h
  have hid := readCompactBinary_suffix left row.id h
  have hpartition := readCompactOptionalBinary_suffix left row.partition h.advance
  have hlease := readCompactBinary_suffix left row.lease h.advance.advance
  have hfencing := readField_suffix left (BigEndian.encodeSigned_length 8 row.fencing)
    h.advance.advance.advance
  have hvalue : BigEndian.decodeSigned (BigEndian.encodeSigned 8 row.fencing) = row.fencing := by
    have hlow := row.fencing_low
    have hhigh := row.fencing_high
    simp only [i64Min, i64Max] at hlow hhigh
    exact BigEndian.decodeSigned_encodeSigned 8 _ (by norm_num; omega) (by norm_num; omega)
  have hend : offset+(binaryWire row.id).length+(optionalWire row.partition).length+
      (binaryWire row.lease).length+8 = offset+row.headWire.length := by
    simp [Row.headWire]
    omega
  rw [readRow, bind_of_ok hb, bind_of_ok hid]
  dsimp only
  rw [bind_of_ok hpartition]
  dsimp only
  rw [bind_of_ok hlease]
  dsimp only
  rw [bind_of_ok hfencing, hvalue, hend]

theorem readRow_suffix {w : Width} (row : Row w) (hb : Affords budget row.counts)
    (h : Suffix data offset (row.wire++rest)) :
    readRow data w.columns offset budget =
      .ok (some row.values, offset+row.wire.length) (spend budget row.counts) := by
  rw [row.wire_eq, List.append_assoc] at h
  have hcolumns : Affords budget w.columns := hb.mono (Nat.le_add_right _ _)
  have hextra := readExtraColumns_suffix (spend budget w.columns) row.extra hb.spend h.advance
  rw [readRow_head budget row (consume_afford hcolumns) h, bind_of_ok hextra]
  simp [Row.values, Row.counts, row.wire_eq, Nat.add_assoc]

end Columns

theorem readRows_suffix {w : Width} {data : Bytes} (rows : List (Row w))
    (items : List (List Value)) {offset : ℕ} {budget : Option ℕ}
    (hb : Affords budget (rowsCounts rows)) (h : Suffix data offset (rowsWire rows)) :
    readRows data w.columns rows.length items offset budget =
      .ok (some (items++rows.map Row.values)) (spend budget (rowsCounts rows)) := by
  induction rows generalizing items offset budget with
  | nil =>
    have hend := h.length
    simp only [rowsWire, List.map_nil, List.flatten_nil, List.length_nil, Nat.add_zero] at hend
    simp [readRows, hend, rowsCounts]
  | cons row rows ih =>
    have hwire : rowsWire (row::rows) = row.wire++rowsWire rows := by simp [rowsWire]
    have hcounts : rowsCounts (row::rows) = row.counts+rowsCounts rows := by simp [rowsCounts]
    rw [hwire] at h
    rw [hcounts] at hb
    have hrow := readRow_suffix budget row (hb.mono (Nat.le_add_right _ _)) h
    have hrest := ih (items++[row.values]) hb.spend h.advance
    rw [List.length_cons, readRows, bind_of_ok hrow]
    dsimp only
    rw [hrest, hcounts]
    simp

/-! ## Wrong widths -/

theorem Attributes.wire_eq (attrs : Attributes) :
    ∃ tail, attrs.wire = 6::(u32 attrs.entries.length++tail) := by
  obtain ⟨entries, wire, h⟩ := attrs
  unfold encodeValue at h
  cases hw : writeValue (.dict entries) (maxValueNesting+1) (unbounded []) with
  | error e w =>
    rw [show (⟨none, []⟩ : ValueWriter) = unbounded [] from rfl, hw] at h
    cases h
  | ok u w =>
    rw [show (⟨none, []⟩ : ValueWriter) = unbounded [] from rfl, hw] at h
    rw [writeValue] at hw
    obtain ⟨_, t, hheader, hw⟩ := bind_eq_ok hw
    obtain ⟨-, rfl⟩ := writeCollectionHeader_unbounded _ _ _ _ hheader
    obtain ⟨tail, rfl, -⟩ := writeEntries_spells _ _ _ _ _ hw
    cases h
    exact ⟨tail, by simp [unbounded, u32]⟩

/-- A column or a row that ends the attempt at its width. -/
def Declines {α : Type} (r : EStateM.Result Err (Option ℕ) (Option α × ℕ)) : Prop :=
  (∃ final left, r = .ok (none, final) left) ∨
  (∃ message left, r = .error (.ferricStore message) left) ∨
  ∃ left, r = .error .decodedCollectionLimit left

theorem Declines.map {α β : Type} {x : Decoding (Option α × ℕ)} {budget : Option ℕ}
    (h : Declines (x budget)) (f : α → β) :
    Declines ((do
      let (a, offset) ← x
      pure (a.map f, offset) : Decoding (Option β × ℕ)) budget) := by
  obtain ⟨final, left, h⟩ | ⟨message, left, h⟩ | ⟨left, h⟩ := h
  · rw [bind_of_ok h]
    exact .inl ⟨_, _, rfl⟩
  · rw [bind_of_error h]
    exact .inr (.inl ⟨_, _, rfl⟩)
  · rw [bind_of_error h]
    exact .inr (.inr ⟨_, rfl⟩)

section Wrong

variable {data rest : Bytes} {offset : ℕ} (budget : Option ℕ)

/-- Bytes that do not start a map: the end, or the first byte of a bounded length. -/
def NoMap (wire : Bytes) : Prop :=
  wire = [] ∨ (∃ rest, wire = 0::rest) ∨ ∃ rest, wire = 255::rest

theorem readAttributes_declines {wire : Bytes} (hwire : NoMap wire)
    (h : Suffix data offset wire) : Declines (readAttributes data offset budget) := by
  obtain rfl | ⟨rest, rfl⟩ | ⟨rest, rfl⟩ := hwire
  · have hend := h.length
    have hfield : readField data offset 1 budget =
        .error (.ferricStore "protocol value is truncated") budget := by
      rw [readField, requireAvailable, if_pos (by simp at hend; omega)]
      rfl
    have hvalue : decodeValueAt data offset budget =
        .error (.ferricStore "protocol value is truncated") budget := by
      rw [decodeValueAt, maxValueNesting, decodeValueFrom, bind_of_error hfield]
    rw [readAttributes, bind_of_error hvalue]
    exact .inr (.inl ⟨_, _, rfl⟩)
  · have hvalue : decodeValueAt data offset budget = .ok (.none, offset+1) budget :=
      decode_tag h budget
    rw [readAttributes, bind_of_ok hvalue]
    exact .inl ⟨_, _, rfl⟩
  · have hvalue : decodeValueAt data offset budget =
        .error (.ferricStore "protocol value has unknown tag") budget :=
      decode_tag h budget
    rw [readAttributes, bind_of_error hvalue]
    exact .inr (.inl ⟨_, _, rfl⟩)

theorem binaryWire_noMap (b : Short) (rest : Bytes) : NoMap (binaryWire b++rest) :=
  .inr (.inl ⟨BigEndian.encode 3 b.1.length++(b.1++rest), by simp [binaryWire, u32_small b.2]⟩)

theorem optionalWire_noMap (b : Option Short) (rest : Bytes) : NoMap (optionalWire b++rest) := by
  cases b with
  | none => exact .inr (.inr ⟨[255, 255, 255]++rest, rfl⟩)
  | some b => exact binaryWire_noMap b rest

theorem Row.wire_id {w : Width} (row : Row w) :
    row.wire = binaryWire row.id++(optionalWire row.partition++(binaryWire row.lease++
      (BigEndian.encodeSigned 8 row.fencing++row.extra.wire))) := rfl

/-- Behind a row of four columns stands the next row, or nothing. -/
theorem bare_not_attributes (rows : List (Row .four)) (h : Suffix data offset (rowsWire rows)) :
    Declines (readExtraColumns data 5 offset budget) := by
  have hmap : NoMap (rowsWire rows) := by
    cases rows with
    | nil => exact .inl rfl
    | cons row rows =>
      simp only [rowsWire, List.map_cons, List.flatten_cons, Row.wire_id, List.append_assoc]
      exact binaryWire_noMap row.id _
  rw [readExtraColumns_five]
  exact (readAttributes_declines budget hmap h).map _

theorem bare_not_runState (rows : List (Row .four)) (h : Suffix data offset (rowsWire rows)) :
    Declines (readExtraColumns data 6 offset budget) := by
  rw [readExtraColumns_six]
  cases rows with
  | nil =>
    have hend := h.length
    have hfield : readField data offset 4 budget =
        .error (.ferricStore "protocol value is truncated") budget := by
      rw [readField, requireAvailable, if_pos (by simp [rowsWire] at hend; omega)]
      rfl
    have hstate : readCompactOptionalBinary data offset budget =
        .error (.ferricStore "protocol value is truncated") budget := by
      rw [readCompactOptionalBinary, bind_of_error (by rw [readU32, bind_of_error hfield])]
    rw [bind_of_error hstate]
    exact .inr (.inl ⟨_, _, rfl⟩)
  | cons row rows =>
    simp only [rowsWire, List.map_cons, List.flatten_cons, Row.wire_id, List.append_assoc] at h
    have hid : Suffix data offset (optionalWire (some row.id)++_) := h
    have hstate := readCompactOptionalBinary_suffix budget (some row.id) hid
    rw [bind_of_ok hstate]
    exact (readAttributes_declines budget (optionalWire_noMap row.partition _) h.advance).map _

/-- The tag of a map is the high byte of a length that no bounded response holds. -/
theorem attributes_not_runState (attrs : Attributes)
    (h : Suffix data offset (attrs.wire++rest))
    (hsize : (attrs.wire++rest).length < 6*2^24) :
    Declines (readExtraColumns data 6 offset budget) := by
  obtain ⟨tail, hwire⟩ := attrs.wire_eq
  have hfour : ∃ a b c d, u32 attrs.entries.length = [a, b, c, d] := by
    simp [u32, BigEndian.encode]
  obtain ⟨a, b, c, d, hcount⟩ := hfour
  have hsplit : attrs.wire++rest = [6, a, b, c]++(d::(tail++rest)) := by simp [hwire, hcount]
  have hend := h.length
  rw [hsplit] at h
  have hfield : readField data offset 4 budget = .ok [6, a, b, c] budget :=
    readField_suffix budget rfl h
  have hvalue : 6*2^24 ≤ BigEndian.decode [6, a, b, c] ∧ BigEndian.decode [6, a, b, c] < 7*2^24 := by
    have := a.toNat_lt
    have := b.toNat_lt
    have := c.toNat_lt
    simp [BigEndian.decode]
    omega
  have hnull : BigEndian.decode [6, a, b, c] ≠ nullU32 := by
    unfold nullU32
    omega
  have hread : readU32 data offset budget = .ok (BigEndian.decode [6, a, b, c]) budget := by
    rw [readU32, bind_of_ok hfield]
    rfl
  have hlong : readField data (offset+4) (BigEndian.decode [6, a, b, c]) budget =
      .error (.ferricStore "protocol value is truncated") budget := by
    rw [readField, requireAvailable, if_pos (by omega)]
    rfl
  have hstate : readCompactOptionalBinary data offset budget =
      .error (.ferricStore "protocol value is truncated") budget := by
    rw [readCompactOptionalBinary, bind_of_ok hread, if_neg hnull, bind_of_error hlong]
  rw [readExtraColumns_six, bind_of_error hstate]
  exact .inr (.inl ⟨_, _, rfl⟩)

theorem readRow_declines {w : Width} (row : Row w) {width : ℕ}
    (hwrong : ∀ left,
      Declines (readExtraColumns data width (offset+row.headWire.length) left))
    (h : Suffix data offset (row.headWire++rest)) : Declines (readRow data width offset budget) := by
  obtain ⟨left, hconsume⟩ | hconsume := consume_cases width budget
  · rw [readRow_head budget row hconsume h]
    exact (hwrong left).map _
  · rw [readRow, bind_of_error hconsume]
    exact .inr (.inr ⟨_, rfl⟩)

end Wrong

/-! ## The order of the attempts -/

/-- A width that is passed over. -/
def Passes (r : EStateM.Result Err (Option ℕ) (Option (List (List Value)))) : Prop :=
  (∃ left, r = .ok none left) ∨ ∃ left, r = .error .decodedCollectionLimit left

section Attempts

variable {data : Bytes} {offset n width : ℕ} {budget : Option ℕ}

theorem attempt_passes (h : Declines (readRow data width offset budget)) :
    Passes (tryDecodeCustomClaimJobsWidth data offset (n+1) width budget) := by
  unfold tryDecodeCustomClaimJobsWidth contain
  rw [readRows]
  obtain ⟨final, left, h⟩ | ⟨message, left, h⟩ | ⟨left, h⟩ := h
  · rw [bind_of_ok h]
    exact .inl ⟨_, rfl⟩
  · rw [bind_of_error h]
    exact .inl ⟨_, rfl⟩
  · rw [bind_of_error h]
    exact .inr ⟨_, rfl⟩

theorem attempt_finds {w : Width} (rows : List (Row w)) (hb : Affords budget (rowsCounts rows))
    (h : Suffix data offset (rowsWire rows)) :
    tryDecodeCustomClaimJobsWidth data offset rows.length w.columns budget =
      .ok (some (rows.map Row.values)) (spend budget (rowsCounts rows)) := by
  unfold tryDecodeCustomClaimJobsWidth contain
  rw [readRows_suffix rows [] hb h]
  rfl

theorem tryWidths_pass (h : Passes (tryDecodeCustomClaimJobsWidth data offset n width budget))
    (widths : List ℕ) (limitError : Bool) (left : Option ℕ) :
    ∃ limitError' left', tryWidths data offset n budget (width::widths) limitError left =
      tryWidths data offset n budget widths limitError' left' := by
  rw [tryWidths]
  obtain ⟨left', h⟩ | ⟨left', h⟩ := h
  · exact ⟨limitError, left', by simp only [h]⟩
  · exact ⟨true, left', by simp only [h]⟩

theorem tryWidths_find {decoded : List (List Value)} {after : Option ℕ}
    (h : tryDecodeCustomClaimJobsWidth data offset n width budget = .ok (some decoded) after)
    (widths : List ℕ) (limitError : Bool) (left : Option ℕ) :
    tryWidths data offset n budget (width::widths) limitError left =
      .ok (some decoded) after := by
  rw [tryWidths]
  simp only [h]

end Attempts

/-- The loop returns the rows of the true width. -/
theorem tryWidths_rows {w : Width} (rows : List (Row w)) {data : Bytes} {offset : ℕ}
    {budget : Option ℕ} (hsize : (rowsWire rows).length < 6*2^24)
    (hb : Affords budget (rowsCounts rows)) (h : Suffix data offset (rowsWire rows))
    (left : Option ℕ) :
    tryWidths data offset rows.length budget [6, 5, 4] false left =
      .ok (some (rows.map Row.values)) (spend budget (rowsCounts rows)) := by
  have hfound := attempt_finds rows hb h
  cases rows with
  | nil =>
    have hsix := attempt_finds (w := .six) [] hb h
    exact tryWidths_find hsix [5, 4] false left
  | cons row rows =>
    have hwire : rowsWire (row::rows) = row.headWire++(row.extra.wire++rowsWire rows) := by
      simp [rowsWire, Row.wire_eq]
    have hsuffix := h
    rw [hwire] at hsuffix
    cases w with
    | six => exact tryWidths_find hfound [5, 4] false left
    | five =>
      obtain ⟨id, partition, lease, fencing, hlow, hhigh, extra⟩ := row
      cases extra with
      | attributes attrs =>
        have hbound : (attrs.wire++rowsWire rows).length < 6*2^24 := by
          rw [hwire, List.length_append] at hsize
          exact lt_of_le_of_lt (Nat.le_add_left _ _) hsize
        have hsix := attempt_passes (n := rows.length) (readRow_declines budget _ (fun left =>
          attributes_not_runState left attrs hsuffix.advance hbound) hsuffix)
        obtain ⟨limitError, left', hpass⟩ := tryWidths_pass hsix [5, 4] false left
        exact hpass.trans (tryWidths_find hfound [4] limitError left')
    | four =>
      obtain ⟨id, partition, lease, fencing, hlow, hhigh, extra⟩ := row
      cases extra with
      | bare =>
        have hsix := attempt_passes (n := rows.length) (readRow_declines budget _ (fun left =>
          bare_not_runState left rows hsuffix.advance) hsuffix)
        have hfive := attempt_passes (n := rows.length) (readRow_declines budget _ (fun left =>
          bare_not_attributes left rows hsuffix.advance) hsuffix)
        obtain ⟨limitError, left', hpass⟩ := tryWidths_pass hsix [5, 4] false left
        obtain ⟨limitError', left'', hpass'⟩ := tryWidths_pass hfive [4] limitError left'
        exact hpass.trans (hpass'.trans (tryWidths_find hfound [] limitError' left''))

theorem length_le_rowsWire {w : Width} (rows : List (Row w)) :
    rows.length ≤ (rowsWire rows).length := by
  induction rows with
  | nil => exact Nat.zero_le _
  | cons row rows ih =>
    have hrow : 1 ≤ row.wire.length := by
      simp [Row.wire, binaryWire, u32]
      omega
    have hwire : rowsWire (row::rows) = row.wire++rowsWire rows := by simp [rowsWire]
    rw [hwire, List.length_append, List.length_cons]
    omega

/-- Rows of four, five or six columns are read back from their encoding, behind any
bytes, under every budget they fit at their own width. -/
theorem claim_rows_unambiguous {w : Width} (rows : List (Row w)) (lead : Bytes)
    (budget : Option ℕ) (hsize : (claimJobsWire rows).length < 6*2^24)
    (hb : Affords budget (claimJobsCounts rows)) :
    tryDecodeCustomClaimJobs (lead++claimJobsWire rows) lead.length budget =
      .ok (some (rows.map Row.values)) (spend budget (claimJobsCounts rows)) := by
  have hbound : (rowsWire rows).length < 6*2^24 := by
    simp [claimJobsWire] at hsize
    omega
  have hcount : rows.length < 256^4 := by
    have := length_le_rowsWire rows
    omega
  have hstart : Suffix (lead++claimJobsWire rows) lead.length (claimJobsWire rows) :=
    ⟨by simp, by simp⟩
  have hmarker : Suffix (lead++claimJobsWire rows) lead.length
      ([compactFlowClaimJobs]++(u32 rows.length++rowsWire rows)) := hstart
  have hlength : Suffix (lead++claimJobsWire rows) (lead.length+1)
      (u32 rows.length++rowsWire rows) := hmarker.advance
  have hrows : Suffix (lead++claimJobsWire rows) (lead.length+5) (rowsWire rows) := by
    simpa [u32, Nat.add_assoc] using hlength.advance
  have hread := readU32_suffix budget hcount hlength
  have hconsume := consume_afford (hb.mono (Nat.le_add_right _ _))
  have hfound := tryWidths_rows rows hbound hb.spend hrows (spend budget rows.length)
  unfold tryDecodeCustomClaimJobs contain
  rw [bind_of_ok hread, bind_of_ok hconsume]
  have hget (b : Option ℕ) : (get : Decoding (Option ℕ)) b = .ok b b := rfl
  rw [bind_of_ok (hget _)]
  simp only [hfound]
  rw [spend_spend]
  rfl

def bareRows : List (Row .four) :=
  [⟨⟨[97], by simp⟩, some ⟨[112], by simp⟩, ⟨[108], by simp⟩, 7, by decide, by decide, .bare⟩,
    ⟨⟨[98], by simp⟩, none, ⟨[], by simp⟩, -2, by decide, by decide, .bare⟩]

/-- Two rows of four columns under a budget that six or five columns would not fit. -/
theorem claim_rows_unambiguous_bare :
    tryDecodeCustomClaimJobs (claimJobsWire bareRows) 0 (some 10) =
      .ok (some [[.bytes [97], .bytes [112], .bytes [108], .int 7],
        [.bytes [98], .none, .bytes [], .int (-2)]]) (some 0) :=
  claim_rows_unambiguous bareRows [] (some 10) (by decide) fun n hn => by
    cases hn
    decide

end FerricStore.ClaimRowWidths
