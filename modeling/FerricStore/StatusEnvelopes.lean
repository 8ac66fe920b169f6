import FerricStore.BatchReplies
import FerricStore.FlowQueryResultGrammar

/-!
# Status envelopes and data

Only the codec of pipelines writes statuses as text. Whatever the other decoders return holds
bytes in the places where a status is looked for, so no data is taken for a list of envelopes.
-/

set_option autoImplicit false

namespace FerricStore.Grammars

/-- Every item of a sequence has what the grammar gives. -/
theorem Sequence.forall {α : Type} {G : Grammar α} {P : α → Prop} (h : ∀ a w c, G a w c → P a)
    {as : List α} {w : Bytes} {c : ℕ} (hs : Sequence G as w c) : ∀ a ∈ as, P a := by
  induction hs with
  | nil => simp
  | cons ha _ ih => simpa using ⟨h _ _ _ ha, ih⟩

theorem counted_forall {α : Type} {G : Grammar α} {P : α → Prop} (h : ∀ a w c, G a w c → P a)
    {as : List α} {w : Bytes} {c : ℕ} (hs : counted G as w c) : ∀ a ∈ as, P a := by
  obtain ⟨_, _, -, hs, -⟩ := hs
  exact hs.forall h

end FerricStore.Grammars

namespace FerricStore.BatchReplies
open Text Cursor Stateful Budgets ValueCodec ValueGrammar Grammars CompactCollections
open ClaimRowWidths (optionalValue)
open HttpResults (Interpreter)

/-- Every text of the value is bytes. -/
inductive Textless : Value → Prop where
  | none : Textless .none
  | bool (b : Bool) : Textless (.bool b)
  | int (n : ℤ) : Textless (.int n)
  | float (bits : BitVec 64) : Textless (.float bits)
  | bytes (b : Bytes) : Textless (.bytes b)
  | list {items : List Value} : (∀ v ∈ items, Textless v) → Textless (.list items)
  | map {entries : List (Bytes × Value)} : (∀ e ∈ entries, Textless e.2) →
    Textless (binaryMap entries)

theorem textless_of_tagged {n : ℕ} {v : Value} {w : Bytes} {c : ℕ} (h : tagged n v w c) :
    Textless v := by
  induction n generalizing v w c with
  | zero => exact h.elim
  | succ n ih =>
    cases h with
    | none => exact .none
    | true => exact .bool true
    | false => exact .bool false
    | signed n => exact .int n
    | binary => exact .bytes _
    | list hs => exact .list (counted_forall (fun _ _ _ hv => ih hv) hs)
    | dict hs =>
      refine .map (counted_forall (fun e _ _ he => ?_) hs.2)
      obtain ⟨_, _, _, _, -, hvalue, -⟩ := he
      exact ih hvalue
    | float bits => exact .float bits
    | unsigned n => exact .int n

/-- What the generic decoder returns. -/
theorem textless_of_decode {data : Bytes} {offset final : ℕ} {v : Value} {b b' : Option ℕ}
    (h : decodeValueAt data offset b = .ok (v, final) b') : Textless v := by
  obtain ⟨t, ht, -⟩ := TypedClaimRows.decode_ok h
  obtain ⟨hoffset, -⟩ := List.getElem?_eq_some_iff.mp ht
  obtain ⟨_, _, _, -, -, htagged, -⟩ := (valueParser_reads (maxValueNesting+1)).sound
    (Nat.le_of_lt hoffset) h
  exact textless_of_tagged htagged

/-! ### Where a status is looked for -/

variable (rt : Interpreter)

theorem entryStatus_binaryMap {entries : List (Bytes × Value)} (h : ∀ e ∈ entries, Textless e.2) :
    pipelineStatus rt (binaryMap entries) = none := by
  have htext : Dict.get? (entries.map fun e => (Key.bytes e.1, e.2)) (.str (lit "status")) =
      none := by
    apply Dict.get?_eq_none_of_not_mem
    simp
  have hvalue : ∀ v, Dict.get? (entries.map fun e => (Key.bytes e.1, e.2))
      (.bytes (utf8 (lit "status"))) = some v → Textless v := by
    intro v hv
    obtain ⟨e, he, hev⟩ := List.mem_map.mp (Dict.mem_of_get? hv)
    exact (Prod.mk.inj hev).2 ▸ h e he
  simp only [pipelineStatus, binaryMap, asPair, htext, Option.none_or]
  cases hget : Dict.get? (entries.map fun e => (Key.bytes e.1, e.2))
      (.bytes (utf8 (lit "status"))) with
  | none => rfl
  | some v =>
    have hv := hvalue v hget
    cases hv <;> rfl

theorem pipelineStatus_textless {item : Value} (h : Textless item) :
    pipelineStatus rt item = none := by
  cases h with
  | none => rfl
  | bool b => rfl
  | int n => rfl
  | float bits => rfl
  | bytes b => rfl
  | map hentries => exact entryStatus_binaryMap rt hentries
  | @list items hitems =>
    match items, hitems with
    | [], _ => rfl
    | [_], _ => rfl
    | [a, _], hitems =>
      have ha := hitems a List.mem_cons_self
      cases ha <;> rfl
    | _::_::_::_, _ => rfl

/-- A row of claims is no pair. -/
theorem pipelineStatus_row {row : List Value} (h : row.length ≠ 2) :
    pipelineStatus rt (.list row) = none := by
  match row, h with
  | [], _ => rfl
  | [_], _ => rfl
  | [_, _], h => exact (h rfl).elim
  | _::_::_::_, _ => rfl

theorem isPipelineStatusBatch_data {items : List Value}
    (h : ∀ item ∈ items, pipelineStatus rt item = none) :
    isPipelineStatusBatch rt items = true ↔ items = [] := by
  constructor
  · intro hall
    rw [isPipelineStatusBatch, List.all_eq_true] at hall
    cases items with
    | nil => rfl
    | cons item items =>
      have hitem := hall item List.mem_cons_self
      rw [h item List.mem_cons_self] at hitem
      simp at hitem
  · rintro rfl
    rfl

/-! ### The compact decoders -/

theorem textless_optionalValue (o : Option Bytes) : Textless (optionalValue o) := by
  cases o with
  | none => exact .none
  | some b => exact .bytes b

theorem textless_record {record : List (Bytes × Value)} {w : Bytes} {c : ℕ}
    (h : flowRecord record w c) : Textless (binaryMap record) := by
  obtain ⟨fields, body, -, hfields, rfl, -⟩ := h
  refine .map fun e he => ?_
  have hall := @counted_forall _ _ (fun f : Option Bytes × Value => Textless f.2)
    (fun f _ _ hf => by
      obtain ⟨_, _, _, _, -, hvalue, -⟩ := hf
      exact textless_of_tagged hvalue.1) _ _ _ hfields
  obtain ⟨f, hf, hfe⟩ := List.mem_filterMap.mp he
  obtain ⟨key, -, rfl⟩ := Option.map_eq_some_iff.mp hfe
  exact hall f hf

/-- The items of every format but that of pipelines. -/
theorem Format.textless {format : Format} (hformat : format ≠ .pipeline) {v : Value} {w : Bytes}
    {c : ℕ} (h : format.body v w c) : Textless v := by
  cases format with
  | pipeline => exact (hformat rfl).elim
  | kvMget =>
    obtain ⟨items, -, rfl⟩ := h
    exact .list (List.forall_mem_map.mpr fun o _ => textless_optionalValue o)
  | kvMgetFixed =>
    obtain ⟨items, size, -, -, -, -, -, rfl⟩ := h
    exact .list (List.forall_mem_map.mpr fun b _ => .bytes b)
  | flowRecordList =>
    obtain ⟨items, hitems, rfl⟩ := h
    exact .list (List.forall_mem_map.mpr (counted_forall (fun _ _ _ h => textless_record h) hitems))
  | binaryListList =>
    obtain ⟨items, -, rfl⟩ := h
    exact .list (List.forall_mem_map.mpr fun bs _ =>
      .list (List.forall_mem_map.mpr fun b _ => .bytes b))
  | binaryMapList =>
    obtain ⟨items, -, rfl⟩ := h
    exact .list (List.forall_mem_map.mpr fun es _ =>
      .map (List.forall_mem_map.mpr fun e _ => .bytes e.2))
  | integerList =>
    obtain ⟨items, -, rfl⟩ := h
    exact .list (List.forall_mem_map.mpr fun n _ => .int n)
  | okList =>
    obtain ⟨n, -, -, -, rfl⟩ := h
    exact .list fun v hv => List.eq_of_mem_replicate hv ▸ .bytes _

theorem pipelineItem_status {v : Value} {w : Bytes} {c : ℕ} (h : PipelineItem v w c) :
    pipelineStatus rt v ∈ [some (lit "ok"), some (lit "busy"), some (lit "error")] := by
  cases h with
  | ok => exact List.mem_cons_self
  | busy => exact List.mem_cons_of_mem _ List.mem_cons_self
  | error => exact List.mem_cons_of_mem _ (List.mem_cons_of_mem _ List.mem_cons_self)

theorem pipeline_body {v : Value} {w : Bytes} {c : ℕ} (h : Format.pipeline.body v w c) :
    ∃ items, v = .list items ∧ isPipelineStatusBatch rt items = true := by
  obtain ⟨items, hitems, rfl⟩ := h
  refine ⟨items, rfl, ?_⟩
  rw [isPipelineStatusBatch, List.all_eq_true]
  intro item hitem
  exact decide_eq_true (counted_forall (fun _ _ _ h => pipelineItem_status rt h)
    hitems item hitem)

/-! ### Rows of claims -/

/-- Every row that the reader returns has at least four columns. -/
def Wide (x : Decoding (Option (List (List Value)))) : Prop :=
  ∀ b rows b', x b = .ok (some rows) b' → ∀ row ∈ rows, 4 ≤ row.length

theorem readRow_wide {data : Bytes} {width offset final : ℕ} {row : List Value}
    {b b' : Option ℕ} (h : ClaimRowWidths.readRow data width offset b = .ok (some row, final) b') :
    4 ≤ row.length := by
  unfold ClaimRowWidths.readRow at h
  obtain ⟨_, _, -, h⟩ := bind_eq_ok h
  obtain ⟨_, _, -, h⟩ := bind_eq_ok h
  obtain ⟨_, _, -, h⟩ := bind_eq_ok h
  obtain ⟨_, _, -, h⟩ := bind_eq_ok h
  obtain ⟨_, _, -, h⟩ := bind_eq_ok h
  obtain ⟨extra, _, -, h⟩ := bind_eq_ok h
  obtain ⟨hrow, -⟩ := pure_eq_ok h
  obtain ⟨columns, -, rfl⟩ := Option.map_eq_some_iff.mp (Prod.mk.inj hrow).1
  simp

theorem readRows_wide {data : Bytes} {width count offset : ℕ} {items : List (List Value)}
    (h : ∀ row ∈ items, 4 ≤ row.length) :
    Wide (ClaimRowWidths.readRows data width count items offset) := by
  induction count generalizing items offset with
  | zero =>
    intro b rows b' hrows
    obtain ⟨hrows, -⟩ := pure_eq_ok hrows
    split_ifs at hrows
    cases hrows
    exact h
  | succ count ih =>
    intro b rows b' hrows
    obtain ⟨⟨row, next⟩, _, hrow, hrows⟩ := bind_eq_ok hrows
    cases row with
    | none => cases hrows
    | some row =>
      refine ih ?_ _ _ _ hrows
      intro r hr
      rcases List.mem_append.mp hr with hr | hr
      · exact h r hr
      · rw [List.mem_singleton.mp hr]
        exact readRow_wide hrow

theorem contain_wide {x : Decoding (Option (List (List Value)))} (h : Wide x) :
    Wide (ClaimRowWidths.contain x) := by
  intro b rows b' hrows
  unfold ClaimRowWidths.contain at hrows
  split at hrows
  · cases hrows
    exact h _ _ _ (by assumption)
  · cases hrows
  · cases hrows
  · split_ifs at hrows
    cases hrows

theorem tryWidths_wide {data : Bytes} {offset count : ℕ} {checkpoint : Option ℕ}
    {widths : List ℕ} {limitError : Bool} :
    Wide (ClaimRowWidths.tryWidths data offset count checkpoint widths limitError) := by
  induction widths generalizing limitError with
  | nil =>
    intro b rows b' h
    unfold ClaimRowWidths.tryWidths at h
    split_ifs at h <;> cases h
  | cons width widths ih =>
    intro b rows b' h
    unfold ClaimRowWidths.tryWidths at h
    split at h
    · cases h
      have hwide := contain_wide (@readRows_wide data width count offset [] (by simp))
      exact hwide _ _ _ (by assumption)
    · exact ih _ _ _ h
    · exact ih _ _ _ h
    · cases h

theorem customClaimJobs_wide (data : Bytes) (offset : ℕ) :
    Wide (ClaimRowWidths.tryDecodeCustomClaimJobs data offset) := by
  refine contain_wide ?_
  intro b rows b' h
  obtain ⟨_, _, -, h⟩ := bind_eq_ok h
  obtain ⟨_, _, -, h⟩ := bind_eq_ok h
  obtain ⟨_, _, -, h⟩ := bind_eq_ok h
  exact tryWidths_wide _ _ _ h

theorem readTypedRow_wide {data : Bytes} {offset final : ℕ} {row : List Value}
    {b b' : Option ℕ} (h : TypedClaimRows.readTypedRow data offset b = .ok (some row, final) b') :
    4 ≤ row.length := by
  unfold TypedClaimRows.readTypedRow at h
  obtain ⟨tag, _, -, h⟩ := bind_eq_ok h
  split_ifs at h
  · cases h
  · obtain ⟨width, _, -, h⟩ := bind_eq_ok h
    split_ifs at h
    · cases h
    · obtain ⟨_, _, -, h⟩ := bind_eq_ok h
      obtain ⟨_, _, -, h⟩ := bind_eq_ok h
      obtain ⟨_, _, -, h⟩ := bind_eq_ok h
      obtain ⟨_, _, -, h⟩ := bind_eq_ok h
      obtain ⟨_, _, -, h⟩ := bind_eq_ok h
      obtain ⟨extra, _, -, h⟩ := bind_eq_ok h
      obtain ⟨hrow, -⟩ := pure_eq_ok h
      obtain ⟨columns, -, rfl⟩ := Option.map_eq_some_iff.mp (Prod.mk.inj hrow).1
      simp

theorem readTypedRows_wide {data : Bytes} {count offset : ℕ} {items : List (List Value)}
    (h : ∀ row ∈ items, 4 ≤ row.length) :
    Wide (TypedClaimRows.readTypedRows data count items offset) := by
  induction count generalizing items offset with
  | zero =>
    intro b rows b' hrows
    obtain ⟨hrows, -⟩ := pure_eq_ok hrows
    split_ifs at hrows
    cases hrows
    exact h
  | succ count ih =>
    intro b rows b' hrows
    obtain ⟨⟨row, next⟩, _, hrow, hrows⟩ := bind_eq_ok hrows
    cases row with
    | none => cases hrows
    | some row =>
      refine ih ?_ _ _ _ hrows
      intro r hr
      rcases List.mem_append.mp hr with hr | hr
      · exact h r hr
      · rw [List.mem_singleton.mp hr]
        exact readTypedRow_wide hrow

theorem typedClaimJobs_wide (data : Bytes) (offset : ℕ) :
    Wide (TypedClaimRows.tryDecodeClaimJobsCompact data offset) := by
  intro b rows b' h
  have h := TypedClaimRows.declineInvalid_some h
  obtain ⟨tag, _, -, h⟩ := bind_eq_ok h
  split_ifs at h
  · cases h
  · obtain ⟨_, _, -, h⟩ := bind_eq_ok h
    obtain ⟨_, _, -, h⟩ := bind_eq_ok h
    exact @readTypedRows_wide data _ _ [] (by simp) _ _ _ h

/-- A decoder that returns no envelopes. -/
def Plain (x : Decoder) (data : Bytes) (offset : ℕ) : Prop :=
  ∀ b items b', x data offset b = .ok (.list items) b' →
    ∀ item ∈ items, pipelineStatus rt item = none

theorem rowsOrNone_plain {x : Bytes → ℕ → Decoding (Option (List (List Value)))} {data : Bytes}
    {offset : ℕ} (h : Wide (x data offset)) : Plain rt (rowsOrNone x) data offset := by
  intro b items b' hitems item hitem
  unfold rowsOrNone at hitems
  split at hitems
  · rename_i rows left hrows
    cases hitems
    obtain ⟨row, hrow, rfl⟩ := List.mem_map.mp hitem
    have hlength := h _ _ _ hrows row hrow
    exact pipelineStatus_row rt (by omega)
  · cases hitems
  · cases hitems

theorem textless_plain {x : Decoder} {data : Bytes} {offset : ℕ}
    (h : ∀ b v b', x data offset b = .ok v b' → Textless v) : Plain rt x data offset := by
  intro b items b' hitems item hitem
  cases h _ _ _ hitems with
  | list hall => exact pipelineStatus_textless rt (hall item hitem)

theorem byMarker_plain {table : List (UInt8 × Decoder)} {data : Bytes} {offset : ℕ}
    (h : ∀ m decoder, data[offset]? = some m → table.lookup m = some decoder →
      Plain rt decoder data offset) : Plain rt (byMarker table) data offset := by
  intro b items b' hitems
  unfold byMarker at hitems
  cases hm : data[offset]? with
  | none =>
    rw [hm] at hitems
    cases hitems
  | some m =>
    rw [hm, Option.bind_some] at hitems
    cases hdecoder : table.lookup m with
    | none =>
      rw [hdecoder] at hitems
      cases hitems
    | some decoder =>
      rw [hdecoder] at hitems
      exact h m decoder hm hdecoder _ _ _ hitems

/-- The decoder of a format other than that of pipelines, chosen by its marker. -/
theorem Format.plain {format : Format} (hformat : format ≠ .pipeline) {data : Bytes}
    {offset : ℕ} (hm : data[offset]? = some format.marker) :
    Plain rt format.decode data offset :=
  textless_plain rt fun b v b' h => by
    obtain ⟨c, hbody, -⟩ := (format.decode_ok hm).mp h
    exact Format.textless hformat hbody

theorem okCount_plain {opcode : ℕ} (data : Bytes) (offset : ℕ) :
    Plain rt (Codec.okListV1.decoder opcode) data offset := by
  intro b items b' h item hitem
  obtain ⟨n, s, -, h⟩ := bind_eq_ok h
  split_ifs at h
  · cases h
  · cases h
  · obtain ⟨hitems, -⟩ := pure_eq_ok h
    cases hitems
    exact pipelineStatus_textless rt (List.eq_of_mem_replicate hitem ▸ .bytes _)

theorem kvGet_plain (data : Bytes) (offset : ℕ) : Plain rt tryDecodeCustomKvGet data offset := by
  intro b items b' h
  obtain ⟨⟨v, _⟩, _, h, hend⟩ := bind_eq_ok (excepting_ok.mp h)
  obtain ⟨⟨present, _⟩, _, -, h⟩ := bind_eq_ok h
  dsimp only at h
  split_ifs at h
  · cases h
  · obtain ⟨⟨value, _⟩, _, -, h⟩ := bind_eq_ok h
    obtain ⟨hv, -⟩ := pure_eq_ok h
    cases hv
    dsimp only at hend
    split_ifs at hend
    · cases hend
    · cases (pure_eq_ok hend).1

theorem flowRecord_plain (data : Bytes) (offset : ℕ) :
    Plain rt tryDecodeCustomFlowRecord data offset := by
  intro b items b' h
  obtain ⟨⟨v, _⟩, _, h, hend⟩ := bind_eq_ok (excepting_ok.mp h)
  obtain ⟨⟨record, _⟩, _, -, h⟩ := bind_eq_ok h
  obtain ⟨hv, -⟩ := pure_eq_ok h
  cases hv
  dsimp only at hend
  split_ifs at hend
  · cases hend
  · cases (pure_eq_ok hend).1

theorem lookup_singleton {k m : UInt8} {decoder other : Decoder}
    (h : [(k, decoder)].lookup m = some other) : decoder = other := by
  rw [List.lookup_cons] at h
  split at h
  · exact Option.some.inj h
  · cases h

/-- No codec but that of pipelines returns envelopes, and that one under its marker alone. -/
theorem Codec.plain {codec : Codec} {opcode : ℕ} {data : Bytes} {offset : ℕ}
    (h : codec = .pipelineV1 → data[offset]? ≠ some compactPipelineResponse) :
    Plain rt (codec.decoder opcode) data offset := by
  have hclaims := rowsOrNone_plain rt (customClaimJobs_wide data offset)
  cases codec with
  | okListV1 => exact okCount_plain rt data offset
  | pipelineV1 =>
    refine byMarker_plain rt fun m decoder hm hdecoder => ?_
    have hne := h rfl
    rw [hm] at hne
    by_cases hjobs : m = compactFlowClaimJobs
    · subst hjobs
      cases hdecoder
      exact hclaims
    · have hformats : (Codec.pipelineV1.formats.map fun f => (f.marker, f.decode)).lookup m =
          some decoder := by
        rw [← hdecoder, pipelineMarkerDecoders]
        simp only [List.lookup_cons, beq_eq_false_iff_ne.mpr hjobs]
        rfl
      obtain ⟨f, -, hmarker, rfl⟩ := (lookup_decoders _ _ _).mp hformats
      refine Format.plain rt ?_ (by rw [hm, hmarker])
      rintro rfl
      exact hne (by rw [← hmarker]; rfl)
  | kvMgetV1 =>
    refine byMarker_plain rt fun m decoder hm hdecoder => ?_
    obtain ⟨f, hf, hmarker, rfl⟩ := (lookup_decoders Codec.kvMgetV1.formats m decoder).mp hdecoder
    refine Format.plain rt ?_ (by rw [hm, hmarker])
    rintro rfl
    simp [Codec.formats] at hf
  | flowRecordListV1 =>
    refine byMarker_plain rt fun m decoder hm hdecoder => ?_
    obtain ⟨f, hf, hmarker, rfl⟩ :=
      (lookup_decoders Codec.flowRecordListV1.formats m decoder).mp hdecoder
    refine Format.plain rt ?_ (by rw [hm, hmarker])
    rintro rfl
    simp [Codec.formats] at hf
  | kvGetV1 =>
    refine byMarker_plain rt fun m decoder _ hdecoder => ?_
    obtain rfl := lookup_singleton hdecoder
    exact kvGet_plain rt data offset
  | flowRecordV1 =>
    refine byMarker_plain rt fun m decoder _ hdecoder => ?_
    obtain rfl := lookup_singleton hdecoder
    exact flowRecord_plain rt data offset
  | flowClaimJobsV1 =>
    intro b items b' hitems
    have hdecode : tryFastClaim data offset b = .ok (.list items) b' := hitems
    unfold tryFastClaim at hdecode
    split_ifs at hdecode
    · exact hclaims _ _ _ hdecode
    · exact rowsOrNone_plain rt (typedClaimJobs_wide data offset) _ _ _ hdecode

theorem listOf_start {α : Type} {short excess : Halt} {p : Parser Halt α} {data : Bytes}
    {offset : ℕ} {r : List α × ℕ} {b b' : Option ℕ}
    (h : listOf short excess p data offset b = .ok r b') : offset ≤ data.length := by
  obtain ⟨_, _, hcount, -⟩ := bind_eq_ok h
  obtain ⟨_, _, hfield, -⟩ := bind_eq_ok hcount
  unfold field at hfield
  split_ifs at hfield
  · cases hfield
  · omega

theorem pipelineResponse_envelopes {data : Bytes} {offset : ℕ} {v : Value} {b b' : Option ℕ}
    (h : tryDecodeCustomPipelineResponse data offset b = .ok v b') :
    ∃ items, v = .list items ∧ isPipelineStatusBatch rt items = true := by
  have hwhole := excepting_ok.mp h
  have hstart : offset+1 ≤ data.length := by
    obtain ⟨_, _, hlist, -⟩ := bind_eq_ok hwhole
    obtain ⟨_, _, hitems, -⟩ := bind_eq_ok hlist
    exact listOf_start hitems
  obtain ⟨c, hbody, -⟩ :=
    (Accepts.whole .declined readPipelineItem_reads.listOf.map hstart).mp hwhole
  exact pipeline_body rt hbody

/-- Of the decoders of responses, only the codec of pipelines under its marker returns what is
taken for status envelopes, whatever the data; the empty list aside. -/
theorem status_envelopes_are_not_data (data : Bytes) (offset : ℕ) :
    (∀ b items final b', decodeValueAt data offset b = .ok (.list items, final) b' →
      (isPipelineStatusBatch rt items = true ↔ items = [])) ∧
    (∀ codec opcode maxCollectionItems expected items,
      tryCompactResponseValueAt codec opcode data offset maxCollectionItems expected =
        .ok (some (.list items)) →
      (isPipelineStatusBatch rt items = true ↔ items = [] ∨
        codec = .pipelineV1 ∧ data[offset]? = some compactPipelineResponse)) ∧
    (∀ b items b', FlowQueryResults.decodeCompactFlowQueryResult data offset b ≠
      .ok (some (.list items)) b') ∧
    ∀ b v b', tryDecodeCustomPipelineResponse data offset b = .ok v b' →
      ∃ items, v = .list items ∧ isPipelineStatusBatch rt items = true := by
  refine ⟨?_, ?_, ?_, fun b v b' h => pipelineResponse_envelopes rt h⟩
  · intro b items final b' h
    cases textless_of_decode h with
    | list hitems =>
      exact isPipelineStatusBatch_data rt fun item hi => pipelineStatus_textless rt (hitems item hi)
  · intro codec opcode maxCollectionItems expected items h
    obtain ⟨-, left, hdecoder⟩ := returned_iff.mp h
    by_cases hmarked : codec = .pipelineV1 ∧ data[offset]? = some compactPipelineResponse
    · obtain ⟨rfl, hm⟩ := hmarked
      have hresponse : tryDecodeCustomPipelineResponse data offset maxCollectionItems =
          .ok (.list items) left := by
        rw [← hdecoder, Codec.decoder, tryFastPipeline, byMarker, hm]
        rfl
      obtain ⟨_, hitems, hall⟩ := pipelineResponse_envelopes rt hresponse
      cases hitems
      simp [hall, hm]
    · have hplain := Codec.plain rt (fun hcodec hm => hmarked ⟨hcodec, hm⟩) _ _ _ hdecoder
      rw [isPipelineStatusBatch_data rt hplain, or_iff_left hmarked]
  · intro b items b' h
    obtain ⟨-, r, hr, -⟩ := FlowQueryResults.decode_some.mp h
    cases hbody : r.body <;> simp [FlowQueryResults.CompactResult.value, hbody,
      FlowQueryResults.named] at hr

end FerricStore.BatchReplies
