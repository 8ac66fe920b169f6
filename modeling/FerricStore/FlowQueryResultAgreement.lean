import FerricStore.FlowQueryResultGrammar

/-!
# Compact results under the generic decoder

Every result of the compact schema is a map that the generic decoder accepts, with the same
quality, usage, and records or count.
-/

set_option autoImplicit false

namespace FerricStore.FlowQueryResults
open Text Cursor Stateful Budgets ValueCodec ValueGrammar Grammars

/-! ### Maps under encoded names -/

theorem encodable_lit (s : String) : encodable (lit s) = true := by
  rw [encodable, lit, List.all_map, List.all_eq_true]
  intro c _
  have hvalid := c.valid
  simp only [Function.comp_apply, isSurrogate, Bool.not_eq_true', Bool.and_eq_false_iff,
    decide_eq_false_iff_not]
  rcases hvalid with h | h
  · left
    exact Nat.not_le.mpr h
  · right
    exact Nat.not_le.mpr h.1

theorem utf8_lit_inj {a b : String} : utf8 (lit a) = utf8 (lit b) ↔ a = b := by
  constructor
  · intro h
    have hdecode := congrArg decode h
    rw [decode_utf8 (encodable_lit a), decode_utf8 (encodable_lit b)] at hdecode
    exact lit_inj.mp (Option.some.inj hdecode)
  · rintro rfl
    rfl

theorem entry_named (fields : List (String × Value)) (name : String) :
    RoutingTopology.entry (fields.map fun f => (.bytes (utf8 (lit f.1)), f.2)) name =
      (fields.find? fun f => f.1 = name).map Prod.snd := by
  have htext : Dict.get? (fields.map fun f => (Key.bytes (utf8 (lit f.1)), f.2))
      (.str (lit name)) = none := by
    induction fields with
    | nil => rfl
    | cons f fields ih =>
      simp only [List.map_cons, Dict.get?, reduceCtorEq, if_false]
      exact ih
  rw [RoutingTopology.entry, htext, Option.none_or]
  induction fields with
  | nil => rfl
  | cons f fields ih =>
    rw [List.map_cons, Dict.get?, List.find?_cons]
    by_cases h : f.1 = name
    · simp [h]
    · rw [if_neg (by simpa [utf8_lit_inj] using h)]
      simpa [h] using ih (by
        simp only [List.map_cons, Dict.get?, reduceCtorEq, if_false] at htext
        exact htext)

theorem mapGet_named (fields : List (String × Value)) (name : String) :
    mapGet (named fields) name = ((fields.find? fun f => f.1 = name).map Prod.snd).getD .none := by
  have hmap : mapGet (named fields) name = (([name] : List String).findSome? (RoutingTopology.entry
      (fields.map fun f => (.bytes (utf8 (lit f.1)), f.2)))).getD .none := rfl
  rw [hmap]
  simp [entry_named]

theorem hasKey_named (fields : List (String × Value)) (name : String) :
    hasKey (named fields) name = (fields.find? fun f => f.1 = name).isSome := by
  have hkey : hasKey (named fields) name = (RoutingTopology.entry
      (fields.map fun f => (.bytes (utf8 (lit f.1)), f.2)) name).isSome := rfl
  rw [hkey, entry_named, Option.isSome_map]

theorem text_word (s : String) : text (word s) = some (lit s) :=
  decode_utf8 (encodable_lit s)

theorem requiredText_word {mapping : Value} {field context s : String}
    (h : mapGet mapping field = word s) (hne : s ≠ "") :
    requiredText mapping field context = .ok (lit s) := by
  have hlit : lit s ≠ [] := fun hnil => hne (lit_inj.mp hnil)
  rw [requiredText, h, text_word]
  cases hs : lit s with
  | nil => exact absurd hs hlit
  | cons c rest => rfl

/-! ### The parts -/

theorem decodeQualityValue_word {mapping : Value} {field : String} {values : List String}
    {i : Fin values.length} (h : mapGet mapping field = word (values.get i))
    (hvalues : ∀ v ∈ values, v ≠ "" ∧ (utf8 (lit v)).length ≤ 64) :
    decodeQualityValue mapping field values = .ok (lit (values.get i)) := by
  have hmem : values.get i ∈ values := List.get_mem values i
  obtain ⟨hne, hsize⟩ := hvalues _ hmem
  rw [decodeQualityValue, requiredBoundedText, requiredText_word h hne]
  show ((if _ then _ else _) >>= _) = _
  rw [if_neg (Nat.not_lt.mpr hsize)]
  show (if _ then _ else _) = _
  rw [if_neg (not_not.mpr (List.mem_map_of_mem hmem))]

/-- The texts of the quality codes. -/
def Quality.texts (q : Quality) : FlowQueryQuality :=
  ⟨lit (exactnessValues.get q.exactness), lit (freshnessValues.get q.freshness),
    lit (coverageValues.get q.coverage), lit (paginationValues.get q.pagination)⟩

theorem decodeQuality_value (q : Quality) : decodeQuality q.value = .ok q.texts := by
  have hget : ∀ name, mapGet q.value name = _ := fun name => mapGet_named _ name
  have hexactness := @decodeQualityValue_word q.value "exactness" exactnessValues q.exactness
    (by rw [hget]; simp) (by decide)
  have hfreshness := @decodeQualityValue_word q.value "freshness" freshnessValues q.freshness
    (by rw [hget]; simp) (by decide)
  have hcoverage := @decodeQualityValue_word q.value "coverage" coverageValues q.coverage
    (by rw [hget]; simp) (by decide)
  have hpagination := @decodeQualityValue_word q.value "pagination" paginationValues q.pagination
    (by rw [hget]; simp) (by decide)
  have hmap : requiredMapValue q.value "FLOW.QUERY quality" = .ok q.value := rfl
  simp only [decodeQuality, hmap, bind, Except.bind, hexactness, hfreshness, hcoverage,
    hpagination]
  rfl

theorem nonnegativeInt_ok {n : ℕ} (h : n ≤ maxInteger) (context : String) :
    nonnegativeInt (.int n) context = .ok n := by
  rw [nonnegativeInt, if_neg (by omega)]
  rfl

theorem find_zip {fields : List String} {values : List Value} (hnodup : fields.Nodup)
    (hlength : fields.length = values.length) :
    fields.map (fun name => ((fields.zip values).find? fun f => f.1 = name).map Prod.snd) =
      values.map some := by
  induction fields generalizing values with
  | nil =>
    obtain rfl := List.length_eq_zero_iff.mp hlength.symm
    rfl
  | cons field fields ih =>
    obtain ⟨v, values, rfl⟩ := List.exists_cons_of_length_pos (by
      rw [← hlength]
      exact Nat.succ_pos _)
    obtain ⟨hfield, hrest⟩ := List.nodup_cons.mp hnodup
    rw [List.map_cons, List.map_cons, ← ih hrest (Nat.succ.inj hlength)]
    congr 1
    · simp
    · refine List.map_congr_left fun name hname => ?_
      have hne : field ≠ name := fun h => hfield (h ▸ hname)
      simp [hne]

theorem mapM_counters {fields : List String} {ns : List ℕ} {get : String → Value}
    (hget : fields.map get = ns.map fun (n : ℕ) => Value.int n) (hns : ∀ n ∈ ns, n ≤ maxInteger) :
    fields.mapM (fun field => nonnegativeInt (get field) ("FLOW.QUERY usage "++field)) =
      .ok ns := by
  induction fields generalizing ns with
  | nil =>
    obtain rfl := List.map_eq_nil_iff.mp hget.symm
    rfl
  | cons field fields ih =>
    cases ns with
    | nil => cases hget
    | cons n ns =>
      obtain ⟨hfield, hfields⟩ := List.cons.inj hget
      rw [List.mapM_cons, hfield, nonnegativeInt_ok (hns n List.mem_cons_self),
        ih hfields fun m hm => hns m (List.mem_cons_of_mem n hm)]
      rfl

theorem decodeUsage_value {u : Usage} (hcounters : ∀ n ∈ u.counters, n ≤ maxInteger)
    (hvalid : u.valid = true) : decodeUsage u.value = .ok u := by
  have hget : usageFields.map (mapGet u.value) = u.counters.map fun (n : ℕ) => Value.int n := by
    have hvalues := @find_zip usageFields (u.counters.map fun (n : ℕ) => Value.int n)
      (by decide) rfl
    have hdefault := congrArg (List.map fun v => Option.getD v .none) hvalues
    rw [List.map_map, List.map_map] at hdefault
    refine (List.map_congr_left fun name _ => mapGet_named _ name).trans (hdefault.trans ?_)
    simp [Function.comp_def]
  have hmapM := mapM_counters hget hcounters
  have hmap : requiredMapValue u.value "FLOW.QUERY usage" = .ok u.value := rfl
  simp [decodeUsage, hmap, bind, Except.bind, hmapM, ofCounters_counters, hvalid]

/-! ### Pages -/

/-- An ASCII byte in front of an encoded text is its first character. -/
theorem utf8_ascii_head {s : Str} {b : UInt8} {rest : Bytes} (h : utf8 s = b::rest)
    (hb : b.toNat < 0x80) : ∃ s', s = bytePoint b::s' ∧ utf8 s' = rest := by
  cases s with
  | nil => cases h
  | cons c s =>
    rw [utf8, List.flatMap_cons] at h
    by_cases hc : c.val ≤ 0x7F
    · rw [utf8Point, if_pos hc] at h
      obtain ⟨hhead, hrest⟩ := List.cons.inj h
      refine ⟨s, ?_, hrest⟩
      congr 1
      apply Fin.ext
      rw [bytePoint_val, ← hhead, UInt8.toNat_ofNat', Nat.mod_eq_of_lt (by omega)]
    · exfalso
      have hlt := c.isLt
      unfold utf8Point at h
      split_ifs at h
      all_goals
        have hhead := congrArg UInt8.toNat (List.cons.inj h).1
        rw [UInt8.toNat_ofNat', Nat.mod_eq_of_lt (by omega)] at hhead
        omega

/-- A mark of ASCII characters in front of the bytes stands in front of the text. -/
theorem mark_of_bytes {mark s : Str} (hmark : isAscii mark = true)
    (h : utf8 mark <+: utf8 s) : mark <+: s := by
  induction mark generalizing s with
  | nil => exact List.nil_prefix
  | cons c mark ih =>
    rw [isAscii, List.all_cons, Bool.and_eq_true, decide_eq_true_iff] at hmark
    obtain ⟨hc, hrest⟩ := hmark
    have hpoint : utf8 (c::mark) = UInt8.ofNat c.val::utf8 mark := by
      rw [utf8, List.flatMap_cons, utf8Point, if_pos (Nat.le_of_lt_succ hc)]
      rfl
    obtain ⟨tail, htail⟩ := h
    rw [hpoint, List.cons_append] at htail
    have hbyte : (UInt8.ofNat c.val).toNat = c.val := by
      rw [UInt8.toNat_ofNat', Nat.mod_eq_of_lt (by omega)]
    obtain ⟨s', rfl, hs'⟩ := utf8_ascii_head htail.symm (by omega)
    have hhead : bytePoint (UInt8.ofNat c.val) = c := by
      apply Fin.ext
      rw [bytePoint_val, hbyte]
    rw [hhead, List.prefix_cons_inj]
    exact ih hrest ⟨tail, hs'.symm⟩

/-- The page that the generic decoder gives back. -/
def pageText (cursor : Option Bytes) : FlowQueryPage := ⟨cursor.isSome, cursor.bind decode⟩

theorem decodePage_value {cursor : Option Bytes} (hvalid : ∀ x ∈ cursor, ValidCursor x) :
    decodePage (pageValue cursor) = .ok (pageText cursor) := by
  cases cursor with
  | none =>
    have hget : ∀ name, mapGet (pageValue none) name = _ := fun name => mapGet_named _ name
    have hmore : requiredBool (pageValue none) "has_more" "FLOW.QUERY page" = .ok false := by
      rw [requiredBool, hget]
      simp
    have hcursor : optionalText (pageValue none) "cursor" "FLOW.QUERY page" = .ok none := by
      rw [optionalText, hget]
      simp
    have hmap : requiredMapValue (pageValue none) "FLOW.QUERY page" = .ok (pageValue none) := rfl
    simp [decodePage, hmap, bind, Except.bind, hmore, hcursor, pageText]
  | some x =>
    obtain ⟨⟨hlow, hhigh⟩, htext, hmark⟩ := hvalid x rfl
    obtain ⟨s, hs⟩ := Option.ne_none_iff_exists'.mp htext
    have hbytes := (decode_sound hs).2
    have hget : ∀ name, mapGet (pageValue (some x)) name = _ := fun name => mapGet_named _ name
    have hmore : requiredBool (pageValue (some x)) "has_more" "FLOW.QUERY page" = .ok true := by
      rw [requiredBool, hget]
      simp
    have hcursor : optionalText (pageValue (some x)) "cursor" "FLOW.QUERY page" =
        .ok (some s) := by
      rw [optionalText, hget]
      simp [text, hs]
    have hmap : requiredMapValue (pageValue (some x)) "FLOW.QUERY page" =
        .ok (pageValue (some x)) := rfl
    have hmarked : cursorMark.isPrefixOf s = true := by
      rw [ List.isPrefixOf_iff_prefix] at hmark ⊢
      exact mark_of_bytes (by decide) (hbytes ▸ hmark)
    simp [decodePage, hmap, bind, Except.bind, hmore, hcursor, pageText, hmarked, hbytes, hlow,
      hhigh, hs]

/-! ### The whole result -/

/-- The result that the generic decoder gives back. -/
def CompactResult.decoded (r : CompactResult) : FlowQueryResult :=
  match r.body with
  | .page cursor records => ⟨contract, some (records.map named), some (pageText cursor), none,
      r.quality.texts, r.usage, r.value⟩
  | .count n => ⟨contract, none, none, some n, r.quality.texts, r.usage, r.value⟩

theorem requireContract_version {mapping : Value} (h : mapGet mapping "version" = word contract) :
    requireContract mapping "version" contract "FLOW.QUERY result" = .ok () := by
  have htext := @requiredText_word mapping "version" "FLOW.QUERY result" contract h (by decide)
  simp [requireContract, htext, bind, Except.bind]

/-- Every result of the schema passes the generic decoder with the same content. -/
theorem decodeFlowQueryResult_value {r : CompactResult} {w : Bytes} {c : ℕ}
    (h : resultBytes r w c) : decodeFlowQueryResult r.value = .ok r.decoded := by
  obtain ⟨⟨rest, -, body, hbody, hcounters, hvalid, -⟩, -⟩ := h
  obtain ⟨quality, usage, content⟩ := r
  have hquality := decodeQuality_value quality
  have husage := decodeUsage_value hcounters hvalid
  cases content with
  | page cursor records =>
    obtain ⟨hcursor, hmax, hresult, hscanned, -⟩ := hbody
    obtain ⟨v, hv⟩ : ∃ v, v = CompactResult.value ⟨quality, usage, .page cursor records⟩ := ⟨_, rfl⟩
    have hget : ∀ name, mapGet v name = _ := fun name =>
      (congrArg (mapGet · name) hv).trans (mapGet_named _ name)
    have hkey : ∀ name, hasKey v name = _ := fun name =>
      (congrArg (hasKey · name) hv).trans (hasKey_named _ name)
    have hmap : requiredMapValue v "FLOW.QUERY result" = .ok v := by
      rw [hv]
      rfl
    have hversion := @requireContract_version v (by rw [hget]; simp)
    have hrecords : recordMaps (.list (records.map named)) = .ok (records.map named) := by
      have hall : (records.map named).all isDict = true := by
        rw [List.all_map, List.all_eq_true]
        exact fun _ _ => rfl
      rw [recordMaps, if_neg (by simpa using hmax), if_neg (not_not.mpr hall)]
    have hpage := decodePage_value hcursor
    have hcount : usage.resultRecords = records.length := hresult
    have hscan : ¬ usage.scannedEntries < records.length := Nat.not_lt.mpr hscanned
    rw [← hv]
    simp [decodeFlowQueryResult, hmap, hversion, bind, Except.bind, hget, hkey, hquality, husage,
      hrecords, hpage, hcount, hscan, CompactResult.decoded, ← hv]
  | count n =>
    obtain ⟨hresult, hmax, -⟩ := hbody
    obtain ⟨v, hv⟩ : ∃ v, v = CompactResult.value ⟨quality, usage, .count n⟩ := ⟨_, rfl⟩
    have hget : ∀ name, mapGet v name = _ := fun name =>
      (congrArg (mapGet · name) hv).trans (mapGet_named _ name)
    have hkey : ∀ name, hasKey v name = _ := fun name =>
      (congrArg (hasKey · name) hv).trans (hasKey_named _ name)
    have hmap : requiredMapValue v "FLOW.QUERY result" = .ok v := by
      rw [hv]
      rfl
    have hversion := @requireContract_version v (by rw [hget]; simp)
    obtain ⟨x, hx⟩ : ∃ x, x = named [("kind", word "count"), ("value", .int n)] := ⟨_, rfl⟩
    have hinner : ∀ name, mapGet x name = _ := fun name =>
      (congrArg (mapGet · name) hx).trans (mapGet_named _ name)
    have hcount : requiredMapValue x "FLOW.QUERY count result" = .ok x := by
      rw [hx]
      rfl
    have hkind := @requiredText_word x "kind" "FLOW.QUERY count result" "count"
      (by rw [hinner]; simp) (by decide)
    have hvalue := nonnegativeInt_ok hmax "FLOW.QUERY count value"
    have hone : usage.resultRecords = 1 := hresult
    rw [← hv]
    simp [decodeFlowQueryResult, hmap, hversion, bind, Except.bind, hget, hkey, hquality, husage,
      ← hx, hcount, hkind, hinner, hvalue, hone, CompactResult.decoded, ← hv]

/-- The compact decoder returns exactly the results of the schema that fit the budget, reads
nothing behind the data, gives back what is encoded, and what it returns passes the generic
decoder with the same content. -/
theorem compact_result_exact (data : Bytes) (offset : ℤ) :
    (∀ b v b', decodeCompactFlowQueryResult data offset b = .ok (some v) b' ↔
      0 ≤ offset ∧ offset ≤ data.length ∧ ∃ r c, v = r.value ∧
        resultBytes r (data.drop offset.toNat) c ∧ Affords b c ∧ b' = spend b c) ∧
    (∀ b e b', readResult data offset.toNat b = .error e b' → Harmless e) ∧
    (∀ r w, ValidResult r → encodeResult r = .ok w → r.usage.responseBytes = w.length →
      decodeCompactFlowQueryResult w 0 none = .ok (some r.value) none) ∧
    ∀ b v b', decodeCompactFlowQueryResult data offset b = .ok (some v) b' →
      ∃ r : CompactResult, v = r.value ∧ decodeFlowQueryResult v = .ok r.decoded := by
  have haccepts : ∀ {data : Bytes} {offset : ℤ} {b v b'},
      decodeCompactFlowQueryResult data offset b = .ok (some v) b' ↔
        0 ≤ offset ∧ offset ≤ data.length ∧ ∃ r c, v = r.value ∧
          resultBytes r (data.drop offset.toNat) c ∧ Affords b c ∧ b' = spend b c := by
    intro data offset b v b'
    rw [decode_some]
    constructor
    · rintro ⟨hoffset, r, rfl, hr⟩
      obtain ⟨hstart, c, hc, hb, rfl⟩ := readResult_accepts.mp hr
      exact ⟨hoffset, by omega, r, c, rfl, hc, hb, rfl⟩
    · rintro ⟨hoffset, hend, r, c, rfl, hc, hb, rfl⟩
      exact ⟨hoffset, r, rfl, readResult_accepts.mpr ⟨by omega, c, hc, hb, rfl⟩⟩
  refine ⟨fun b v b' => haccepts, fun b e b' h => readResult_harmless h, ?_, ?_⟩
  · intro r w hvalid hencode hbytes
    obtain ⟨c, hc⟩ := resultBytes_of_encode hvalid hencode hbytes
    exact haccepts.mpr ⟨le_rfl, by omega, r, c, rfl, hc, fun n hn => (nomatch hn), rfl⟩
  · intro b v b' h
    obtain ⟨-, -, r, c, rfl, hc, -, -⟩ := haccepts.mp h
    exact ⟨r, rfl, decodeFlowQueryResult_value hc⟩

def pageSample : CompactResult where
  quality := ⟨⟨0, by decide⟩, ⟨1, by decide⟩, ⟨0, by decide⟩, ⟨3, by decide⟩⟩
  usage := ⟨1, 1, 2, 40, 1, 2, 1, 1, 143, 64, 9⟩
  body := .page (some (utf8 (lit "fqc1_0123456789abcdef")))
    [[("id", word "f"), ("priority", .int 3)]]

theorem pageSample_valid : ValidResult pageSample := by
  refine ⟨by decide, by decide, ?_, by decide, rfl, by decide, ?_⟩
  · rintro x ⟨⟩
    exact ⟨by decide, by decide, by decide⟩
  · intro record h
    obtain rfl := List.mem_singleton.mp h
    refine ⟨by decide, fun f hf => ?_⟩
    rcases List.mem_pair.mp hf with rfl | rfl <;> rfl

theorem compact_result_exact_page : ∃ w, encodeResult pageSample = .ok w ∧
    decodeCompactFlowQueryResult w 0 none = .ok (some pageSample.value) none := by
  obtain ⟨w, hw, hlength⟩ : ∃ w, encodeResult pageSample = .ok w ∧ w.length = 143 :=
    ⟨_, rfl, rfl⟩
  exact ⟨w, hw, (compact_result_exact w 0).2.2.1 pageSample w pageSample_valid hw hlength.symm⟩

end FerricStore.FlowQueryResults
