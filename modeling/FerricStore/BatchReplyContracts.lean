import FerricStore.StatusEnvelopes

/-!
# What the entry points make of one reply

The entry points of a batch are compared on the same reply: one batch against another, one
future for each command against one request for each command, and groups whose replies arrive
in any order against groups that are asked one after the other.
-/

set_option autoImplicit false

namespace FerricStore.BatchReplies
open Text RoutingTopology
open HttpResults (Interpreter)

/-! ### Opening an envelope -/

theorem errorDetails_throws {rt : Interpreter} {value : Value} {α : Type}
    {f : Str × Retry → Except ReplyError α} (h : ∀ details a, f details ≠ .ok a) (a : α) :
    (errorDetails rt value >>= f) ≠ .ok a := by
  intro hok
  obtain ⟨details, -, hf⟩ := except_bind_eq_ok hok
  exact h details a hf

theorem itemError_throws (rt : Interpreter) (status : Str) (value raw v : Value) :
    itemError rt status value raw ≠ .ok v := by
  refine errorDetails_throws (fun details a => ?_) v
  dsimp only
  split_ifs <;> exact nofun

theorem batchItemValue_ok {rt : Interpreter} {item v : Value} (h : batchItemValue rt item = .ok v) :
    ∃ status, openEnvelope rt item = .ok (status, v) ∧ status = lit "ok" := by
  obtain ⟨⟨status, value⟩, hopen, hvalue⟩ := except_bind_eq_ok h
  dsimp only at hvalue
  split_ifs at hvalue with hstatus
  · cases hvalue
    exact ⟨status, hopen, hstatus⟩
  · exact (itemError_throws rt _ _ _ _ hvalue).elim

theorem mapGet_smaller (entries : List (Key × Value)) (name : String) :
    sizeOf (mapGet (.dict entries) [name]) < sizeOf (Value.dict entries) := by
  have hmem : mapGet (.dict entries) [name] = .none ∨
      ∃ k, (k, mapGet (.dict entries) [name]) ∈ entries := by
    simp only [mapGet, List.findSome?_cons, List.findSome?_nil, entry]
    cases htext : Dict.get? entries (.str (lit name)) with
    | some v => exact .inr ⟨_, Dict.mem_of_get? htext⟩
    | none =>
      rw [Option.none_or]
      cases hbytes : Dict.get? entries (.bytes (utf8 (lit name))) with
      | some v => exact .inr ⟨_, Dict.mem_of_get? hbytes⟩
      | none => exact .inl rfl
  rcases hmem with hnone | ⟨k, hk⟩
  · rw [hnone]
    simp only [Value.none.sizeOf_spec, Value.dict.sizeOf_spec]
    cases entries <;> simp
  · have hsize := List.sizeOf_lt_of_mem hk
    simp only [Prod.mk.sizeOf_spec] at hsize
    simp only [Value.dict.sizeOf_spec]
    omega

/-- The value of an envelope is a part of it. -/
theorem openEnvelope_smaller {rt : Interpreter} {item v : Value} {status : Str}
    (h : openEnvelope rt item = .ok (status, v)) : sizeOf v < sizeOf item := by
  unfold openEnvelope at h
  split at h
  · rename_i a b hpair
    obtain ⟨s, -, hv⟩ := except_bind_eq_ok h
    cases hv
    unfold asPair at hpair
    split at hpair
    · cases hpair
      simp
      omega
    · cases hpair
      simp
      omega
    · cases hpair
  · split at h
    · obtain ⟨s, -, hv⟩ := except_bind_eq_ok h
      cases hv
      exact mapGet_smaller _ _
    · cases h

theorem batchItemValue_ne {rt : Interpreter} {item v : Value}
    (h : batchItemValue rt item = .ok v) : v ≠ item := by
  rintro rfl
  obtain ⟨status, hopen, -⟩ := batchItemValue_ok h
  exact lt_irrefl _ (openEnvelope_smaller hopen)

/-! ### A batch against a batch -/

theorem responseValue_statusOk {rt : Interpreter} {r : Response} (h : r.status = statusOk) :
    responseValue rt r = .ok r.value := by
  rw [responseValue, if_pos h]

theorem responseValue_ok {rt : Interpreter} {r : Response} {v : Value}
    (h : responseValue rt r = .ok v) : r.status = statusOk := by
  by_contra hstatus
  rw [responseValue, if_neg hstatus] at h
  by_cases hunknown : r.status ∉ knownResponseStatuses
  · rw [if_pos hunknown] at h
    dsimp only at h
    split_ifs at h
  · rw [if_neg hunknown] at h
    refine errorDetails_throws (fun details a => ?_) v h
    obtain ⟨message, retry⟩ := details
    show (if r.status = statusBusy then _ else _) ≠ _
    split_ifs
    · intro hok
      obtain ⟨_, -, hthrow⟩ := except_bind_eq_ok hok
      cases hthrow
    · exact nofun

theorem refuse_inj {α : Type} {a b : String} {v w : Value}
    (h : (refuse a v : Except ReplyError α) = refuse b w) : a = b := by
  simp only [refuse, Except.error.injEq, ReplyError.ferricStore.injEq] at h
  exact lit_inj.mp h.1

/-- The two ways to say that a list has another length. -/
theorem lengthMessage_ne (n count : ℕ) : "protocol PIPELINE returned invalid result" ≠
    "protocol PIPELINE"++" returned "++toString n++" items; expected "++toString count := by
  intro h
  have hmem : ';' ∈ ("protocol PIPELINE"++" returned "++toString n++" items; expected "++
      toString count).toList := by
    simp only [String.toList_append, List.mem_append]
    exact .inl (.inr (by decide))
  rw [← h] at hmem
  revert hmem
  decide

/-- On a response of the generic codec, the two entry points of a batch agree exactly when the
status of the response is not OK, or the batch is empty. -/
theorem batch_entry_points_agree_iff (rt : Interpreter) (count : ℕ) (response : Response)
    {data : Bytes} {offset final : ℕ} {b b' : Option ℕ}
    (hdecode : ValueCodec.decodeValueAt data offset b = .ok (response.value, final) b') :
    submitBatch rt count response = executeBatch rt count response ↔
      count = 0 ∨ response.status ≠ statusOk := by
  by_cases hcount : count = 0
  · simp [submitBatch, executeBatch, hcount]
  rw [submitBatch, executeBatch, if_neg hcount, if_neg hcount, or_iff_right hcount,
    completeBatchFuture]
  constructor
  · intro h hstatus
    rw [responseValue_statusOk hstatus] at h
    simp only [except_ok_bind, Bool.false_and, Bool.false_eq_true, if_false] at h
    cases hvalue : response.value with
    | list items =>
      rw [hvalue] at h hdecode
      simp only [requireBatchItems] at h
      by_cases hlength : items.length = count
      · simp only [hlength, ne_eq, not_true_eq_false, if_false, except_ok_bind] at h
        have htextless := textless_of_decode hdecode
        cases htextless with
        | list hitems =>
          have hplain := isPipelineStatusBatch_data rt fun item hi =>
            pipelineStatus_textless rt (hitems item hi)
          have hne : items ≠ [] := by
            rintro rfl
            exact hcount hlength.symm
          rw [if_neg (fun hall => hne (hplain.mp hall))] at h
          obtain ⟨item, items, rfl⟩ := List.exists_cons_of_ne_nil hne
          rw [List.mapM_cons] at h
          obtain ⟨v, hv, hrest⟩ := except_bind_eq_ok h.symm
          obtain ⟨vs, -, hvs⟩ := except_bind_eq_ok hrest
          cases hvs
          exact batchItemValue_ne hv rfl
      · simp only [ne_eq, hlength, not_false_eq_true, if_true] at h
        exact lengthMessage_ne _ _ (refuse_inj h)
    | _ =>
      rw [hvalue] at h
      exact absurd (refuse_inj h) (by decide)
  · intro hstatus
    cases hresponse : responseValue rt response with
    | ok v => exact (hstatus (responseValue_ok hresponse)).elim
    | error e => rfl

/-- A list of one pair of `ok` and `v`, both bytes. -/
def pairReply : Bytes :=
  [5, 0, 0, 0, 1, 5, 0, 0, 0, 2, 4, 0, 0, 0, 2, 0x6F, 0x6B, 4, 0, 0, 0, 1, 0x76]

def pairValue : Value := .list [.list [.bytes [0x6F, 0x6B], .bytes [0x76]]]

set_option maxRecDepth 4000 in
theorem batch_entry_points_agree_iff_busy :
    submitBatch asciiInterpreter 1 ⟨0x000E, statusBusy, pairValue⟩ =
      executeBatch asciiInterpreter 1 ⟨0x000E, statusBusy, pairValue⟩ :=
  (@batch_entry_points_agree_iff asciiInterpreter 1 ⟨0x000E, statusBusy, pairValue⟩ pairReply 0 23
    none none rfl).mpr (.inr (by decide))

set_option maxRecDepth 4000 in
/-- `submit_batch` hands the pair on where `execute_batch` takes its value. -/
theorem batch_entry_points_differ :
    ValueCodec.decodeValueAt pairReply 0 none = .ok (pairValue, 23) none ∧
    submitBatch asciiInterpreter 1 ⟨0x000E, statusOk, pairValue⟩ =
      .ok [.list [.bytes [0x6F, 0x6B], .bytes [0x76]]] ∧
    executeBatch asciiInterpreter 1 ⟨0x000E, statusOk, pairValue⟩ = .ok [.bytes [0x76]] :=
  ⟨rfl, rfl, rfl⟩

/-! ### One future for each command -/

/-- What the server answers to one command. -/
inductive ItemReply where
  | ok (value : Value)
  | busy (value : Value)
  | error (value : Value)

namespace ItemReply

def value : ItemReply → Value
  | ok v | busy v | error v => v

def isOk : ItemReply → Bool
  | ok _ => true
  | _ => false

def word : ItemReply → String
  | ok _ => "ok"
  | busy _ => "busy"
  | error _ => "error"

/-- The envelope of the reply in a pipeline; the compact codec writes the status as text. -/
def envelope (compact : Bool) (r : ItemReply) : Value :=
  .list [if compact then .str (lit r.word) else .bytes (utf8 (lit r.word)), r.value]

/-- The response that holds the reply alone. -/
def response (opcode : ℕ) (r : ItemReply) : Response :=
  ⟨opcode, match r with
    | ok _ => statusOk
    | busy _ => statusBusy
    | error _ => 1, r.value⟩

end ItemReply

/-- An error without the data it came with. -/
def ReplyError.bare : ReplyError → ReplyError
  | .ferricStore message _ retry => .ferricStore message .none retry
  | .overloaded message _ reason retry => .overloaded message .none reason retry
  | .server kind message _ retry => .server kind message .none retry
  | .outcomeUnknown message _ => .outcomeUnknown message .none
  | .raised e => .raised e

def bareOutcome (r : Except ReplyError Value) : Except ReplyError Value :=
  r.mapError ReplyError.bare

namespace ItemReply

/-- What a command answered with the reply alone comes to. -/
def own (rt : Interpreter) (r : ItemReply) : Except ReplyError Value :=
  bareOutcome (responseValue rt (r.response 0))

/-- A busy reply whose details can be read and whose map has a reason beside them. -/
def GivesReason (rt : Interpreter) (r : ItemReply) : Prop :=
  ∃ v details, r = busy v ∧ errorDetails rt v = .ok details ∧ mapGet v ["reason"] ≠ .none

theorem statusText_word (compact : Bool) (r : ItemReply) :
    statusText (if compact then .str (lit r.word) else .bytes (utf8 (lit r.word))) =
      .ok (some (lit r.word)) := by
  cases compact with
  | true => rfl
  | false =>
    have hdecode : decode (utf8 (lit r.word)) = some (lit r.word) := by
      cases r
      · exact (by decide : decode (utf8 (lit "ok")) = some (lit "ok"))
      · exact (by decide : decode (utf8 (lit "busy")) = some (lit "busy"))
      · exact (by decide : decode (utf8 (lit "error")) = some (lit "error"))
    simp only [Bool.false_eq_true, if_false, statusText, hdecode]

theorem orError_word (r : ItemReply) : orError (some (lit r.word)) = lit r.word := by
  have hne : lit r.word ≠ [] := fun h => by
    have hword : r.word = "" := lit_inj.mp h
    cases r <;> simp [word] at hword
  cases hs : lit r.word with
  | nil => exact (hne hs).elim
  | cons c s => rfl

theorem openEnvelope_envelope (rt : Interpreter) (compact : Bool) (r : ItemReply) :
    openEnvelope rt (r.envelope compact) = .ok (lit r.word, r.value) := by
  show (statusText _ >>= fun status => .ok (orError status, r.value)) = _
  rw [statusText_word, except_ok_bind, orError_word]

theorem response_own (rt : Interpreter) (opcode : ℕ) (r : ItemReply) :
    bareOutcome (responseValue rt (r.response opcode)) = r.own rt := by
  have hknown (code : ℕ) : (r.response code).status ∈ knownResponseStatuses := by
    cases r with
    | ok v => exact (by decide : statusOk ∈ knownResponseStatuses)
    | busy v => exact (by decide : statusBusy ∈ knownResponseStatuses)
    | error v => exact (by decide : 1 ∈ knownResponseStatuses)
  simp only [own, responseValue, hknown, not_true_eq_false, if_false]
  rfl

theorem own_ok {rt : Interpreter} {r : ItemReply} :
    (∃ v, r.own rt = .ok v) ↔ r.isOk = true := by
  constructor
  · rintro ⟨v, h⟩
    rw [own, bareOutcome] at h
    cases hvalue : responseValue rt (r.response 0) with
    | error e =>
      rw [hvalue] at h
      cases h
    | ok w =>
      have hstatus := responseValue_ok hvalue
      cases r with
      | ok v => rfl
      | busy v => cases hstatus
      | error v => cases hstatus
  · intro h
    cases r with
    | ok v => exact ⟨v, rfl⟩
    | busy v => cases h
    | error v => cases h

theorem bare_classifyError (rt : Interpreter) (message : Str) (raw : Value) (retry : Retry) :
    (classifyError rt message raw retry).bare = (classifyError rt message .none retry).bare := by
  unfold classifyError
  dsimp only
  split_ifs
  · rfl
  · split <;> rfl

theorem itemError_eq (rt : Interpreter) (status : Str) (v raw : Value) :
    itemError rt status v raw = errorDetails rt v >>= fun d =>
      if status = lit "busy" then .error (.overloaded d.1 raw none d.2)
      else .error (classifyError rt d.1 raw d.2) := rfl

theorem own_error (rt : Interpreter) (v : Value) : (error v).own rt =
    bareOutcome (errorDetails rt v >>= fun d => .error (classifyError rt d.1 v d.2)) := rfl

theorem own_busy (rt : Interpreter) (v : Value) : (busy v).own rt =
    bareOutcome (errorDetails rt v >>= fun d => optionalText rt v "reason" >>= fun reason =>
      .error (.overloaded d.1 v reason d.2)) := rfl

/-- An envelope and a response with the same reply differ where a reason is given. -/
theorem envelope_own {rt : Interpreter} {compact : Bool} {r : ItemReply} :
    bareOutcome (batchItemValue rt (r.envelope compact)) = r.own rt ↔ ¬ r.GivesReason rt := by
  have hpiped : batchItemValue rt (r.envelope compact) = if lit r.word = lit "ok" then .ok r.value
      else itemError rt (lit r.word) r.value (r.envelope compact) := by
    rw [batchItemValue, openEnvelope_envelope, except_ok_bind]
    rfl
  rw [hpiped]
  cases r with
  | ok v =>
    rw [if_pos (show lit (ok v).word = lit "ok" from rfl)]
    exact ⟨fun _ ⟨_, _, h, _⟩ => (nomatch h), fun _ => rfl⟩
  | error v =>
    refine ⟨fun _ ⟨_, _, h, _⟩ => (nomatch h), fun _ => ?_⟩
    have hok : ¬ lit (error v).word = lit "ok" := mt lit_inj.mp (by simp [word])
    have hbusy : ¬ lit (error v).word = lit "busy" := mt lit_inj.mp (by simp [word])
    rw [if_neg hok, itemError_eq, own_error]
    simp only [if_neg hbusy]
    cases hdetails : errorDetails rt v with
    | error e => rw [value, hdetails]; rfl
    | ok d =>
      rw [value, hdetails]
      show Except.error (classifyError rt d.1 _ d.2).bare =
        Except.error (classifyError rt d.1 v d.2).bare
      rw [bare_classifyError rt _ v, bare_classifyError]
  | busy v =>
    have hok : ¬ lit (busy v).word = lit "ok" := mt lit_inj.mp (by simp [word])
    rw [if_neg hok, itemError_eq, own_busy]
    simp only [if_pos (show lit (busy v).word = lit "busy" from rfl)]
    cases hdetails : errorDetails rt v with
    | error e =>
      refine ⟨fun _ ⟨_, _, h, hd, _⟩ => ?_, fun _ => ?_⟩
      · cases h
        rw [hdetails] at hd
        cases hd
      · rw [value, hdetails]; rfl
    | ok d =>
      have hreason : GivesReason rt (busy v) ↔ mapGet v ["reason"] ≠ .none :=
        ⟨fun ⟨_, _, h, _, hne⟩ => by cases h; exact hne, fun hne => ⟨v, d, rfl, hdetails, hne⟩⟩
      rw [hreason, not_not, value, hdetails]
      show Except.error (ReplyError.overloaded d.1 .none none d.2) =
        bareOutcome (optionalText rt v "reason" >>= fun reason =>
          .error (.overloaded d.1 v reason d.2)) ↔ _
      rw [optionalText]
      cases hget : mapGet v ["reason"] with
      | none => exact ⟨fun _ => rfl, fun _ => rfl⟩
      | _ =>
        refine ⟨fun h => ?_, nofun⟩
        dsimp only at h
        revert h
        generalize rt.text _ = text
        cases text <;> exact nofun

/-- The response to a pipeline with these replies. -/
def pipelined (compact : Bool) (replies : List ItemReply) : Response :=
  ⟨0x000E, statusOk, .list (replies.map (envelope compact))⟩

theorem frames_own (rt : Interpreter) {opcodes : List ℕ} {replies : List ItemReply}
    (h : opcodes.length = replies.length) :
    (valueFutures rt (List.zipWith response opcodes replies)).map bareOutcome =
      replies.map (own rt) := by
  induction replies generalizing opcodes with
  | nil =>
    obtain rfl := List.length_eq_zero_iff.mp h
    rfl
  | cons r replies ih =>
    obtain ⟨opcode, opcodes, rfl⟩ := List.exists_cons_of_length_eq_add_one h
    have hrest := ih (Nat.succ.inj h)
    simp only [valueFutures, List.zipWith_cons_cons, List.map_cons, List.cons.injEq] at hrest ⊢
    exact ⟨response_own rt opcode r, hrest⟩

theorem itemFutures_eq (rt : Interpreter) (compact : Bool) (replies : List ItemReply) :
    pipelineItemFutures rt replies.length (pipelined compact replies) =
      match replies.mapM fun r => batchItemValue rt (r.envelope compact) with
      | .ok values => values.map .ok
      | .error e => List.replicate replies.length (.error e) := by
  have hvalue : responseValue rt (pipelined compact replies) =
      .ok (.list (replies.map (envelope compact))) := responseValue_statusOk rfl
  have hlength : ¬ (replies.map (envelope compact)).length ≠ replies.length :=
    not_not.mpr (List.length_map _)
  simp only [pipelineItemFutures, hvalue, except_ok_bind, if_neg hlength, List.mapM_map]
  rfl

theorem item_value (rt : Interpreter) (compact : Bool) {r : ItemReply} (h : r.isOk = true) :
    batchItemValue rt (r.envelope compact) = .ok r.value := by
  cases r with
  | ok v =>
    rw [batchItemValue, openEnvelope_envelope, except_ok_bind]
    exact if_pos rfl
  | busy v => cases h
  | error v => cases h

theorem item_ok {rt : Interpreter} {compact : Bool} {r : ItemReply} {v : Value}
    (h : batchItemValue rt (r.envelope compact) = .ok v) : r.isOk = true := by
  obtain ⟨status, hopen, hstatus⟩ := batchItemValue_ok h
  rw [openEnvelope_envelope] at hopen
  have hword := lit_inj.mp ((Prod.mk.inj (Except.ok.inj hopen)).1.trans hstatus)
  cases r with
  | ok v => rfl
  | busy v => simp [word] at hword
  | error v => simp [word] at hword

theorem mapM_ok_forall {α β : Type} {f : α → Except ReplyError β} {as : List α} {bs : List β}
    (h : as.mapM f = .ok bs) : ∀ a ∈ as, ∃ b, f a = .ok b := by
  induction as generalizing bs with
  | nil => simp
  | cons a as ih =>
    rw [List.mapM_cons] at h
    obtain ⟨b, hb, h⟩ := except_bind_eq_ok h
    obtain ⟨_, hrest, -⟩ := except_bind_eq_ok h
    simpa using ⟨⟨b, hb⟩, ih hrest⟩

theorem mapM_values (rt : Interpreter) (compact : Bool) {replies : List ItemReply}
    (h : ∀ r ∈ replies, r.isOk = true) :
    (replies.mapM fun r => batchItemValue rt (r.envelope compact)) =
      .ok (replies.map ItemReply.value) := by
  induction replies with
  | nil => rfl
  | cons r replies ih =>
    obtain ⟨hr, hreplies⟩ := List.forall_mem_cons.mp h
    rw [List.mapM_cons, item_value rt compact hr, ih hreplies]
    rfl

theorem own_value (rt : Interpreter) {r : ItemReply} (h : r.isOk = true) :
    r.own rt = .ok r.value := by
  cases r with
  | ok v => rfl
  | busy v => cases h
  | error v => cases h

end ItemReply

open ItemReply

/-- A pipeline and separate requests complete the futures alike, errors compared without the
data they came with, exactly when every reply is ok, or every reply alone is the same error and
the first is not a busy reply with a reason. -/
theorem item_futures_agree_iff (rt : Interpreter) (compact : Bool) (replies : List ItemReply)
    (opcodes : List ℕ) (hlength : opcodes.length = replies.length) :
    (pipelineItemFutures rt replies.length (pipelined compact replies)).map bareOutcome =
        (valueFutures rt (List.zipWith response opcodes replies)).map bareOutcome ↔
      (∀ r ∈ replies, r.isOk = true) ∨
        (∃ e, ∀ r ∈ replies, r.own rt = .error e) ∧ ∀ r ∈ replies.head?, ¬ r.GivesReason rt := by
  rw [frames_own rt hlength, itemFutures_eq]
  constructor
  · intro h
    rw [or_iff_not_imp_left]
    intro hfail
    cases hvalues : replies.mapM fun r => batchItemValue rt (r.envelope compact) with
    | ok values =>
      refine (hfail fun r hr => ?_).elim
      obtain ⟨v, hv⟩ := mapM_ok_forall hvalues r hr
      exact item_ok hv
    | error e =>
      rw [hvalues] at h
      have hown : ∀ r ∈ replies, r.own rt = .error e.bare := by
        intro r hr
        have hmem : r.own rt ∈ (List.replicate replies.length (.error e)).map bareOutcome := by
          rw [h]
          exact List.mem_map_of_mem hr
        rw [List.map_replicate] at hmem
        exact List.eq_of_mem_replicate hmem
      refine ⟨⟨e.bare, hown⟩, fun r hr => ?_⟩
      obtain ⟨rest, rfl⟩ := List.head?_eq_some_iff.mp hr
      have hfirst := hown r List.mem_cons_self
      rw [← @envelope_own rt compact r, hfirst]
      rw [List.mapM_cons] at hvalues
      cases hitem : batchItemValue rt (r.envelope compact) with
      | error e' =>
        rw [hitem] at hvalues
        cases hvalues
        rfl
      | ok v =>
        rw [own_value rt (item_ok hitem)] at hfirst
        cases hfirst
  · rintro (hok | ⟨⟨e, hown⟩, hfirst⟩)
    · rw [mapM_values rt compact hok]
      simp only [List.map_map]
      exact List.map_congr_left fun r hr => (own_value rt (hok r hr)).symm
    · cases replies with
      | nil => rfl
      | cons r rest =>
        have hitem := (@envelope_own rt compact r).mpr (hfirst r rfl)
        rw [hown r List.mem_cons_self] at hitem
        cases hvalue : batchItemValue rt (r.envelope compact) with
        | ok v =>
          rw [hvalue] at hitem
          cases hitem
        | error e' =>
          rw [hvalue] at hitem
          have hreplies : (r::rest).map (own rt) = List.replicate (r::rest).length (.error e) :=
            List.eq_replicate_iff.mpr ⟨List.length_map _, fun x hx => by
              obtain ⟨y, hy, rfl⟩ := List.mem_map.mp hx
              exact hown y hy⟩
          rw [List.mapM_cons, hvalue, hreplies]
          show (List.replicate _ (Except.error e')).map bareOutcome = _
          rw [List.map_replicate, hitem]

theorem item_futures_agree_iff_failed :
    (pipelineItemFutures asciiInterpreter 1 (pipelined true [.busy (.bytes [0x78])])).map
        bareOutcome =
      (valueFutures asciiInterpreter (List.zipWith response [0x0102] [.busy (.bytes [0x78])])).map
        bareOutcome :=
  (item_futures_agree_iff asciiInterpreter true [.busy (.bytes [0x78])] [0x0102] rfl).mpr
    (.inr ⟨⟨_, fun r hr => by rw [List.mem_singleton.mp hr]; rfl⟩, fun r hr h => by
      obtain ⟨v, d, hv, -, hne⟩ := h
      cases hr
      cases hv
      exact hne rfl⟩)

/-- The failure of the second command is the outcome of the first. -/
theorem item_futures_differ :
    (valueFutures asciiInterpreter (List.zipWith response [0x0101, 0x0101]
      [.ok (.bytes [0x76]), .error (.bytes [0x78])])).head? = some (.ok (.bytes [0x76])) ∧
    (pipelineItemFutures asciiInterpreter 2
      (pipelined false [.ok (.bytes [0x76]), .error (.bytes [0x78])])).head? =
        some (.error (.ferricStore (lit "x")
          (.list [.bytes (utf8 (lit "error")), .bytes [0x78]]) .unset)) :=
  ⟨rfl, rfl⟩

/-! ### Groups whose replies arrive in any order -/

theorem mapM_ok_lengths {α β : Type} {f : α → Except ReplyError β} {as : List α} {bs : List β}
    (h : as.mapM f = .ok bs) : bs.length = as.length ∧
      ∀ (i : ℕ) a, as[i]? = some a → ∃ b, bs[i]? = some b ∧ f a = .ok b := by
  induction as generalizing bs with
  | nil =>
    cases h
    simp
  | cons a as ih =>
    rw [List.mapM_cons] at h
    obtain ⟨b, hb, h⟩ := except_bind_eq_ok h
    obtain ⟨rest, hrest, h⟩ := except_bind_eq_ok h
    cases h
    obtain ⟨hlength, hget⟩ := ih hrest
    refine ⟨by simp [hlength], fun i x hx => ?_⟩
    cases i with
    | zero =>
      obtain rfl : a = x := by simpa using hx
      exact ⟨b, rfl, hb⟩
    | succ i => exact hget i x hx

theorem mapM_error_mem {α β : Type} {f : α → Except ReplyError β} {as : List α} {e : ReplyError}
    (h : as.mapM f = .error e) : ∃ (i : ℕ) (a : α), as[i]? = some a ∧ f a = .error e := by
  induction as with
  | nil => cases h
  | cons a as ih =>
    rw [List.mapM_cons] at h
    cases ha : f a with
    | error e' =>
      rw [ha] at h
      cases h
      exact ⟨0, a, rfl, ha⟩
    | ok b =>
      rw [ha, except_ok_bind] at h
      cases hrest : as.mapM f with
      | error e' =>
        rw [hrest] at h
        cases h
        obtain ⟨i, x, hx, hfx⟩ := ih hrest
        exact ⟨i+1, x, hx, hfx⟩
      | ok bs =>
        rw [hrest] at h
        cases h

theorem flowManyGroupValues_length {rt : Interpreter} {value : Value} {count : ℕ}
    {values : List Value} (h : flowManyGroupValues rt value count = .ok values) :
    values.length = count := by
  unfold flowManyGroupValues at h
  split_ifs at h with hok
  · cases h
    exact List.length_replicate
  · split at h
    · split_ifs at h with hlength hpairs
      · cases h
      · rw [(mapM_ok_lengths h).1]
        exact not_not.mp hlength
      · cases h
        exact not_not.mp hlength
    · cases h

theorem groupReply_length {rt : Interpreter} {count : ℕ} {response : Response}
    {values : List Value} (h : groupReply rt count response = .ok values) :
    values.length = count := by
  obtain ⟨value, -, hvalues⟩ := except_bind_eq_ok h
  exact flowManyGroupValues_length hvalues

/-- An item of a group stands behind the groups before it. -/
theorem flatten_getElem? {α : Type} {groups : List (List α)} {i j : ℕ} {group : List α}
    (hgroup : groups[i]? = some group) (hj : j < group.length) :
    groups.flatten[((groups.take i).map List.length).sum+j]? = group[j]? := by
  induction groups generalizing i with
  | nil => cases hgroup
  | cons first groups ih =>
    cases i with
    | zero =>
      obtain rfl : first = group := by simpa using hgroup
      rw [List.flatten_cons]
      simp [List.getElem?_append_left hj]
    | succ i =>
      have hrest := ih hgroup
      rw [List.flatten_cons, List.take_succ_cons, List.map_cons, List.sum_cons, Nat.add_assoc,
        List.getElem?_append_right (Nat.le_add_right _ _), Nat.add_sub_cancel_left, hrest]

section Groups

variable {rt : Interpreter} {counts : List ℕ} {responses : List Response}
  {arrivals : List (ℕ × Response)}

theorem groups_lengths {groups : List (List Value)} (hlength : responses.length = counts.length)
    (h : ((counts.zip responses).mapM fun g => groupReply rt g.1 g.2) = .ok groups) :
    groups.map List.length = counts := by
  obtain ⟨hgroups, hget⟩ := mapM_ok_lengths h
  refine List.ext_getElem? fun i => ?_
  rw [List.getElem?_map]
  cases hc : counts[i]? with
  | none =>
    have hi := List.getElem?_eq_none_iff.mp hc
    rw [List.getElem?_eq_none (by
      rw [hgroups, List.length_zip]
      omega)]
    rfl
  | some count =>
    obtain ⟨hi, -⟩ := List.getElem?_eq_some_iff.mp hc
    have hr : responses[i]? = some responses[i] := List.getElem?_eq_getElem (by omega)
    obtain ⟨group, hgroup, hreply⟩ := hget i (count, responses[i])
      (List.getElem?_zip_eq_some.mpr ⟨hc, hr⟩)
    rw [hgroup, Option.map_some, groupReply_length hreply]

end Groups

/-- Whatever order the groups are answered in, the future stays open until the last answer or the
first error. Without an error it holds what asking the groups one after the other gives, each
reply at the place of its command; with one, the error of the first group to fail. -/
theorem flow_many_gathers (rt : Interpreter) (counts : List ℕ) (responses : List Response)
    (arrivals : List (ℕ × Response)) (hne : counts ≠ [])
    (hlength : responses.length = counts.length)
    (horder : (arrivals.map Prod.fst).Perm (List.range counts.length))
    (hown : ∀ a ∈ arrivals, responses[a.1]? = some a.2) :
    (∀ merged, executeFlowMany rt counts responses = .ok merged →
      merged.length = counts.sum ∧
      (∀ k, submitFlowManyBatch rt counts counts.sum (arrivals.take k) =
        if k < counts.length then none else some (.ok merged)) ∧
      ∀ (i j count : ℕ) (response : Response), counts[i]? = some count →
        responses[i]? = some response → j < count →
        ∃ group, groupReply rt count response = .ok group ∧
          merged[(counts.take i).sum+j]? = group[j]?) ∧
    ∀ e, executeFlowMany rt counts responses = .error e →
      ∃ before a after e', arrivals = before++a::after ∧
        groupReply rt (counts.getD a.1 0) a.2 = .error e' ∧
        (∀ b ∈ before, ∃ group, groupReply rt (counts.getD b.1 0) b.2 = .ok group) ∧
        ∀ k, submitFlowManyBatch rt counts counts.sum (arrivals.take k) =
          if k ≤ before.length then none else some (.error e') := by
  let part : ℕ × Response → ℕ × Except ReplyError (List Value) := fun a =>
    (a.1, groupReply rt (counts.getD a.1 0) a.2)
  have hparts : ((arrivals.map part).map Prod.fst).Perm (List.range counts.length) := by
    rw [List.map_map]
    exact horder
  have hnumber : ∀ a ∈ arrivals, (counts.zip responses)[a.1]? = some (counts.getD a.1 0, a.2) := by
    intro a ha
    have hi := List.mem_range.mp (horder.mem_iff.mp (List.mem_map_of_mem ha))
    refine List.getElem?_zip_eq_some.mpr ⟨?_, hown a ha⟩
    rw [List.getD_eq_getElem?_getD, List.getElem?_eq_getElem hi]
    rfl
  constructor
  · intro merged hmerged
    obtain ⟨groups, hgroups, h⟩ := except_bind_eq_ok hmerged
    cases h
    obtain ⟨hcount, hget⟩ := mapM_ok_lengths hgroups
    have hlengths := groups_lengths hlength hgroups
    have hsum : groups.flatten.length = counts.sum := by
      rw [List.length_flatten, hlengths]
    refine ⟨hsum, fun k => ?_, ?_⟩
    · have hmerge : mergeGroups counts.sum groups = .ok groups.flatten := if_neg (not_not.mpr hsum)
      have hgroupCount : groups.length = counts.length := by
        rw [← hlengths, List.length_map]
      rw [submitFlowManyBatch, List.map_take, Gathering.run_take_ok
        (List.length_pos_iff.mpr hne) hgroupCount hparts, hmerge]
      intro p hp
      obtain ⟨a, ha, rfl⟩ := List.mem_map.mp hp
      exact hget a.1 _ (hnumber a ha)
    · intro i j count response hi hr hj
      obtain ⟨group, hgroup, hreply⟩ := hget i (count, response)
        (List.getElem?_zip_eq_some.mpr ⟨hi, hr⟩)
      refine ⟨group, hreply, ?_⟩
      have hplace := flatten_getElem? hgroup (by rwa [groupReply_length hreply])
      rwa [List.map_take, hlengths] at hplace
  · intro e he
    have hfailed : ∃ e', Gathering.firstError (arrivals.map part) = some e' := by
      rw [← Option.ne_none_iff_exists']
      intro hnone
      have hmapM : ((counts.zip responses).mapM fun g => groupReply rt g.1 g.2) = .error e := by
        rw [executeFlowMany] at he
        cases hgroups : (counts.zip responses).mapM fun g => groupReply rt g.1 g.2 with
        | ok groups =>
          rw [hgroups] at he
          cases he
        | error e' =>
          rw [hgroups] at he
          cases he
          rfl
      obtain ⟨i, g, hg, hreply⟩ := mapM_error_mem hmapM
      obtain ⟨hi, -⟩ := List.getElem?_eq_some_iff.mp hg
      rw [List.length_zip] at hi
      obtain ⟨a, ha, rfl⟩ := List.mem_map.mp (horder.mem_iff.mpr
        (List.mem_range.mpr (show i < counts.length by omega)))
      rw [hnumber a ha] at hg
      cases hg
      obtain ⟨values, hvalues⟩ := Gathering.firstError_eq_none.mp hnone (part a)
        (List.mem_map_of_mem ha)
      rw [show (part a).2 = .error e from hreply] at hvalues
      cases hvalues
    obtain ⟨e', he'⟩ := hfailed
    rw [Gathering.firstError, List.findSome?_map] at he'
    obtain ⟨before, a, after, rfl, ha, hbefore⟩ := List.findSome?_eq_some_iff.mp he'
    have hreply : groupReply rt (counts.getD a.1 0) a.2 = .error e' := by
      dsimp only [Function.comp, part] at ha
      cases hvalue : groupReply rt (counts.getD a.1 0) a.2 with
      | ok values =>
        rw [hvalue] at ha
        cases ha
      | error e'' =>
        rw [hvalue] at ha
        cases ha
        rfl
    have hfirst : ∀ b ∈ before, ∃ group, groupReply rt (counts.getD b.1 0) b.2 = .ok group := by
      intro b hb
      have hnone := hbefore b hb
      dsimp only [Function.comp, part] at hnone
      cases hvalue : groupReply rt (counts.getD b.1 0) b.2 with
      | ok values => exact ⟨values, rfl⟩
      | error e'' =>
        rw [hvalue] at hnone
        cases hnone
    refine ⟨before, a, after, e', rfl, hreply, hfirst, fun k => ?_⟩
    have hsplit : (before++a::after).map part =
        before.map part++(a.1, .error e')::after.map part := by
      rw [List.map_append, List.map_cons]
      exact congrArg (fun r => before.map part++(a.1, r)::after.map part) hreply
    rw [submitFlowManyBatch, List.map_take, Gathering.run_take_error hparts hsplit,
      List.length_map]
    exact Gathering.firstError_eq_none.mpr fun p hp => by
      obtain ⟨b, hb, rfl⟩ := List.mem_map.mp hp
      exact hfirst b hb

/-- Two groups, the second answered first. -/
theorem flow_many_gathers_two :
    submitFlowManyBatch asciiInterpreter [2, 1] 3
      [(1, ⟨0x0201, statusOk, .list [.bytes [0x63]]⟩),
        (0, ⟨0x0201, statusOk, .list [.bytes [0x61], .bytes [0x62]]⟩)] =
      some (.ok [.bytes [0x61], .bytes [0x62], .bytes [0x63]]) :=
  ((flow_many_gathers asciiInterpreter [2, 1]
    [⟨0x0201, statusOk, .list [.bytes [0x61], .bytes [0x62]]⟩,
      ⟨0x0201, statusOk, .list [.bytes [0x63]]⟩]
    [(1, ⟨0x0201, statusOk, .list [.bytes [0x63]]⟩),
      (0, ⟨0x0201, statusOk, .list [.bytes [0x61], .bytes [0x62]]⟩)]
    (by decide) rfl (by decide) (by simp)).1 _ rfl).2.1 2

end FerricStore.BatchReplies
