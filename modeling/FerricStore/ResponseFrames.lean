import FerricStore.Dict
import FerricStore.KeyedMachine
import FerricStore.Value

/-!
# Reassembly of response frames

A response arrives as one frame, or as chunks whose frames carry the MORE flag
except the last. The assembler keeps one entry for each response identity whose
chunks are still arriving. `may_mutate` travels with an identity but takes no
part in its equality, so the table is keyed by the other three fields.
-/

set_option autoImplicit false

namespace FerricStore.ResponseFrames

def flagMoreChunks : ℕ := 0x20

structure ResponseKey where
  laneId : ℕ
  opcode : ℕ
  requestId : ℕ
  deriving DecidableEq, Repr

structure ResponseIdentity extends ResponseKey where
  mayMutate : Option Bool := none
  deriving DecidableEq, Repr

/-- The limits of an assembler; a chunk limit is positive. -/
structure ResponseLimits where
  maxBodyBytes : Option ℕ
  maxChunks : Option ℕ
  maxChunks_pos : ∀ n ∈ maxChunks, 0 < n

structure ResponseBodyAccumulator where
  first : Bytes
  stream : Option Bytes

def ResponseBodyAccumulator.append (a : ResponseBodyAccumulator) (chunk : Bytes) :
    ResponseBodyAccumulator :=
  match a.stream with
  | none => ⟨[], some (a.first++chunk)⟩
  | some stream => ⟨a.first, some (stream++chunk)⟩

def ResponseBodyAccumulator.finish (a : ResponseBodyAccumulator) : Bytes :=
  a.stream.getD a.first

structure ResponseFrameBudget where
  limits : ResponseLimits
  bodyBytes : ℕ
  chunks : ℕ

def exceeds (limit : Option ℕ) (n : ℕ) : Bool := limit.any fun m => n > m

def ResponseFrameBudget.addChunk (b : ResponseFrameBudget) (bodyBytes : ℕ) :
    Except Err ResponseFrameBudget :=
  let chunks := b.chunks+1
  let total := b.bodyBytes+bodyBytes
  if exceeds b.limits.maxChunks chunks then
    .error (.ferricStore "protocol response exceeds max_response_chunks")
  else if exceeds b.limits.maxBodyBytes total then
    .error (.ferricStore "protocol response exceeds max_response_bytes")
  else .ok { b with chunks := chunks, bodyBytes := total }

structure AssembledResponseFrame where
  identity : ResponseIdentity
  flags : ℕ
  body : Bytes
  readStartedNs : ℕ
  deriving DecidableEq, Repr

structure PendingResponseFrames where
  accumulator : ResponseBodyAccumulator
  budget : ResponseFrameBudget
  flags : ℕ
  readStartedNs : ℕ

/-- The arguments of one call of `ResponseFrameAssembler.add`. -/
structure Frame where
  identity : ResponseIdentity
  flags : ℕ
  body : Bytes
  readStartedNs : ℕ

def Frame.key (f : Frame) : ResponseKey := f.identity.toResponseKey

def Frame.more (f : Frame) : Bool := f.flags &&& flagMoreChunks ≠ 0

/-- `flags & ~_FLAG_MORE_CHUNKS`. -/
def logicalFlags (flags : ℕ) : ℕ := flags ^^^ (flags &&& flagMoreChunks)

abbrev Outcome := Except Err (Option AssembledResponseFrame)

abbrev Pending := Dict ResponseKey PendingResponseFrames

def checkSingleFrame (limits : ResponseLimits) (bodyBytes : ℕ) : Except Err Unit := do
  let _ ← ResponseFrameBudget.addChunk ⟨limits, 0, 0⟩ bodyBytes
  pure ()

def add (limits : ResponseLimits) (pending : Pending) (f : Frame) : Pending × Outcome :=
  match pending.get? f.key, f.more with
  | none, false =>
    match checkSingleFrame limits f.body.length with
    | .error e => (pending, .error e)
    | .ok () =>
      (pending, .ok (some ⟨f.identity, logicalFlags f.flags, f.body, f.readStartedNs⟩))
  | none, true =>
    match ResponseFrameBudget.addChunk ⟨limits, 0, 0⟩ f.body.length with
    | .error e => (pending, .error e)
    | .ok budget =>
      (pending.set f.key ⟨⟨f.body, none⟩, budget, logicalFlags f.flags, f.readStartedNs⟩,
        .ok none)
  | some entry, more =>
    match entry.budget.addChunk f.body.length with
    | .error e => (pending.pop f.key, .error e)
    | .ok budget =>
      let entry : PendingResponseFrames :=
        { entry with
          budget := budget
          accumulator := entry.accumulator.append f.body
          flags := entry.flags ||| logicalFlags f.flags }
      if more then (pending.set f.key entry, .ok none)
      else (pending.pop f.key,
        .ok (some ⟨f.identity, entry.flags, entry.accumulator.finish, entry.readStartedNs⟩))

/-!
## Interleaved responses do not interfere

The assembler is a keyed machine: a frame reads and writes the entry of its own
identity only. Along every run the entry of an identity summarises the chunks of
that identity which arrived since its last completed or failed response, and the
next frame completes, extends or fails exactly that list of chunks.
-/

open KeyedMachine

/-- What one call does to the entry of its own identity. -/
def addOwn (limits : ResponseLimits) (entry : Option PendingResponseFrames) (f : Frame) :
    Option PendingResponseFrames × Outcome :=
  match entry, f.more with
  | none, false =>
    match checkSingleFrame limits f.body.length with
    | .error e => (none, .error e)
    | .ok () => (none, .ok (some ⟨f.identity, logicalFlags f.flags, f.body, f.readStartedNs⟩))
  | none, true =>
    match ResponseFrameBudget.addChunk ⟨limits, 0, 0⟩ f.body.length with
    | .error e => (none, .error e)
    | .ok budget =>
      (some ⟨⟨f.body, none⟩, budget, logicalFlags f.flags, f.readStartedNs⟩, .ok none)
  | some entry, more =>
    match entry.budget.addChunk f.body.length with
    | .error e => (none, .error e)
    | .ok budget =>
      let accumulator := entry.accumulator.append f.body
      let flags := entry.flags ||| logicalFlags f.flags
      if more then (some ⟨accumulator, budget, flags, entry.readStartedNs⟩, .ok none)
      else (none, .ok (some ⟨f.identity, flags, accumulator.finish, entry.readStartedNs⟩))

theorem add_cases (limits : ResponseLimits) (pending : Pending) (f : Frame) :
    let own := addOwn limits (pending.get? f.key) f
    (add limits pending f).2 = own.2 ∧
    ((add limits pending f).1 = pending ∧ pending.get? f.key = none ∧ own.1 = none ∨
      (∃ entry, (add limits pending f).1 = pending.set f.key entry ∧ own.1 = some entry) ∨
      (add limits pending f).1 = pending.pop f.key ∧ own.1 = none) := by
  unfold add addOwn
  cases hp : pending.get? f.key with
  | none =>
    cases hm : f.more with
    | false =>
      cases hc : checkSingleFrame limits f.body.length with
      | error e => simp
      | ok u => simp
    | true =>
      cases hb : ResponseFrameBudget.addChunk ⟨limits, 0, 0⟩ f.body.length with
      | error e => simp
      | ok budget => simp
  | some entry =>
    cases hb : entry.budget.addChunk f.body.length with
    | error e => simp [hb]
    | ok budget => cases hm : f.more <;> simp [hb]

theorem add_keyed (limits : ResponseLimits) :
    Keyed Frame.key (fun (s : Pending) k => s.get? k) (add limits) (addOwn limits) where
  state s f := by
    obtain ⟨-, ⟨hs, hn, ho⟩ | ⟨entry, hs, ho⟩ | ⟨hs, ho⟩⟩ := add_cases limits s f
    · rw [hs, ho, hn]
    · rw [hs, ho, Dict.get?_set, if_pos rfl]
    · rw [hs, ho, Dict.get?_pop, if_pos rfl]
  output s f := (add_cases limits s f).1
  frame s f k hk := by
    obtain ⟨-, ⟨hs, -⟩ | ⟨entry, hs, -⟩ | ⟨hs, -⟩⟩ := add_cases limits s f
    · rw [hs]
    · rw [hs, Dict.get?_set_ne _ _ _ _ (Ne.symm hk)]
    · rw [hs, Dict.get?_pop, if_neg (Ne.symm hk)]

def bodyOf (chunks : List Frame) : Bytes := chunks.flatMap Frame.body

def flagsOf (chunks : List Frame) : ℕ := chunks.foldl (fun acc c => acc ||| c.flags) 0

/-- The error of a response whose chunks pass a limit. -/
def limitError (limits : ResponseLimits) (chunks : List Frame) : Option Err :=
  if exceeds limits.maxChunks chunks.length then
    some (.ferricStore "protocol response exceeds max_response_chunks")
  else if exceeds limits.maxBodyBytes (bodyOf chunks).length then
    some (.ferricStore "protocol response exceeds max_response_bytes")
  else none

/-- The response made of the chunks `own` followed by the frame `f`. -/
def assembled (own : List Frame) (f : Frame) : AssembledResponseFrame :=
  ⟨f.identity, logicalFlags (flagsOf (own++[f])), bodyOf (own++[f]),
    (own.head?.getD f).readStartedNs⟩

theorem bodyOf_snoc (own : List Frame) (f : Frame) :
    bodyOf (own++[f]) = bodyOf own++f.body := by
  simp [bodyOf]

theorem flagsOf_snoc (own : List Frame) (f : Frame) :
    flagsOf (own++[f]) = flagsOf own ||| f.flags := by
  simp [flagsOf]

theorem logicalFlags_testBit (flags i : ℕ) :
    (logicalFlags flags).testBit i = (flags.testBit i && !flagMoreChunks.testBit i) := by
  simp only [logicalFlags, Nat.testBit_xor, Nat.testBit_and]
  cases flags.testBit i <;> cases flagMoreChunks.testBit i <;> rfl

theorem logicalFlags_or (a b : ℕ) :
    logicalFlags (a ||| b) = logicalFlags a ||| logicalFlags b := by
  apply Nat.eq_of_testBit_eq
  intro i
  simp only [logicalFlags_testBit, Nat.testBit_or, Bool.and_or_distrib_right]

theorem addChunk_snoc (limits : ResponseLimits) (own : List Frame) (f : Frame) :
    ResponseFrameBudget.addChunk ⟨limits, (bodyOf own).length, own.length⟩ f.body.length =
      match limitError limits (own++[f]) with
      | some e => .error e
      | none => .ok ⟨limits, (bodyOf (own++[f])).length, (own++[f]).length⟩ := by
  simp only [ResponseFrameBudget.addChunk, limitError, bodyOf_snoc, List.length_append,
    List.length_singleton]
  split_ifs <;> rfl

/-- An entry summarises the chunks that arrived for it; no entry, no chunks. -/
def Summary (limits : ResponseLimits) (own : List Frame) :
    Option PendingResponseFrames → Prop
  | none => own = []
  | some entry => entry.accumulator.finish = bodyOf own ∧
      entry.budget = ⟨limits, (bodyOf own).length, own.length⟩ ∧
      entry.flags = logicalFlags (flagsOf own) ∧
      ∃ f ∈ own.head?, entry.readStartedNs = f.readStartedNs

theorem append_finish (a : ResponseBodyAccumulator) (chunk : Bytes) :
    (a.append chunk).finish = a.finish++chunk := by
  obtain ⟨first, stream⟩ := a
  cases stream <;> rfl

/-- One call turns the summary of the open chunks into the summary of the chunks
with the new frame, or closes the response with its frame or its error. -/
theorem addOwn_summary (limits : ResponseLimits) (own : List Frame)
    (entry : Option PendingResponseFrames) (f : Frame) (h : Summary limits own entry) :
    match limitError limits (own++[f]) with
    | some e => addOwn limits entry f = (none, .error e)
    | none =>
      if f.more then (addOwn limits entry f).2 = .ok none ∧
        Summary limits (own++[f]) (addOwn limits entry f).1
      else addOwn limits entry f = (none, .ok (some (assembled own f))) := by
  have hb := addChunk_snoc limits own f
  cases entry with
  | none =>
    obtain rfl : own = [] := h
    rw [show (bodyOf []).length = 0 from rfl, List.length_nil] at hb
    cases he : limitError limits ([]++[f]) with
    | some e =>
      rw [he] at hb
      cases hm : f.more <;> simp [addOwn, checkSingleFrame, hm, hb, bind, Except.bind]
    | none =>
      rw [he] at hb
      cases hm : f.more with
      | false =>
        simp [addOwn, checkSingleFrame, hm, hb, bind, Except.bind, pure, Except.pure,
          assembled, bodyOf, flagsOf]
      | true => simp [addOwn, hm, hb, Summary, ResponseBodyAccumulator.finish, bodyOf, flagsOf]
  | some entry =>
    obtain ⟨hacc, hbud, hfl, g, hg, hst⟩ := h
    have hhead : own.head?.getD f = g := by rw [hg]; rfl
    rw [← hbud] at hb
    cases he : limitError limits (own++[f]) with
    | some e =>
      rw [he] at hb
      simp [addOwn, hb]
    | none =>
      rw [he] at hb
      cases hm : f.more with
      | false =>
        simp [addOwn, hm, hb, assembled, append_finish, hacc, bodyOf_snoc, hfl, flagsOf_snoc,
          logicalFlags_or, hst, hhead]
      | true =>
        simp [addOwn, hm, hb, Summary, append_finish, hacc, bodyOf_snoc, hfl, flagsOf_snoc,
          logicalFlags_or, hst, List.head?_append, hhead]

/-- The chunks of one identity that a run has left open: those since the last
call which completed or failed a response of that identity. -/
def openChunks (events : List (Frame × Outcome)) : List Frame :=
  events.foldl (fun own e => match e.2 with
    | .ok none => own++[e.1]
    | _ => []) []

theorem openChunks_snoc (events : List (Frame × Outcome)) (f : Frame) (o : Outcome) :
    openChunks (events++[(f, o)]) = match o with
      | .ok none => openChunks events++[f]
      | _ => [] := by
  simp [openChunks]

theorem run_summary (limits : ResponseLimits) (frames : List Frame) :
    Summary limits (openChunks (run (addOwn limits) none frames).2)
      (run (addOwn limits) none frames).1 := by
  induction frames using List.reverseRecOn with
  | nil => rfl
  | append_singleton frames f ih =>
    have hstep := addOwn_summary limits _ _ f ih
    simp only [run_append, run]
    rw [openChunks_snoc]
    cases he : limitError limits (openChunks (run (addOwn limits) none frames).2++[f]) with
    | some e =>
      rw [he] at hstep
      simp [hstep, Summary]
    | none =>
      rw [he] at hstep
      dsimp only at hstep
      split_ifs at hstep with hm
      · rw [hstep.1]
        exact hstep.2
      · simp [hstep, Summary]

/-- The run of an assembler from its empty table: every call with its outcome. -/
def events (limits : ResponseLimits) (frames : List Frame) : List (Frame × Outcome) :=
  (run (add limits) [] frames).2

def eventsOf (k : ResponseKey) (es : List (Frame × Outcome)) : List (Frame × Outcome) :=
  es.filter fun e => e.1.key = k

theorem pending_summary (limits : ResponseLimits) (frames : List Frame) (k : ResponseKey) :
    Summary limits (openChunks (eventsOf k (events limits frames)))
      ((run (add limits) [] frames).1.get? k) := by
  obtain ⟨hs, ho⟩ := (add_keyed limits).project k ([] : Pending) frames
  rw [eventsOf, events, ho]
  rw [hs]
  exact run_summary limits _

/-- In any interleaving, the outcomes of an identity are those of its own frames
alone. The next frame `f` closes the open chunks of its identity with their
error if they pass a limit, and then its entry and no other is gone; it
completes them with their concatenation if it is the last; else it extends them. -/
theorem reassembly_without_interference (limits : ResponseLimits) (frames : List Frame) :
    (∀ k : ResponseKey, eventsOf k (events limits frames) =
      events limits (frames.filter fun f => f.key = k)) ∧
    ∀ f : Frame,
      let pending := (run (add limits) [] frames).1
      let own := openChunks (eventsOf f.key (events limits frames))
      let after := add limits pending f
      (∀ k, k ≠ f.key → after.1.get? k = pending.get? k) ∧
      match limitError limits (own++[f]) with
      | some e => after.2 = .error e ∧ after.1.get? f.key = none
      | none =>
        if f.more then after.2 = .ok none
        else after.2 = .ok (some (assembled own f)) ∧ after.1.get? f.key = none := by
  refine ⟨fun k => (add_keyed limits).isolated k [] [] rfl frames, fun f => ?_⟩
  have hk := add_keyed limits
  have hsum := pending_summary limits frames f.key
  have hstep := addOwn_summary limits _ _ f hsum
  refine ⟨fun k hne => hk.frame _ f k hne, ?_⟩
  have hstate := hk.state (run (add limits) [] frames).1 f
  have hout := hk.output (run (add limits) [] frames).1 f
  rw [hstate, hout]
  cases he : limitError limits (openChunks (eventsOf f.key (events limits frames))++[f]) with
  | some e =>
    rw [he] at hstep
    simp [hstep]
  | none =>
    rw [he] at hstep
    dsimp only at hstep ⊢
    split_ifs at hstep ⊢
    · exact hstep.1
    · simp [hstep]

end FerricStore.ResponseFrames
