import FerricStore.AutobatchFlushes

/-!
# Outcomes of autobatched operations

The dispatcher takes the queue in flushes. A flush settles the future of every operation it
takes exactly once: a group with the results at the places of its operations, or all of it
with one error.
-/

set_option autoImplicit false

namespace FerricStore.Autobatch

open Text FlowOptions MutationArguments ManyArguments CreateManyArguments QueuedArguments
  AdjacentGroups

/-- A queued operation: a marker of `flush`, a direct call, or an item of a batch. -/
inductive Work (rt : Runtime) where
  | flush
  | direct (op : Operation)
  | batch (op : Operation) (routed : route rt op = .batch)

structure Entry (rt : Runtime) where
  future : ℕ
  work : Work rt

/-- Whether the keys are equal. The key of a marker and of a direct call has its future. -/
def Entry.joins {rt : Runtime} (a b : Entry rt) : Bool :=
  match a.work, b.work with
  | .flush, .flush => a.future = b.future
  | .direct _, .direct _ => a.future = b.future
  | .batch x _, .batch y _ => Autobatch.joins rt x y
  | _, _ => false

def Entry.batched? {rt : Runtime} (e : Entry rt) : Option Operation :=
  match e.work with
  | .batch op _ => some op
  | _ => none

/-- What the client returns for a command for many flows. -/
inductive Reply (R : Type) where
  | items (results : List R)
  | single (result : R)

/-- The client, which may answer in any way, and the clock, by the first future of a group. -/
structure Client (E R : Type) where
  clock : ℕ → ℤ
  call : ℕ → Operation → Except E R
  send : ℕ → List Value → Except E (Reply R)
  itemError : R → Option E

inductive Outcome (E R : Type) where
  | nothing
  | result (r : R)
  | failed (e : E)
  | invalid (e : Err)
  | cardinality

section Flush

variable {rt : Runtime} {E R : Type} (heap : Heap) (encode : Arg → Bytes) (agrees : Matcher)
  (client : Client E R)

/-- The outcome at one place of a list of results. -/
def itemOutcome (r : R) : Outcome E R :=
  match client.itemError r with
  | none => .result r
  | some e => .failed e

/-- `_complete_group` -/
def completeGroup (futures : List ℕ) : Reply R → List (ℕ × Outcome E R)
  | .items results =>
    if results.length ≠ futures.length then futures.map fun f => (f, .cardinality)
    else List.zipWith (fun f r => (f, itemOutcome client r)) futures results
  | .single r => futures.map fun f => (f, .result r)

/-- The call of a direct operation. -/
def directOutcome (e : Entry rt) : Outcome E R :=
  match e.work with
  | .direct op => match client.call e.future op with
    | .ok r => .result r
    | .error x => .failed x
  | _ => .nothing

/-- A group of batched operations: the command if there is one, and what the futures get. -/
def flushBatch (future : ℕ) (g : List (Entry rt)) :
    Option (List Value) × List (ℕ × Outcome E R) :=
  match groupArgs rt heap encode (client.clock future) agrees (g.filterMap Entry.batched?) with
  | .error err => (none, g.map fun x => (x.future, .invalid err))
  | .ok args => match client.send future args with
    | .error x => (some args, g.map fun y => (y.future, .failed x))
    | .ok reply => (some args, completeGroup client (g.map (·.future)) reply)

/-- One group of `flush_autobatch_ops`, with `_flush_group`. -/
def flushGroup : List (Entry rt) → Option (List Value) × List (ℕ × Outcome E R)
  | [] => (none, [])
  | e::rest =>
    if e.batched?.isSome then flushBatch heap encode agrees client e.future (e::rest)
    else (none, (e::rest).map fun x => (x.future, directOutcome client x))

def groupsOf (entries : List (Entry rt)) : List (List (Entry rt)) := group Entry.joins entries

/-- `flush_autobatch_ops` -/
def flushOps (entries : List (Entry rt)) : List (Option (List Value) × List (ℕ × Outcome E R)) :=
  (groupsOf entries).map (flushGroup heap encode agrees client)

/-- The futures in the order in which they are settled, over all flushes. -/
def settled (flushes : List (List (Entry rt))) : List (ℕ × Outcome E R) :=
  flushes.flatMap fun entries => (flushOps heap encode agrees client entries).flatMap Prod.snd

theorem zip_futures {f : R → Outcome E R} {futures : List ℕ} {results : List R}
    (h : results.length = futures.length) :
    (List.zipWith (fun x r => (x, f r)) futures results).map Prod.fst = futures := by
  induction futures generalizing results with
  | nil => rfl
  | cons x futures ih =>
    cases results with
    | nil => simp at h
    | cons r results =>
      rw [List.zipWith_cons_cons, List.map_cons, ih (by simpa using h)]

theorem completeGroup_futures (futures : List ℕ) (reply : Reply R) :
    (completeGroup client futures reply).map Prod.fst = futures := by
  cases reply with
  | single r => simp [completeGroup, Function.comp_def]
  | items results =>
    by_cases h : results.length = futures.length
    · rw [completeGroup, if_neg (not_not.mpr h)]
      exact zip_futures h
    · rw [completeGroup, if_pos h]
      simp [Function.comp_def]

theorem flushGroup_futures (g : List (Entry rt)) :
    (flushGroup heap encode agrees client g).2.map Prod.fst = g.map (·.future) := by
  cases g with
  | nil => rfl
  | cons e rest =>
    rw [flushGroup]
    split_ifs
    · rw [flushBatch]
      split
      · simp [Function.comp_def]
      · split
        · simp [Function.comp_def]
        · exact completeGroup_futures client _ _
    · simp [Function.comp_def]

theorem flushOps_futures (entries : List (Entry rt)) :
    ((flushOps heap encode agrees client entries).flatMap Prod.snd).map Prod.fst =
      entries.map (·.future) := by
  have hgroups : (flushOps heap encode agrees client entries).flatMap
      (fun t => t.2.map Prod.fst) = (groupsOf entries).flatMap fun g => g.map (·.future) := by
    simp only [flushOps, List.flatMap_map, flushGroup_futures]
  rw [List.map_flatMap, hgroups, List.flatMap_def, ← List.map_flatten, groupsOf, group_flatten]

/-- Every future is settled once, in the order of the queue. -/
theorem settled_futures (flushes : List (List (Entry rt))) :
    (settled heap encode agrees client flushes).map Prod.fst =
      flushes.flatten.map (·.future) := by
  rw [settled, List.map_flatMap, List.map_flatten, List.flatMap_def]
  congr 1
  exact List.map_congr_left fun entries _ => flushOps_futures heap encode agrees client entries

end Flush

section Equal

variable {rt : Runtime} {E R : Type} {heap : Heap} {encode : Arg → Bytes} {agrees : Matcher}

/-- An operation of a group is sent with the fields of its direct call, or neither is sent. -/
def LikeDirect (rt : Runtime) (heap : Heap) (encode : Arg → Bytes) (agrees : Matcher) (clock : ℤ)
    (ops : List Operation) (i : ℕ) (op : Operation) : Prop :=
  (∃ d bs b, directSent rt heap encode clock op = .ok d ∧
    groupSent rt heap encode clock agrees ops = .ok bs ∧ bs[i]? = some b ∧ d.Within b) ∨
  (∃ e, directSent rt heap encode clock op = .error e) ∧
    ∃ e, groupSent rt heap encode clock agrees ops = .error e

/-- No operation of the group is invalid beside valid ones, and the command for many flows has
a place for every field and one text for what the operations share. -/
def Regular (rt : Runtime) (heap : Heap) (encode : Arg → Bytes) (clock : ℤ)
    (ops : List Operation) : Prop :=
  ((∀ op ∈ ops, Succeeds (directArgs rt heap encode clock op)) ∧
    ∀ op ∈ ops, Expressible op ∧ ∀ head ∈ ops.head?, Alike encode head op) ∨
  ∀ op ∈ ops, ¬ Succeeds (directArgs rt heap encode clock op)

theorem error_of_not_succeeds {α β : Type} {x : Except Err α} (h : ¬ Succeeds x) (f : α → β) :
    ∃ e, x.map f = .error e := by
  cases x with
  | error e => exact ⟨e, rfl⟩
  | ok a => exact absurd ⟨a, rfl⟩ h

theorem likeDirect_of_regular {clock : ℤ} {ops : List Operation}
    (hjoined : Joined (joins rt) ops) (hroute : ∀ op ∈ ops, route rt op = .batch)
    (h : Regular rt heap encode clock ops) {i : ℕ} {op : Operation} (hi : ops[i]? = some op) :
    LikeDirect rt heap encode agrees clock ops i op := by
  have hmem : op ∈ ops := List.mem_of_getElem? hi
  have hgroup := @group_succeeds rt heap encode clock agrees ops hjoined hroute
  rcases h with ⟨hvalid, hregular⟩ | hinvalid
  · obtain ⟨args, hargs⟩ := hgroup.mpr hvalid
    obtain ⟨direct, hdirect⟩ := hvalid op hmem
    obtain ⟨head, rest, rfl, hrest⟩ := hjoined
    have hwithin : ∀ x ∈ head::rest, Expressible x ∧ Alike encode head x :=
      fun x hx => ⟨(hregular x hx).1, (hregular x hx).2 head (by simp)⟩
    obtain ⟨b, hb, hwithin⟩ := @group_within rt heap encode clock head rest hrest hroute hwithin i op hi
    refine .inl ⟨directFields rt heap encode clock op, _, b, ?_, ?_, hb, hwithin⟩
    · rw [directSent, hdirect]
      rfl
    · rw [groupSent, hargs]
      rfl
  · have hfail : ¬ Succeeds (groupArgs rt heap encode clock agrees ops) := by
      intro hs
      exact hinvalid op hmem (hgroup.mp hs op hmem)
    exact .inr ⟨error_of_not_succeeds (hinvalid op hmem) _, error_of_not_succeeds hfail _⟩

/-- The operations of a group of entries. -/
theorem batched_joined {e : Entry rt} {rest : List (Entry rt)} {op : Operation}
    (he : e.batched? = some op) (hrest : ∀ x ∈ rest, e.joins x = true) :
    (e::rest).filterMap Entry.batched? = op::rest.filterMap Entry.batched? ∧
      ∀ x ∈ rest, ∃ op', x.batched? = some op' ∧ joins rt op op' = true := by
  refine ⟨List.filterMap_cons_some he, fun x hx => ?_⟩
  have hjoin := hrest x hx
  obtain ⟨f, work⟩ := e
  obtain ⟨f', work'⟩ := x
  cases work with
  | flush => cases he
  | direct op' => cases he
  | batch op' routed =>
    cases he
    cases work' with
    | flush => cases hjoin
    | direct op' => cases hjoin
    | batch op' routed' => exact ⟨op', rfl, hjoin⟩

theorem batched_routed {e : Entry rt} {op : Operation} (h : e.batched? = some op) :
    route rt op = .batch := by
  obtain ⟨f, work⟩ := e
  cases work with
  | flush => cases h
  | direct op' => cases h
  | batch op' routed =>
    cases h
    exact routed

/-- What a batch group of a flush does. -/
structure BatchGroup (heap : Heap) (encode : Arg → Bytes) (agrees : Matcher) (client : Client E R)
    (e : Entry rt) (g : List (Entry rt)) : Prop where
  command : (flushGroup heap encode agrees client g).1 =
    (groupArgs rt heap encode (client.clock e.future) agrees
      (g.filterMap Entry.batched?)).toOption
  operations : ∀ (i : ℕ) (x : Entry rt), g[i]? = some x →
    (g.filterMap Entry.batched?)[i]? = x.batched? ∧ x.batched?.isSome
  positional : ∀ args results, (flushGroup heap encode agrees client g).1 = some args →
    client.send e.future args = .ok (.items results) → results.length = g.length →
    ∀ (i : ℕ) (x : Entry rt) (r : R), g[i]? = some x → results[i]? = some r →
      (flushGroup heap encode agrees client g).2[i]? = some (x.future, itemOutcome client r)
  likeDirect : Regular rt heap encode (client.clock e.future) (g.filterMap Entry.batched?) →
    ∀ (i : ℕ) (op : Operation), (g.filterMap Entry.batched?)[i]? = some op →
      LikeDirect rt heap encode agrees (client.clock e.future) (g.filterMap Entry.batched?) i op

theorem zip_get {f : R → Outcome E R} {g : List (Entry rt)} {results : List R} {i : ℕ}
    {x : Entry rt} {r : R} (hx : g[i]? = some x) (hr : results[i]? = some r) :
    (List.zipWith (fun y r => (y, f r)) (g.map (·.future)) results)[i]? = some (x.future, f r) := by
  simp [List.getElem?_zipWith, hx, hr]

theorem batchGroup {client : Client E R} {e : Entry rt} {rest : List (Entry rt)}
    (he : e.batched?.isSome) (hrest : ∀ x ∈ rest, e.joins x = true) :
    BatchGroup heap encode agrees client e (e::rest) := by
  obtain ⟨op, hop⟩ := Option.isSome_iff_exists.mp he
  obtain ⟨hops, hjoin⟩ := batched_joined hop hrest
  have hsome : ∀ x ∈ e::rest, x.batched?.isSome := by
    rw [List.forall_mem_cons]
    refine ⟨he, fun x hx => ?_⟩
    obtain ⟨op', hop', -⟩ := hjoin x hx
    simp [hop']
  have hflush : flushGroup heap encode agrees client (e::rest) =
      flushBatch heap encode agrees client e.future (e::rest) := by
    rw [flushGroup, if_pos he]
  have hroute : ∀ y ∈ (e::rest).filterMap Entry.batched?, route rt y = .batch := by
    intro y hy
    obtain ⟨x, -, hx⟩ := List.mem_filterMap.mp hy
    exact batched_routed hx
  have hjoined : Joined (joins rt) ((e::rest).filterMap Entry.batched?) := by
    refine ⟨op, _, hops, fun y hy => ?_⟩
    obtain ⟨x, hx, hxy⟩ := List.mem_filterMap.mp hy
    obtain ⟨op', hop', hkey⟩ := hjoin x hx
    rw [hop'] at hxy
    cases hxy
    exact hkey
  refine ⟨?_, fun i x hx => ?_, ?_, fun hregular i y hy => ?_⟩
  · rw [hflush, flushBatch]
    cases groupArgs rt heap encode (client.clock e.future) agrees
        ((e::rest).filterMap Entry.batched?) with
    | error err => rfl
    | ok args => cases hsend : client.send e.future args <;> simp [hsend, Except.toOption]
  · rw [items_get hsome, hx]
    exact ⟨rfl, hsome x (List.mem_of_getElem? hx)⟩
  · intro args results hargs hsend hlength i x r hx hr
    rw [hflush, flushBatch] at hargs ⊢
    cases hgroup : groupArgs rt heap encode (client.clock e.future) agrees
        ((e::rest).filterMap Entry.batched?) with
    | error err =>
      rw [hgroup] at hargs
      cases hargs
    | ok args' =>
      rw [hgroup] at hargs
      have hsame : args' = args := by
        cases hs : client.send e.future args' <;> simpa [hs] using hargs
      subst hsame
      simp only [hsend, completeGroup]
      rw [if_neg (by simpa using hlength)]
      exact zip_get hx hr
  · exact likeDirect_of_regular hjoined hroute hregular hy

end Equal

section Samples

def emptyHeap : Heap := ⟨fun _ => Named.empty, fun _ => Named.empty, fun _ => []⟩

def sampleClient : Client Unit ℕ := ⟨fun _ => 5, fun _ _ => .ok 0, fun _ _ => .ok (.items [7]),
  fun _ => none⟩

def leasedCancel : Cancel where
  id := lit "flow-1"
  fencingToken := 7
  leaseToken := some [0x74]
  partitionKey := some (.text (lit "tenant"))

def sampleCancel (c : Cancel) (h : route Runtime.ascii (.cancel c) = .batch) :
    Entry Runtime.ascii :=
  ⟨0, .batch (.cancel c) h⟩

end Samples

end FerricStore.Autobatch
