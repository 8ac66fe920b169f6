import FerricStore.WorkerBatches

/-!
# What a handled batch holds and what finishing it sends

The collected batch is described by what the handlers did, by induction over the jobs. The
calls of `_finish_batch` are known in advance; if all of them succeed, the completed jobs
are the successes with their own results and the mutated ones the failures with their texts.
-/

set_option autoImplicit false

namespace FerricStore.WorkerBatches

open Text BatchFingerprints Stateful

variable {J E : Type}

theorem successes_append (calls : List (J × Except E Obj)) (call : J × Except E Obj) :
    successes (calls++[call]) =
      successes calls++(call.2.toOption.map fun result => (call.1, result)).toList := by
  obtain ⟨job, outcome⟩ := call
  rw [successes, List.filterMap_append]
  cases outcome <;> rfl

theorem failures_append (calls : List (J × Except E Obj)) (call : J × Except E Obj) :
    failures (calls++[call]) = failures calls++(failures [call]) := List.filterMap_append

/-- What a batch holds after the handlers of `calls`. -/
structure Records (b : HandledBatch J E) (calls : List (J × Except E Obj)) : Prop where
  jobs : b.jobs = (successes calls).map Prod.fst
  failures : b.failures = failures calls
  unset : b.firstResult = none → successes calls = [] ∧ b.mixedResults = none
  same : b.mixedResults = none → ∀ first, b.firstResult = some first →
    ∀ p ∈ successes calls, Same p.2 first
  mixed : ∀ pairs, b.mixedResults = some pairs → List.Forall₂ Own pairs (successes calls)

theorem Records.empty : Records (.empty : HandledBatch J E) [] :=
  ⟨rfl, rfl, fun _ => ⟨rfl, rfl⟩, nofun, nofun⟩

/-- The pairs that are rebuilt when the results turn out to differ. -/
theorem Records.rebuilt {b : HandledBatch J E} {calls : List (J × Except E Obj)}
    (h : Records b calls) (hmixed : b.mixedResults = none) {first : Obj}
    (hfirst : b.firstResult = some first) :
    List.Forall₂ Own (b.jobs.map fun existing => (existing, first)) (successes calls) := by
  rw [h.jobs, List.map_map, List.forall₂_map_left_iff]
  have hsame := h.same hmixed first hfirst
  generalize successes calls = done at hsame
  induction done with
  | nil => exact .nil
  | cons p done ih =>
    exact .cons ⟨rfl, hsame p List.mem_cons_self⟩
      (ih fun q hq => hsame q (List.mem_cons_of_mem p hq))

theorem Records.recordSuccess {b : HandledBatch J E} {calls : List (J × Except E Obj)}
    (h : Records b calls) (job : J) (result : Obj) :
    Records (b.recordSuccess job result) (calls++[(job, .ok result)]) := by
  have hs : successes (calls++[(job, (Except.ok result : Except E Obj))]) =
      successes calls++[(job, result)] := successes_append calls _
  have hf : WorkerBatches.failures (calls++[(job, (Except.ok result : Except E Obj))]) =
      WorkerBatches.failures calls := by
    rw [failures_append]
    exact List.append_nil _
  have hjobs : b.jobs++[job] = (successes calls++[(job, result)]).map Prod.fst := by
    rw [h.jobs, List.map_append]
    rfl
  unfold HandledBatch.recordSuccess
  cases hfirst : b.firstResult with
  | none =>
    obtain ⟨hnone, hmixed⟩ := h.unset hfirst
    refine ⟨by rw [hs]; exact hjobs, by rw [hf]; exact h.failures, nofun, fun _ first hset => ?_,
      fun pairs hpairs => ?_⟩
    · obtain rfl := Option.some.inj hset
      rw [hs, hnone]
      simpa using Same.refl result
    · exact absurd (hmixed.symm.trans hpairs) nofun
  | some first =>
    simp only
    refine ⟨by rw [hs]; exact hjobs, by rw [hf]; exact h.failures, fun hunset => ?_,
      fun hnone first' hset => ?_, fun pairs hpairs => ?_⟩
    · cases hunset
    · obtain rfl : first = first' := Option.some.inj hset
      rw [Option.map_eq_none_iff] at hnone
      split_ifs at hnone with hdiffer
      rw [hnone] at hdiffer
      have hmatch : matchesValue first result = true := by simpa using hdiffer
      intro p hp
      rw [hs, List.mem_append, List.mem_singleton] at hp
      rcases hp with hp | rfl
      · exact h.same hnone first hfirst p hp
      · exact matchesValue_sound hmatch
    · obtain ⟨old, hold, rfl⟩ := Option.map_eq_some_iff.mp hpairs
      rw [hs]
      refine List.rel_append ?_ (.cons (own_refl _) .nil)
      split_ifs at hold with hdiffer
      · obtain rfl := Option.some.inj hold
        rw [Bool.and_eq_true, Option.isNone_iff_eq_none] at hdiffer
        exact h.rebuilt hdiffer.1 hfirst
      · exact h.mixed old hold

theorem Records.record {b : HandledBatch J E} {calls : List (J × Except E Obj)}
    (h : Records b calls) (call : J × Except E Obj) :
    Records (b.record call) (calls++[call]) := by
  obtain ⟨job, outcome⟩ := call
  cases outcome with
  | ok result => exact h.recordSuccess job result
  | error e =>
    have hs : successes (calls++[(job, (Except.error e : Except E Obj))]) = successes calls := by
      rw [successes_append]
      exact List.append_nil _
    have hf : WorkerBatches.failures (calls++[(job, (Except.error e : Except E Obj))]) =
        WorkerBatches.failures calls++[(job, e)] := failures_append calls _
    refine ⟨by rw [hs]; exact h.jobs, ?_, by rw [hs]; exact h.unset, by rw [hs]; exact h.same,
      by rw [hs]; exact h.mixed⟩
    rw [hf, ← h.failures]
    rfl

theorem runHandlers_records (calls : List (J × Except E Obj)) :
    Records (runHandlers calls) calls := by
  induction calls using List.reverseRecOn with
  | nil => exact .empty
  | append_singleton calls call ih =>
    rw [runHandlers, List.foldl_append]
    exact ih.record call

theorem Records.results {b : HandledBatch J E} {calls : List (J × Except E Obj)}
    (h : Records b calls) : List.Forall₂ Own b.results (successes calls) := by
  unfold HandledBatch.results
  cases hmixed : b.mixedResults with
  | some pairs => exact h.mixed pairs hmixed
  | none =>
    cases hfirst : b.firstResult with
    | some first => exact h.rebuilt hmixed hfirst
    | none =>
      have hnone := (h.unset hfirst).1
      simp only [h.jobs, hnone]
      exact .nil

/-- In every order in which the executor completes the handlers, the batch is the one that
a loop over the jobs would collect. -/
theorem executor_collects {calls : List (J × Except E Obj)} {concurrency : ℕ}
    {h : 0 < concurrency} {s : FanOut.State (J × Except E Obj) E}
    (hs : Relation.ReflTransGen (FanOut.Step (handlerFanout calls concurrency h))
      (FanOut.start (handlerFanout calls concurrency h)) s) (hp : s.phase = .finished) :
    (FanOut.outcome s).map collectResults = .ok (runHandlers calls) := by
  have hmap : ∀ items : List (J × Except E Obj),
      items.mapM (Except.ok : J × Except E Obj → Except E (J × Except E Obj)) = .ok items := by
    intro items
    induction items with
    | nil => rfl
    | cons x items ih => rw [List.mapM_cons, ih]; rfl
  rw [FanOut.outcome_sequential (FanOut.reached_inv hs) hp]
  have hitems : (handlerFanout calls concurrency h).items.mapM
      (handlerFanout calls concurrency h).operation = .ok calls := hmap calls
  rw [hitems]
  simp [Except.map, collectResults, runHandlers, List.filterMap_map]

namespace Worker

variable (w : Worker J E)

def completionCalls (handled : HandledBatch J E) : List (ClientCall J) :=
  if handled.jobs.isEmpty then []
  else match handled.mixedResults with
    | none => [.completeJobs handled.jobs handled.firstResult]
    | some pairs => if w.hasJobResults then [.completeJobResults pairs]
        else pairs.map fun p => .complete p.1 p.2

def failureCalls (failed : List (J × E)) : List (ClientCall J) :=
  if failed.isEmpty then []
  else
    let grouped := groupFailures (w.failureTexts failed)
    if grouped.length > 1 && w.hasMutations then
      [.applyJobMutations w.onError (w.failureTexts failed)]
    else grouped.map w.groupCall

/-- The client answers each of the calls, one after another. -/
def Accepts : List (ClientCall J) → List (ClientCall J) → Prop
  | _, [] => True
  | sent, call::calls => w.answer sent call = .ok () ∧ Accepts (sent++[call]) calls

theorem sendAll_ok {calls sent : List (ClientCall J)} (h : w.Accepts sent calls) :
    w.sendAll calls sent = .ok () (sent++calls) := by
  induction calls generalizing sent with
  | nil => rw [List.append_nil]; rfl
  | cons call calls ih =>
    have hsend : w.send call sent = .ok () (sent++[call]) := by
      rw [send, h.1]
    rw [sendAll, bind_of_ok hsend, ih h.2, List.append_assoc, List.singleton_append]

theorem sendAll_append (calls more : List (ClientCall J)) :
    w.sendAll (calls++more) = (do w.sendAll calls; w.sendAll more) := by
  induction calls with
  | nil => rfl
  | cons call calls ih => rw [List.cons_append, sendAll, sendAll, ih, bind_assoc]

theorem sendAll_single (call : ClientCall J) : w.sendAll [call] = w.send call := by
  funext sent
  unfold sendAll sendAll
  cases hsend : w.send call sent with
  | ok u s => rw [bind_of_ok hsend]; rfl
  | error e s => rw [bind_of_error hsend]

theorem completeSuccesses_eq (handled : HandledBatch J E) :
    w.completeSuccesses handled = (do
      w.sendAll (w.completionCalls handled)
      pure handled.jobs.length) := by
  unfold completeSuccesses completionCalls
  cases hjobs : handled.jobs with
  | nil => rfl
  | cons job jobs =>
    simp only [List.isEmpty_cons, Bool.false_eq_true, if_false]
    cases handled.mixedResults with
    | none => rw [sendAll_single]
    | some pairs =>
      cases w.hasJobResults with
      | true => simp only [if_true, sendAll_single]
      | false => rfl

theorem handleFailures_eq (failed : List (J × E)) (h : w.onError ≠ .raise) :
    w.handleFailures failed = (do
      w.sendAll (w.failureCalls failed)
      pure (w.failureCounts failed.length)) := by
  unfold handleFailures failureCalls
  cases failed with
  | nil =>
    have hcounts : w.failureCounts (0 : ℕ) = (0, 0) := by
      unfold failureCounts
      split_ifs <;> rfl
    rw [List.length_nil, hcounts]
    rfl
  | cons first rest =>
    have hlength : (w.failureTexts (first::rest)).length = (first::rest).length :=
      List.length_map _
    simp only [if_neg h, List.isEmpty_cons, Bool.false_eq_true, if_false, hlength]
    split_ifs
    · rw [sendAll_single]
    · rfl

theorem failureCounts_sum (n : ℕ) : (w.failureCounts n).1+(w.failureCounts n).2 = n := by
  unfold failureCounts
  split_ifs
  · exact Nat.zero_add n
  · rfl

/-- With a policy for failures, `_finish_batch` counts every job if it returns. -/
theorem finishBatch_counts {handled : HandledBatch J E} {sent sent' : List (ClientCall J)}
    {counts : Counts} (h : w.onError ≠ .raise)
    (hok : w.finishBatch handled sent = .ok counts sent') :
    counts.completed+counts.retried+counts.failed =
      handled.jobs.length+handled.failures.length := by
  rw [finishBatch, completeSuccesses_eq, handleFailures_eq w _ h] at hok
  obtain ⟨completed, t, hcompleted, hok⟩ := bind_eq_ok hok
  obtain ⟨-, u, -, hcompleted⟩ := bind_eq_ok hcompleted
  obtain ⟨⟨retried, failed⟩, v, hfailed, hok⟩ := bind_eq_ok hok
  obtain ⟨-, x, -, hfailed⟩ := bind_eq_ok hfailed
  obtain ⟨rfl, -⟩ := pure_eq_ok hcompleted
  obtain ⟨hfailed, -⟩ := pure_eq_ok hfailed
  obtain ⟨rfl, -⟩ := pure_eq_ok hok
  have hsum := w.failureCounts_sum handled.failures.length
  rw [hfailed] at hsum
  simp only at hsum ⊢
  omega

/-- With a policy for failures, `_finish_batch` sends its calls if the client accepts them. -/
theorem finishBatch_ok (handled : HandledBatch J E) (sent : List (ClientCall J))
    (h : w.onError ≠ .raise)
    (hok : w.Accepts sent (w.completionCalls handled++w.failureCalls handled.failures)) :
    ∃ counts, w.finishBatch handled sent =
        .ok counts (sent++(w.completionCalls handled++w.failureCalls handled.failures)) := by
  have hall := w.sendAll_ok hok
  rw [sendAll_append] at hall
  obtain ⟨u, t, hfirst, hrest⟩ := bind_eq_ok hall
  have hcompleted : w.completeSuccesses handled sent = .ok handled.jobs.length t := by
    rw [completeSuccesses_eq, bind_of_ok hfirst]
    rfl
  have hfailed : w.handleFailures handled.failures t =
      .ok (w.failureCounts handled.failures.length)
        (sent++(w.completionCalls handled++w.failureCalls handled.failures)) := by
    rw [handleFailures_eq w _ h, bind_of_ok hrest]
    rfl
  refine ⟨⟨0, handled.jobs.length, (w.failureCounts handled.failures.length).1,
    (w.failureCounts handled.failures.length).2, 0⟩, ?_⟩
  rw [finishBatch, bind_of_ok hcompleted, bind_of_ok hfailed]
  rfl

end Worker

/-- The pairs of a completed batch are those of its calls. -/
theorem completionCalls_completed (w : Worker J E) (handled : HandledBatch J E)
    (h : ∀ pairs, handled.mixedResults = some pairs → pairs.map Prod.fst = handled.jobs) :
    (w.completionCalls handled).flatMap ClientCall.completed = handled.results := by
  unfold Worker.completionCalls HandledBatch.results
  cases hmixed : handled.mixedResults with
  | none =>
    cases hjobs : handled.jobs with
    | nil => rfl
    | cons job jobs => simp [ClientCall.completed]
  | some pairs =>
    have hpairs := h pairs hmixed
    cases hjobs : handled.jobs with
    | nil =>
      rw [hjobs, List.map_eq_nil_iff] at hpairs
      rw [hpairs]
      rfl
    | cons job jobs =>
      simp only [List.isEmpty_cons, Bool.false_eq_true, if_false]
      cases w.hasJobResults with
      | true => simp [ClientCall.completed]
      | false =>
        simp only [Bool.false_eq_true, if_false, List.flatMap_map, ClientCall.completed]
        exact List.flatMap_singleton' pairs

/-- The failures of a grouping, group by group. -/
def ungroup (grouped : Dict Str (List J)) : List (J × Str) :=
  grouped.flatMap fun group => group.2.map fun job => (job, group.1)

theorem ungroup_set (grouped : Dict Str (List J)) (message : Str) (job : J) :
    (ungroup (Dict.set grouped message ((Dict.get? grouped message).getD []++[job]))).Perm
      (ungroup grouped++[(job, message)]) := by
  induction grouped with
  | nil => exact .refl _
  | cons group grouped ih =>
    obtain ⟨text, jobs⟩ := group
    by_cases htext : text = message
    · subst htext
      simp only [Dict.set, Dict.get?, if_true, Option.getD_some, ungroup, List.flatMap_cons,
        List.map_append, List.append_assoc]
      exact List.perm_append_comm.append_left _
    · simp only [Dict.set, Dict.get?, htext, if_false, ungroup, List.flatMap_cons,
        List.append_assoc]
      exact ih.append_left _

/-- Grouping by message loses and repeats no failure. -/
theorem ungroup_groupFailures (texts : List (J × Str)) :
    (ungroup (Worker.groupFailures texts)).Perm texts := by
  induction texts using List.reverseRecOn with
  | nil => exact .refl _
  | append_singleton texts p ih =>
    rw [Worker.groupFailures, List.foldl_append]
    exact (ungroup_set _ p.2 p.1).trans (ih.append_right _)

/-- What is sent for the failures is each failure with its own text, once. -/
theorem failureCalls_mutated (w : Worker J E) (failed : List (J × E)) (h : w.onError ≠ .raise) :
    ((w.failureCalls failed).flatMap ClientCall.mutated).Perm
      (failed.map fun p => (w.onError, p.1, w.text p.2)) := by
  have hgroup : ∀ group : Str × List J,
      (w.groupCall group).mutated = group.2.map fun job => (w.onError, job, group.1) := by
    intro group
    unfold Worker.groupCall
    cases hkind : w.onError with
    | raise => exact absurd hkind h
    | retry => rfl
    | fail => rfl
  unfold Worker.failureCalls
  cases failed with
  | nil => exact .refl _
  | cons first rest =>
    simp only [List.isEmpty_cons, Bool.false_eq_true, if_false]
    split_ifs
    · simp [ClientCall.mutated, Worker.failureTexts, Function.comp_def]
    · have hperm := (ungroup_groupFailures (w.failureTexts (first::rest))).map
        fun p => (w.onError, p.1, p.2)
      simpa [ungroup, List.flatMap_map, List.map_flatMap, hgroup, Worker.failureTexts,
        Function.comp_def] using hperm

theorem completionCalls_mutated (w : Worker J E) (handled : HandledBatch J E) :
    (w.completionCalls handled).flatMap ClientCall.mutated = [] := by
  unfold Worker.completionCalls
  cases handled.jobs.isEmpty with
  | true => rfl
  | false =>
    cases handled.mixedResults with
    | none => rfl
    | some pairs =>
      cases w.hasJobResults with
      | true => rfl
      | false =>
        refine List.flatMap_eq_nil_iff.mpr fun call hcall => ?_
        obtain ⟨p, -, rfl⟩ := List.mem_map.mp hcall
        rfl

theorem failureCalls_completed (w : Worker J E) (failed : List (J × E)) :
    (w.failureCalls failed).flatMap ClientCall.completed = [] := by
  have hgroup : ∀ group : Str × List J, (w.groupCall group).completed = [] := by
    intro group
    unfold Worker.groupCall
    split_ifs <;> rfl
  unfold Worker.failureCalls
  simp only
  split_ifs
  · rfl
  · rfl
  · simp [List.flatMap_map, hgroup]

end FerricStore.WorkerBatches
