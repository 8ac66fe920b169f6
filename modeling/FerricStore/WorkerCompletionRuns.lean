import FerricStore.WorkerDrains

/-!
# Runs of completions

Every submitted completion is pending, counted, raised or lost. Making room takes one
completion at a time and loses none, so a run loses completions in its drains only, and in
each of them exactly if it is divided.
-/

set_option autoImplicit false

namespace FerricStore.WorkerCompletions

open WorkerBatches

variable {E : Type} {ends : ℕ → Except E Counts}

/-- A queue within its depth needs at most one completion to make room. -/
theorem makeRoom_cases (depth : ℕ) (pending : List ℕ) (hdepth : 0 < depth)
    (h : pending.length ≤ depth) :
    (pending.length < depth ∧
      makeRoom ends depth pending.length pending [] = .returned pending []) ∨
    ∃ f rest, pending = f::rest ∧ rest.length < depth ∧
      (makeRoom ends depth pending.length pending [] = .returned rest [f] ∧
          (ends f).isOk = true ∨
        makeRoom ends depth pending.length pending [] = .raised rest [] f) := by
  cases pending with
  | nil => exact .inl ⟨hdepth, rfl⟩
  | cons f rest =>
    by_cases hroom : (f::rest).length < depth
    · refine .inl ⟨hroom, ?_⟩
      rw [List.length_cons, makeRoom, if_pos hroom]
    · have hlt : rest.length < depth := by
        rw [List.length_cons] at h
        omega
      have hrest : ∀ taken, makeRoom ends depth rest.length rest taken = .returned rest taken := by
        intro taken
        cases hlength : rest.length with
        | zero => rfl
        | succ n => rw [makeRoom, if_pos hlt]
      refine .inr ⟨f, rest, rfl, hlt, ?_⟩
      rw [List.length_cons, makeRoom, if_neg hroom]
      have hdrain : drain ends (f::rest) (.blocking (some 1) fun _ => false) =
          drainBlocking ends (fun _ => false) 1 (f::rest) [] := by
        simp [drain]
      rw [hdrain, drainBlocking]
      cases hends : ends f with
      | ok counts => exact .inl ⟨hrest _, rfl⟩
      | error e => exact .inr rfl

/-- Where the submitted completions are, how many may be pending, and what was returned. -/
structure Inv (ends : ℕ → Except E Counts) (depth : ℕ) (s : State) : Prop where
  once : ∀ f, s.pending.count f+s.counted.count f+s.raised.count f+s.lost.count f =
    if f < s.next then 1 else 0
  room : s.pending.length ≤ depth
  total : s.total = sumCounts ends s.counted
  ended : ∀ f ∈ s.counted, (ends f).isOk = true

theorem Inv.init (depth : ℕ) : Inv ends depth .init := by
  refine ⟨fun f => ?_, Nat.zero_le _, rfl, nofun⟩
  simp [State.init]

theorem collect_fields (s : State) (d : Drained) :
    (s.collect ends d).pending = d.pending ∧ (s.collect ends d).counted = s.counted++d.counted ∧
      (s.collect ends d).raised = s.raised++d.raisedOnes ∧
      (s.collect ends d).lost = s.lost++d.lost ∧ (s.collect ends d).next = s.next := by
  cases d <;> simp [State.collect, Drained.pending, Drained.counted, Drained.raisedOnes,
    Drained.lost]

theorem Counts.merge_assoc (a b c : Counts) : (a.merge b).merge c = a.merge (b.merge c) := by
  simp [Counts.merge, Nat.add_assoc]

theorem sumCounts_foldl (start : Counts) (taken : List ℕ) :
    taken.foldl (fun total f => total.merge (countsOf ends f)) start =
      start.merge (sumCounts ends taken) := by
  induction taken using List.reverseRecOn with
  | nil => rfl
  | append_singleton taken f ih =>
    simp only [sumCounts, List.foldl_append, List.foldl_cons, List.foldl_nil]
    rw [ih, Counts.merge_assoc]
    rfl

theorem sumCounts_append (taken more : List ℕ) :
    sumCounts ends (taken++more) = (sumCounts ends taken).merge (sumCounts ends more) := by
  rw [sumCounts, List.foldl_append]
  exact sumCounts_foldl _ more

theorem Inv.collect {depth : ℕ} {s : State} (h : Inv ends depth s) {d : Drained}
    (hcount : ∀ f, d.count f = s.pending.count f) (hroom : d.pending.length ≤ depth)
    (hended : ∀ f ∈ d.counted, (ends f).isOk = true) :
    Inv ends depth (s.collect ends d) := by
  obtain ⟨hpending, hcounted, hraised, hlost, hnext⟩ := @collect_fields _ ends s d
  refine ⟨fun f => ?_, by rw [hpending]; exact hroom, ?_, fun f hf => ?_⟩
  · have honce := h.once f
    have hsame := hcount f
    rw [Drained.count] at hsame
    rw [hpending, hcounted, hraised, hlost, hnext, List.count_append, List.count_append,
      List.count_append, ← honce]
    omega
  · cases d with
    | returned pending taken =>
      show s.total.merge (sumCounts ends taken) = sumCounts ends (s.counted++taken)
      rw [sumCounts_append, h.total]
    | raised pending taken f => exact h.total
    | timedOut pending taken => exact h.total
  · rw [hcounted] at hf
    exact (List.mem_append.mp hf).elim (h.ended f) (hended f)

theorem Inv.drain {depth : ℕ} {s : State} (h : Inv ends depth s) (call : DrainCall) :
    Inv ends depth (step ends depth s (.drain call)) := by
  have hcount := fun f => @drain_count _ ends call f s.pending
  refine h.collect hcount (le_trans ?_ h.room) (drain_ok call s.pending)
  refine (List.subperm_ext_iff.mpr fun f _ => ?_).length_le
  have hf := hcount f
  rw [Drained.count] at hf
  omega

/-- A new completion is put in one of the places. -/
theorem Inv.submit {depth : ℕ} {s t : State} (h : Inv ends depth s) (hnext : t.next = s.next+1)
    (hplaced : ∀ f, t.pending.count f+t.counted.count f+t.raised.count f+t.lost.count f =
      s.pending.count f+s.counted.count f+s.raised.count f+s.lost.count f+
        if s.next = f then 1 else 0)
    (hroom : t.pending.length ≤ depth) (htotal : t.total = sumCounts ends t.counted)
    (hended : ∀ f ∈ t.counted, (ends f).isOk = true) : Inv ends depth t := by
  refine ⟨fun f => ?_, hroom, htotal, hended⟩
  rw [hplaced f, h.once f, hnext]
  split_ifs <;> omega

/-- A new completion is appended to the pending ones. -/
theorem Inv.place {depth : ℕ} {s : State} (h : Inv ends depth s)
    (hroom : s.pending.length < depth) :
    Inv ends depth { s with next := s.next+1, pending := s.pending++[s.next] } := by
  refine h.submit rfl (fun f => ?_) (by simpa using hroom) h.total h.ended
  simp only [List.count_append, List.count_singleton, beq_iff_eq]
  omega

/-- Processing a claim keeps the invariant and loses nothing. -/
theorem Inv.process {depth : ℕ} {s : State} (h : Inv ends depth s) :
    Inv ends depth (s.process ends depth) ∧ (s.process ends depth).lost = s.lost := by
  unfold State.process
  split_ifs with hdepth
  · cases hends : ends s.next with
    | ok counts =>
      refine ⟨h.submit rfl (fun f => ?_) h.room ?_ fun f hf => ?_, rfl⟩
      · simp only [List.count_append, List.count_singleton, beq_iff_eq]
        omega
      · have hone : sumCounts ends [s.next] = counts := by
          simp [sumCounts, countsOf, hends, Counts.merge, Counts.zero]
        show s.total.merge counts = sumCounts ends (s.counted++[s.next])
        rw [sumCounts_append, h.total, hone]
      · rcases List.mem_append.mp hf with hf | hf
        · exact h.ended f hf
        · rw [List.mem_singleton.mp hf, hends]
          rfl
    | error e =>
      refine ⟨h.submit rfl (fun f => ?_) h.room h.total h.ended, rfl⟩
      simp only [List.count_append, List.count_singleton, beq_iff_eq]
      omega
  · have hpos := Nat.pos_of_ne_zero hdepth
    rcases @makeRoom_cases _ ends depth s.pending hpos h.room with
      ⟨hroom, heq⟩ | ⟨g, rest, hpending, hroom, ⟨heq, hended⟩ | heq⟩
    · rw [heq]
      have hcollected := h.collect (d := .returned s.pending [])
        (fun f => by simp [Drained.count, Drained.pending, Drained.counted, Drained.raisedOnes,
          Drained.lost]) hroom.le (fun f hf => by cases hf)
      exact ⟨hcollected.place hroom, rfl⟩
    · rw [heq]
      have hcollected := h.collect (d := .returned rest [g])
        (fun f => by simp [Drained.count, Drained.pending, Drained.counted, Drained.raisedOnes,
          Drained.lost, hpending, List.count_cons]) hroom.le
        (fun f hf => by rw [List.mem_singleton.mp hf]; exact hended)
      exact ⟨hcollected.place hroom, rfl⟩
    · rw [heq]
      refine ⟨h.collect (fun f => ?_) hroom.le (fun f hf => by cases hf), by simp [State.collect]⟩
      simp [Drained.count, Drained.pending, Drained.counted, Drained.raisedOnes, Drained.lost,
        hpending, List.count_cons]

theorem Inv.event {depth : ℕ} {s : State} (h : Inv ends depth s) (e : Event) :
    Inv ends depth (step ends depth s e) := by
  cases e with
  | process => exact h.process.1
  | drain call => exact h.drain call

theorem step_lost_iff {depth : ℕ} {s : State} (h : Inv ends depth s) (e : Event) :
    (step ends depth s e).lost = [] ↔ s.lost = [] ∧ Undivided ends s e := by
  cases e with
  | process =>
    have hlost : (step ends depth s .process).lost = s.lost := h.process.2
    rw [hlost]
    simp [Undivided]
  | drain call =>
    have hlost : (step ends depth s (.drain call)).lost =
        s.lost++(drain ends s.pending call).lost := (collect_fields s _).2.2.2.1
    rw [hlost, List.append_eq_nil_iff, drain_lost_iff]

/-- Nothing was lost in a run exactly if each of its drains was undivided. -/
theorem run_lost_iff {depth : ℕ} (es : List Event) {s : State} (h : Inv ends depth s) :
    (GuardedRuns.run (step ends depth) s es).lost = [] ↔
      s.lost = [] ∧ GuardedRuns.Allowed (Undivided ends) (step ends depth) s es := by
  induction es generalizing s with
  | nil => simp [GuardedRuns.run, GuardedRuns.Allowed]
  | cons e es ih =>
    have hrun : GuardedRuns.run (step ends depth) s (e::es) =
        GuardedRuns.run (step ends depth) (step ends depth s e) es := rfl
    rw [hrun, ih (h.event e), step_lost_iff h e, GuardedRuns.Allowed, and_assoc]

theorem Inv.run {depth : ℕ} (es : List Event) {s : State} (h : Inv ends depth s) :
    Inv ends depth (GuardedRuns.run (step ends depth) s es) := by
  induction es generalizing s with
  | nil => exact h
  | cons e es ih => exact ih (h.event e)

theorem Inv.conserved_iff {depth : ℕ} {s : State} (h : Inv ends depth s) :
    Conserved s ↔ s.lost = [] := by
  constructor
  · intro hconserved
    refine List.eq_nil_iff_forall_not_mem.mpr fun f hf => ?_
    have honce := h.once f
    have hpos := List.count_pos_iff.mpr hf
    by_cases hlt : f < s.next
    · have hone := hconserved f hlt
      rw [if_pos hlt] at honce
      omega
    · rw [if_neg hlt] at honce
      omega
  · intro hlost f hf
    have honce := h.once f
    rw [hlost, if_pos hf, List.count_nil] at honce
    exact honce

/-!
## Conservation of a worker's jobs

A batch has every job once, each success is completed with its own result, each failure is
retried or failed once with its own text, and what the completions return adds up to the
jobs. A completion is lost exactly when a drain that already took it is stopped by a later
one.
-/

open Text WorkerBatches BatchFingerprints

variable {J E : Type}

theorem successes_failures_perm (calls : List (J × Except E Obj)) :
    ((successes calls).map Prod.fst++(failures calls).map Prod.fst).Perm (calls.map Prod.fst) := by
  induction calls with
  | nil => exact .refl _
  | cons call calls ih =>
    obtain ⟨job, outcome⟩ := call
    cases outcome with
    | ok result => exact ih.cons job
    | error e => exact List.perm_middle.trans (ih.cons job)

theorem successes_sublist (calls : List (J × Except E Obj)) :
    ((successes calls).map Prod.fst).Sublist (calls.map Prod.fst) := by
  induction calls with
  | nil => exact .slnil
  | cons call calls ih =>
    obtain ⟨job, outcome⟩ := call
    cases outcome with
    | ok result => exact ih.cons_cons job
    | error e => exact ih.cons job

theorem failures_sublist (calls : List (J × Except E Obj)) :
    ((failures calls).map Prod.fst).Sublist (calls.map Prod.fst) := by
  induction calls with
  | nil => exact .slnil
  | cons call calls ih =>
    obtain ⟨job, outcome⟩ := call
    cases outcome with
    | ok result => exact ih.cons job
    | error e => exact ih.cons_cons job

/-- The batch of a claim, handled in a loop or by an executor: every job once and in order
among the successes or the failures, and the results of the successes their own. -/
def BatchConserved (calls : List (J × Except E Obj)) (handled : HandledBatch J E) : Prop :=
  (handled.jobs++handled.failures.map Prod.fst).Perm (calls.map Prod.fst) ∧
  handled.jobs.Sublist (calls.map Prod.fst) ∧
  (handled.failures.map Prod.fst).Sublist (calls.map Prod.fst) ∧
  handled.failures = failures calls ∧ List.Forall₂ Own handled.results (successes calls)

theorem runHandlers_conserved (calls : List (J × Except E Obj)) :
    BatchConserved calls (runHandlers calls) := by
  have h := runHandlers_records calls
  refine ⟨?_, ?_, ?_, h.failures, h.results⟩
  · rw [h.jobs, h.failures]
    exact successes_failures_perm calls
  · rw [h.jobs]
    exact successes_sublist calls
  · rw [h.failures]
    exact failures_sublist calls

theorem runHandlers_length (calls : List (J × Except E Obj)) :
    (runHandlers calls).jobs.length+(runHandlers calls).failures.length = calls.length := by
  simpa using (runHandlers_conserved calls).1.length_eq

theorem runHandlers_pairs (calls : List (J × Except E Obj)) :
    ∀ pairs, (runHandlers calls).mixedResults = some pairs →
      pairs.map Prod.fst = (runHandlers calls).jobs := by
  intro pairs hpairs
  have h := runHandlers_records calls
  have hown := h.mixed pairs hpairs
  rw [h.jobs]
  clear hpairs
  generalize successes calls = done at hown
  induction hown with
  | nil => rfl
  | cons hp _ ih => rw [List.map_cons, List.map_cons, ih, hp.1]

/-- The calls that finish a batch: each success completed with its own result, each failure
mutated once with its own text, and every job counted. -/
def FinishConserved (w : Worker J E) (calls : List (J × Except E Obj))
    (sent : List (ClientCall J)) : Prop :=
  ∃ counts more, w.finishBatch (runHandlers calls) sent = .ok counts (sent++more) ∧
    counts.completed+counts.retried+counts.failed = calls.length ∧
    List.Forall₂ Own (more.flatMap ClientCall.completed) (successes calls) ∧
    (more.flatMap ClientCall.mutated).Perm
      ((failures calls).map fun p => (w.onError, p.1, w.text p.2))

theorem finishBatch_conserved (w : Worker J E) (calls : List (J × Except E Obj))
    (sent : List (ClientCall J)) (h : w.onError ≠ .raise)
    (hok : w.Accepts sent (w.completionCalls (runHandlers calls)++
      w.failureCalls (runHandlers calls).failures)) : FinishConserved w calls sent := by
  have hrecords := runHandlers_records calls
  obtain ⟨counts, hfinish⟩ := w.finishBatch_ok (runHandlers calls) sent h hok
  refine ⟨counts, _, hfinish, ?_, ?_, ?_⟩
  · rw [w.finishBatch_counts h hfinish, runHandlers_length]
  · rw [List.flatMap_append, completionCalls_completed w _ (runHandlers_pairs calls),
      failureCalls_completed, List.append_nil]
    exact hrecords.results
  · rw [List.flatMap_append, completionCalls_mutated, List.nil_append, ← hrecords.failures]
    exact failureCalls_mutated w _ h

/-- How the completion of a claimed batch ends. -/
def completionOf (w : Worker J E) (calls : List (J × Except E Obj)) : Except E Counts :=
  match w.finishBatch (runHandlers calls) [] with
  | .ok counts _ => .ok counts
  | .error e _ => .error e

theorem completionOf_counts {w : Worker J E} {calls : List (J × Except E Obj)} {counts : Counts}
    (h : w.onError ≠ .raise) (hok : completionOf w calls = .ok counts) :
    counts.completed+counts.retried+counts.failed = calls.length := by
  unfold completionOf at hok
  cases hfinish : w.finishBatch (runHandlers calls) [] with
  | error e sent =>
    rw [hfinish] at hok
    cases hok
  | ok c sent =>
    rw [hfinish] at hok
    obtain rfl := Except.ok.inj hok
    rw [w.finishBatch_counts h hfinish, runHandlers_length]

/-- What was returned adds up to the jobs of the counted completions. -/
theorem total_jobs {w : Worker J E} {batches : ℕ → List (J × Except E Obj)} {depth : ℕ}
    {s : State} (h : w.onError ≠ .raise)
    (hs : Inv (fun f => completionOf w (batches f)) depth s) :
    s.total.completed+s.total.retried+s.total.failed =
      (s.counted.map fun f => (batches f).length).sum := by
  have hended := hs.ended
  rw [hs.total]
  generalize s.counted = counted at hended
  induction counted using List.reverseRecOn with
  | nil => rfl
  | append_singleton counted f ih =>
    have hrest := ih fun g hg => hended g (List.mem_append_left _ hg)
    have hf := hended f (by simp)
    cases hends : completionOf w (batches f) with
    | error e =>
      rw [hends] at hf
      cases hf
    | ok counts =>
      have hcounts := completionOf_counts h hends
      have hone : sumCounts (fun f => completionOf w (batches f)) [f] = counts := by
        simp [sumCounts, countsOf, hends, Counts.merge, Counts.zero]
      rw [sumCounts_append, hone, List.map_append, List.sum_append]
      simp only [Counts.merge, List.map_cons, List.map_nil, List.sum_singleton]
      omega

/-- A worker that retries, with a client that accepts everything. -/
def retryingWorker : Worker ℕ Unit :=
  ⟨.retry, true, true, fun _ => lit "boom", fun _ _ => .ok ()⟩

end FerricStore.WorkerCompletions
