import FerricStore.ClaimPlans

/-!
# What a claim plan asks for and finishes

At the top of its loop a plan has finished every handled batch but the one it carries, and
what it asked for and the credit it has left fit the capacity it started with. Completions
never have to wait for room: a full batch uses up the room of one. So a plan keeps its
contract in all passes but one kind, where a completion fails in the request that also
claims: the completion is validated first, and the claimed jobs are dropped.
-/

set_option autoImplicit false

namespace FerricStore.ClaimPlans
open WorkerBatches State

variable {J E : Type}

def Carried.batches : Carried J E → List (HandledBatch J E)
  | .complete handled => [handled]
  | _ => []

/-- The part of the credit that is asked for and not granted yet. -/
def Carried.outstanding (limit : ℕ) : Carried J E → ℕ
  | .future => limit
  | _ => 0

/-- At the top of the loop. -/
structure Open (cfg : Settings) (capacity : ℤ) (s : State J E) : Prop where
  ended : s.ended = none
  split : s.handled = s.finished++s.carried.batches
  budget : (s.requested.sum : ℤ)+s.remaining ≤ capacity+s.carried.outstanding (s.limit cfg)
  limits : ∀ l ∈ s.requested, 0 < l ∧ l ≤ cfg.batchSize
  credit : 0 < s.remaining
  passes : s.drainCount < cfg.claimDrainBatches
  room : 0 < cfg.completeAsyncDepth →
    s.remaining+s.pendingCompletions*cfg.batchSize ≤ cfg.batchSize*cfg.completeAsyncDepth
  fused : s.carried.batches ≠ [] → cfg.completeAsyncDepth = 0

/-- Behind the loop. -/
structure Closed (cfg : Settings) (capacity : ℤ) (s : State J E) : Prop where
  ended : s.ended.isSome = true
  split : s.handled = s.finished
  budget : (s.requested.sum : ℤ) ≤ capacity
  limits : ∀ l ∈ s.requested, 0 < l ∧ l ≤ cfg.batchSize

section Steps

variable {cfg : Settings} {capacity : ℤ} {turn : Turn J E} {s : State J E}

theorem Open.limit_eq (h : Open cfg capacity s) :
    (s.limit cfg : ℤ) = min (cfg.batchSize : ℤ) s.remaining ∧ 0 < s.limit cfg ∧
      s.limit cfg ≤ cfg.batchSize := by
  have hpos := cfg.batchSize_pos
  have hcredit := h.credit
  unfold State.limit
  omega

/-- A queue within its depth has room. -/
theorem makeRoom_room {room : ℕ → Except E Counts} {depth pending : ℕ} (result : Counts)
    (h : pending < depth) : makeRoom room depth pending result = .ok (pending, result) := by
  cases pending with
  | zero => rfl
  | succ pending =>
    rw [makeRoom, if_neg (by omega)]

/-- With room for its completion, a batch is finished and nothing else that matters here
changes. -/
theorem finish_spec (handled : HandledBatch J E) (hended : s.ended = none)
    (hroom : 0 < cfg.completeAsyncDepth → s.pendingCompletions < cfg.completeAsyncDepth) :
    ∃ pending result ended, finishHandledBatch cfg turn handled s =
        { s with
          finished := s.finished++[handled]
          pendingCompletions := pending
          result := result
          ended := ended } ∧
      (0 < cfg.completeAsyncDepth → pending = s.pendingCompletions+1 ∧ ended = none) := by
  unfold finishHandledBatch
  split
  case isTrue hdepth =>
    rw [makeRoom_room _ (hroom hdepth)]
    exact ⟨_, _, _, rfl, fun _ => ⟨rfl, hended⟩⟩
  case isFalse hdepth =>
    split
    · exact ⟨_, _, _, rfl, fun h => absurd h hdepth⟩
    · exact ⟨_, _, _, rfl, fun h => absurd h hdepth⟩

/-- A plan whose handled batches are all finished may end. -/
theorem closed_ret (hsplit : s.handled = s.finished) (hbudget : (s.requested.sum : ℤ) ≤ capacity)
    (hlimits : ∀ l ∈ s.requested, 0 < l ∧ l ≤ cfg.batchSize) : Closed cfg capacity s.ret := by
  unfold ret
  split
  case isTrue hended => exact ⟨hended, hsplit, hbudget, hlimits⟩
  case isFalse => exact ⟨rfl, hsplit, hbudget, hlimits⟩

/-- A claim was asked for, or comes back. -/
structure Asked (cfg : Settings) (capacity : ℤ) (limit : ℕ) (s : State J E) : Prop where
  ended : s.ended = none
  carried : s.carried = .nothing
  split : s.handled = s.finished
  limit_eq : (limit : ℤ) = min (cfg.batchSize : ℤ) s.remaining
  budget : (s.requested.sum : ℤ)+s.remaining ≤ capacity+limit
  limits : ∀ l ∈ s.requested, 0 < l ∧ l ≤ cfg.batchSize
  credit : 0 < s.remaining
  passes : s.drainCount < cfg.claimDrainBatches
  room : 0 < cfg.completeAsyncDepth →
    s.remaining+s.pendingCompletions*cfg.batchSize ≤ cfg.batchSize*cfg.completeAsyncDepth

/-- The plan goes on after so many batches, or has ended. -/
def Onward (cfg : Settings) (capacity : ℤ) (drainCount : ℕ) (t : State J E) : Prop :=
  (Open cfg capacity t ∧ t.drainCount = drainCount) ∨ Closed cfg capacity t

theorem room_left {remaining : ℤ} {pending batch depth : ℕ} (hremaining : 0 < remaining)
    (h : remaining+pending*batch ≤ batch*depth) : pending < depth := by
  have hlt : pending*batch < depth*batch := by
    zify
    nlinarith
  exact Nat.lt_of_mul_lt_mul_right hlt

/-- A handled batch that used its whole limit, with the credit it leaves. -/
structure Handled (cfg : Settings) (capacity : ℤ) (handled : HandledBatch J E) (s : State J E) :
    Prop where
  ended : s.ended = none
  carried : s.carried = .nothing
  split : s.handled = s.finished++[handled]
  budget : (s.requested.sum : ℤ)+s.remaining ≤ capacity
  limits : ∀ l ∈ s.requested, 0 < l ∧ l ≤ cfg.batchSize
  nonneg : 0 ≤ s.remaining
  open_room : 0 < cfg.completeAsyncDepth → s.pendingCompletions < cfg.completeAsyncDepth
  room : 0 < cfg.completeAsyncDepth → 0 < s.remaining →
    s.remaining+(s.pendingCompletions+1)*cfg.batchSize ≤ cfg.batchSize*cfg.completeAsyncDepth

theorem continueLoop_raise (e : E) : continueLoop cfg turn (s.raise e) = s.raise e := rfl

theorem Open.onward (h : Open cfg capacity s) :
    Onward cfg capacity s.drainCount (continueLoop cfg turn s) := by
  rw [continueLoop, if_neg (by simp [h.ended]), if_pos ⟨h.credit, h.passes⟩]
  exact .inl ⟨h, rfl⟩

theorem sum_snoc (requested : List ℕ) (limit : ℕ) :
    ((requested++[limit]).sum : ℤ) = requested.sum+limit := by
  rw [List.sum_append, List.sum_singleton, Nat.cast_add]

theorem Handled.finish {handled : HandledBatch J E} (h : Handled cfg capacity handled s) :
    Onward cfg capacity s.drainCount
      (continueLoop cfg turn (finishHandledBatch cfg turn handled s)) := by
  obtain ⟨pending, result, ended, heq, hasync⟩ :=
    @finish_spec J E cfg turn s handled h.ended h.open_room
  have hbudget : (s.requested.sum : ℤ) ≤ capacity := by
    have := h.budget
    have := h.nonneg
    omega
  rw [heq]
  unfold continueLoop
  split
  case isTrue hended => exact .inr ⟨hended, h.split, hbudget, h.limits⟩
  case isFalse hended =>
    split
    case isTrue hgo =>
      refine .inl ⟨⟨?_, ?_, ?_, h.limits, hgo.1, hgo.2, ?_, ?_⟩, rfl⟩
      · simpa using hended
      · simp [h.carried, Carried.batches, h.split]
      · simpa [h.carried, Carried.outstanding] using h.budget
      · intro hdepth
        have := h.room hdepth hgo.1
        simp only [(hasync hdepth).1]
        push_cast
        exact this
      · simp [h.carried, Carried.batches]
    case isFalse =>
      unfold leaveLoop
      simp only [h.carried]
      exact .inr (closed_ret h.split hbudget h.limits)

theorem Handled.limits_snoc {handled : HandledBatch J E} (h : Handled cfg capacity handled s)
    (hremaining : 0 < s.remaining) :
    (s.limit cfg : ℤ) = min (cfg.batchSize : ℤ) s.remaining ∧
      ∀ l ∈ s.requested++[s.limit cfg], 0 < l ∧ l ≤ cfg.batchSize := by
  have hpos := cfg.batchSize_pos
  have hlimit : (s.limit cfg : ℤ) = min (cfg.batchSize : ℤ) s.remaining := by
    unfold State.limit
    omega
  refine ⟨hlimit, fun l hl => ?_⟩
  rcases List.mem_append.mp hl with hl | hl
  · exact h.limits l hl
  · rw [List.mem_singleton.mp hl]
    omega

theorem Handled.dispose {handled : HandledBatch J E} (h : Handled cfg capacity handled s) :
    Onward cfg capacity s.drainCount (continueLoop cfg turn (dispose cfg turn handled s)) := by
  unfold State.dispose
  split
  case isTrue hfuse =>
    simp only [shouldFuse, Bool.and_eq_true, decide_eq_true_eq] at hfuse
    obtain ⟨⟨⟨hremaining, hpasses⟩, hdepth⟩, -⟩ := hfuse
    have hopen : Open cfg capacity { s with carried := .complete handled } := by
      refine ⟨h.ended, h.split, ?_, h.limits, hremaining, hpasses, ?_, fun _ => hdepth⟩
      · simpa [Carried.outstanding] using h.budget
      · intro hpos
        omega
    exact hopen.onward
  case isFalse =>
    split
    case isTrue hasync =>
      simp only [shouldAsyncFuse, Bool.and_eq_true, decide_eq_true_eq] at hasync
      obtain ⟨⟨⟨hremaining, hpasses⟩, hdepth⟩, -⟩ := hasync
      obtain ⟨hlimit, hlimits⟩ := h.limits_snoc hremaining
      have hbudget := h.budget
      split
      case isTrue =>
        split
        case h_1 e _ =>
          rw [continueLoop_raise]
          refine .inr ⟨rfl, h.split, ?_, hlimits⟩
          simp only [raise]
          rw [sum_snoc]
          omega
        case h_2 =>
          have hopen : Open cfg capacity { s with
              requested := s.requested++[s.limit cfg]
              finished := s.finished++[handled]
              pendingCompletions := s.pendingCompletions+1
              carried := .future } := by
            refine ⟨h.ended, ?_, ?_, hlimits, hremaining, hpasses, ?_, ?_⟩
            · simp [Carried.batches, h.split]
            · show ((s.requested++[s.limit cfg]).sum : ℤ)+s.remaining ≤ capacity+s.limit cfg
              rw [sum_snoc]
              omega
            · intro hpos
              have := h.room hpos hremaining
              push_cast
              exact this
            · simp [Carried.batches]
          exact hopen.onward
      case isFalse => exact h.finish
    case isFalse => exact h.finish

/-- A granted batch is handled, and finished or carried to the next pass. -/
theorem Asked.handleJobs {limit : ℕ} (h : Asked cfg capacity limit s) {jobs : List J}
    (hjobs : jobs.length ≤ limit) :
    Onward cfg capacity (s.drainCount+1) (handleJobs cfg turn limit jobs s) := by
  have hcredit := h.credit
  have hbudget := h.budget
  have hlimit := h.limit_eq
  have hroom : 0 < cfg.completeAsyncDepth → s.pendingCompletions < cfg.completeAsyncDepth :=
    fun hdepth => room_left hcredit (h.room hdepth)
  unfold State.handleJobs
  dsimp only
  split
  case isTrue hshort =>
    obtain ⟨pending, result, ended, heq, -⟩ := @finish_spec J E cfg turn { s with
      passed := s.passed++jobs
      handled := s.handled++[turn.handling.run jobs]
      result := s.result.merge ⟨jobs.length, 0, 0, 0, 0⟩
      remaining := s.remaining-jobs.length
      drainCount := s.drainCount+1 } (turn.handling.run jobs) h.ended hroom
    rw [heq]
    refine .inr (closed_ret ?_ ?_ h.limits)
    · simp [h.split]
    · show (s.requested.sum : ℤ) ≤ capacity
      omega
  case isFalse hfull =>
    have hlength : jobs.length = limit := by omega
    have hhandled : Handled cfg capacity (turn.handling.run jobs) { s with
        passed := s.passed++jobs
        handled := s.handled++[turn.handling.run jobs]
        result := s.result.merge ⟨jobs.length, 0, 0, 0, 0⟩
        remaining := s.remaining-jobs.length
        drainCount := s.drainCount+1 } := by
      refine ⟨h.ended, h.carried, by simp [h.split], ?_, h.limits, ?_, hroom, ?_⟩
      · show (s.requested.sum : ℤ)+(s.remaining-jobs.length) ≤ capacity
        omega
      · show 0 ≤ s.remaining-jobs.length
        omega
      · intro hdepth hleft
        have hleft' : 0 < s.remaining-jobs.length := hleft
        have := h.room hdepth
        show s.remaining-jobs.length+(s.pendingCompletions+1)*cfg.batchSize ≤ _
        have hbatch : (jobs.length : ℤ) = cfg.batchSize := by omega
        rw [hbatch]
        linarith
    exact hhandled.dispose

theorem Asked.receive {limit : ℕ} (h : Asked cfg capacity limit s) :
    Onward cfg capacity (s.drainCount+1) (receive cfg turn limit s) := by
  have hcredit := h.credit
  have hbudget := h.budget
  have hlimit := h.limit_eq
  have hsum : (s.requested.sum : ℤ) ≤ capacity := by omega
  unfold State.receive
  split
  case h_1 => exact .inr ⟨rfl, h.split, hsum, h.limits⟩
  case h_2 jobs _ =>
    dsimp only
    split
    case isTrue =>
      unfold leaveLoop
      simp only [h.carried]
      exact .inr (closed_ret h.split hsum h.limits)
    case isFalse =>
      have hasked : Asked cfg capacity limit { s with
          granted := s.granted++jobs.1, result := s.result.merge ⟨0, 0, 0, 0, 1⟩ } :=
        ⟨h.ended, h.carried, h.split, h.limit_eq, h.budget, h.limits, h.credit, h.passes, h.room⟩
      exact hasked.handleJobs jobs.2

theorem Open.asked (h : Open cfg capacity s) {finished : List (HandledBatch J E)}
    {requested : List ℕ} {result : Counts} (hsplit : s.handled = finished)
    (hbudget : (requested.sum : ℤ)+s.remaining ≤ capacity+s.limit cfg)
    (hlimits : ∀ l ∈ requested, 0 < l ∧ l ≤ cfg.batchSize) :
    Asked cfg capacity (s.limit cfg) { s with
      requested := requested, finished := finished, carried := .nothing, result := result } :=
  ⟨h.ended, rfl, hsplit, h.limit_eq.1, hbudget, hlimits, h.credit, h.passes, h.room⟩

theorem Open.limits_snoc (h : Open cfg capacity s) :
    ∀ l ∈ s.requested++[s.limit cfg], 0 < l ∧ l ≤ cfg.batchSize := by
  intro l hl
  rcases List.mem_append.mp hl with hl | hl
  · exact h.limits l hl
  · rw [List.mem_singleton.mp hl]
    exact h.limit_eq.2

/-- One pass of the loop keeps the accounts. -/
theorem Open.step (h : Open cfg capacity s) :
    Onward cfg capacity (s.drainCount+1) (step cfg s turn) := by
  have hbudget := h.budget
  have hlimit := h.limit_eq
  have hcredit := h.credit
  have hsplit := h.split
  unfold State.step
  rw [if_neg (by simp [h.ended])]
  dsimp only
  split
  case h_1 hcarried =>
    rw [hcarried] at hbudget hsplit
    exact (h.asked (by simpa [Carried.batches] using hsplit) hbudget h.limits).receive
  case h_2 hcarried =>
    rw [hcarried] at hbudget hsplit
    have hasked := @Open.asked J E cfg capacity s h s.finished (s.requested++[s.limit cfg]) s.result
      (by simpa [Carried.batches] using hsplit)
      (by rw [sum_snoc]; simp only [Carried.outstanding] at hbudget; omega) h.limits_snoc
    rw [← hcarried] at hasked
    exact hasked.receive
  case h_3 handled hcarried =>
    rw [hcarried] at hbudget hsplit
    simp only [Carried.outstanding, Carried.batches] at hbudget hsplit
    split
    case h_1 =>
      refine .inr ⟨rfl, hsplit, ?_, h.limits_snoc⟩
      simp only [raise]
      rw [sum_snoc]
      omega
    case h_2 =>
      exact (h.asked hsplit (by rw [sum_snoc]; omega) h.limits_snoc).receive

end Steps

/-! ## Whole plans -/

/-- A claim whose request also completes a batch grants nothing if that completion fails. -/
def Keeps (cfg : Settings) (s : State J E) (turn : Turn J E) : Prop :=
  s.ended = none → ∀ handled, s.carried = .complete handled →
    turn.completion.isOk = true ∨ grantedBy turn (s.limit cfg) = []

/-- What is granted is passed on in exactly the passes that keep it. -/
theorem step_passed_iff {cfg : Settings} {s : State J E} (turn : Turn J E)
    (h : s.passed = s.granted) :
    (step cfg s turn).passed = (step cfg s turn).granted ↔ Keeps cfg s turn := by
  unfold step Keeps
  split
  case isTrue hended =>
    refine iff_of_true h fun hnone => ?_
    simp [hnone] at hended
  case isFalse hended =>
    have hnone : s.ended = none := by simpa using hended
    dsimp only
    split
    case h_1 hcarried =>
      refine iff_of_true ?_ fun _ handled heq => by simp [hcarried] at heq
      rw [(receive_lists _).1, (receive_lists _).2, h]
    case h_2 hcarried =>
      refine iff_of_true ?_ fun _ handled heq => by simp [hcarried] at heq
      rw [(receive_lists _).1, (receive_lists _).2, h]
    case h_3 handled hcarried =>
      split
      case h_1 e hfailed =>
        simp [raise, h, hnone, hcarried, hfailed, Except.isOk, Except.toBool]
      case h_2 hok =>
        refine iff_of_true ?_ fun _ _ _ => .inl (by simp [hok, Except.isOk, Except.toBool])
        rw [(receive_lists _).1, (receive_lists _).2, h]

theorem step_ended {cfg : Settings} {s : State J E} (turn : Turn J E)
    (h : s.ended.isSome = true) : step cfg s turn = s := by
  rw [step, if_pos h]

theorem run_ended {cfg : Settings} {s : State J E} (turns : List (Turn J E))
    (h : s.ended.isSome = true) : GuardedRuns.run (step cfg) s turns = s := by
  induction turns with
  | nil => rfl
  | cons turn turns ih =>
    rw [GuardedRuns.run, List.foldl_cons, step_ended turn h]
    exact ih

/-- A pass that does not keep what is granted is the last one. -/
theorem ended_of_not_keeps {cfg : Settings} {s : State J E} {turn : Turn J E}
    (h : ¬ Keeps cfg s turn) : (step cfg s turn).ended.isSome = true := by
  simp only [Keeps, not_forall, not_or] at h
  obtain ⟨hnone, handled, hcarried, hfailed, -⟩ := h
  cases hcompletion : turn.completion with
  | ok _ => simp [hcompletion, Except.isOk, Except.toBool] at hfailed
  | error e => simp [step, hnone, hcarried, hcompletion, raise]

theorem run_passed_iff {cfg : Settings} {s : State J E} (turns : List (Turn J E))
    (h : s.passed = s.granted) :
    (GuardedRuns.run (step cfg) s turns).passed = (GuardedRuns.run (step cfg) s turns).granted ↔
      GuardedRuns.Allowed (Keeps cfg) (step cfg) s turns := by
  induction turns generalizing s with
  | nil => exact iff_of_true h trivial
  | cons turn turns ih =>
    have hstep := @step_passed_iff J E cfg s turn h
    by_cases hkeeps : Keeps cfg s turn
    · simp only [GuardedRuns.Allowed, hkeeps, true_and]
      exact ih (hstep.mpr hkeeps)
    · have hrun : GuardedRuns.run (step cfg) s (turn::turns) = step cfg s turn :=
        run_ended turns (ended_of_not_keeps hkeeps)
      rw [hrun, hstep]
      simp [GuardedRuns.Allowed, hkeeps]

/-- Each pass handles a batch or ends the plan. -/
theorem run_onward {cfg : Settings} {capacity : ℤ} {s : State J E} (turns : List (Turn J E))
    (h : Open cfg capacity s ∨ Closed cfg capacity s) :
    Onward cfg capacity (s.drainCount+turns.length) (GuardedRuns.run (step cfg) s turns) := by
  induction turns generalizing s with
  | nil =>
    rcases h with h | h
    · exact .inl ⟨h, rfl⟩
    · exact .inr h
  | cons turn turns ih =>
    rcases h with h | h
    · rcases @Open.step J E cfg capacity turn s h with ⟨hopen, hcount⟩ | hclosed
      · have := ih (.inl hopen)
        rwa [hcount, Nat.add_assoc, Nat.add_comm 1, ← List.length_cons (a := turn)] at this
      · rw [show GuardedRuns.run (step cfg) s (turn::turns) = step cfg s turn from
          run_ended turns hclosed.ended]
        exact .inr hclosed
    · rw [run_ended _ h.ended]
      exact .inr h

theorem capacity_nonneg (cfg : Settings) (pendingCompletions : ℕ) :
    0 ≤ availableClaimCapacity cfg pendingCompletions := by
  unfold availableClaimCapacity
  split
  · positivity
  · dsimp only
    split
    · exact le_rfl
    · positivity

/-- Completions of the capacity fit the depth beside those that are pending. -/
theorem capacity_le_room {cfg : Settings} {pendingCompletions : ℕ}
    (hdepth : 0 < cfg.completeAsyncDepth)
    (h : 0 < availableClaimCapacity cfg pendingCompletions) :
    availableClaimCapacity cfg pendingCompletions+pendingCompletions*cfg.batchSize ≤
      cfg.batchSize*cfg.completeAsyncDepth := by
  unfold availableClaimCapacity at *
  rw [if_neg (by omega)] at *
  dsimp only at *
  split at h
  case isTrue => simp at h
  case isFalse hslots =>
    rw [if_neg hslots]
    have hbatches : max 1 (min (cfg.claimDrainBatches : ℤ)
        (cfg.completeAsyncDepth-pendingCompletions)) ≤
        cfg.completeAsyncDepth-pendingCompletions := by omega
    have hproduct := mul_le_mul_of_nonneg_left hbatches (Int.natCast_nonneg cfg.batchSize)
    linarith

theorem start_accounts (cfg : Settings) (pendingCompletions : ℕ) (claimCredit : ℤ)
    (result : Counts) :
    Open cfg (availableClaimCapacity cfg pendingCompletions)
        (start cfg pendingCompletions claimCredit result : State J E) ∨
      Closed cfg (availableClaimCapacity cfg pendingCompletions)
        (start cfg pendingCompletions claimCredit result : State J E) := by
  by_cases hcapacity : availableClaimCapacity cfg pendingCompletions ≤ 0
  · have hzero := capacity_nonneg cfg pendingCompletions
    refine .inr ⟨?_, rfl, ?_, ?_⟩
    · simp [start, hcapacity]
    · simpa [start] using hzero
    · simp [start]
  · refine .inl ⟨?_, rfl, ?_, ?_, ?_, cfg.claimDrainBatches_pos, ?_, ?_⟩
    · simp [start, hcapacity]
    · simp [start, Carried.outstanding]
    · simp [start]
    · simp only [start]
      omega
    · intro hdepth
      have hbound := capacity_le_room hdepth (lt_of_not_ge hcapacity)
      simp only [start]
      have hmin := min_le_right (max claimCredit 1)
        (availableClaimCapacity cfg pendingCompletions)
      linarith
    · simp [start, Carried.batches]

/-- The jobs of every claim response are passed to the handler once, a plan that ends has
finished each handled batch once, and what it asked for stays within the capacity and in
requests of at most a batch. -/
def Fulfils (cfg : Settings) (pendingCompletions : ℕ) (s : State J E) : Prop :=
  s.passed = s.granted ∧
  (s.ended.isSome = true → s.finished = s.handled) ∧
  (s.requested.sum : ℤ) ≤ availableClaimCapacity cfg pendingCompletions ∧
  ∀ limit ∈ s.requested, 0 < limit ∧ limit ≤ cfg.batchSize

/-- Claims that grant one job, with completions that end this way. -/
def oneJob (job : ℕ) (completion : Except Unit Unit) : Turn ℕ Unit where
  completion := completion
  claim limit := if h : 1 ≤ limit then .ok ⟨[job], h⟩ else .ok ⟨[], Nat.zero_le limit⟩
  handling := .each fun _ => .ok .none
  submission := .ok ()
  finish _ := .ok .zero
  room _ := .ok .zero

def fusing : Settings where
  batchSize := 1
  claimDrainBatches := 2
  completeAsyncDepth := 0
  fuseCompleteClaim := true
  claimsValues := false
  completesAndClaims := true
  submitsCompleteAndClaim := true
  submitsCommands := true
  batchSize_pos := by decide
  claimDrainBatches_pos := Nat.zero_lt_two

end FerricStore.ClaimPlans
