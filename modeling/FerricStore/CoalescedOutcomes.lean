import FerricStore.CoalescedCalls

/-!
# Outcomes of coalesced calls

A batch of several calls has a body that can be serialised and fits, so each of its commands
would be sent alone too. Every outcome of a live call in an undisturbed run is then the
outcome of its direct call.
-/

set_option autoImplicit false

namespace FerricStore.CommandCoalescer

open HttpValues HttpResults

variable {I : Type} [DecidableEq I] {host : Host I} {s t : Calls I}

/-- The outcomes that a batch has for its live calls are those of their direct calls. -/
def DirectBatch (host : Host I) (s : Calls I) : Batch I Value CallError → Prop
  | .answering calls outcomes _ =>
      ∀ (k : ℕ) (i : I), calls[k]? = some i → s.live i → outcomes[k]? = some (host.direct i)
  | _ => True

structure Direct (host : Host I) (s : Calls I) : Prop where
  orderly : Orderly host.cfg s.coalescer
  batches : ∀ b, DirectBatch host s (s.coalescer.batch b)
  completed : ∀ i, s.live i → ∀ o ∈ s.coalescer.completions i, o = host.direct i
  refused : ∀ i e, s.refused i = some e → host.direct i = .failed e

theorem Direct.init : Direct host (.init : Calls I) :=
  ⟨.init, fun _ => trivial, nofun, nofun⟩

omit [DecidableEq I] in
theorem DirectBatch.of_live {batch : Batch I Value CallError} (h : DirectBatch host s batch)
    (hlive : ∀ i, t.live i → s.live i) : DirectBatch host t batch := by
  cases batch with
  | answering calls outcomes n => exact fun k i hk hi => h k i hk (hlive i hi)
  | _ => trivial

omit [DecidableEq I] in
/-- A call of a batch that is sent would be sent alone too. -/
theorem bodySize_single {cfg : Config I} {calls : List I} {n : ℕ} {i : I}
    (hsize : cfg.bodySize calls = some n) (hfits : n ≤ cfg.maxBytes) (hi : i ∈ calls) :
    ∃ m, cfg.bodySize [i] = some m ∧ m ≤ cfg.maxBytes := by
  obtain ⟨m, hm, hle⟩ := cfg.bodySize_sublist (List.singleton_sublist.mpr hi) hsize
  exact ⟨m, hm, hle.trans hfits⟩

omit [DecidableEq I] in
theorem direct_of_sent {calls : List I} {n : ℕ} {i : I}
    (hsize : host.cfg.bodySize calls = some n) (hfits : n ≤ host.cfg.maxBytes) (hi : i ∈ calls) :
    host.direct i = outcomeOf (host.answer i >>= batchResult host.rt host.keys host.binary) := by
  obtain ⟨m, hm, hle⟩ := bodySize_single hsize hfits hi
  rw [Host.direct, hm]
  exact if_neg (not_lt.mpr hle)

omit [DecidableEq I] in
theorem bodySize_single_none {cfg : Config I} {i : I} (h : cfg.encodedSize i = none) :
    cfg.bodySize [i] = none := by
  simp [Config.bodySize, requestBodySize, h]

/-- A batch whose body cannot be sent has one call. -/
theorem Direct.single {b i : I} {calls : List I} (h : Direct host s)
    (hbatch : s.coalescer.batch b = .sending calls)
    (hbad : ∀ n, host.cfg.bodySize calls = some n → host.cfg.maxBytes < n) (hi : i ∈ calls) :
    calls = [i] := by
  have hsize := (h.orderly.fits b).size
  rw [hbatch] at hsize
  have hlength : calls.length ≤ 1 := by
    by_contra hmany
    obtain ⟨n, hn, hle⟩ := hsize (not_le.mp hmany)
    exact absurd (hbad n hn) (not_lt.mpr hle)
  match calls, hlength with
  | [j], _ => rw [List.mem_singleton.mp hi]

/-- A step changes one batch and gives live calls the outcomes of their direct calls. -/
theorem Direct.move {u : State I Value CallError} (h : Direct host s) (b : I)
    (horderly : Orderly host.cfg u) (hothers : ∀ c ≠ b, u.batch c = s.coalescer.batch c)
    (hbatch : DirectBatch host s (u.batch b)) (hlive : ∀ i, (s.update u).live i → s.live i)
    (hcompleted : ∀ i, s.live i → ∀ o ∈ u.completions i,
      o ∈ s.coalescer.completions i ∨ o = host.direct i) : Direct host (s.update u) := by
  refine ⟨horderly, fun c => ?_, fun i hi o ho => ?_, h.refused⟩
  · by_cases hc : c = b
    · subst hc
      exact hbatch.of_live hlive
    · have heq : (s.update u).coalescer.batch c = s.coalescer.batch c := hothers c hc
      rw [heq]
      exact (h.batches c).of_live hlive
  · rcases hcompleted i (hlive i hi) o ho with hold | hnew
    · exact h.completed i (hlive i hi) o hold
    · exact hnew

/-- A request ends: its outcomes replace it. -/
theorem Direct.answer {b : I} {calls : List I} {outcomes : List (Outcome Value CallError)}
    (h : Direct host s) (hbatch : s.coalescer.batch b = .sending calls)
    (hlength : outcomes.length = calls.length)
    (hdirect : ∀ (k : ℕ) (i : I), calls[k]? = some i → s.live i →
      outcomes[k]? = some (host.direct i)) :
    Direct host (s.update (s.coalescer.setBatch b (.answering calls outcomes 0))) := by
  refine h.move b (h.orderly.answer hbatch hlength) (fun c hc => Function.update_of_ne hc _ _) ?_
    (fun _ hi => hi) (fun _ _ _ ho => .inl ho)
  have heq : (s.coalescer.setBatch b (.answering calls outcomes 0)).batch b =
      .answering calls outcomes 0 := Function.update_self _ _ _
  rw [heq]
  exact hdirect

theorem Direct.fail {b : I} {calls : List I} {e : CallError} (h : Direct host s)
    (hbatch : s.coalescer.batch b = .sending calls)
    (hdirect : ∀ i ∈ calls, s.live i → host.direct i = .failed e) :
    Direct host (s.fail b calls e) := by
  refine h.answer hbatch (by simp) fun k i hk hi => ?_
  rw [List.getElem?_map, hk, hdirect i (List.mem_of_getElem? hk) hi]
  rfl

theorem Direct.reply {b : I} {calls : List I} {n : ℕ} {results : List Value} (h : Direct host s)
    (hbatch : s.coalescer.batch b = .sending calls) (hsize : host.cfg.bodySize calls = some n)
    (hfits : n ≤ host.cfg.maxBytes) (hanswer : calls.map host.answer = results.map .ok)
    (hok : (Event.answer b).Undisturbed host s) : Direct host (s.reply host b calls results) := by
  have hlength : results.length = calls.length := by
    simpa using (congrArg List.length hanswer).symm
  refine h.answer hbatch (by simpa using hlength) fun k i hk hi => ?_
  have hmem := List.mem_of_getElem? hk
  have hk' := congrArg (fun l => l[k]?) hanswer
  simp only [List.getElem?_map, hk, Option.map_some] at hk'
  obtain ⟨r, hr, hrk⟩ := Option.map_eq_some_iff.mp hk'.symm
  have hwell := hok calls hbatch i hmem hi r hrk.symm
  have hsame := (commandResult_eq_batchResult_iff host.rt host.keys host.binary r).mpr hwell
  rw [direct_of_sent hsize hfits hmem, ← hrk, except_ok_bind, ← hsame]
  simp only [List.getElem?_map, hr, Option.map_some, Option.some.injEq]
  cases commandResult host.rt host.keys host.binary r <;> rfl

/-- Removing the inactive calls of a batch gives a live call no outcome. -/
theorem complete_live {u : State I Value CallError} {calls : List I}
    (hu : u.completions = (s.coalescer.complete calls).completions) {i : I} (hi : s.live i)
    {o : Outcome Value CallError} (ho : o ∈ u.completions i) :
    o ∈ s.coalescer.completions i := by
  have hactive : s.coalescer.inactive i = none := by
    simp [State.inactive, hi.1, hi.2]
  rw [hu] at ho
  simpa [State.complete, hactive] using ho

theorem Direct.step {u : State I Value CallError} (h : Direct host s)
    (hstep : Step host.cfg s.coalescer u)
    (hsending : ∀ b calls, s.coalescer.batch b = .sending calls → u.batch b = .sending calls) :
    Direct host (s.update u) := by
  have horderly : Orderly host.cfg u := h.orderly.step hstep
  cases hstep with
  | @join i b calls hnew hpending hbatch haccept =>
    refine h.move b horderly (fun c hc => Function.update_of_ne hc _ _) ?_ (fun _ hi => hi)
      (fun _ _ _ ho => .inl ho)
    simp [State.setBatch, State.setHome, DirectBatch]
  | @lead i hnew hfree =>
    refine h.move i horderly (fun c hc => Function.update_of_ne hc _ _) ?_ (fun _ hi => hi)
      (fun _ _ _ ho => .inl ho)
    simp [State.setBatch, State.setHome, DirectBatch]
  | @wake b calls hbatch hpending hroom hleft =>
    refine h.move b horderly (fun c hc => Function.update_of_ne hc _ _) ?_ (fun _ hi => hi)
      (fun i hi o ho => .inl (complete_live rfl hi ho))
    simp [State.setBatch, DirectBatch]
  | @take b calls hbatch =>
    refine h.move b horderly (fun c hc => Function.update_of_ne hc _ _) ?_ (fun _ hi => hi)
      (fun i hi o ho => .inl (complete_live rfl hi ho))
    by_cases hactive : s.coalescer.active calls = []
    · simp [State.take, State.setBatch, hactive, DirectBatch]
    · simp [State.take, State.setBatch, hactive, DirectBatch]
  | @fail b calls hbatch e =>
    have hkept := hsending b calls hbatch
    simp [State.setBatch] at hkept
  | @respond b calls hbatch results hlength =>
    have hkept := hsending b calls hbatch
    simp [State.setBatch] at hkept
  | @complete b i calls outcomes n outcome hbatch hcall houtcome =>
    have hold := h.batches b
    rw [hbatch] at hold
    refine h.move b horderly (fun c hc => Function.update_of_ne hc _ _) ?_ (fun _ hi => hi) ?_
    · simp only [State.setBatch, Function.update_self]
      exact hold
    · intro j hj o ho
      by_cases hji : j = i
      · subst hji
        have hdirect := hold n j hcall hj
        rw [houtcome, Option.some.injEq] at hdirect
        simpa [hdirect] using ho
      · exact .inl (by simpa [hji] using ho)
  | cancel i =>
    refine h.move i horderly (fun _ _ => rfl) (h.batches i) (fun j hj => ?_)
      (fun _ _ _ ho => .inl ho)
    by_cases hji : j = i
    · subst hji
      simp [Calls.update, Calls.live] at hj
    · simpa [Calls.update, Calls.live, hji] using hj
  | expire i =>
    refine h.move i horderly (fun _ _ => rfl) (h.batches i) (fun j hj => ?_)
      (fun _ _ _ ho => .inl ho)
    by_cases hji : j = i
    · subst hji
      simp [Calls.update, Calls.live] at hj
    · simpa [Calls.update, Calls.live, hji] using hj

/-- Only a call that has no batch enters one, so no request ends then. -/
theorem Orderly.enter_sending {cfg : Config I} {u v : State I Value CallError} {i : I}
    (h : Orderly cfg u) (hstep : Step cfg u v) (hnew : u.home i = none) (hentered : v.home i ≠ none) :
    ∀ b calls, u.batch b = .sending calls → v.batch b = .sending calls := by
  intro c sent hsent
  cases hstep with
  | @join j b calls hnew' hpending hbatch haccept =>
    have hc : c ≠ b := by
      rintro rfl
      rw [hbatch] at hsent
      cases hsent
    simpa [State.setBatch, State.setHome, hc] using hsent
  | @lead j hnew' hfree =>
    have hc : c ≠ j := by
      rintro rfl
      rw [h.absent hnew'] at hsent
      cases hsent
    simpa [State.setBatch, State.setHome, hc] using hsent
  | _ => exact absurd hnew hentered

theorem Direct.event {e : Event I} (h : Direct host s) (hok : e.Undisturbed host s)
    (hstep : CallStep host e s t) : Direct host t := by
  cases hstep with
  | enter hstep hfirst hnew hentered =>
    exact h.step hstep (h.orderly.enter_sending hstep hnew hentered)
  | @refuse _ i b calls hnew hfirst hpending hbatch hsize =>
    obtain ⟨hcompact, hown⟩ := hok b calls hpending hbatch hsize
    refine ⟨h.orderly, h.batches, h.completed, fun j e hj => ?_⟩
    by_cases hji : j = i
    · subst hji
      have he : e = host.sizeError (calls++[j]) := by
        simpa [eq_comm] using hj
      rw [he, Host.direct, bodySize_single_none hown, Host.sizeError, if_pos hcompact]
    · exact h.refused j e (by simpa [hji] using hj)
  | turn hstep hhome hsending => exact h.step hstep hsending
  | @unsendable _ b calls hbatch hsize =>
    refine h.fail hbatch fun i hi _ => ?_
    have hcalls := h.single hbatch (fun n hn => by rw [hsize] at hn; cases hn) hi
    rw [hcalls] at hsize
    rw [Host.direct, hsize]
  | @tooLarge _ b calls n hbatch hsize hlarge =>
    refine h.fail hbatch fun i hi _ => ?_
    have hbad : ∀ m, host.cfg.bodySize calls = some m → host.cfg.maxBytes < m := by
      intro m hm
      rw [hsize, Option.some.injEq] at hm
      exact hm ▸ hlarge
    rw [h.single hbatch hbad hi] at hsize
    rw [Host.direct, hsize]
    exact if_pos hlarge
  | @timeout _ b calls hbatch hlate =>
    exact h.fail hbatch fun i hi hlive => absurd hlive (hok calls hbatch i hi)
  | @broken _ b calls n e hbatch hsize hfits hanswer =>
    refine h.fail hbatch fun i hi _ => ?_
    rw [direct_of_sent hsize hfits hi, hanswer i hi]
    rfl
  | reply hbatch hsize hfits hanswer => exact h.reply hbatch hsize hfits hanswer hok

theorem UndisturbedRun.direct (h : UndisturbedRun host s) : Direct host s :=
  Transitions.invariant (fun _ _ hs hst => by
    obtain ⟨e, hok, hstep⟩ := hst
    exact hs.event hok hstep) .init h

theorem Direct.answered {b i : I} {calls : List I} {outcomes : List (Outcome Value CallError)}
    (h : Direct host s) (hbatch : s.coalescer.batch b = .answering calls outcomes calls.length)
    (hi : i ∈ calls) (hlive : s.live i) : s.coalescer.completions i = [host.direct i] := by
  obtain ⟨k, hk⟩ := List.getElem?_of_mem hi
  have hprogress := (h.orderly.fits b).progress
  rw [hbatch] at hprogress
  have hdirect := h.batches b
  rw [hbatch] at hdirect
  have hlt := (List.getElem?_eq_some_iff.mp hk).1
  rw [hprogress.2.2 k i hk, if_pos hlt, hdirect k i hk hlive]
  rfl

/-- In every run of undisturbed events, whatever the grouping into batches, a call that is not
cancelled and whose deadline does not pass is completed with the outcome of its direct call
and with nothing else, once if its batch is answered; and a call that is refused would be
refused alone with the same error. -/
theorem coalesced_outcomes_direct {host : Host I} {s : Calls I} (h : UndisturbedRun host s) :
    (∀ i, s.live i → ∀ o ∈ s.coalescer.completions i, o = host.direct i) ∧
    (∀ b calls outcomes, s.coalescer.batch b = .answering calls outcomes calls.length →
      ∀ i ∈ calls, s.live i → s.coalescer.completions i = [host.direct i]) ∧
    ∀ i e, s.refused i = some e → host.direct i = .failed e := by
  have hdirect := h.direct
  exact ⟨hdirect.completed, fun b calls outcomes hbatch i hi hlive =>
    hdirect.answered hbatch hi hlive, hdirect.refused⟩

def plainInterpreter : Interpreter := { Runtime.ascii with
  intField := fun _ => none
  strField := fun _ => none }

/-- The result of a PING. -/
def pong : Value := .dict [(.str (Text.lit "status"), .str (Text.lit "ok")),
  (.str (Text.lit "value"), .str (Text.lit "PONG"))]

/-- A server that answers PING; the commands of the calls in `faulty` have text that UTF-8
cannot encode. -/
def pingHost (faulty : List ℕ) : Host ℕ where
  cfg := ⟨2, Nat.zero_lt_two, 100, false, fun i => if i ∈ faulty then none else some 10⟩
  rt := plainInterpreter
  keys := .rejected
  binary := true
  answer := fun _ => .ok pong
  serialiserError := fun _ => .unicodeEncode

def ledBy (i : ℕ) : State ℕ Value CallError :=
  { (State.init.setBatch i (.waiting [i])).setHome i i with pending := some i }

theorem ledBy_step (cfg : Config ℕ) (i : ℕ) : Step cfg State.init (ledBy i) :=
  .lead rfl (.inl rfl)

/-- The batch of calls 0 and 1, through its request to its completions. -/
def bothJoined : State ℕ Value CallError :=
  ((ledBy 0).setBatch 0 (.waiting [0, 1])).setHome 1 0

def bothAnswered : Calls ℕ :=
  (Calls.init.update (bothJoined.take 0 [0, 1])).reply (pingHost []) 0 [0, 1] [pong, pong]

def firstCompleted : State ℕ Value CallError :=
  { bothAnswered.coalescer.setBatch 0 (.answering [0, 1]
      [.answered (.bytes [80, 79, 78, 71]), .answered (.bytes [80, 79, 78, 71])] 1) with
    completions := Function.update bothAnswered.coalescer.completions 0
      [.answered (.bytes [80, 79, 78, 71])] }

theorem pingHost_canAccept (calls : List ℕ) (i : ℕ) :
    (pingHost []).cfg.canAccept calls i ≠ none := by
  have hsizes : ∀ l : List ℕ, (l.map (pingHost []).cfg.encodedSize).mapM id =
      some (l.map fun _ => 10) := by
    intro l
    induction l with
    | nil => rfl
    | cons a l ih =>
      rw [List.map_cons, List.mapM_cons, ih]
      rfl
  unfold Config.canAccept
  split_ifs
  · intro hnone
    cases hnone
  · intro hnone
    cases hnone
  · rw [Config.bodySize, requestBodySize, hsizes]
    intro hnone
    cases hnone

theorem firstCompleted_run :
    UndisturbedRun (pingHost []) (bothAnswered.update firstCompleted) := by
  have harrive : ∀ (s : Calls ℕ) (i : ℕ), (Event.arrive i).Undisturbed (pingHost []) s :=
    fun s i b calls _ _ hnone => absurd hnone (pingHost_canAccept calls i)
  have hwell : ∀ (s : Calls ℕ), (Event.answer 0).Undisturbed (pingHost []) s := by
    intro s calls _ i _ _ r hr
    obtain rfl : pong = r := Except.ok.inj hr
    decide
  have hnone : ∀ b calls, bothJoined.batch b ≠ .sending calls := by
    intro b calls hb
    by_cases h0 : b = 0
    · subst h0
      cases hb
    · simp [bothJoined, ledBy, State.setBatch, State.setHome, State.init, h0] at hb
  have hnone' : ∀ b calls, bothAnswered.coalescer.batch b ≠ .sending calls := by
    intro b calls hb
    by_cases h0 : b = 0
    · subst h0
      cases hb
    · refine hnone b calls ?_
      simpa [bothAnswered, Calls.reply, Calls.update, State.take, State.setBatch, State.complete,
        h0] using hb
  have hled : UndisturbedRun (pingHost []) (Calls.init.update (ledBy 0)) :=
    .tail .refl ⟨.arrive 0, harrive _ 0, .enter (ledBy_step _ 0) rfl rfl
      (fun hnone => by cases hnone)⟩
  have hjoined : UndisturbedRun (pingHost []) (Calls.init.update bothJoined) :=
    .tail hled ⟨.arrive 1, harrive _ 1, .enter
      (@Step.join _ _ _ _ _ _ 1 0 [0] rfl rfl rfl (by decide)) rfl rfl
      (fun hnone => by cases hnone)⟩
  have htaken : UndisturbedRun (pingHost []) (Calls.init.update (bothJoined.take 0 [0, 1])) :=
    .tail hjoined ⟨.other, trivial, .turn (.take rfl) rfl fun b calls hb =>
      (hnone b calls hb).elim⟩
  have hanswered : UndisturbedRun (pingHost []) bothAnswered :=
    .tail htaken ⟨.answer 0, hwell _, .reply (n := 69) rfl (by decide) (by decide) rfl⟩
  exact .tail hanswered ⟨.other, trivial, .turn
    (.complete (b := 0) (i := 0) (n := 0) rfl rfl rfl) rfl
      fun b calls hb => (hnone' b calls hb).elim⟩

theorem coalesced_outcomes_direct_pings :
    (bothAnswered.update firstCompleted).coalescer.completions 0 = [(pingHost []).direct 0] ∧
      ∀ o ∈ (bothAnswered.update firstCompleted).coalescer.completions 0,
        o = (pingHost []).direct 0 :=
  ⟨rfl, (coalesced_outcomes_direct firstCompleted_run).1 0 ⟨rfl, rfl⟩⟩

/-- Call 0 has a command that cannot be serialised and waits for more calls. Call 1 then
raises the error of the serialiser, although its own PING would be answered. -/
theorem coalesced_outcome_of_other_call :
    ∃ s : Calls ℕ, CallsReached (pingHost [0]) s ∧ s.live 1 ∧
      s.refused 1 = some (.raised .unicodeEncode) ∧
      (pingHost [0]).direct 1 = .answered (.bytes [80, 79, 78, 71]) := by
  have hled : CallsReached (pingHost [0]) (Calls.init.update (ledBy 0)) :=
    .tail .refl ⟨.arrive 0, .enter (ledBy_step _ 0) rfl rfl nofun⟩
  have hrefused := Relation.ReflTransGen.tail hled ⟨.arrive 1, 
    @CallStep.refuse _ _ _ _ 1 0 [0] rfl rfl rfl rfl (by decide)⟩
  exact ⟨_, hrefused, ⟨rfl, rfl⟩, rfl, rfl⟩

end FerricStore.CommandCoalescer
