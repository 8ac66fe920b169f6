import FerricStore.HttpLeases
import FerricStore.KeepAlivePoolRuns

/-!
# Runs of requests over the keep-alive pool

The pool sees of a request the call that it is in, so a run of requests is a run of the pool.
In a run without a fault a request that ended has given back what it was handed out.
-/

set_option autoImplicit false

namespace FerricStore.HttpLeases

open KeepAlivePool

variable {K C : Type}

theorem requestStep_calls {fault : Option Fault} {r r' : Request K C}
    (h : RequestStep fault r r') :
    r'.phase.calls = r.phase.calls ∨
    (∃ key, r.phase.calls = [] ∧ r'.phase.calls = [.acquiring key]) ∨
    ∃ key c reusable, r.phase.calls = [.holding key c] ∧
      r'.phase.calls = [.releasing key c reusable false] := by
  cases h with
  | enter => exact .inr (.inl ⟨_, rfl, rfl⟩)
  | requestRaised | expired | responseRaised | close =>
    exact .inr (.inr ⟨_, _, _, rfl, rfl⟩)
  | _ => exact .inl rfl

section
variable [DecidableEq K]

theorem settle_calls {p q : Pool K C} {call : Call K C} {calls : List (Call K C)}
    {new gone : List (K × C)} (h : Move p call q calls new gone) :
    (settle calls).calls = calls := by
  cases h with
  | @kept _ _ _ stale => cases stale <;> rfl
  | closed _ _ stale => cases stale <;> rfl
  | _ => rfl

theorem state_move {p q : Pool K C} {before after : List (Request K C)} {r r' : Request K C}
    {created new closed gone : List (K × C)} {call : Call K C} {calls : List (Call K C)}
    (h : Move p call q calls new gone) (hnew : ∀ e ∈ new, e.2 ∉ created.map Prod.snd)
    (hr : r.phase.calls = [call]) (hr' : r'.phase.calls = calls) :
    KeepAlivePool.Step (Net.state ⟨p, before++r::after, created, closed⟩)
      (Net.state ⟨q, before++r'::after, created++new, closed++gone⟩) := by
  have hstep := @KeepAlivePool.Step.move K C _ p q call calls
    (before.flatMap fun r => r.phase.calls) (after.flatMap fun r => r.phase.calls)
    created new closed gone h hnew
  simpa only [Net.state, List.flatMap_append, List.flatMap_cons, hr, hr', List.append_assoc,
    List.singleton_append] using hstep

theorem state_start {p : Pool K C} {before middle after : List (Request K C)}
    {r : Request K C} {created closed : List (K × C)} {call : Call K C}
    (h : call.starts = true) (hmiddle : (middle.flatMap fun r => r.phase.calls) = [])
    (hr : r.phase.calls = [call]) :
    KeepAlivePool.Step (Net.state ⟨p, before++middle++after, created, closed⟩)
      (Net.state ⟨p, before++r::after, created, closed⟩) := by
  have hstep := @KeepAlivePool.Step.start K C _ p call (before.flatMap fun r => r.phase.calls)
    (after.flatMap fun r => r.phase.calls) created closed h
  simpa only [Net.state, List.flatMap_append, List.flatMap_cons, hr, hmiddle, List.append_nil,
    List.singleton_append] using hstep

/-- A run of requests is a run of the pool. -/
theorem step_state {fault : Option Fault} {s t : Net K C} (h : Step fault s t) :
    Relation.ReflTransGen KeepAlivePool.Step s.state t.state := by
  cases h with
  | arrive use key => simp [Net.state, Phase.calls, Relation.ReflTransGen.refl]
  | @shutDown p before after created closed use =>
    have hstep := @state_start K C _ p before [] after ⟨use, .inPool .shutting, []⟩ created
      closed _ rfl rfl rfl
    rw [List.append_nil] at hstep
    exact .single hstep
  | pool hmove hnew => exact .single (state_move hmove hnew rfl (settle_calls hmove))
  | @request p before after created closed _ r r' hr =>
    rcases requestStep_calls hr with heq | ⟨key, hr, hr'⟩ | ⟨key, c, reusable, hr, hr'⟩
    · simp [Net.state, heq, Relation.ReflTransGen.refl]
    · have hstep := @state_start K C _ p before [r] after r' created closed _ rfl
        (by simp [hr]) hr'
      rw [List.append_assoc, List.singleton_append] at hstep
      exact .single hstep
    · have hstep := @state_move K C _ p p before after r r' created [] closed [] _ _
        (.done p key c reusable) (by simp) hr hr'
      rw [List.append_nil, List.append_nil] at hstep
      exact .single hstep

theorem Reached.reachable {n : ℕ} {s : Net K C} (h : Reached n s) : Reachable n s.state := by
  induction h with
  | refl => exact .refl
  | tail _ hstep ih =>
    obtain ⟨fault, hstep⟩ := hstep
    exact ih.trans (step_state hstep)

theorem ReachedCleanly.reached {n : ℕ} {s : Net K C} (h : ReachedCleanly n s) : Reached n s :=
  Relation.ReflTransGen.mono (fun _ _ hstep => ⟨none, hstep⟩) _ _ h

end

/-- A request that was handed out nothing, or gave it back in the state the claim of reuse
needs. -/
def Balanced (log : List (Event K C)) : Prop :=
  log = [] ∨ ∃ key c reusable response,
    log = [.handed key c, .released key c reusable response] ∧
      (reusable = true → ∃ r, response = some r ∧ r.consumed)

/-- A call that gives back what a request was handed out. -/
def returns : Call K C → Bool
  | .releasing _ _ _ stale | .closing _ _ stale => !stale
  | _ => false

/-- What a request has done with the pool where it stands, in a run without a fault. -/
def Request.Fits (r : Request K C) : Prop :=
  match r.phase with
  | .opening _ => r.log = []
  | .inPool (.holding _ _) => False
  | .inPool call => if returns call then Balanced r.log else r.log = []
  | .acquired key c | .sending key c | .sent key c | .awaiting key c | .reading key c _ _
  | .leaving key c _ => r.log = [.handed key c]
  | .lost _ _ => False
  | .done => Balanced r.log

theorem Response.consumed_of_reusable {r : Response} (hfault : r.fault = none)
    (h : r.reusable = true) : r.consumed := by
  simp only [Response.fault, h, Bool.true_and] at hfault
  simp only [Response.reusable, Response.isclosed, Bool.and_eq_true, decide_eq_true_eq,
    Bool.not_eq_true'] at h
  obtain ⟨⟨hclosed, hkeep⟩, hopen⟩ := h
  cases hbody : r.body with
  | unread => exact absurd hbody hclosed
  | ended => exact ⟨hbody, hkeep, hopen⟩
  | broken => simp [hbody] at hfault

theorem Request.fits_release {r : Request K C} {key : K} {c : C} {reusable : Bool}
    {response : Option Response} (hlog : r.log = [.handed key c])
    (h : reusable = true → ∃ x, response = some x ∧ x.consumed) :
    (r.release key c reusable response).Fits := by
  refine .inr ⟨key, c, reusable, response, ?_, h⟩
  simp [Request.release, hlog]

theorem RequestStep.fits {r r' : Request K C} (h : RequestStep none r r') (hr : r.Fits) :
    r'.Fits := by
  generalize hfault : (none : Option Fault) = fault at h
  cases h with
  | refused => exact .inl hr
  | late => cases hfault
  | requestRaised | expired | responseRaised => exact Request.fits_release hr nofun
  | close =>
    exact Request.fits_release hr fun hreusable =>
      ⟨_, rfl, Response.consumed_of_reusable hfault.symm hreusable⟩
  | _ => exact hr

theorem fits_again {use : Use} {log : List (Event K C)} {key : K} {stale : Bool}
    (h : if !stale then Balanced log else log = []) :
    Request.Fits ⟨use, settle (again key stale), log++handouts (again key stale : List (Call K C))⟩ := by
  cases stale with
  | true =>
    have hlog : log = [] := h
    simp [Request.Fits, settle, handouts, again, returns, hlog]
  | false =>
    have hlog : Balanced log := h
    simpa [Request.Fits, settle, handouts, again] using hlog

section
variable [DecidableEq K]

theorem fits_move {p q : Pool K C} {call : Call K C} {calls : List (Call K C)}
    {new gone : List (K × C)} {use : Use} {log : List (Event K C)}
    (h : Move p call q calls new gone) (hr : Request.Fits ⟨use, .inPool call, log⟩) :
    Request.Fits ⟨use, settle calls, log++handouts calls⟩ := by
  cases h with
  | done => exact hr.elim
  | created | fresh =>
    have hlog : log = [] := hr
    simp [Request.Fits, settle, handouts, hlog]
  | raised | timedOut | closedAll =>
    have hlog : log = [] := hr
    exact .inl (by simp [handouts, hlog])
  | @kept key c reusable stale => exact fits_again hr
  | closed key c stale => exact fits_again hr
  | @dropped key c reusable stale =>
    have hlog : if !stale then Balanced log else log = [] := hr
    simpa [Request.Fits, settle, handouts, returns] using hlog
  | _ =>
    have hlog : log = [] := hr
    simp [Request.Fits, settle, handouts, returns, hlog]

theorem fits_step {s t : Net K C} (hs : ∀ r ∈ s.requests, r.Fits) (h : Step none s t) :
    ∀ r ∈ t.requests, r.Fits := by
  have hreplace : ∀ {before after : List (Request K C)} {r : Request K C},
      (∀ x ∈ before++after, x.Fits) → r.Fits → ∀ x ∈ before++r::after, x.Fits := by
    intro before after r hothers hr x hx
    simp only [List.mem_append, List.mem_cons] at hothers hx
    rcases hx with hx | rfl | hx
    · exact hothers x (.inl hx)
    · exact hr
    · exact hothers x (.inr hx)
  have hothers : ∀ {before after : List (Request K C)} {r : Request K C},
      (∀ x ∈ before++r::after, x.Fits) → ∀ x ∈ before++after, x.Fits := by
    intro before after r hall x hx
    refine hall x ?_
    simp only [List.mem_append, List.mem_cons] at hx ⊢
    exact hx.imp id .inr
  cases h with
  | arrive => exact hreplace hs rfl
  | shutDown => exact hreplace hs rfl
  | pool hmove => exact hreplace (hothers hs) (fits_move hmove (hs _ (by simp)))
  | request hr => exact hreplace (hothers hs) (hr.fits (hs _ (by simp)))

theorem ReachedCleanly.fits {n : ℕ} {s : Net K C} (h : ReachedCleanly n s) :
    ∀ r ∈ s.requests, r.Fits :=
  Transitions.invariant (I := fun s => ∀ r ∈ s.requests, r.Fits)
    (fun _ _ hs hst => fits_step hs hst) nofun h

end

/-!
## The balance of leases

When every request has ended the pool counts its idle connections only, so it can hand out
its full number. A deadline that passes between `acquire` and the `try` is the one exit
that keeps a connection.
-/

open KeepAlivePool

variable {K C : Type}

section
variable [DecidableEq K]

/-- An open pool that has not handed out all its connections hands out one more. -/
theorem takeOrCreate_granted {p : Pool K C} (hopen : p.closed = false) (key : K) (c : C)
    (hroom : p.totalConnections-(idleConnections p.idle).length < p.maxConnections) :
    granted (takeOrCreate p key (some c)).taken = true ∧
    (takeOrCreate p key (some c)).pool.totalConnections-
        (idleConnections (takeOrCreate p key (some c)).pool.idle).length =
      p.totalConnections-(idleConnections p.idle).length+1 := by
  have hspec := takeOrCreate_spec p key (some c)
  have hrefused := takeOrCreate_refused p key (some c)
  have hmoved := hspec.moved.length_eq
  have hcounted := hspec.counted
  simp only [List.length_append] at hmoved
  cases htaken : (takeOrCreate p key (some c)).taken with
  | poolClosed =>
    rw [htaken] at hrefused
    rw [hopen] at hrefused
    cases hrefused
  | createRaised =>
    rw [htaken] at hrefused
    cases hrefused
  | full =>
    rw [htaken] at hrefused hmoved hcounted
    simp only [Taken.reuses, Taken.creates, List.length_nil, hrefused.2] at hmoved hcounted
    have hle := hrefused.1
    omega
  | reused d =>
    rw [htaken] at hmoved hcounted
    simp only [Taken.reuses, Taken.creates, List.length_nil, List.length_singleton]
      at hmoved hcounted
    exact ⟨rfl, by omega⟩
  | created d =>
    rw [htaken] at hmoved hcounted
    simp only [Taken.reuses, Taken.creates, List.length_nil, List.length_singleton]
      at hmoved hcounted
    exact ⟨rfl, by omega⟩

theorem handOut_granted {p : Pool K C} (hopen : p.closed = false) (wanted : List (K × C))
    (hroom : p.totalConnections-(idleConnections p.idle).length+wanted.length ≤
      p.maxConnections) :
    ∀ taken ∈ handOut p wanted, granted taken = true := by
  induction wanted generalizing p with
  | nil => nofun
  | cons e rest ih =>
    obtain ⟨key, c⟩ := e
    have hspec := takeOrCreate_spec p key (some c)
    simp only [List.length_cons] at hroom
    push_cast at hroom
    obtain ⟨hgranted, hleased⟩ := takeOrCreate_granted hopen key c (by omega)
    have hrest := ih (hspec.sameClosed.trans hopen) (by rw [hspec.sameBound]; omega)
    intro taken htaken
    rcases List.mem_cons.mp htaken with rfl | htaken
    · exact hgranted
    · exact hrest taken htaken

omit [DecidableEq K] in
theorem Balanced.released_eq {r : Request K C} (h : Balanced r.log) :
    r.released = r.handed ∧ r.handed.length ≤ 1 := by
  rcases h with hlog | ⟨key, c, reusable, response, hlog, -⟩
  · simp [Request.released, Request.handed, hlog]
  · simp [Request.released, Request.handed, hlog]

omit [DecidableEq K] in
theorem Request.Fits.balanced {r : Request K C} (h : r.Fits) {key : K} {c : C}
    {reusable : Bool} {response : Option Response}
    (hmem : Event.released key c reusable response ∈ r.log) : Balanced r.log := by
  obtain ⟨use, phase, log⟩ := r
  cases phase with
  | opening =>
    have hlog : log = [] := h
    simp [hlog] at hmem
  | inPool call =>
    by_cases hreturns : returns call = true
    · cases call <;> first | cases hreturns | simpa [Request.Fits, hreturns] using h
    · have hlog : log = [] := by
        cases call <;> first | exact h.elim | simpa [Request.Fits, hreturns] using h
      simp [hlog] at hmem
  | acquired key c | sending key c | sent key c | awaiting key c | reading key c
  | leaving key c =>
    have hlog : log = [.handed key c] := h
    simp [hlog] at hmem
  | lost => exact h.elim
  | done => exact h

omit [DecidableEq K] in
theorem Request.Fits.consumed {r : Request K C} (h : r.Fits) {key : K} {c : C}
    {response : Option Response} (hmem : Event.released key c true response ∈ r.log) :
    ∃ x, response = some x ∧ x.consumed := by
  rcases h.balanced hmem with hlog | ⟨key', c', reusable, response', hlog, hreuse⟩
  · simp [hlog] at hmem
  · simp only [hlog, List.mem_cons, reduceCtorEq, Event.released.injEq, List.not_mem_nil,
      or_false, false_or] at hmem
    obtain ⟨-, -, rfl, rfl⟩ := hmem
    exact hreuse rfl

omit [DecidableEq K] in
theorem Request.Fits.done {r : Request K C} (h : r.Fits) (hended : r.ended = true) :
    r.phase = .done ∧ Balanced r.log := by
  obtain ⟨use, phase, log⟩ := r
  cases phase with
  | lost => exact h.elim
  | done => exact ⟨rfl, h⟩
  | _ => cases hended

/-- In every run in which no deadline passes between `acquire` and the `try` and no broken
response is closed as reusable: a request that ended has released what it was handed out,
once and under its key; a connection is released as reusable only after its response was
consumed; and when all requests have ended none is leased and an open pool hands out its
full number again. -/
theorem leases_balance {n : ℕ} {s : Net K C} (h : ReachedCleanly n s) :
    (∀ r ∈ s.requests, r.ended = true → r.released = r.handed ∧ r.handed.length ≤ 1) ∧
    (∀ r ∈ s.requests, ∀ key c response, Event.released key c true response ∈ r.log →
      ∃ x, response = some x ∧ x.consumed) ∧
    ((∀ r ∈ s.requests, r.ended = true) → s.state.leased = [] ∧
      (s.pool.closed = false → ∀ wanted : List (K × C), wanted.length = n →
        ∀ taken ∈ handOut s.pool wanted, granted taken = true)) := by
  have hfits := h.fits
  refine ⟨fun r hr hended => ((hfits r hr).done hended).2.released_eq,
    fun r hr key c response hmem => (hfits r hr).consumed hmem, fun hended => ?_⟩
  have hleased : s.state.leased = [] := by
    have hcalls : s.state.calls = [] := by
      refine List.flatMap_eq_nil_iff.mpr fun r hr => ?_
      rw [((hfits r hr).done (hended r hr)).1]
      rfl
    rw [State.leased, hcalls]
    rfl
  refine ⟨hleased, fun hopen wanted hlength => handOut_granted hopen wanted ?_⟩
  have hbalanced := h.reached.reachable.balanced
  have hcounted : s.pool.totalConnections =
      (idleConnections s.pool.idle).length+s.state.leased.length := hbalanced.counted
  have hbound : s.pool.maxConnections = n := hbalanced.bound
  rw [hleased, List.length_nil] at hcounted
  rw [hbound, hlength]
  push_cast at hcounted
  omega

end

section
variable [DecidableEq K]

theorem lone_request {p : Pool K C} {r r' : Request K C} {created closed : List (K × C)}
    {fault : Option Fault} (h : RequestStep fault r r') :
    Step fault ⟨p, [r], created, closed⟩ ⟨p, [r'], created, closed⟩ :=
  @Step.request K C _ p [] [] created closed fault r r' h

theorem lone_pool {p q : Pool K C} {use : Use} {call : Call K C} {calls : List (Call K C)}
    {log : List (Event K C)} {created new closed gone : List (K × C)}
    (h : Move p call q calls new gone) (hnew : ∀ e ∈ new, e.2 ∉ created.map Prod.snd) :
    Step none ⟨p, [⟨use, .inPool call, log⟩], created, closed⟩
      ⟨q, [⟨use, settle calls, log++handouts calls⟩], created++new, closed++gone⟩ :=
  @Step.pool K C _ p q [] [] created new closed gone use call calls log h hnew

end

/-- A pool of one connection with a request to which it was handed out. -/
def handedNet : Net ℕ ℕ :=
  ⟨⟨1, [], 1, false⟩, [⟨.once 10, .acquired 5 7, [.handed 5 7]⟩], [(5, 7)], []⟩

theorem handedNet_reached : ReachedCleanly 1 handedNet := by
  have htaken : takeOrCreate (.init 1) 5 (some 7) =
      ⟨.created 7, (⟨1, [], 1, false⟩ : Pool ℕ ℕ), []⟩ := by
    simp [takeOrCreate, Pool.init, takeIdle]
  have hmove := Move.created (congrArg Pass.taken htaken)
  rw [htaken] at hmove
  have harrive : Step none (.init 1) (⟨.init 1, [⟨.once 10, .opening 5, []⟩], [], []⟩ : Net ℕ ℕ) :=
    @Step.arrive ℕ ℕ _ (.init 1) [] [] [] [] (.once 10) 5
  exact .tail (.tail (.tail .refl harrive) (lone_request .enter)) (lone_pool hmove (by simp))

/-- The request is done and its connection idle again. -/
def restedNet : Net ℕ ℕ :=
  ⟨⟨1, [(5, [7])], 1, false⟩, [⟨.once 10, .done, [.handed 5 7,
    .released 5 7 true (some ⟨.ended, false, true, some 3⟩)]⟩], [(5, 7)], []⟩

/-- The response with its body in this state, before its `close`. -/
def leavingNet (body : Body) : Net ℕ ℕ :=
  ⟨⟨1, [], 1, false⟩, [⟨.once 10, .leaving 5 7 ⟨body, false, true, some 3⟩, [.handed 5 7]⟩],
    [(5, 7)], []⟩

theorem leavingNet_reached (body : Body) : ReachedCleanly 1 (leavingNet body) := by
  have hread : Response.Reads ⟨.unread, false, true, some 3⟩ ⟨body, false, true, some 3⟩ :=
    .drops _ body rfl
  exact .tail (.tail (.tail (.tail (.tail handedNet_reached (lone_request .inTime))
    (lone_request .requested)) (lone_request .await))
    (lone_request (.responded ⟨.unread, false, true, some 3⟩)))
    (lone_request (.readEmpty hread (by decide)))

theorem restedNet_reached : ReachedCleanly 1 restedNet := by
  have hclose : RequestStep none _ _ :=
    @RequestStep.close ℕ ℕ (.once 10) [.handed 5 7] 5 7 ⟨.ended, false, true, some 3⟩
  exact .tail (.tail (leavingNet_reached .ended) (lone_request hclose))
    (lone_pool (.kept rfl) (by simp))

theorem leases_balance_rested : restedNet.state.leased = [] ∧
    ∀ taken ∈ handOut restedNet.pool [(6, 8)], granted taken = true := by
  have hbalance := (leases_balance restedNet_reached).2.2 (by decide)
  exact ⟨hbalance.1, hbalance.2 rfl [(6, 8)] rfl⟩

/-- The deadline passed after `acquire`: the request ended and holds its connection. -/
def starvedNet : Net ℕ ℕ :=
  ⟨⟨1, [], 1, false⟩, [⟨.once 10, .lost 5 7, [.handed 5 7]⟩], [(5, 7)], []⟩

/-- A pool of one connection has none left after one late deadline, and a connection whose
response broke off is released as reusable. -/
theorem late_deadline_starves_pool : Reached 1 starvedNet ∧
    (∀ r ∈ starvedNet.requests, r.ended = true ∧ r.handed = [(5, 7)] ∧ r.released = []) ∧
    starvedNet.state.leased = [(5, 7)] ∧
    (takeOrCreate starvedNet.pool 6 (some 8)).taken = .full ∧
    ∃ s : Net ℕ ℕ, Reached 1 s ∧ ∃ r ∈ s.requests,
      Event.released 5 7 true (some ⟨.broken, false, true, some 3⟩) ∈ r.log := by
  refine ⟨.tail handedNet_reached.reached ⟨_, lone_request (.late rfl)⟩, ?_, rfl, ?_,
    _, .tail (leavingNet_reached .broken).reached ⟨_, lone_request .close⟩, _,
    List.mem_singleton_self _, ?_⟩
  · simp [starvedNet, Request.ended, Request.handed, Request.released]
  · simp [starvedNet, takeOrCreate, takeIdle, popIdleConnection]
  · simp [Request.release, Response.reusable, Response.isclosed]

end FerricStore.HttpLeases
