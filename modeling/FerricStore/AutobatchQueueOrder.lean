import FerricStore.AutobatchQueuePlaces

/-!
# The order of the autobatching client

A batch that is taken inside a callback is dispatched before what is left of the batch whose
callback it is. Without such overtaking the dispatched operations, those the dispatcher holds
and those in the queue are one line in the order of entry, and a flush is a barrier.
-/

set_option autoImplicit false

namespace FerricStore.AutobatchQueue

/-- The dispatcher takes a further batch inside a callback. -/
def takesInside (cfg : Config) (s : State) : Action → Bool
  | .turn =>
    match s.stack with
    | .submitting _ _::_ => ¬ s.closed ∧ s.pending.length ≥ cfg.maxPending
    | .draining target::_ =>
      ¬ (s.status target = .finished ∨ s.status target = .cancelled) ∧ s.pending ≠ []
    | _ => false
  | _ => false

/-- A further batch is taken only when every operation of the batches the dispatcher is in
the middle of has been dispatched. -/
def Quiet (cfg : Config) (s : State) (action : Action) : Prop :=
  takesInside cfg s action = true → s.held = []

instance (cfg : Config) (s : State) (action : Action) : Decidable (Quiet cfg s action) :=
  inferInstanceAs (Decidable (_ → _))

def runQuiet (cfg : Config) (s : State) : List Action → Option State
  | [] => some s
  | action::actions =>
    if Quiet cfg s action then (advance cfg s action).bind fun s => runQuiet cfg s actions
    else none

/-- The operations in the order in which they are or will be dispatched. -/
def State.line (s : State) : List Op := s.dispatched++(s.held++s.queued)

section Order

variable {cfg : Config} {s t : State}

theorem line_takePending {rest : List Frame} (hrest : rest.flatMap Frame.held = s.held)
    (hheld : s.held = []) : (s.takePending cfg rest).line = s.line := by
  rw [hheld] at hrest
  simp only [State.line, State.takePending, State.held, State.queued, List.flatMap_cons,
    Frame.held, hrest, List.nil_append, List.append_nil]
  rw [← List.map_append, List.take_append_drop, ← State.held, hheld, List.nil_append]

theorem line_restack {stack : List Frame} (hheld : stack.flatMap Frame.held = s.held) :
    ({ s with stack := stack } : State).line = s.line := by
  simp only [State.line]
  rw [show ({ s with stack := stack } : State).held = s.held from hheld]
  rfl

/-- A step either leaves a part of the line in its order, or appends what enters to it. -/
def Follows (s t : State) : Prop :=
  (t.entered = s.entered ∧ t.line.Sublist s.line) ∨
  ∃ op, t.entered = s.entered++[op] ∧ t.line.Sublist (s.line++[op])

theorem Follows.of_eq (hentered : t.entered = s.entered) (hline : t.line = s.line) :
    Follows s t := .inl ⟨hentered, by rw [hline]⟩

theorem follows_turn {frame : Frame} {rest : List Frame} (hstack : s.stack = frame::rest)
    (hquiet : Quiet cfg s .turn) (ht : turn cfg s rest frame = some t) : Follows s t := by
  have hheld := held_cons hstack
  cases frame with
  | activating active todo =>
    cases todo with
    | nil =>
      simp only [turn] at ht
      split at ht
      case isTrue hactive =>
        cases ht
        exact .of_eq rfl (line_restack (by rw [hheld, hactive]; rfl))
      case isFalse =>
        cases ht
        exact .of_eq rfl (line_restack (by
          simp [hheld, Frame.held, callGroups_flatten]))
    | cons op todo =>
      simp only [turn] at ht
      split at ht
      case h_1 =>
        cases ht
        refine .inl ⟨rfl, ?_⟩
        simp only [State.line, hheld]
        refine List.Sublist.append_left (List.Sublist.append_right ?_ _) _
        simp only [State.held, List.flatMap_cons, Frame.held]
        exact ((List.sublist_cons_self op todo).append_left active).append_right _
      case h_2 =>
        cases ht
        refine .of_eq rfl ?_
        simp only [State.line, hheld]
        simp [State.setStatus, State.held, State.queued, Frame.held]
      case h_3 => cases ht
  | flushing groups =>
    cases groups with
    | nil =>
      cases ht
      exact .of_eq rfl (line_restack (by rw [hheld]; rfl))
    | cons g gs =>
      cases ht
      refine .of_eq rfl ?_
      simp [State.line, hstack, State.held, State.queued, Frame.held]
  | calling g =>
    cases ht
    refine .of_eq rfl ?_
    simp [State.line, hstack, State.held, State.queued, Frame.held, State.finishAll]
  | callbacks =>
    cases ht
    exact .of_eq rfl (line_restack (by rw [hheld]; rfl))
  | submitting kind key =>
    simp only [turn] at ht
    split at ht
    · cases ht
      exact .of_eq rfl (line_restack (by rw [hheld]; rfl))
    · split at ht
      case isTrue hclosed hfull =>
        cases ht
        refine .of_eq rfl (line_takePending (by rw [hheld, List.flatMap_cons]) (hquiet ?_))
        simp [takesInside, hstack, hclosed, hfull]
      case isFalse =>
        cases ht
        refine .inr ⟨_, rfl, ?_⟩
        simp [State.line, State.enter, State.queued, State.held, hstack, Frame.held]
  | draining target =>
    simp only [turn] at ht
    split at ht
    · cases ht
      exact .of_eq rfl (line_restack (by rw [hheld]; rfl))
    · split at ht
      case isTrue =>
        cases ht
        exact .of_eq rfl (line_restack (by rw [hheld]; rfl))
      case isFalse hdone hpending =>
        cases ht
        refine .of_eq rfl (line_takePending (by rw [hheld, List.flatMap_cons]) (hquiet ?_))
        simp only [takesInside, hstack]
        exact decide_eq_true ⟨hdone, hpending⟩

theorem follows_advance {action : Action} (hquiet : Quiet cfg s action)
    (ht : advance cfg s action = some t) : Follows s t := by
  cases action with
  | enqueue kind key =>
    simp only [advance] at ht
    split at ht
    · cases ht
    · cases ht
      refine .inr ⟨_, rfl, ?_⟩
      simp [State.line, State.enter, State.queued, State.held]
  | cancel id =>
    simp only [advance] at ht
    split at ht
    · cases ht
      exact .of_eq rfl rfl
    · cases ht
  | notice id =>
    simp only [advance] at ht
    split at ht
    · split at ht
      · cases ht
        refine .of_eq rfl ?_
        have hop : (s.pending.map (State.flag id)).map Entry.op = s.queued := by
          rw [State.queued, List.map_map]
          refine List.map_congr_left fun entry _ => ?_
          simp only [Function.comp_apply, State.flag]
          split <;> rfl
        show s.dispatched++(s.held++(s.pending.map (State.flag id)).map Entry.op) = s.line
        rw [hop]
        rfl
      · cases ht
        exact .of_eq rfl rfl
    · cases ht
  | close =>
    cases ht
    exact .of_eq rfl rfl
  | take =>
    simp only [advance] at ht
    split at ht
    case h_1 hstack hpending =>
      cases ht
      have hheld : s.held = [] := by rw [State.held, hstack]; rfl
      exact .of_eq rfl (line_takePending hheld.symm hheld)
    case h_2 => cases ht
  | turn =>
    simp only [advance] at ht
    split at ht
    case h_1 => cases ht
    case h_2 frame rest hstack => exact follows_turn hstack hquiet ht
  | callback kind key =>
    simp only [advance] at ht
    split at ht
    case h_1 rest hstack =>
      cases ht
      exact .of_eq rfl (line_restack (by rw [held_cons hstack]; rfl))
    case h_2 => cases ht

end Order

/-- One step of a run. -/
def Step (cfg : Config) (s t : State) : Prop := ∃ action, advance cfg s action = some t

/-- One step of a run in which no taken operation is overtaken. -/
def QuietStep (cfg : Config) (s t : State) : Prop :=
  ∃ action, advance cfg s action = some t ∧ Quiet cfg s action

/-- What holds in every state of every run, with overtaking or not. -/
theorem reached_valid {cfg : Config} {s : State}
    (h : Relation.ReflTransGen (Step cfg) .initial s) : Valid cfg s :=
  Transitions.invariant (I := Valid cfg) (fun _ _ hv ⟨_, ht⟩ => hv.advance ht)
    (initial_valid cfg) h

theorem reached_line {cfg : Config} {s : State}
    (h : Relation.ReflTransGen (QuietStep cfg) .initial s) : s.line.Sublist s.entered := by
  refine Transitions.invariant (I := fun s => s.line.Sublist s.entered) ?_ ?_ h
  · rintro s t hs ⟨action, ht, hquiet⟩
    obtain ⟨hentered, hline⟩ | ⟨op, hentered, hline⟩ := follows_advance hquiet ht
    · rw [hentered]
      exact hline.trans hs
    · rw [hentered]
      exact hline.trans (hs.append_right [op])
  · exact List.Sublist.refl _

/-- An operation in a frame or in the queue is not completed. -/
theorem Valid.open_status {cfg : Config} {s : State} (h : Valid cfg s) {op : Op}
    (hop : op ∈ s.held++s.queued) : s.status op.id ≠ .finished := by
  rcases List.mem_append.mp hop with hop | hop
  · obtain ⟨frame, hframe, hheld⟩ := List.mem_flatMap.mp hop
    have hsound := h.frames frame hframe
    cases frame with
    | activating active todo =>
      rcases List.mem_append.mp hheld with hheld | hheld
      · simp [hsound.1 op hheld]
      · rcases hsound.2 op hheld with hstatus | hstatus <;> simp [hstatus]
    | flushing groups =>
      have hrunning := hsound op hheld
      simp [hrunning]
    | calling | callbacks | submitting | draining => cases hheld
  · rcases h.waiting op hop with hstatus | hstatus <;> simp [hstatus]

theorem Valid.entered_sorted {cfg : Config} {s : State} (h : Valid cfg s) :
    s.entered.Pairwise fun a b => a.id < b.id := by
  have hrange := List.pairwise_lt_range (n := s.entered.length)
  rw [← h.ids] at hrange
  exact List.pairwise_map.mp hrange

theorem Valid.id_of_get {cfg : Config} {s : State} (h : Valid cfg s) {i : ℕ} {op : Op}
    (hi : s.entered[i]? = some op) : op.id = i := by
  obtain ⟨hlt, rfl⟩ := List.getElem?_eq_some_iff.mp hi
  have hget := congrArg (·[i]?) h.ids
  simpa [hlt] using hget

/-- Behind an operation that is completed, none that entered before it is left. -/
theorem Valid.barrier {cfg : Config} {s : State} (h : Valid cfg s)
    (hline : s.line.Sublist s.entered) {marker op : Op} (hmarker : marker ∈ s.entered)
    (hdone : s.status marker.id = .finished) (hop : op ∈ s.entered) (hlt : op.id < marker.id) :
    s.status op.id = .finished ∨ s.status op.id = .cancelled := by
  have hsorted := h.entered_sorted.sublist hline
  obtain ⟨front, hfront, hfinished⟩ := h.completed
  rw [State.line, hfront, List.append_assoc, List.pairwise_append] at hsorted
  have hfirst : marker ∈ front := by
    have hplace := h.placed.mem_iff.mpr hmarker
    rw [hfront, List.append_assoc, List.append_assoc] at hplace
    rcases List.mem_append.mp hplace with hplace | hplace
    · exact hplace
    · rcases List.mem_append.mp hplace with hplace | hplace
      · exact absurd hdone (by simp [h.calls marker hplace])
      · rcases List.mem_append.mp hplace with hplace | hplace
        · exact absurd hdone (by simp [h.dropped marker hplace])
        · exact absurd hdone (h.open_status hplace)
  have hplace := h.placed.mem_iff.mpr hop
  rw [hfront, List.append_assoc, List.append_assoc] at hplace
  rcases List.mem_append.mp hplace with hplace | hplace
  · exact .inl (hfinished op hplace)
  · rcases List.mem_append.mp hplace with hplace | hplace
    · have := hsorted.2.2 marker hfirst op (List.mem_append_left _ hplace)
      omega
    · rcases List.mem_append.mp hplace with hplace | hplace
      · exact .inr (h.dropped op hplace)
      · have := hsorted.2.2 marker hfirst op (List.mem_append_right _ hplace)
        omega

theorem run_reaches {cfg : Config} {s t : State} (actions : List Action)
    (h : run cfg s actions = some t) : Relation.ReflTransGen (Step cfg) s t := by
  induction actions generalizing s with
  | nil =>
    cases h
    exact .refl
  | cons action actions ih =>
    obtain ⟨u, hu, ht⟩ := Option.bind_eq_some_iff.mp h
    exact .head ⟨action, hu⟩ (ih ht)

theorem runQuiet_reaches {cfg : Config} {s t : State} (actions : List Action)
    (h : runQuiet cfg s actions = some t) : Relation.ReflTransGen (QuietStep cfg) s t := by
  induction actions generalizing s with
  | nil =>
    cases h
    exact .refl
  | cons action actions ih =>
    rw [runQuiet] at h
    split at h
    case isTrue hquiet =>
      obtain ⟨u, hu, ht⟩ := Option.bind_eq_some_iff.mp h
      exact .head ⟨action, hu, hquiet⟩ (ih ht)
    case isFalse => cases h

/-- Where a flush can return before an operation that entered in front of it is completed. -/
def PassesBarrier (s : State) : Prop :=
  ∃ i j : ℕ, ∃ op marker : Op, i < j ∧ s.entered[i]? = some op ∧ s.entered[j]? = some marker ∧
    marker.kind = .flush ∧ s.status marker.id = .finished ∧
    ¬ (s.status op.id = .finished ∨ s.status op.id = .cancelled)

/-- In every run in which the dispatcher takes a further batch inside a callback only with
nothing left of the batches it is in, operations are dispatched in the order of entry, each
entered operation is in one place, no cancelled one is dispatched, the queue keeps its
bound and its count, and no flush returns early. -/
theorem queue_keeps_order (cfg : Config) (s : State)
    (h : Relation.ReflTransGen (QuietStep cfg) .initial s) :
    s.dispatched.Sublist s.entered ∧
    (s.entered.Nodup ∧ (s.dispatched++s.skipped++(s.held++s.queued)).Perm s.entered) ∧
    (∀ op ∈ s.dispatched, s.status op.id ≠ .cancelled) ∧
    s.pending.length ≤ cfg.maxPending ∧
    s.cancelledPending = s.pending.countP Entry.cancelledWhileQueued ∧
    ¬ PassesBarrier s := by
  have hsteps : QuietStep cfg ≤ Step cfg := fun _ _ ⟨action, ht, _⟩ => ⟨action, ht⟩
  have hvalid : Valid cfg s := reached_valid (Relation.ReflTransGen.mono hsteps _ _ h)
  have hline := reached_line h
  refine ⟨?_, ⟨?_, hvalid.placed⟩, ?_, hvalid.bounded, hvalid.counted, ?_⟩
  · exact (List.sublist_append_left _ _).trans hline
  · exact hvalid.entered_sorted.imp fun hlt heq => absurd (congrArg Op.id heq) hlt.ne
  · intro op hop
    rcases hvalid.sent op hop with hstatus | hstatus <;> simp [hstatus]
  · rintro ⟨i, j, op, marker, hij, hi, hj, -, hdone, hopen⟩
    refine hopen (hvalid.barrier hline (List.mem_of_getElem? hj) hdone (List.mem_of_getElem? hi) ?_)
    rwa [hvalid.id_of_get hi, hvalid.id_of_get hj]

def smallConfig : Config := ⟨10, 10, by decide, by decide⟩

/-- A callback flushes after the only group of its batch. -/
def flushAfterGroup : List Action :=
  [.enqueue .batch 1, .take, .turn, .turn, .turn, .turn, .callback .flush 9, .turn, .turn, .turn,
    .turn, .turn, .turn]

theorem queue_keeps_order_flush :
    ∃ s, runQuiet smallConfig .initial flushAfterGroup = some s ∧
      s.dispatched.map Op.id = [0, 1] ∧ s.status 1 = .finished ∧
      s.dispatched.Sublist s.entered := by
  have hrun : (runQuiet smallConfig .initial flushAfterGroup).any fun s =>
      s.dispatched.map Op.id = [0, 1] ∧ s.status 1 = .finished := by decide
  obtain ⟨s, hs, hstate⟩ := Option.any_eq_true _ _ |>.mp hrun
  have hstate' := of_decide_eq_true hstate
  exact ⟨s, hs, hstate'.1, hstate'.2,
    (queue_keeps_order smallConfig s (runQuiet_reaches _ hs)).1⟩

/-- A callback flushes after the first of two groups of its batch, and goes on. -/
def flushBetweenGroups : List Action :=
  [.enqueue .batch 1, .enqueue .batch 2, .take, .turn, .turn, .turn, .turn, .turn,
    .callback .flush 9, .turn, .turn, .turn, .turn, .turn, .turn, .turn, .turn, .turn, .turn, .turn]

/-- The flush returns while the second group, which entered before it, is still to be sent. -/
theorem flush_overtakes :
    ∃ s, Relation.ReflTransGen (Step smallConfig) .initial s ∧
      ¬ s.dispatched.Sublist s.entered ∧ PassesBarrier s := by
  have hrun : (run smallConfig .initial flushBetweenGroups).any fun s =>
      s.dispatched.map Op.id = [0, 2, 1] ∧ s.entered[1]? = some ⟨1, .batch, 2⟩ ∧
        s.entered[2]? = some ⟨2, .flush, 9⟩ ∧ s.status 1 = .running ∧ s.status 2 = .finished ∧
        ¬ s.dispatched.Sublist s.entered := by decide
  obtain ⟨s, hs, hstate⟩ := Option.any_eq_true _ _ |>.mp hrun
  obtain ⟨-, hfirst, hsecond, hrunning, hfinished, horder⟩ := of_decide_eq_true hstate
  refine ⟨s, run_reaches _ hs, horder, 1, 2, _, _, by decide, hfirst, hsecond, rfl, hfinished, ?_⟩
  simp [hrunning]

end FerricStore.AutobatchQueue
