import FerricStore.AutobatchQueue

/-!
# Where the operations of the autobatching client are

Over every run, nested calls included, an operation that entered the queue is in exactly one
place: dispatched, passed over because it was cancelled, held by the dispatcher, or queued.
The place decides what its future can be, and the queue keeps its bound and the count of its
cancelled operations.
-/

set_option autoImplicit false

namespace FerricStore.AutobatchQueue
open AdjacentGroups

/-- Every entered operation is in one place, with the status of that place. -/
structure Valid (cfg : Config) (s : State) : Prop where
  ids : s.entered.map Op.id = List.range s.entered.length
  placed : (s.dispatched++s.skipped++(s.held++s.queued)).Perm s.entered
  fresh : ∀ id, s.entered.length ≤ id → s.status id = .pending
  waiting : ∀ op ∈ s.queued, s.status op.id = .pending ∨ s.status op.id = .cancelled
  frames : ∀ frame ∈ s.stack, frame.Sound s.status
  dropped : ∀ op ∈ s.skipped, s.status op.id = .cancelled
  sent : ∀ op ∈ s.dispatched, s.status op.id = .running ∨ s.status op.id = .finished
  completed : ∃ front, s.dispatched = front++openCall s.stack ∧
    ∀ op ∈ front, s.status op.id = .finished
  calls : ∀ op ∈ openCall s.stack, s.status op.id = .running
  below : ∀ frame ∈ s.stack.tail, frame.isCall = false
  flagged : ∀ entry ∈ s.pending, entry.cancelledWhileQueued = true →
    s.status entry.op.id = .cancelled
  counted : s.cancelledPending = s.pending.countP Entry.cancelledWhileQueued
  bounded : s.pending.length ≤ cfg.maxPending

theorem initial_valid (cfg : Config) : Valid cfg .initial := by
  constructor <;> simp [State.initial, State.held, State.queued, openCall]

section Steps

variable {cfg : Config} {s t : State}

/-- No operation is in two places. -/
theorem Valid.distinct (h : Valid cfg s) :
    ((s.dispatched++s.skipped++(s.held++s.queued)).map Op.id).Nodup := by
  rw [(h.placed.map Op.id).nodup_iff, h.ids]
  exact List.nodup_range

theorem Valid.top_sound (h : Valid cfg s) {frame : Frame} {rest : List Frame}
    (hstack : s.stack = frame::rest) : frame.Sound s.status :=
  h.frames frame (by rw [hstack]; exact List.mem_cons_self)

theorem Valid.rest_sound (h : Valid cfg s) {frame : Frame} {rest : List Frame}
    (hstack : s.stack = frame::rest) : ∀ other ∈ rest, other.Sound s.status :=
  fun other hother => h.frames other (by rw [hstack]; exact List.mem_cons_of_mem _ hother)

theorem Valid.rest_below (h : Valid cfg s) {frame : Frame} {rest : List Frame}
    (hstack : s.stack = frame::rest) : ∀ other ∈ rest, other.isCall = false := by
  have := h.below
  rwa [hstack] at this

theorem openCall_of_not {stack : List Frame} (h : ∀ frame ∈ stack, frame.isCall = false) :
    openCall stack = [] := by
  cases stack with
  | nil => rfl
  | cons frame rest =>
    have := h frame (by simp)
    cases frame <;> simp_all [openCall, Frame.isCall]

/-- A step that only changes the stack. -/
theorem Valid.restack (h : Valid cfg s) {stack : List Frame}
    (hheld : stack.flatMap Frame.held = s.held)
    (hframes : ∀ frame ∈ stack, frame.Sound s.status)
    (hcall : openCall stack = openCall s.stack)
    (hbelow : ∀ frame ∈ stack.tail, frame.isCall = false) :
    Valid cfg { s with stack := stack } where
  ids := h.ids
  placed := by
    have := h.placed
    rw [← hheld] at this
    exact this
  fresh := h.fresh
  waiting := h.waiting
  frames := hframes
  dropped := h.dropped
  sent := h.sent
  completed := by
    obtain ⟨front, hfront, hdone⟩ := h.completed
    exact ⟨front, hfront.trans (by rw [hcall]), hdone⟩
  calls := by
    have := h.calls
    rwa [← hcall] at this
  below := hbelow
  flagged := h.flagged
  counted := h.counted
  bounded := h.bounded

theorem Valid.enter (h : Valid cfg s) (kind : Kind) (key : ℕ)
    (hroom : s.pending.length < cfg.maxPending) : Valid cfg (s.enter kind key) where
  ids := by simp [State.enter, h.ids, List.range_succ]
  placed := by
    have := h.placed.append_right [⟨s.entered.length, kind, key⟩]
    simpa [State.enter, State.held, State.queued] using this
  fresh := by
    intro id hid
    exact h.fresh id (by simp [State.enter] at hid; omega)
  waiting := by
    intro op hop
    simp only [State.enter, State.queued, List.map_append, List.mem_append, List.map_cons,
      List.map_nil, List.mem_singleton] at hop
    rcases hop with hop | rfl
    · exact h.waiting op hop
    · exact .inl (h.fresh _ le_rfl)
  frames := h.frames
  dropped := h.dropped
  sent := h.sent
  completed := h.completed
  calls := h.calls
  below := h.below
  flagged := by
    intro entry hentry hflag
    simp only [State.enter, List.mem_append, List.mem_singleton] at hentry
    rcases hentry with hentry | rfl
    · exact h.flagged entry hentry hflag
    · cases hflag
  counted := by simp [State.enter, h.counted]
  bounded := by
    simp [State.enter]
    omega

/-- The head of the queue goes to the top of the stack. -/
theorem Valid.takePending (h : Valid cfg s) {rest : List Frame}
    (hheld : rest.flatMap Frame.held = s.held)
    (hframes : ∀ frame ∈ rest, frame.Sound s.status) (hcall : openCall s.stack = [])
    (hbelow : ∀ frame ∈ rest, frame.isCall = false) : Valid cfg (s.takePending cfg rest) where
  ids := h.ids
  placed := by
    have hsplit : s.queued = (s.pending.take cfg.maxBatch).map Entry.op++
        (s.pending.drop cfg.maxBatch).map Entry.op := by
      rw [← List.map_append, List.take_append_drop, State.queued]
    have hmove : ((s.pending.take cfg.maxBatch).map Entry.op++s.held++
        (s.pending.drop cfg.maxBatch).map Entry.op).Perm (s.held++s.queued) := by
      rw [hsplit, ← List.append_assoc]
      exact List.perm_append_comm.append_right _
    have := (hmove.append_left (s.dispatched++s.skipped)).trans h.placed
    rw [← hheld] at this
    simpa [State.takePending, State.held, State.queued, Frame.held] using this
  fresh := h.fresh
  waiting := by
    intro op hop
    obtain ⟨entry, hentry, rfl⟩ := List.mem_map.mp hop
    exact h.waiting _ (List.mem_map_of_mem (List.mem_of_mem_drop hentry))
  frames := by
    intro frame hframe
    rcases List.mem_cons.mp hframe with rfl | hframe
    · refine ⟨by simp, fun op hop => ?_⟩
      obtain ⟨entry, hentry, rfl⟩ := List.mem_map.mp hop
      exact h.waiting _ (List.mem_map_of_mem (List.mem_of_mem_take hentry))
    · exact hframes frame hframe
  dropped := h.dropped
  sent := h.sent
  completed := by
    obtain ⟨front, hfront, hdone⟩ := h.completed
    exact ⟨front, hfront.trans (by rw [hcall]; rfl), hdone⟩
  calls := by simp [State.takePending, openCall]
  below := hbelow
  flagged := fun entry hentry => h.flagged entry (List.mem_of_mem_drop hentry)
  counted := by
    have hsplit : s.pending.countP Entry.cancelledWhileQueued =
        (s.pending.take cfg.maxBatch).countP Entry.cancelledWhileQueued+
          (s.pending.drop cfg.maxBatch).countP Entry.cancelledWhileQueued := by
      rw [← List.countP_append, List.take_append_drop]
    simp only [State.takePending, h.counted, hsplit]
    omega
  bounded := by
    have := h.bounded
    simp [State.takePending]
    omega

theorem Frame.Sound.congr {status status' : ℕ → Status} {frame : Frame}
    (h : frame.Sound status) (heq : ∀ op ∈ frame.held, status' op.id = status op.id) :
    frame.Sound status' := by
  cases frame with
  | activating active todo =>
    refine ⟨fun op hop => ?_, fun op hop => ?_⟩
    · rw [heq op (List.mem_append_left _ hop)]
      exact h.1 op hop
    · rw [heq op (List.mem_append_right _ hop)]
      exact h.2 op hop
  | flushing groups =>
    intro op hop
    rw [heq op hop]
    exact h op hop
  | _ => trivial

theorem Valid.cancel (h : Valid cfg s) {id : ℕ} (hid : id < s.entered.length)
    (hstatus : s.status id = .pending) : Valid cfg (s.setStatus id .cancelled) := by
  have hother {id' : ℕ} (hne : s.status id' ≠ .pending) :
      (s.setStatus id .cancelled).status id' = s.status id' := by
    simp only [State.setStatus, Function.update_apply]
    split
    case isTrue heq => exact absurd (heq ▸ hstatus) hne
    case isFalse => rfl
  have hopen {id' : ℕ} (hold : s.status id' = .pending ∨ s.status id' = .cancelled) :
      (s.setStatus id .cancelled).status id' = .pending ∨
        (s.setStatus id .cancelled).status id' = .cancelled := by
    simp only [State.setStatus, Function.update_apply]
    split
    · exact .inr rfl
    · exact hold
  refine ⟨h.ids, h.placed, ?_, fun op hop => hopen (h.waiting op hop), ?_, ?_, ?_, ?_, ?_, h.below,
    ?_, h.counted, h.bounded⟩
  · intro id' hid'
    have hne : id' ≠ id := by
      have : s.entered.length ≤ id' := hid'
      omega
    simp only [State.setStatus, Function.update_apply, if_neg hne]
    exact h.fresh id' hid'
  · intro frame hframe
    have hsound := h.frames frame hframe
    cases frame with
    | activating active todo =>
      refine ⟨fun op hop => ?_, fun op hop => hopen (hsound.2 op hop)⟩
      rw [hother (by simp [hsound.1 op hop]), hsound.1 op hop]
    | flushing groups =>
      intro op hop
      rw [hother (by simp [hsound op hop]), hsound op hop]
    | _ => trivial
  · intro op hop
    rw [hother (by simp [h.dropped op hop]), h.dropped op hop]
  · intro op hop
    rw [hother (by rcases h.sent op hop with hs | hs <;> simp [hs])]
    exact h.sent op hop
  · obtain ⟨front, hfront, hdone⟩ := h.completed
    refine ⟨front, hfront, fun op hop => ?_⟩
    rw [hother (by simp [hdone op hop]), hdone op hop]
  · intro op hop
    rw [hother (by simp [h.calls op hop]), h.calls op hop]
  · intro entry hentry hflag
    rw [hother (by simp [h.flagged entry hentry hflag]), h.flagged entry hentry hflag]

theorem countP_flag (pending : List Entry) (id : ℕ)
    (hnodup : (pending.map fun entry => entry.op.id).Nodup)
    (hany : ∃ entry ∈ pending, entry.op.id = id ∧ entry.cancelledWhileQueued = false) :
    (pending.map (State.flag id)).countP Entry.cancelledWhileQueued =
      pending.countP Entry.cancelledWhileQueued+1 := by
  induction pending with
  | nil => simp at hany
  | cons entry pending ih =>
    rw [List.map_cons, List.nodup_cons] at hnodup
    by_cases hid : entry.op.id = id
    · have hrest : pending.map (State.flag id) = pending.map fun other => other := by
        refine List.map_congr_left fun other hother => ?_
        have hne : other.op.id ≠ id := by
          intro heq
          exact hnodup.1 (List.mem_map.mpr ⟨other, hother, heq.trans hid.symm⟩)
        simp [State.flag, hne]
      have hflag : entry.cancelledWhileQueued = false := by
        obtain ⟨found, hfound, hfid, hff⟩ := hany
        rcases List.mem_cons.mp hfound with rfl | hfound
        · exact hff
        · exact absurd (List.mem_map.mpr ⟨found, hfound, hfid.trans hid.symm⟩) hnodup.1
      rw [List.map_cons, hrest, List.map_id']
      simp [State.flag, hid, hflag]
    · have hrest := ih hnodup.2 (by
        obtain ⟨found, hfound, hfid, hff⟩ := hany
        rcases List.mem_cons.mp hfound with rfl | hfound
        · exact absurd hfid hid
        · exact ⟨found, hfound, hfid, hff⟩)
      rw [List.map_cons, List.countP_cons, List.countP_cons, hrest]
      simp only [State.flag, if_neg hid]
      omega

theorem Valid.notice (h : Valid cfg s) {id : ℕ} (hstatus : s.status id = .cancelled)
    (hany : ∃ entry ∈ s.pending, entry.op.id = id ∧ entry.cancelledWhileQueued = false) :
    Valid cfg { s with
      pending := s.pending.map (State.flag id), cancelledPending := s.cancelledPending+1 } := by
  have hop (entry : Entry) : (State.flag id entry).op = entry.op := by
    unfold State.flag
    split <;> rfl
  have hqueued : (s.pending.map (State.flag id)).map Entry.op = s.queued := by
    rw [State.queued, List.map_map]
    exact List.map_congr_left fun entry _ => hop entry
  have hnodup : (s.pending.map fun entry => entry.op.id).Nodup := by
    have hpart : s.queued.Sublist (s.dispatched++s.skipped++(s.held++s.queued)) :=
      (List.sublist_append_right _ _).trans (List.sublist_append_right _ _)
    have hqueue := h.distinct.sublist (hpart.map Op.id)
    rwa [State.queued, List.map_map] at hqueue
  refine ⟨h.ids, ?_, h.fresh, ?_, h.frames, h.dropped, h.sent, h.completed, h.calls,
    h.below, ?_, ?_, ?_⟩
  · show (s.dispatched++s.skipped++(s.held++(s.pending.map (State.flag id)).map Entry.op)).Perm _
    rw [hqueued]
    exact h.placed
  · show ∀ op ∈ (s.pending.map (State.flag id)).map Entry.op, _
    rw [hqueued]
    exact h.waiting
  · intro entry hentry hflag
    obtain ⟨before, hbefore, rfl⟩ := List.mem_map.mp hentry
    rw [hop]
    unfold State.flag at hflag
    split at hflag
    case isTrue heq => rw [heq, hstatus]
    case isFalse => exact h.flagged before hbefore hflag
  · simp only [countP_flag _ _ hnodup hany, h.counted]
    push_cast
    rfl
  · simpa using h.bounded

theorem Valid.id_lt (h : Valid cfg s) {op : Op}
    (hop : op ∈ s.dispatched++s.skipped++(s.held++s.queued)) : op.id < s.entered.length := by
  have hid : op.id ∈ s.entered.map Op.id := List.mem_map_of_mem (h.placed.mem_iff.mp hop)
  rwa [h.ids, List.mem_range] at hid

theorem held_cons {frame : Frame} {rest : List Frame} (hstack : s.stack = frame::rest) :
    s.held = frame.held++rest.flatMap Frame.held := by
  rw [State.held, hstack, List.flatMap_cons]

/-- A cancelled operation of a batch is passed over. -/
theorem Valid.skip (h : Valid cfg s) {active todo : List Op} {op : Op} {rest : List Frame}
    (hstack : s.stack = .activating active (op::todo)::rest)
    (hstatus : s.status op.id = .cancelled) :
    Valid cfg { s with skipped := s.skipped++[op], stack := .activating active todo::rest } := by
  have hheld := held_cons hstack
  obtain ⟨hactive, htodo⟩ := h.top_sound hstack
  refine ⟨h.ids, ?_, h.fresh, h.waiting, ?_, ?_, h.sent, ?_, by simp [openCall], ?_, h.flagged,
    h.counted, h.bounded⟩
  · have hplaced := h.placed
    rw [hheld] at hplaced
    refine List.Perm.trans ?_ hplaced
    simp only [State.held, State.queued, List.flatMap_cons, Frame.held, List.append_assoc,
      List.cons_append, List.nil_append]
    refine (List.Perm.append_left _ (List.Perm.append_left _ ?_))
    exact List.perm_middle.symm
  · intro frame hframe
    rcases List.mem_cons.mp hframe with rfl | hframe
    · exact ⟨hactive, fun o ho => htodo o (List.mem_cons_of_mem _ ho)⟩
    · exact h.rest_sound hstack frame hframe
  · intro o ho
    rcases List.mem_append.mp ho with ho | ho
    · exact h.dropped o ho
    · rw [List.mem_singleton.mp ho, hstatus]
  · have := h.completed
    rw [hstack] at this
    exact this
  · exact h.rest_below hstack

/-- An operation that was not cancelled starts to run. -/
theorem Valid.activate (h : Valid cfg s) {active todo : List Op} {op : Op} {rest : List Frame}
    (hstack : s.stack = .activating active (op::todo)::rest) :
    Valid cfg { s.setStatus op.id .running with
      stack := .activating (active++[op]) todo::rest } := by
  have hheld := held_cons hstack
  obtain ⟨hactive, htodo⟩ := h.top_sound hstack
  have hothers : ∀ o ∈ s.dispatched++s.skipped++active++(todo++rest.flatMap Frame.held++s.queued),
      (s.setStatus op.id .running).status o.id = s.status o.id := by
    have hdistinct := h.distinct
    have hsplit : s.dispatched++s.skipped++(s.held++s.queued) =
        s.dispatched++s.skipped++active++op::(todo++rest.flatMap Frame.held++s.queued) := by
      simp [hheld, Frame.held]
    rw [hsplit, List.map_append, List.map_cons, List.nodup_middle, ← List.map_append,
      List.nodup_cons] at hdistinct
    intro o ho
    have hne : o.id ≠ op.id := fun heq => hdistinct.1 (heq ▸ List.mem_map_of_mem ho)
    simp [State.setStatus, hne]
  refine ⟨h.ids, ?_, ?_, ?_, ?_, ?_, ?_, ?_, by simp [openCall], ?_, ?_, h.counted, h.bounded⟩
  · have hplaced := h.placed
    rw [hheld] at hplaced
    simpa [State.setStatus, State.held, State.queued, Frame.held] using hplaced
  · intro id hid
    have hlt : op.id < s.entered.length := h.id_lt (by simp [hheld, Frame.held])
    have hge : s.entered.length ≤ id := hid
    have hne : id ≠ op.id := by omega
    simp only [State.setStatus, Function.update_apply, if_neg hne]
    exact h.fresh id hid
  · intro o ho
    rw [hothers o (by simp only [List.mem_append]; exact .inr (.inr ho))]
    exact h.waiting o ho
  · intro frame hframe
    rcases List.mem_cons.mp hframe with rfl | hframe
    · refine ⟨fun o ho => ?_, fun o ho => ?_⟩
      · rcases List.mem_append.mp ho with ho | ho
        · rw [hothers o (by simp [ho])]
          exact hactive o ho
        · rw [List.mem_singleton.mp ho]
          simp [State.setStatus]
      · rw [hothers o (by simp [ho])]
        exact htodo o (List.mem_cons_of_mem _ ho)
    · refine (h.rest_sound hstack frame hframe).congr ?_
      intro o ho
      apply hothers
      simp only [List.mem_append, List.mem_flatMap]
      exact .inr (.inl (.inr ⟨frame, hframe, ho⟩))
  · intro o ho
    rw [hothers o (by simp only [List.mem_append]; exact .inl (.inl (.inr ho)))]
    exact h.dropped o ho
  · intro o ho
    rw [hothers o (by simp only [List.mem_append]; exact .inl (.inl (.inl ho)))]
    exact h.sent o ho
  · obtain ⟨front, hfront, hdone⟩ := h.completed
    rw [hstack] at hfront
    refine ⟨front, hfront, fun o ho => ?_⟩
    have hmem : o ∈ s.dispatched := by
      rw [hfront]
      exact List.mem_append_left _ ho
    rw [hothers o (by simp only [List.mem_append]; exact .inl (.inl (.inl hmem)))]
    exact hdone o ho
  · exact h.rest_below hstack
  · intro entry hentry hflag
    have hmem : entry.op ∈ s.queued := List.mem_map_of_mem hentry
    rw [hothers _ (by simp only [List.mem_append]; exact .inr (.inr hmem))]
    exact h.flagged entry hentry hflag

/-- A group is handed to the client. -/
theorem Valid.dispatch (h : Valid cfg s) {g : List Op} {gs : List (List Op)} {rest : List Frame}
    (hstack : s.stack = .flushing (g::gs)::rest) :
    Valid cfg { s with
      dispatched := s.dispatched++g, stack := .calling g::.flushing gs::rest } := by
  have hheld := held_cons hstack
  have hrunning : ∀ op ∈ g++gs.flatten, s.status op.id = .running := h.top_sound hstack
  obtain ⟨front, hfront, hdone⟩ := h.completed
  rw [hstack, show openCall (.flushing (g::gs)::rest) = [] from rfl, List.append_nil] at hfront
  refine ⟨h.ids, ?_, h.fresh, h.waiting, ?_, h.dropped, ?_, ⟨front, ?_, hdone⟩,
    fun op hop => hrunning op (List.mem_append_left _ hop), ?_, h.flagged, h.counted, h.bounded⟩
  · have hplaced := h.placed
    rw [hheld] at hplaced
    refine List.Perm.trans ?_ hplaced
    simp only [State.held, State.queued, List.flatMap_cons, Frame.held, List.append_assoc,
      List.flatten_cons, List.nil_append]
    refine List.Perm.append_left _ ?_
    rw [← List.append_assoc, ← List.append_assoc s.skipped]
    exact List.perm_append_comm.append_right _
  · intro frame hframe
    simp only [List.mem_cons] at hframe
    rcases hframe with rfl | rfl | hframe
    · trivial
    · exact fun op hop => hrunning op (List.mem_append_right _ hop)
    · exact h.rest_sound hstack frame hframe
  · intro op hop
    rcases List.mem_append.mp hop with hop | hop
    · exact h.sent op hop
    · exact .inl (hrunning op (List.mem_append_left _ hop))
  · rw [hfront]
    rfl
  · intro frame hframe
    rcases List.mem_cons.mp hframe with rfl | hframe
    · rfl
    · exact h.rest_below hstack frame hframe

/-- The futures of a group are set. -/
theorem Valid.finish (h : Valid cfg s) {g : List Op} {rest : List Frame}
    (hstack : s.stack = .calling g::rest) :
    Valid cfg { s.finishAll g with stack := .callbacks::rest } := by
  have hheld := held_cons hstack
  obtain ⟨front, hfront, hdone⟩ := h.completed
  rw [hstack, openCall] at hfront
  have hbelow := h.rest_below hstack
  have hothers : ∀ o ∈ s.skipped++(s.held++s.queued),
      (s.finishAll g).status o.id = s.status o.id := by
    have hdistinct := h.distinct
    rw [hfront, List.append_assoc, List.append_assoc, List.map_append, List.map_append] at hdistinct
    have hdisjoint := (List.nodup_append.mp (List.nodup_append.mp hdistinct).2.1).2.2
    intro o ho
    have hnot : o.id ∉ g.map Op.id := fun hmem =>
      hdisjoint _ hmem _ (List.mem_map_of_mem ho) rfl
    simp only [State.finishAll, if_neg hnot]
  refine ⟨h.ids, ?_, ?_, ?_, ?_, ?_, ?_, ?_, by simp [openCall], hbelow, ?_, h.counted, h.bounded⟩
  · have hplaced := h.placed
    rw [hheld] at hplaced
    simpa [State.finishAll, State.held, State.queued, Frame.held] using hplaced
  · intro id hid
    have hnot : id ∉ g.map Op.id := by
      intro hmem
      obtain ⟨op, hop, rfl⟩ := List.mem_map.mp hmem
      have hlt : op.id < s.entered.length := h.id_lt (by simp [hfront, hop])
      have hge : s.entered.length ≤ op.id := hid
      omega
    simp only [State.finishAll, if_neg hnot]
    exact h.fresh id hid
  · intro o ho
    rw [hothers o (by simp only [List.mem_append]; exact .inr (.inr ho))]
    exact h.waiting o ho
  · intro frame hframe
    rcases List.mem_cons.mp hframe with rfl | hframe
    · trivial
    · refine (h.rest_sound hstack frame hframe).congr ?_
      intro o ho
      apply hothers
      rw [hheld]
      simp only [List.mem_append, List.mem_flatMap]
      exact .inr (.inl (.inr ⟨frame, hframe, ho⟩))
  · intro o ho
    rw [hothers o (List.mem_append_left _ ho)]
    exact h.dropped o ho
  · intro o ho
    simp only [State.finishAll]
    split
    · exact .inr rfl
    · exact h.sent o ho
  · refine ⟨s.dispatched, by rw [openCall_of_not (by simpa using ⟨rfl, hbelow⟩), List.append_nil]; rfl,
      fun o ho => ?_⟩
    have hmem : o ∈ s.dispatched := ho
    rw [hfront] at hmem
    simp only [State.finishAll]
    split
    · rfl
    · rcases List.mem_append.mp hmem with hmem | hmem
      · exact hdone o hmem
      · exact absurd (List.mem_map_of_mem hmem) ‹_›
  · intro entry hentry hflag
    have hmem : entry.op ∈ s.queued := List.mem_map_of_mem hentry
    rw [hothers _ (by simp only [List.mem_append]; exact .inr (.inr hmem))]
    exact h.flagged entry hentry hflag

theorem callGroups_flatten (ops : List Op) : (callGroups ops).flatten = ops := by
  have hone (g : List Op) : (g.map fun op => [op]).flatten = g := by
    induction g with
    | nil => rfl
    | cons op g ih => rw [List.map_cons, List.flatten_cons, ih, List.singleton_append]
  have hcut (g : List Op) :
      (if g.head?.any (·.kind = .batch) then [g] else g.map fun op => [op]).flatten = g := by
    split
    · simp
    · exact hone g
  have hgroups (gs : List (List Op)) :
      (gs.flatMap fun g =>
        if g.head?.any (·.kind = .batch) then [g] else g.map fun op => [op]).flatten =
        gs.flatten := by
    induction gs with
    | nil => rfl
    | cons g gs ih => rw [List.flatMap_cons, List.flatten_append, hcut, ih, List.flatten_cons]
  rw [callGroups, hgroups, group_flatten]

/-- A frame that holds nothing is left. -/
theorem Valid.pop (h : Valid cfg s) {frame : Frame} {rest : List Frame}
    (hstack : s.stack = frame::rest) (hheld : frame.held = []) (hcall : frame.isCall = false) :
    Valid cfg { s with stack := rest } := by
  have hbelow := h.rest_below hstack
  refine h.restack ?_ ?_ ?_ fun frame hframe => hbelow frame (List.mem_of_mem_tail hframe)
  · rw [held_cons hstack, hheld, List.nil_append]
  · exact h.rest_sound hstack
  · rw [hstack, openCall_of_not hbelow]
    cases frame <;> simp_all [openCall, Frame.isCall]

/-- A frame that holds as much takes the place of the top. -/
theorem Valid.replace (h : Valid cfg s) {frame frame' : Frame} {rest : List Frame}
    (hstack : s.stack = frame::rest) (hheld : frame'.held = frame.held)
    (hcall : frame.isCall = false) (hcall' : frame'.isCall = false)
    (hsound : frame'.Sound s.status) : Valid cfg { s with stack := frame'::rest } := by
  have hbelow := h.rest_below hstack
  refine h.restack ?_ ?_ ?_ hbelow
  · rw [held_cons hstack, List.flatMap_cons, hheld]
  · intro other hother
    rcases List.mem_cons.mp hother with rfl | hother
    · exact hsound
    · exact h.rest_sound hstack other hother
  · rw [hstack, openCall_of_not (by simpa using ⟨hcall', hbelow⟩),
      openCall_of_not (by simpa using ⟨hcall, hbelow⟩)]

/-- The batch a call takes inside a callback goes on top of that call. -/
theorem Valid.takeInside (h : Valid cfg s) {frame : Frame} {rest : List Frame}
    (hstack : s.stack = frame::rest) (hcall : frame.isCall = false) :
    Valid cfg (s.takePending cfg (frame::rest)) := by
  have hbelow : ∀ other ∈ frame::rest, other.isCall = false := by
    simpa using ⟨hcall, h.rest_below hstack⟩
  refine h.takePending ?_ ?_ ?_ hbelow
  · rw [held_cons hstack, List.flatMap_cons]
  · rw [← hstack]
    exact h.frames
  · rw [hstack, openCall_of_not hbelow]

theorem Valid.turn (h : Valid cfg s) {frame : Frame} {rest : List Frame}
    (hstack : s.stack = frame::rest) (ht : turn cfg s rest frame = some t) : Valid cfg t := by
  have hsound := h.top_sound hstack
  cases frame with
  | activating active todo =>
    cases todo with
    | nil =>
      simp only [AutobatchQueue.turn] at ht
      split at ht
      case isTrue hactive =>
        cases ht
        exact h.pop hstack (by rw [hactive]; rfl) rfl
      case isFalse =>
        cases ht
        refine h.replace hstack ?_ rfl rfl ?_
        · simp [Frame.held, callGroups_flatten]
        · intro op hop
          rw [callGroups_flatten] at hop
          exact hsound.1 op hop
    | cons op todo =>
      simp only [AutobatchQueue.turn] at ht
      split at ht
      case h_1 hstatus =>
        cases ht
        exact h.skip hstack hstatus
      case h_2 hstatus =>
        cases ht
        exact h.activate hstack
      case h_3 => cases ht
  | flushing groups =>
    cases groups with
    | nil =>
      cases ht
      exact h.pop hstack rfl rfl
    | cons g gs =>
      cases ht
      exact h.dispatch hstack
  | calling g =>
    cases ht
    exact h.finish hstack
  | callbacks =>
    cases ht
    exact h.pop hstack rfl rfl
  | submitting kind key =>
    simp only [AutobatchQueue.turn] at ht
    split at ht
    · cases ht
      exact h.pop hstack rfl rfl
    · split at ht
      case isTrue =>
        cases ht
        exact h.takeInside hstack rfl
      case isFalse hroom =>
        cases ht
        have htop : (s.enter kind key).stack = .submitting kind key::rest := hstack
        exact (h.enter kind key (by omega)).replace htop rfl rfl rfl trivial
  | draining target =>
    simp only [AutobatchQueue.turn] at ht
    split at ht
    · cases ht
      exact h.pop hstack rfl rfl
    · split at ht
      · cases ht
        exact h.pop hstack rfl rfl
      · cases ht
        exact h.takeInside hstack rfl

theorem Valid.advance (h : Valid cfg s) {action : Action}
    (ht : advance cfg s action = some t) : Valid cfg t := by
  cases action with
  | enqueue kind key =>
    simp only [AutobatchQueue.advance] at ht
    split at ht
    case isTrue => cases ht
    case isFalse hroom =>
      cases ht
      exact h.enter kind key (by simp at hroom; omega)
  | cancel id =>
    simp only [AutobatchQueue.advance] at ht
    split at ht
    case isTrue hcancel =>
      cases ht
      have hid : id < s.entered.length := by
        by_contra hge
        rw [List.getElem?_eq_none (by omega)] at hcancel
        simp at hcancel
      exact h.cancel hid hcancel.2
    case isFalse => cases ht
  | notice id =>
    simp only [AutobatchQueue.advance] at ht
    split at ht
    case isTrue hstatus =>
      split at ht
      case isTrue hany =>
        cases ht
        exact h.notice hstatus (by simpa using hany)
      case isFalse =>
        cases ht
        exact h
    case isFalse => cases ht
  | close =>
    cases ht
    exact ⟨h.ids, h.placed, h.fresh, h.waiting, h.frames, h.dropped, h.sent, h.completed, h.calls,
      h.below, h.flagged, h.counted, h.bounded⟩
  | take =>
    simp only [AutobatchQueue.advance] at ht
    split at ht
    case h_1 hstack hpending =>
      cases ht
      refine h.takePending ?_ (by simp) ?_ (by simp)
      · rw [State.held, hstack]
      · rw [hstack]
        rfl
    case h_2 => cases ht
  | turn =>
    simp only [AutobatchQueue.advance] at ht
    split at ht
    case h_1 => cases ht
    case h_2 frame rest hstack => exact h.turn hstack ht
  | callback kind key =>
    simp only [AutobatchQueue.advance] at ht
    split at ht
    case h_1 rest hstack =>
      cases ht
      have hbelow : ∀ frame ∈ Frame.callbacks::rest, frame.isCall = false := by
        simpa using ⟨rfl, h.rest_below hstack⟩
      refine h.restack ?_ ?_ ?_ hbelow
      · rw [held_cons hstack]
        rfl
      · intro frame hframe
        rcases List.mem_cons.mp hframe with rfl | hframe
        · trivial
        · exact h.frames frame (by rw [hstack]; exact hframe)
      · rw [hstack]
        rfl
    case h_2 => cases ht

end Steps

end FerricStore.AutobatchQueue
