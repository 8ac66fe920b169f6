import FerricStore.Transitions

/-!
# The close coordinator

`SyncCloseCoordinator` lets callers run operations while the resource is open and lets
any number of callers close it. Its flags and its counter change in critical sections;
the close callbacks and the operations run between them, outside the lock. A call is the
place its thread has reached, a step takes one call through one critical section or lets
one callback end, and a state is reached by any interleaving of such steps.
-/

set_option autoImplicit false

namespace FerricStore.CloseCoordinator

/-- Where a call of `run` or `run_while_open` stands. -/
inductive Phase where
  /-- `run` is about to look at `_running`. -/
  | entering
  /-- `run` waits for another close to end. -/
  | waiting
  /-- `run` is about to look at the open operations again. -/
  | draining
  /-- `run` waits for the open operations to end. -/
  | blocked
  /-- The close callback of `run` runs. -/
  | closing
  /-- The close callback ended, with success or not, and its outcome is not recorded yet. -/
  | closed (ok : Bool)
  | returned
  | raised
  /-- `run_while_open` is about to look at `_started`. -/
  | arriving
  /-- The operation of `run_while_open` runs. -/
  | operating
  /-- The operation ended and is still counted. -/
  | departing (ok : Bool)
  | refused
  | finished (ok : Bool)
  deriving DecidableEq, Repr

namespace Phase

/-- A call that holds `_running`. -/
def isCloser : Phase → Bool
  | draining | blocked | closing | closed _ => true
  | _ => false

/-- A call whose close callback runs or has run. -/
def isTearing : Phase → Bool
  | closing | closed _ => true
  | _ => false

/-- A call that `_open_operations` counts. -/
def inProgress : Phase → Bool
  | operating | departing _ => true
  | _ => false

/-- `notify_all` lets both kinds of waiting calls look again. -/
def wake : Phase → Phase
  | waiting => entering
  | blocked => draining
  | phase => phase

end Phase

open Phase

structure State where
  running : Bool
  complete : Bool
  started : Bool
  openOperations : ℤ
  calls : List Phase
  deriving DecidableEq, Repr

namespace State

def initial : State := ⟨false, false, false, 0, []⟩

/-- How many calls stand at such a place. -/
def tally (s : State) (p : Phase → Bool) : ℕ := s.calls.countP p

def put (s : State) (i : ℕ) (phase : Phase) : State :=
  { s with calls := s.calls.set i phase }

def notifyAll (s : State) : State :=
  { s with calls := s.calls.map wake }

/-- The inner loop of `run`, up to the wait or to the callback. -/
def drain (s : State) (i : ℕ) : State :=
  if s.openOperations ≠ 0 then s.put i .blocked else s.put i .closing

/-- The critical section `run` starts with. -/
def enter (s : State) (i : ℕ) : State :=
  if s.running then s.put i .waiting
  else if s.complete then s.put i .returned
  else drain { s with started := true, running := true } i

/-- The critical section after a callback that ended with `ok`. -/
def record (s : State) (i : ℕ) (ok : Bool) : State :=
  if ok then notifyAll ({ s with complete := true, running := false }.put i .returned)
  else notifyAll ({ s with running := false }.put i .raised)

/-- The critical section `run_while_open` starts with. -/
def accept (s : State) (i : ℕ) : State :=
  if s.started then s.put i .refused
  else { s with openOperations := s.openOperations+1 }.put i .operating

/-- The `finally` of `run_while_open`. -/
def depart (s : State) (i : ℕ) (ok : Bool) : State :=
  notifyAll ({ s with openOperations := s.openOperations-1 }.put i (.finished ok))

/-- What the call with this number does next; `ok` is the outcome of a callback that ends. -/
def advance (s : State) (i : ℕ) (ok : Bool) : Option State :=
  match s.calls[i]? with
  | some .entering => some (s.enter i)
  | some .draining => some (s.drain i)
  | some .closing => some (s.put i (.closed ok))
  | some (.closed result) => some (s.record i result)
  | some .arriving => some (s.accept i)
  | some .operating => some (s.put i (.departing ok))
  | some (.departing result) => some (s.depart i result)
  | _ => none

end State

/-- A new call arrives, or one call moves. -/
inductive Step : State → State → Prop where
  | run (s : State) : Step s { s with calls := s.calls++[Phase.entering] }
  | runWhileOpen (s : State) : Step s { s with calls := s.calls++[Phase.arriving] }
  | move (s t : State) (i : ℕ) (ok : Bool) (h : s.advance i ok = some t) : Step s t

abbrev Reaches : State → State → Prop := Relation.ReflTransGen Step

/-- The ways a call can move. -/
theorem advance_cases {s t : State} {i : ℕ} {ok : Bool} (h : s.advance i ok = some t) :
    (s.calls[i]? = some .entering ∧ t = s.enter i) ∨
    (s.calls[i]? = some .draining ∧ t = s.drain i) ∨
    (s.calls[i]? = some .closing ∧ t = s.put i (.closed ok)) ∨
    (∃ result, s.calls[i]? = some (.closed result) ∧ t = s.record i result) ∨
    (s.calls[i]? = some .arriving ∧ t = s.accept i) ∨
    (s.calls[i]? = some .operating ∧ t = s.put i (.departing ok)) ∨
    (∃ result, s.calls[i]? = some (.departing result) ∧ t = s.depart i result) := by
  unfold State.advance at h
  split at h
  all_goals grind -ring -linarith

/-! ## Counting calls -/

theorem countP_set_toNat {calls : List Phase} {i : ℕ} {old : Phase} (p : Phase → Bool)
    (new : Phase) (h : calls[i]? = some old) :
    (calls.set i new).countP p+(p old).toNat = calls.countP p+(p new).toNat := by
  obtain ⟨hi, hold⟩ := List.getElem?_eq_some_iff.mp h
  have hpos : p old = true → 0 < calls.countP p := by
    intro hp
    exact List.countP_pos_iff.mpr ⟨old, List.mem_of_getElem? h, hp⟩
  rw [List.countP_set hi, hold]
  cases hp : p old <;> cases p new <;> simp
  all_goals have := hpos hp; omega

theorem countP_wake (calls : List Phase) (p : Phase → Bool)
    (hp : ∀ phase, p (wake phase) = p phase) : (calls.map wake).countP p = calls.countP p := by
  rw [List.countP_map]
  exact List.countP_congr fun phase _ => by simp [hp]

theorem isCloser_of_isTearing {phase : Phase} (h : isTearing phase = true) :
    isCloser phase = true := by
  cases phase <;> simp_all [isTearing, isCloser]

@[simp] theorem wake_isCloser (phase : Phase) : (wake phase).isCloser = phase.isCloser := by
  cases phase <;> rfl

@[simp] theorem wake_isTearing (phase : Phase) : (wake phase).isTearing = phase.isTearing := by
  cases phase <;> rfl

@[simp] theorem wake_inProgress (phase : Phase) :
    (wake phase).inProgress = phase.inProgress := by
  cases phase <;> rfl

theorem wake_ne_waiting (phase : Phase) : wake phase ≠ .waiting := by
  cases phase <;> simp [wake]

theorem wake_ne_blocked (phase : Phase) : wake phase ≠ .blocked := by
  cases phase <;> simp [wake]

theorem wake_eq_operating {phase : Phase} : wake phase = .operating ↔ phase = .operating := by
  cases phase <;> simp [wake]

theorem wake_closed (ok : Bool) : wake (.closed ok) = .closed ok := rfl

/-! ## The invariant -/

/-- The counter counts, one call at most holds `_running`, and no callback runs while an
operation is counted. -/
structure Counted (s : State) : Prop where
  counted : s.openOperations = s.calls.countP inProgress
  closers : s.calls.countP isCloser = s.running.toNat
  torn : ∀ phase ∈ s.calls, isTearing phase = true → s.openOperations = 0
  running_started : s.running = true → s.started = true
  complete_started : s.complete = true → s.started = true
  complete_idle : s.complete = true → s.running = false
  idle_drained : s.started = true → s.running = false → s.openOperations = 0

/-- Outside the critical sections no call waits for what has already happened either. -/
structure Valid (s : State) : Prop extends Counted s where
  waited : .waiting ∈ s.calls → s.running = true
  stalled : .blocked ∈ s.calls → s.openOperations ≠ 0

theorem initial_valid : Valid .initial := by
  refine ⟨⟨?_, ?_, ?_, ?_, ?_, ?_, ?_⟩, ?_, ?_⟩
  all_goals simp [State.initial]

theorem Valid.arrive {s : State} (h : Valid s) (new : Phase)
    (hnew : new = .entering ∨ new = .arriving) :
    Valid { s with calls := s.calls++[new] } := by
  obtain ⟨⟨h1, h2, h3, h4, h5, h6, h7⟩, h8, h9⟩ := h
  refine ⟨⟨?_, ?_, ?_, ?_, ?_, ?_, ?_⟩, ?_, ?_⟩
  all_goals
    rcases hnew with rfl | rfl
    all_goals simpa [inProgress, isCloser, isTearing, or_imp, forall_and]

section Moves

variable {s : State} {i : ℕ} {old new : Phase}

/-- A call that keeps its part in both counts may move where its new place allows. -/
theorem Valid.put (h : Valid s) (hi : s.calls[i]? = some old)
    (h1 : inProgress new = inProgress old) (h2 : isCloser new = isCloser old)
    (h3 : isTearing new = true → s.openOperations = 0)
    (h4 : new = .waiting → s.running = true)
    (h5 : new = .blocked → s.openOperations ≠ 0) : Valid (s.put i new) := by
  have c1 := countP_set_toNat inProgress new hi
  have c2 := countP_set_toNat isCloser new hi
  rw [h1] at c1
  rw [h2] at c2
  obtain ⟨⟨g1, g2, g3, g4, g5, g6, g7⟩, g8, g9⟩ := h
  have hmem {phase : Phase} (hm : phase ∈ s.calls.set i new) :=
    List.mem_or_eq_of_mem_set hm
  refine ⟨⟨?_, ?_, ?_, ?_, ?_, ?_, ?_⟩, ?_, ?_⟩
  all_goals simp only [State.put]
  all_goals grind -ring -linarith

/-- The first call that finds the coordinator idle takes `_running`. -/
theorem Valid.take (h : Valid s) (hi : s.calls[i]? = some .entering) (hr : s.running = false)
    (hc : s.complete = false) : Valid (State.drain { s with started := true, running := true } i) := by
  obtain ⟨⟨g1, g2, g3, g4, g5, g6, g7⟩, g8, g9⟩ := h
  have hmem {phase new : Phase} (hm : phase ∈ s.calls.set i new) :=
    List.mem_or_eq_of_mem_set hm
  have c1 (new : Phase) := countP_set_toNat inProgress new hi
  have c2 (new : Phase) := countP_set_toNat isCloser new hi
  unfold State.drain
  split
  all_goals
    refine ⟨⟨?_, ?_, ?_, ?_, ?_, ?_, ?_⟩, ?_, ?_⟩
    all_goals simp only [State.put]
    all_goals grind -ring -linarith [inProgress, isCloser, isTearing]

/-- After `notify_all` every call that waited is about to look again. -/
theorem Counted.notifyAll (h : Counted s) : Valid s.notifyAll := by
  obtain ⟨g1, g2, g3, g4, g5, g6, g7⟩ := h
  have c1 := countP_wake s.calls inProgress wake_inProgress
  have c2 := countP_wake s.calls isCloser wake_isCloser
  refine ⟨⟨?_, ?_, ?_, g4, g5, g6, g7⟩, ?_, ?_⟩
  · exact g1.trans (by rw [State.notifyAll, c1])
  · exact c2.trans g2
  · intro phase hphase htear
    obtain ⟨before, hbefore, rfl⟩ := List.mem_map.mp hphase
    exact g3 before hbefore (by simpa using htear)
  · intro hphase
    obtain ⟨before, -, heq⟩ := List.mem_map.mp hphase
    exact absurd heq (wake_ne_waiting before)
  · intro hphase
    obtain ⟨before, -, heq⟩ := List.mem_map.mp hphase
    exact absurd heq (wake_ne_blocked before)

/-- A call that holds `_running` finds it set. -/
theorem Counted.running_of_closer (h : Counted s) (hi : s.calls[i]? = some old)
    (hold : isCloser old = true) : s.running = true := by
  have hpos : 0 < s.calls.countP isCloser :=
    List.countP_pos_iff.mpr ⟨old, List.mem_of_getElem? hi, hold⟩
  have := h.closers
  cases hr : s.running
  · simp only [hr, Bool.toNat_false] at this
    omega
  · rfl

theorem Valid.enter (h : Valid s) (hi : s.calls[i]? = some .entering) : Valid (s.enter i) := by
  unfold State.enter
  split
  case isTrue hr => exact h.put hi rfl rfl (by simp [isTearing]) (fun _ => hr) (by simp)
  case isFalse hr =>
    split
    case isTrue => exact h.put hi rfl rfl (by simp [isTearing]) (by simp) (by simp)
    case isFalse hc => exact h.take hi (by simpa using hr) (by simpa using hc)

theorem Valid.drain (h : Valid s) (hi : s.calls[i]? = some .draining) : Valid (s.drain i) := by
  unfold State.drain
  split
  case isTrue ho => exact h.put hi rfl rfl (by simp [isTearing]) (by simp) (fun _ => ho)
  case isFalse ho => exact h.put hi rfl rfl (fun _ => by simpa using ho) (by simp) (by simp)

theorem Valid.record (h : Valid s) {ok : Bool} (hi : s.calls[i]? = some (.closed ok)) :
    Valid (s.record i ok) := by
  have hr := h.running_of_closer hi rfl
  have hopen := h.torn _ (List.mem_of_getElem? hi) rfl
  have hc : s.complete = false := by
    have := h.complete_idle
    grind -ring -linarith
  obtain ⟨⟨g1, g2, g3, g4, g5, g6, g7⟩, -, -⟩ := h
  have hmem {phase new : Phase} (hm : phase ∈ s.calls.set i new) :=
    List.mem_or_eq_of_mem_set hm
  have c1 (new : Phase) := countP_set_toNat inProgress new hi
  have c2 (new : Phase) := countP_set_toNat isCloser new hi
  unfold State.record
  split
  all_goals
    apply Counted.notifyAll
    constructor
    all_goals simp only [State.put]
    all_goals grind -ring -linarith [inProgress, isCloser, isTearing]

theorem Valid.accept (h : Valid s) (hi : s.calls[i]? = some .arriving) : Valid (s.accept i) := by
  unfold State.accept
  split
  case isTrue => exact h.put hi rfl rfl (by simp [isTearing]) (by simp) (by simp)
  case isFalse hs =>
    have hnot : ∀ phase ∈ s.calls, isTearing phase = false := by
      intro phase hphase
      obtain ⟨j, hj⟩ := List.getElem?_of_mem hphase
      by_contra htear
      have hr := h.running_of_closer hj (isCloser_of_isTearing (by simpa using htear))
      exact hs (h.running_started hr)
    obtain ⟨⟨g1, g2, g3, g4, g5, g6, g7⟩, g8, g9⟩ := h
    have hmem {phase new : Phase} (hm : phase ∈ s.calls.set i new) :=
      List.mem_or_eq_of_mem_set hm
    have c1 := countP_set_toNat inProgress .operating hi
    have c2 := countP_set_toNat isCloser .operating hi
    refine ⟨⟨?_, ?_, ?_, ?_, ?_, ?_, ?_⟩, ?_, ?_⟩
    all_goals simp only [State.put]
    all_goals grind -ring -linarith [inProgress, isCloser, isTearing]

theorem Valid.depart (h : Valid s) {ok : Bool} (hi : s.calls[i]? = some (.departing ok)) :
    Valid (s.depart i ok) := by
  have hpos : 0 < s.calls.countP inProgress :=
    List.countP_pos_iff.mpr ⟨_, List.mem_of_getElem? hi, rfl⟩
  obtain ⟨⟨g1, g2, g3, g4, g5, g6, g7⟩, -, -⟩ := h
  have hmem {phase new : Phase} (hm : phase ∈ s.calls.set i new) :=
    List.mem_or_eq_of_mem_set hm
  have c1 := countP_set_toNat inProgress (.finished ok) hi
  have c2 := countP_set_toNat isCloser (.finished ok) hi
  apply Counted.notifyAll
  constructor
  all_goals simp only [State.put]
  all_goals grind -ring -linarith [inProgress, isCloser, isTearing]

theorem Valid.advance (h : Valid s) {ok : Bool} {t : State} (ht : s.advance i ok = some t) :
    Valid t := by
  obtain ⟨hi, rfl⟩ | ⟨hi, rfl⟩ | ⟨hi, rfl⟩ | ⟨result, hi, rfl⟩ | ⟨hi, rfl⟩ | ⟨hi, rfl⟩ |
    ⟨result, hi, rfl⟩ := advance_cases ht
  · exact h.enter hi
  · exact h.drain hi
  · exact h.put hi rfl rfl (fun _ => h.torn _ (List.mem_of_getElem? hi) rfl) (by simp) (by simp)
  · exact h.record hi
  · exact h.accept hi
  · exact h.put hi rfl rfl (by simp [isTearing]) (by simp) (by simp)
  · exact h.depart hi

end Moves

theorem step_valid (s t : State) (h : Valid s) (hst : Step s t) : Valid t := by
  cases hst with
  | run => exact h.arrive _ (.inl rfl)
  | runWhileOpen => exact h.arrive _ (.inr rfl)
  | move t i ok hmove => exact h.advance hmove

theorem reached_valid {s : State} (h : Reaches .initial s) : Valid s :=
  Transitions.invariant step_valid initial_valid h

/-! ## What interleaved calls can rely on -/

/-- One call at most holds `_running`. -/
theorem Counted.closer_unique {s : State} (h : Counted s) {i j : ℕ} {first second : Phase}
    (hi : s.calls[i]? = some first) (hj : s.calls[j]? = some second)
    (hfirst : isCloser first = true) (hsecond : isCloser second = true) : i = j := by
  by_contra hne
  have hcount := countP_set_toNat isCloser .returned hi
  have hrest : 0 < (s.calls.set i .returned).countP isCloser :=
    List.countP_pos_iff.mpr
      ⟨second, List.mem_of_getElem? (by rw [List.getElem?_set_ne hne, hj]), hsecond⟩
  have hone : s.running.toNat ≤ 1 := Bool.toNat_le s.running
  rw [hfirst, h.closers, Bool.toNat_true, show isCloser .returned = false from rfl,
    Bool.toNat_false] at hcount
  omega

/-- An operation starts only where `_started` is not set. -/
theorem advance_operating {s t : State} {i j : ℕ} {ok : Bool} (h : s.advance i ok = some t)
    (hs : s.started = true) (hj : t.calls[j]? = some .operating) :
    s.calls[j]? = some .operating := by
  obtain ⟨hi, rfl⟩ | ⟨hi, rfl⟩ | ⟨hi, rfl⟩ | ⟨result, hi, rfl⟩ | ⟨hi, rfl⟩ | ⟨hi, rfl⟩ |
    ⟨result, hi, rfl⟩ := advance_cases h
  all_goals
    simp only [State.enter, State.drain, State.record, State.accept, State.depart,
      State.notifyAll, State.put, hs] at hj
    grind -ring -linarith [wake_eq_operating]

theorem advance_started {s t : State} {i : ℕ} {ok : Bool} (h : s.advance i ok = some t)
    (hs : s.started = true) : t.started = true := by
  obtain ⟨hi, rfl⟩ | ⟨hi, rfl⟩ | ⟨hi, rfl⟩ | ⟨result, hi, rfl⟩ | ⟨hi, rfl⟩ | ⟨hi, rfl⟩ |
    ⟨result, hi, rfl⟩ := advance_cases h
  all_goals
    simp only [State.enter, State.drain, State.record, State.accept, State.depart,
      State.notifyAll, State.put]
    grind -ring -linarith

theorem operating_of_arrive {calls : List Phase} {j : ℕ} {new : Phase} (hnew : new ≠ .operating)
    (hj : (calls++[new])[j]? = some .operating) : calls[j]? = some .operating := by
  grind -ring -linarith

/-- Along a run from a started state no operation starts. -/
theorem reached_started {s t : State} (h : Reaches s t) (hs : s.started = true) :
    t.started = true ∧ ∀ j : ℕ, t.calls[j]? = some .operating → s.calls[j]? = some .operating := by
  induction h with
  | refl => exact ⟨hs, fun j hj => hj⟩
  | @tail t u _ hstep ih =>
    obtain ⟨ht, hkeep⟩ := ih
    cases hstep with
    | run | runWhileOpen =>
      exact ⟨ht, fun j hj => hkeep j (operating_of_arrive (by simp) hj)⟩
    | move _ i ok hmove =>
      exact ⟨advance_started hmove ht, fun j hj => hkeep j (advance_operating hmove ht hj)⟩

/-- A close has succeeded, with its outcome recorded or about to be. -/
def Succeeded (s : State) : Prop := s.complete = true ∨ .closed true ∈ s.calls

theorem advance_succeeded {s t : State} {i : ℕ} {ok : Bool} (h : s.advance i ok = some t)
    (hs : Succeeded s) : Succeeded t := by
  obtain hs | hs := hs
  · left
    obtain ⟨hi, rfl⟩ | ⟨hi, rfl⟩ | ⟨hi, rfl⟩ | ⟨result, hi, rfl⟩ | ⟨hi, rfl⟩ | ⟨hi, rfl⟩ |
      ⟨result, hi, rfl⟩ := advance_cases h
    all_goals
      simp only [State.enter, State.drain, State.record, State.accept, State.depart,
        State.notifyAll, State.put]
      grind -ring -linarith
  · obtain ⟨j, hj⟩ := List.getElem?_of_mem hs
    have hset (new : Phase) (hne : i ≠ j) : .closed true ∈ s.calls.set i new :=
      List.mem_of_getElem? (by rw [List.getElem?_set_ne hne, hj])
    have hwake (new : Phase) (hne : i ≠ j) : .closed true ∈ (s.calls.set i new).map wake :=
      List.mem_map.mpr ⟨_, hset new hne, wake_closed true⟩
    unfold Succeeded
    obtain ⟨hi, rfl⟩ | ⟨hi, rfl⟩ | ⟨hi, rfl⟩ | ⟨result, hi, rfl⟩ | ⟨hi, rfl⟩ | ⟨hi, rfl⟩ |
      ⟨result, hi, rfl⟩ := advance_cases h
    all_goals
      simp only [State.enter, State.drain, State.record, State.accept, State.depart,
        State.notifyAll, State.put]
      grind -ring -linarith

theorem Valid.not_closing {s : State} (h : Valid s) (hs : Succeeded s) : .closing ∉ s.calls := by
  intro hmem
  obtain ⟨i, hi⟩ := List.getElem?_of_mem hmem
  obtain hs | hs := hs
  · have hr := h.running_of_closer hi rfl
    simp [h.complete_idle hs] at hr
  · obtain ⟨j, hj⟩ := List.getElem?_of_mem hs
    obtain rfl := h.closer_unique hi hj rfl rfl
    simp [hi] at hj

theorem reached_succeeded {s t : State} (h : Reaches s t) (hs : Succeeded s) : Succeeded t := by
  induction h with
  | refl => exact hs
  | tail _ hstep ih =>
    cases hstep with
    | run | runWhileOpen => exact ih.imp id (List.mem_append_left _)
    | move _ i ok hmove => exact advance_succeeded hmove ih

/-- In such a state no callback runs, a call of `run` that finds the success recorded
returns and changes nothing else, one that finds it unrecorded waits until it is, and
none waits longer. -/
structure StaysClosed (t : State) : Prop where
  not_closing : .closing ∉ t.calls
  returns : t.complete = true → ∀ (i : ℕ) (ok : Bool), t.calls[i]? = some .entering →
    t.advance i ok = some (t.put i .returned)
  waits : t.complete = false → ∀ (i : ℕ) (ok : Bool), t.calls[i]? = some .entering →
    t.advance i ok = some (t.put i .waiting)
  recorded : t.complete = false → ∃ i : ℕ, t.calls[i]? = some (.closed true) ∧
    ∀ ok : Bool, ∃ u, t.advance i ok = some u ∧ u.complete = true
  released : t.complete = true → .waiting ∉ t.calls

theorem Valid.staysClosed {s : State} (h : Valid s) (hs : Succeeded s) : StaysClosed s := by
  refine ⟨h.not_closing hs, ?_, ?_, ?_, ?_⟩
  · intro hc i ok hi
    simp [State.advance, hi, State.enter, h.complete_idle hc, hc]
  · intro hc i ok hi
    have hmem : .closed true ∈ s.calls := hs.resolve_left (by simp [hc])
    obtain ⟨j, hj⟩ := List.getElem?_of_mem hmem
    simp [State.advance, hi, State.enter, h.running_of_closer hj rfl]
  · intro hc
    have hmem : .closed true ∈ s.calls := hs.resolve_left (by simp [hc])
    obtain ⟨j, hj⟩ := List.getElem?_of_mem hmem
    refine ⟨j, hj, fun ok => ⟨s.record j true, by simp [State.advance, hj], ?_⟩⟩
    simp [State.record, State.notifyAll, State.put]
  · intro hc hmem
    simpa [h.complete_idle hc] using h.waited hmem

/-- A failed close gives `_running` back with no operation open and every waiting call
woken, and whichever call enters next runs its callback. -/
theorem Valid.retries {s : State} (h : Valid s) {i : ℕ} (hi : s.calls[i]? = some (.closed false))
    (ok : Bool) :
    ∃ t, s.advance i ok = some t ∧ t.calls[i]? = some .raised ∧ .waiting ∉ t.calls ∧
      ∀ j : ℕ, s.calls[j]? = some .waiting ∨ s.calls[j]? = some .entering →
        t.calls[j]? = some .entering ∧
          ∃ u, t.advance j ok = some u ∧ u.calls[j]? = some .closing := by
  have hadvance : s.advance i ok = some (s.record i false) := by simp [State.advance, hi]
  have hvalid := h.advance hadvance
  have hr := h.running_of_closer hi rfl
  have hopen := h.torn _ (List.mem_of_getElem? hi) rfl
  have hc : s.complete = false := by
    cases hc : s.complete
    · rfl
    · exact absurd hr (by simp [h.complete_idle hc])
  have hlt := (List.getElem?_eq_some_iff.mp hi).1
  refine ⟨_, hadvance, ?_, ?_, ?_⟩
  · simp [State.record, State.notifyAll, State.put, hlt, wake]
  · intro hmem
    simpa [State.record, State.notifyAll, State.put] using hvalid.waited hmem
  · intro j hj
    have hne : i ≠ j := by
      rintro rfl
      simp [hi] at hj
    have hentering : (s.record i false).calls[j]? = some .entering := by
      rcases hj with hj | hj <;>
        simp [State.record, State.notifyAll, State.put, List.getElem?_set_ne hne, hj, wake]
    have hj' := (List.getElem?_eq_some_iff.mp hentering).1
    refine ⟨hentering, (s.record i false).enter j, by simp [State.advance, hentering], ?_⟩
    have hfields : (s.record i false).running = false ∧ (s.record i false).complete = false ∧
        (s.record i false).openOperations = 0 := by
      simp [State.record, State.notifyAll, State.put, hc, hopen]
    simp [State.enter, State.drain, State.put, hfields, hj']

/-- Over every interleaving of `run` and `run_while_open`: the counter is the number of
operations in progress; no close callback runs beside another one or beside an
operation; once `_started` is set no operation starts; once a callback has succeeded
none runs again and every call of `run` returns without effect; and a callback that
failed hands over to the calls that waited for it. -/
theorem close_is_coordinated (s : State) (h : Reaches .initial s) :
    (s.openOperations = s.calls.countP inProgress ∧ 0 ≤ s.openOperations) ∧
    (∀ i j : ℕ, s.calls[i]? = some .closing → s.calls[j]? = some .closing → i = j) ∧
    (.closing ∈ s.calls → ∀ phase ∈ s.calls, inProgress phase = false) ∧
    (s.started = true → ∀ t, Reaches s t →
      t.started = true ∧
        ∀ j : ℕ, t.calls[j]? = some .operating → s.calls[j]? = some .operating) ∧
    (Succeeded s → ∀ t, Reaches s t → Succeeded t ∧ StaysClosed t) ∧
    (∀ (i : ℕ) (ok : Bool), s.calls[i]? = some (.closed false) →
      ∃ t, s.advance i ok = some t ∧ t.calls[i]? = some .raised ∧ .waiting ∉ t.calls ∧
        ∀ j : ℕ, s.calls[j]? = some .waiting ∨ s.calls[j]? = some .entering →
          t.calls[j]? = some .entering ∧
            ∃ u, t.advance j ok = some u ∧ u.calls[j]? = some .closing) := by
  have hvalid := reached_valid h
  refine ⟨⟨hvalid.counted, ?_⟩, ?_, ?_, ?_, ?_, ?_⟩
  · rw [hvalid.counted]
    exact Int.natCast_nonneg _
  · intro i j hi hj
    exact hvalid.closer_unique hi hj rfl rfl
  · intro hclosing phase hphase
    have hopen := hvalid.torn _ hclosing rfl
    have hzero : s.calls.countP inProgress = 0 := by
      have := hvalid.counted
      omega
    simpa using List.countP_eq_zero.mp hzero phase hphase
  · intro hs t ht
    exact reached_started ht hs
  · intro hs t ht
    have hsucceeded := reached_succeeded ht hs
    exact ⟨hsucceeded, (reached_valid (h.trans ht)).staysClosed hsucceeded⟩
  · intro i ok hi
    exact hvalid.retries hi ok

/-- A close that waits for an operation and a second close that waits for the first. -/
theorem close_is_coordinated_busy :
    Reaches .initial ⟨true, false, true, 1, [.operating, .blocked, .waiting]⟩ ∧
      ((1 : ℤ) = [Phase.operating, .blocked, .waiting].countP inProgress ∧ (0 : ℤ) ≤ 1) := by
  have hreach : Reaches .initial ⟨true, false, true, 1, [.operating, .blocked, .waiting]⟩ := by
    refine .tail (.tail (.tail (.tail (.tail (.tail .refl (.runWhileOpen _)) (.run _)) (.run _))
      (.move _ _ 0 true rfl)) (.move _ _ 1 true rfl)) (.move _ _ 2 true rfl)
  exact ⟨hreach, (close_is_coordinated _ hreach).1⟩

end FerricStore.CloseCoordinator
