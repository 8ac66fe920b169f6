import FerricStore.Dict
import Mathlib.Data.List.Sort
import Mathlib.Data.List.TakeWhile
import Mathlib.Data.Prod.Lex

/-!
# Request deadlines

One daemon thread fires the deadlines of all requests of a connection. A request that is
cancelled or scheduled again leaves its entry behind in the heap; an entry counts only while
its token is the current one of its request. Stale entries are dropped when they come to the
front, and all at once when they are many. The heap is the sorted list of its entries, since
only its first entry, its length and its members are looked at.
-/

set_option autoImplicit false

namespace FerricStore.DeadlineScheduler

structure Entry (D : Type) where
  deadline : D
  token : ℕ
  requestId : ℤ
  deriving DecidableEq

structure Fire (D : Type) where
  entry : Entry D
  now : D
  /-- The last token handed out when the entry fired. -/
  issued : ℕ

/-- `SyncDeadlineScheduler` before it is closed. `calls` and `fires` record what was asked
for and what was done; the program does not read them. -/
structure Scheduler (D : Type) where
  heap : List (Entry D)
  active : Dict ℤ ℕ
  sequence : ℕ
  thread : Bool
  calls : List (Entry D)
  fires : List (Fire D)

def Scheduler.init (D : Type) : Scheduler D := ⟨[], [], 0, false, [], []⟩

/-- What `thread.start()` does: it returns, raises before the thread has an identity, or
raises after. -/
inductive Start where
  | started
  | failed
  | interrupted
  deriving DecidableEq, Repr

section Operations

variable {D : Type} [LinearOrder D]

/-- Entries compare as the tuples of the source. -/
def Entry.key (e : Entry D) : D ×ₗ ℕ ×ₗ ℤ := toLex (e.deadline, toLex (e.token, e.requestId))

def heappush (heap : List (Entry D)) (e : Entry D) : List (Entry D) :=
  heap.orderedInsert (fun a b => a.key ≤ b.key) e

def heapify (entries : List (Entry D)) : List (Entry D) :=
  entries.insertionSort fun a b => a.key ≤ b.key

omit [LinearOrder D] in
def live (active : Dict ℤ ℕ) (e : Entry D) : Bool := Dict.get? active e.requestId = some e.token

def compactMinStale : ℕ := 64

namespace Scheduler

def compactLocked (s : Scheduler D) : Scheduler D :=
  if (s.heap.length : ℤ)-s.active.length < compactMinStale ∨
      s.heap.length ≤ s.active.length*2 then s
  else { s with heap := heapify (s.heap.filter (live s.active)) }

/-- The entry is pushed under a new token, which becomes the current one of its request. -/
def push (s : Scheduler D) (requestId : ℤ) (deadline : D) : Scheduler D :=
  { s with
    sequence := s.sequence+1
    active := Dict.set s.active requestId (s.sequence+1)
    heap := heappush s.heap ⟨deadline, s.sequence+1, requestId⟩
    calls := s.calls++[⟨deadline, s.sequence+1, requestId⟩] }

/-- Undoes the last push after a thread that could not be started. -/
def unpush (s : Scheduler D) (requestId : ℤ) : Scheduler D :=
  { s with
    active := if Dict.get? s.active requestId = some s.sequence then Dict.pop s.active requestId
      else s.active
    heap := heapify (s.heap.filter fun e => e.token ≠ s.sequence) }

def schedule (s : Scheduler D) (requestId : ℤ) (deadline : D) (start : Start) : Scheduler D :=
  let s := (s.push requestId deadline).compactLocked
  if s.thread then s
  else match start with
    | .failed => s.unpush requestId
    | .started | .interrupted => { s with thread := true }

def cancel (s : Scheduler D) (requestId : ℤ) : Scheduler D :=
  compactLocked { s with active := Dict.pop s.active requestId }

/-- One pass of `_run` under the lock, at the time `now`: the stale entries in front are
dropped, and the first entry fires if its deadline has come. -/
def expire (s : Scheduler D) (now : D) : Scheduler D :=
  match s.heap.dropWhile fun e => !live s.active e with
  | [] => { s with heap := [] }
  | e::rest =>
    if now < e.deadline then { s with heap := e::rest }
    else if live s.active e then
      { s with
        heap := rest
        active := Dict.pop s.active e.requestId
        fires := s.fires++[⟨e, now, s.sequence⟩] }
    else { s with heap := rest }

end Scheduler

inductive Op (D : Type) where
  | schedule (requestId : ℤ) (deadline : D) (start : Start)
  | cancel (requestId : ℤ)
  | expire (now : D)

def Op.apply (s : Scheduler D) : Op D → Scheduler D
  | .schedule requestId deadline start => s.schedule requestId deadline start
  | .cancel requestId => s.cancel requestId
  | .expire now => s.expire now

def runFrom (s : Scheduler D) (ops : List (Op D)) : Scheduler D := ops.foldl Op.apply s

end Operations

section Invariant

variable {D : Type} [LinearOrder D]

structure Sound (s : Scheduler D) : Prop where
  sorted : s.heap.Pairwise fun a b => a.key ≤ b.key
  keys : (s.active.map Prod.fst).Nodup
  covered : ∀ requestId token, Dict.get? s.active requestId = some token →
    ∃ deadline, ⟨deadline, token, requestId⟩ ∈ s.heap
  tokens : (s.heap.map Entry.token).Nodup
  called : ∀ e ∈ s.heap, e ∈ s.calls
  numbered : s.calls.map Entry.token = List.range' 1 s.sequence
  due : ∀ f ∈ s.fires, f.entry ∈ s.calls ∧ f.entry.deadline ≤ f.now ∧ f.issued ≤ s.sequence
  spent : ∀ f ∈ s.fires, ∀ requestId, Dict.get? s.active requestId ≠ some f.entry.token
  once : (s.fires.map fun f => f.entry.token).Nodup
  ahead : ∀ f ∈ s.fires, ∀ e ∈ s.heap, live s.active e = true → e.token ≤ f.issued →
    f.entry.key < e.key
  ordered : s.fires.Pairwise fun a b => b.entry.token ≤ a.issued → a.entry.key < b.entry.key

/-- Before its thread runs the scheduler holds nothing. -/
def Idle (s : Scheduler D) : Prop := s.thread = false → s.heap = [] ∧ s.active = []

variable {s : Scheduler D}

theorem Sound.token_le (h : Sound s) {e : Entry D} (he : e ∈ s.calls) :
    1 ≤ e.token ∧ e.token ≤ s.sequence := by
  have hmem := List.mem_map_of_mem (f := Entry.token) he
  rw [h.numbered, List.mem_range'_1] at hmem
  omega

theorem Sound.entry_eq (h : Sound s) {e e' : Entry D} (he : e ∈ s.heap) (he' : e' ∈ s.heap)
    (ht : e.token = e'.token) : e = e' :=
  List.inj_on_of_nodup_map h.tokens he he' ht

/-- A token is current for one request at most. -/
theorem Sound.request_eq (h : Sound s) {a b : ℤ} {token : ℕ}
    (ha : Dict.get? s.active a = some token) (hb : Dict.get? s.active b = some token) :
    a = b := by
  obtain ⟨d, hd⟩ := h.covered a token ha
  obtain ⟨d', hd'⟩ := h.covered b token hb
  have he := h.entry_eq hd hd' rfl
  exact congrArg Entry.requestId he

/-- Entries may be dropped and requests forgotten, as long as each request left keeps its
entry. -/
theorem Sound.narrow (h : Sound s) {t : Scheduler D} (hheap : t.heap.Sublist s.heap)
    (hkeys : (t.active.map Prod.fst).Nodup)
    (hactive : ∀ requestId token, Dict.get? t.active requestId = some token →
      Dict.get? s.active requestId = some token ∧
        ∃ deadline, ⟨deadline, token, requestId⟩ ∈ t.heap)
    (hsame : t.sequence = s.sequence ∧ t.calls = s.calls ∧ t.fires = s.fires) : Sound t := by
  obtain ⟨hsequence, hcalls, hfires⟩ := hsame
  have hlive : ∀ e : Entry D, live t.active e = true → live s.active e = true := fun e he => by
    simp only [live, decide_eq_true_eq] at he ⊢
    exact (hactive _ _ he).1
  constructor
  · exact h.sorted.sublist hheap
  · exact hkeys
  · exact fun requestId token ht => (hactive requestId token ht).2
  · exact h.tokens.sublist (hheap.map _)
  · rw [hcalls]
    exact fun e he => h.called e (hheap.subset he)
  · rw [hcalls, hsequence]
    exact h.numbered
  · rw [hcalls, hsequence, hfires]
    exact h.due
  · rw [hfires]
    exact fun f hf requestId ht => h.spent f hf requestId (hactive _ _ ht).1
  · rw [hfires]
    exact h.once
  · rw [hfires]
    exact fun f hf e he hl ht => h.ahead f hf e (hheap.subset he) (hlive e hl) ht
  · rw [hfires]
    exact h.ordered

instance : Std.Total fun a b : Entry D => a.key ≤ b.key := ⟨fun a b => le_total a.key b.key⟩

instance : IsTrans (Entry D) fun a b => a.key ≤ b.key := ⟨fun _ _ _ => le_trans⟩

theorem mem_heappush {heap : List (Entry D)} {a e : Entry D} :
    e ∈ heappush heap a ↔ e = a ∨ e ∈ heap := List.mem_orderedInsert _

theorem heapify_filter {heap : List (Entry D)} (h : heap.Pairwise fun a b => a.key ≤ b.key)
    (p : Entry D → Bool) : heapify (heap.filter p) = heap.filter p :=
  (h.filter p).insertionSort_eq

theorem push_sound (h : Sound s) (requestId : ℤ) (deadline : D) :
    Sound (s.push requestId deadline) := by
  have hnew : ∀ e ∈ s.heap, e.token ≤ s.sequence := fun e he => (h.token_le (h.called e he)).2
  constructor
  · exact h.sorted.orderedInsert _ _
  · exact Dict.nodup_set s.active requestId _ h.keys
  · intro id token ht
    simp only [Scheduler.push, Dict.get?_set] at ht
    split_ifs at ht with hid
    · cases ht
      exact ⟨deadline, mem_heappush.mpr (Or.inl (by rw [hid]))⟩
    · obtain ⟨d, hd⟩ := h.covered id token ht
      exact ⟨d, mem_heappush.mpr (Or.inr hd)⟩
  · have hperm := (List.perm_orderedInsert (fun a b : Entry D => a.key ≤ b.key)
      ⟨deadline, s.sequence+1, requestId⟩ s.heap).map Entry.token
    refine hperm.nodup_iff.mpr (List.nodup_cons.mpr ⟨fun hmem => ?_, h.tokens⟩)
    obtain ⟨e, he, hte⟩ := List.mem_map.mp hmem
    have hle := hnew e he
    dsimp only at hte
    omega
  · intro e he
    rcases mem_heappush.mp he with rfl | he
    · exact List.mem_append_right _ (List.mem_singleton_self _)
    · exact List.mem_append_left _ (h.called e he)
  · simp only [Scheduler.push, List.map_append, List.map_cons, List.map_nil, h.numbered,
      List.range'_1_concat, Nat.add_comm 1]
  · intro f hf
    obtain ⟨hcall, hdue, hissued⟩ := h.due f hf
    exact ⟨List.mem_append_left _ hcall, hdue, Nat.le_succ_of_le hissued⟩
  · intro f hf id ht
    have hle := (h.token_le (h.due f hf).1).2
    simp only [Scheduler.push, Dict.get?_set] at ht
    split_ifs at ht
    · have heq := Option.some.inj ht
      omega
    · exact h.spent f hf id ht
  · exact h.once
  · intro f hf e he hl ht
    have hissued := (h.due f hf).2.2
    rcases mem_heappush.mp he with rfl | he
    · dsimp only at ht
      omega
    · simp only [live, Scheduler.push, Dict.get?_set, decide_eq_true_eq] at hl
      split_ifs at hl
      · have heq := Option.some.inj hl
        have hle := hnew e he
        omega
      · exact h.ahead f hf e he (decide_eq_true hl) ht
  · exact h.ordered

theorem compactLocked_sound (h : Sound s) : Sound s.compactLocked := by
  unfold Scheduler.compactLocked
  split_ifs
  · exact h
  · refine h.narrow ?_ h.keys (fun requestId token ht => ⟨ht, ?_⟩) ⟨rfl, rfl, rfl⟩
    · rw [heapify_filter h.sorted]
      exact List.filter_sublist
    · obtain ⟨d, hd⟩ := h.covered requestId token ht
      refine ⟨d, ?_⟩
      rw [heapify_filter h.sorted]
      exact List.mem_filter.mpr ⟨hd, decide_eq_true ht⟩

theorem forget_sound (h : Sound s) (requestId : ℤ) :
    Sound { s with active := Dict.pop s.active requestId } := by
  refine h.narrow (List.Sublist.refl _) (Dict.nodup_pop _ _ h.keys) ?_ ⟨rfl, rfl, rfl⟩
  intro id token ht
  rw [Dict.get?_pop] at ht
  split_ifs at ht
  exact ⟨ht, h.covered id token ht⟩

theorem cancel_sound (h : Sound s) (requestId : ℤ) : Sound (s.cancel requestId) :=
  compactLocked_sound (forget_sound h requestId)

/-- Each request has one entry that counts, and nothing else counts. -/
theorem Sound.live_length (h : Sound s) :
    (s.heap.filter (live s.active)).length = s.active.length := by
  have hperm : ((s.heap.filter (live s.active)).map fun e => (e.requestId, e.token)).Perm
      s.active := by
    refine (List.perm_ext_iff_of_nodup ?_ (List.Nodup.of_map _ h.keys)).mpr fun x => ?_
    · refine List.Nodup.of_map Prod.snd ?_
      rw [List.map_map]
      exact (h.tokens.sublist (List.filter_sublist.map _))
    · constructor
      · intro hx
        obtain ⟨e, he, rfl⟩ := List.mem_map.mp hx
        exact Dict.mem_of_get? (of_decide_eq_true (List.mem_filter.mp he).2)
      · intro hx
        have hget := Dict.get?_of_mem h.keys hx
        obtain ⟨d, hd⟩ := h.covered x.1 x.2 hget
        exact List.mem_map.mpr ⟨_, List.mem_filter.mpr ⟨hd, decide_eq_true hget⟩, rfl⟩
  rw [← List.length_map, hperm.length_eq]

def Within (s : Scheduler D) : Prop :=
  s.heap.length ≤ max (s.active.length+63) (2*s.active.length)

theorem compactLocked_within (h : Sound s) : Within s.compactLocked := by
  unfold Scheduler.compactLocked
  split_ifs with hsmall
  · unfold Within
    simp only [compactMinStale] at hsmall
    omega
  · unfold Within
    dsimp only
    rw [heapify_filter h.sorted, h.live_length]
    omega

theorem Sound.one_entry (h : Sound s) {requestId : ℤ} {token : ℕ}
    (ht : Dict.get? s.active requestId = some token) :
    s.heap.countP (fun e => e.requestId = requestId ∧ e.token = token) = 1 := by
  obtain ⟨d, hd⟩ := h.covered requestId token ht
  have hcount := List.count_eq_one_of_mem (List.Nodup.of_map _ h.tokens) hd
  rw [← hcount, List.count]
  refine List.countP_congr fun e he => ?_
  simp only [decide_eq_true_eq, beq_iff_eq]
  constructor
  · rintro ⟨-, htoken⟩
    exact h.entry_eq he hd htoken
  · rintro rfl
    exact ⟨rfl, rfl⟩

/-! What compaction and the undoing of a push leave as it is. -/

@[simp] theorem compactLocked_active (s : Scheduler D) : s.compactLocked.active = s.active := by
  unfold Scheduler.compactLocked
  split_ifs <;> rfl

@[simp] theorem compactLocked_thread (s : Scheduler D) : s.compactLocked.thread = s.thread := by
  unfold Scheduler.compactLocked
  split_ifs <;> rfl

@[simp] theorem compactLocked_fires (s : Scheduler D) : s.compactLocked.fires = s.fires := by
  unfold Scheduler.compactLocked
  split_ifs <;> rfl

@[simp] theorem compactLocked_sequence (s : Scheduler D) :
    s.compactLocked.sequence = s.sequence := by
  unfold Scheduler.compactLocked
  split_ifs <;> rfl

/-- Only a scheduler that holds nothing undoes a push. -/
theorem unpush_empty (hidle : Idle s) (hthread : s.thread = false) (requestId : ℤ)
    (deadline : D) : ((s.push requestId deadline).compactLocked.unpush requestId).heap = [] ∧
      ((s.push requestId deadline).compactLocked.unpush requestId).active = [] := by
  obtain ⟨hheap, hactive⟩ := hidle hthread
  simp [Scheduler.push, Scheduler.compactLocked, Scheduler.unpush, hheap, hactive, heappush,
    heapify, Dict.set, Dict.get?, Dict.pop, compactMinStale]

theorem schedule_cases (hidle : Idle s) (requestId : ℤ) (deadline : D) (start : Start) :
    s.schedule requestId deadline start =
        { (s.push requestId deadline).compactLocked with thread := true } ∨
      s.schedule requestId deadline start =
        { (s.push requestId deadline).compactLocked with heap := [], active := [] } := by
  unfold Scheduler.schedule
  dsimp only
  split_ifs with hthread
  · left
    rw [← hthread]
  · simp only [compactLocked_thread, Bool.not_eq_true] at hthread
    cases start with
    | failed =>
      right
      obtain ⟨hheap, hactive⟩ := unpush_empty hidle hthread requestId deadline
      rw [← hheap, ← hactive]
      rfl
    | started => exact Or.inl rfl
    | interrupted => exact Or.inl rfl

theorem schedule_sound (h : Sound s) (hidle : Idle s) (requestId : ℤ) (deadline : D)
    (start : Start) : Sound (s.schedule requestId deadline start) := by
  have hpushed := compactLocked_sound (push_sound h requestId deadline)
  rcases schedule_cases hidle requestId deadline start with he | he
  · rw [he]
    exact hpushed.narrow (List.Sublist.refl _) hpushed.keys
      (fun id token ht => ⟨ht, hpushed.covered id token ht⟩) ⟨rfl, rfl, rfl⟩
  · rw [he]
    exact hpushed.narrow (List.nil_sublist _) List.nodup_nil (fun id token ht => by cases ht)
      ⟨rfl, rfl, rfl⟩

theorem schedule_within (h : Sound s) (hidle : Idle s) (requestId : ℤ) (deadline : D)
    (start : Start) : Within (s.schedule requestId deadline start) := by
  rcases schedule_cases hidle requestId deadline start with he | he
  · rw [he]
    exact compactLocked_within (push_sound h requestId deadline)
  · rw [he]
    exact Nat.zero_le _

omit [LinearOrder D] in
theorem key_inj {a b : Entry D} (h : a.key = b.key) : a.token = b.token := by
  have hpair := congrArg (fun k => (ofLex (ofLex k).2).1) h
  exact hpair

/-- The entries dropped in front do not count. -/
theorem Sound.mem_dropWhile (h : Sound s) {requestId : ℤ} {token : ℕ}
    (ht : Dict.get? s.active requestId = some token) :
    ∃ deadline, ⟨deadline, token, requestId⟩ ∈ s.heap.dropWhile fun e => !live s.active e := by
  obtain ⟨d, hd⟩ := h.covered requestId token ht
  refine ⟨d, ?_⟩
  rw [← List.takeWhile_append_dropWhile (p := fun e => !live s.active e) (l := s.heap)] at hd
  rcases List.mem_append.mp hd with hd | hd
  · have hdead := List.mem_takeWhile_imp hd
    simp [live, ht] at hdead
  · exact hd

theorem dropStale_sound (h : Sound s) :
    Sound { s with heap := s.heap.dropWhile fun e => !live s.active e } :=
  h.narrow (List.dropWhile_sublist _) h.keys (fun _ _ ht => ⟨ht, h.mem_dropWhile ht⟩)
    ⟨rfl, rfl, rfl⟩

theorem fire_sound (h : Sound s) {e : Entry D} {rest : List (Entry D)} {now : D}
    (hheap : s.heap = e::rest) (hlive : live s.active e = true) (hnow : ¬now < e.deadline) :
    Sound { s with
      heap := rest
      active := Dict.pop s.active e.requestId
      fires := s.fires++[⟨e, now, s.sequence⟩] } := by
  have hcurrent : Dict.get? s.active e.requestId = some e.token := of_decide_eq_true hlive
  have hsub : rest.Sublist s.heap := hheap ▸ List.sublist_cons_self e rest
  have he : e ∈ s.heap := hheap ▸ List.mem_cons_self
  have hsorted := h.sorted
  have htokens := h.tokens
  rw [hheap] at hsorted htokens
  have hactive : ∀ id token, Dict.get? (Dict.pop s.active e.requestId) id = some token →
      e.requestId ≠ id ∧ Dict.get? s.active id = some token := fun id token ht => by
    rw [Dict.get?_pop] at ht
    split_ifs at ht with hid
    exact ⟨hid, ht⟩
  have hstill : ∀ x : Entry D, live (Dict.pop s.active e.requestId) x = true →
      live s.active x = true := fun x hx =>
    decide_eq_true (hactive _ _ (of_decide_eq_true hx)).2
  have hspent : ∀ f ∈ s.fires, f.entry.token ≠ e.token := fun f hf heq =>
    h.spent f hf e.requestId (heq ▸ hcurrent)
  constructor
  · exact (List.pairwise_cons.mp hsorted).2
  · exact Dict.nodup_pop _ _ h.keys
  · intro id token ht
    obtain ⟨hid, ht⟩ := hactive id token ht
    obtain ⟨d, hd⟩ := h.covered id token ht
    rw [hheap] at hd
    rcases List.mem_cons.mp hd with hd | hd
    · exact absurd (congrArg Entry.requestId hd).symm hid
    · exact ⟨d, hd⟩
  · exact (List.nodup_cons.mp htokens).2
  · exact fun x hx => h.called x (hsub.subset hx)
  · exact h.numbered
  · intro f hf
    rcases List.mem_append.mp hf with hf | hf
    · exact h.due f hf
    · rw [List.mem_singleton.mp hf]
      exact ⟨h.called e he, not_lt.mp hnow, le_rfl⟩
  · intro f hf id ht
    obtain ⟨hid, ht⟩ := hactive id _ ht
    rcases List.mem_append.mp hf with hf | hf
    · exact h.spent f hf id ht
    · rw [List.mem_singleton.mp hf] at ht
      exact hid (h.request_eq hcurrent ht)
  · rw [List.map_append, List.nodup_append]
    refine ⟨h.once, List.nodup_singleton _, fun a ha b hb heq => ?_⟩
    obtain ⟨f, hf, rfl⟩ := List.mem_map.mp ha
    rw [List.map_singleton, List.mem_singleton] at hb
    exact hspent f hf (heq.trans hb)
  · intro f hf x hx hl ht
    rcases List.mem_append.mp hf with hf | hf
    · exact h.ahead f hf x (hsub.subset hx) (hstill x hl) ht
    · rw [List.mem_singleton.mp hf]
      refine lt_of_le_of_ne ((List.pairwise_cons.mp hsorted).1 x hx) fun heq => ?_
      exact (List.nodup_cons.mp htokens).1 (key_inj heq ▸ List.mem_map_of_mem hx)
  · rw [List.pairwise_append]
    refine ⟨h.ordered, List.pairwise_singleton _ _, fun a ha b hb ht => ?_⟩
    rw [List.mem_singleton.mp hb] at ht ⊢
    exact h.ahead a ha e he hlive ht

/-- What one pass of the loop can do. -/
theorem expire_cases (s : Scheduler D) (now : D) :
    s.expire now = { s with heap := s.heap.dropWhile fun e => !live s.active e } ∨
      ∃ e rest, (s.heap.dropWhile fun e => !live s.active e) = e::rest ∧
        live s.active e = true ∧ ¬now < e.deadline ∧
        s.expire now = { s with
          heap := rest
          active := Dict.pop s.active e.requestId
          fires := s.fires++[⟨e, now, s.sequence⟩] } := by
  unfold Scheduler.expire
  cases hdrop : s.heap.dropWhile fun e => !live s.active e with
  | nil => exact Or.inl rfl
  | cons e rest =>
    have hhead : live s.active e = true := by
      have hnot := List.head_dropWhile_not (fun e => !live s.active e) (w := by rw [hdrop]; simp)
      simpa [hdrop] using hnot
    dsimp only
    split_ifs with hnow
    · exact Or.inl rfl
    · exact Or.inr ⟨e, rest, rfl, hhead, hnow, rfl⟩

theorem expire_sound (h : Sound s) (now : D) : Sound (s.expire now) := by
  rcases expire_cases s now with he | ⟨e, rest, hdrop, hlive, hnow, he⟩
  · rw [he]
    exact dropStale_sound h
  · rw [he]
    exact fire_sound (dropStale_sound h) hdrop hlive hnow

theorem schedule_idle (hidle : Idle s) (requestId : ℤ) (deadline : D) (start : Start) :
    Idle (s.schedule requestId deadline start) := by
  intro hthread
  rcases schedule_cases hidle requestId deadline start with he | he
  · rw [he] at hthread
    cases hthread
  · rw [he]
    exact ⟨rfl, rfl⟩

theorem cancel_idle (hidle : Idle s) (requestId : ℤ) : Idle (s.cancel requestId) := by
  intro hthread
  simp only [Scheduler.cancel, compactLocked_thread] at hthread
  obtain ⟨hheap, hactive⟩ := hidle hthread
  simp [Scheduler.cancel, Scheduler.compactLocked, hheap, hactive, Dict.pop, compactMinStale]

theorem expire_idle (hidle : Idle s) (now : D) : Idle (s.expire now) := by
  intro hthread
  rcases expire_cases s now with he | ⟨e, rest, hdrop, -, -, he⟩
  · rw [he] at hthread ⊢
    obtain ⟨hheap, hactive⟩ := hidle hthread
    exact ⟨by simp [hheap], hactive⟩
  · rw [he] at hthread
    obtain ⟨hheap, -⟩ := hidle hthread
    rw [hheap] at hdrop
    cases hdrop

theorem apply_sound (h : Sound s) (hidle : Idle s) (op : Op D) :
    Sound (op.apply s) ∧ Idle (op.apply s) := by
  cases op with
  | schedule requestId deadline start =>
    exact ⟨schedule_sound h hidle requestId deadline start,
      schedule_idle hidle requestId deadline start⟩
  | cancel requestId => exact ⟨cancel_sound h requestId, cancel_idle hidle requestId⟩
  | expire now => exact ⟨expire_sound h now, expire_idle hidle now⟩

theorem runFrom_sound (h : Sound s) (hidle : Idle s) (ops : List (Op D)) :
    Sound (runFrom s ops) ∧ Idle (runFrom s ops) := by
  induction ops generalizing s with
  | nil => exact ⟨h, hidle⟩
  | cons op ops ih =>
    obtain ⟨hsound, hidle⟩ := apply_sound h hidle op
    exact ih hsound hidle

theorem init_sound : Sound (Scheduler.init D) ∧ Idle (Scheduler.init D) := by
  refine ⟨⟨List.Pairwise.nil, List.nodup_nil, ?_, List.nodup_nil, ?_, rfl, ?_, ?_, List.nodup_nil,
    ?_, List.Pairwise.nil⟩, fun _ => ⟨rfl, rfl⟩⟩
  all_goals simp [Scheduler.init]

/-! Tokens that are no longer current. -/

structure Dead (s : Scheduler D) (token : ℕ) : Prop where
  issued : token ≤ s.sequence
  gone : ∀ requestId, Dict.get? s.active requestId ≠ some token
  silent : ∀ f ∈ s.fires, f.entry.token ≠ token

theorem schedule_active (hidle : Idle s) {requestId id : ℤ} {deadline : D} {start : Start}
    {token : ℕ}
    (h : Dict.get? (s.schedule requestId deadline start).active id = some token) :
    requestId = id ∧ token = s.sequence+1 ∨
      requestId ≠ id ∧ Dict.get? s.active id = some token := by
  rcases schedule_cases hidle requestId deadline start with he | he
  · rw [he] at h
    simp only [compactLocked_active, Scheduler.push, Dict.get?_set] at h
    split_ifs at h with hid
    · exact Or.inl ⟨hid, (Option.some.inj h).symm⟩
    · exact Or.inr ⟨hid, h⟩
  · rw [he] at h
    cases h

theorem schedule_fixed (hidle : Idle s) (requestId : ℤ) (deadline : D) (start : Start) :
    (s.schedule requestId deadline start).sequence = s.sequence+1 ∧
      (s.schedule requestId deadline start).fires = s.fires := by
  rcases schedule_cases hidle requestId deadline start with he | he
  · rw [he]
    exact ⟨compactLocked_sequence _, compactLocked_fires _⟩
  · rw [he]
    exact ⟨compactLocked_sequence _, compactLocked_fires _⟩

theorem cancel_active {requestId id : ℤ} {token : ℕ}
    (h : Dict.get? (s.cancel requestId).active id = some token) :
    requestId ≠ id ∧ Dict.get? s.active id = some token := by
  rw [Scheduler.cancel, compactLocked_active, Dict.get?_pop] at h
  split_ifs at h with hid
  exact ⟨hid, h⟩

theorem cancel_fixed (s : Scheduler D) (requestId : ℤ) :
    (s.cancel requestId).sequence = s.sequence ∧ (s.cancel requestId).fires = s.fires :=
  ⟨compactLocked_sequence _, compactLocked_fires _⟩

theorem Dead.apply {token : ℕ} (hdead : Dead s token) (hidle : Idle s) (op : Op D) :
    Dead (op.apply s) token := by
  have hissued := hdead.issued
  cases op with
  | schedule requestId deadline start =>
    obtain ⟨hsequence, hfires⟩ := schedule_fixed hidle requestId deadline start
    refine ⟨?_, fun id ht => ?_, ?_⟩
    · rw [Op.apply, hsequence]
      omega
    · rcases schedule_active hidle ht with ⟨-, htoken⟩ | ⟨-, ht⟩
      · omega
      · exact hdead.gone id ht
    · rw [Op.apply, hfires]
      exact hdead.silent
  | cancel requestId =>
    obtain ⟨hsequence, hfires⟩ := cancel_fixed s requestId
    refine ⟨?_, fun id ht => hdead.gone id (cancel_active ht).2, ?_⟩
    · rw [Op.apply, hsequence]
      exact hissued
    · rw [Op.apply, hfires]
      exact hdead.silent
  | expire now =>
    rw [Op.apply]
    rcases expire_cases s now with he | ⟨e, rest, -, hlive, -, he⟩
    · rw [he]
      exact ⟨hissued, hdead.gone, hdead.silent⟩
    · rw [he]
      refine ⟨hissued, fun id ht => ?_, fun f hf => ?_⟩
      · rw [Dict.get?_pop] at ht
        split_ifs at ht
        exact hdead.gone id ht
      · rcases List.mem_append.mp hf with hf | hf
        · exact hdead.silent f hf
        · rw [List.mem_singleton.mp hf]
          exact fun heq => hdead.gone e.requestId (heq ▸ of_decide_eq_true hlive)

theorem Dead.runFrom {token : ℕ} (hdead : Dead s token) (h : Sound s) (hidle : Idle s)
    (ops : List (Op D)) : Dead (runFrom s ops) token := by
  induction ops generalizing s with
  | nil => exact hdead
  | cons op ops ih =>
    obtain ⟨hsound, hidle'⟩ := apply_sound h hidle op
    exact ih (hdead.apply hidle op) hsound hidle'

section Replaced

variable (h : Sound s) (hidle : Idle s) {requestId : ℤ} {token : ℕ}
  (ht : Dict.get? s.active requestId = some token)

include h ht

theorem Sound.current_le : token ≤ s.sequence := by
  obtain ⟨d, hd⟩ := h.covered requestId token ht
  exact (h.token_le (h.called _ hd)).2

theorem cancel_dead : Dead (s.cancel requestId) token := by
  obtain ⟨hsequence, hfires⟩ := cancel_fixed s requestId
  refine ⟨hsequence ▸ h.current_le ht, fun id hid => ?_, ?_⟩
  · obtain ⟨hne, hid⟩ := cancel_active hid
    exact hne (h.request_eq ht hid)
  · rw [hfires]
    exact fun f hf heq => h.spent f hf requestId (heq ▸ ht)

include hidle

theorem schedule_dead (deadline : D) (start : Start) :
    Dead (s.schedule requestId deadline start) token := by
  have hle := h.current_le ht
  obtain ⟨hsequence, hfires⟩ := schedule_fixed hidle requestId deadline start
  refine ⟨by omega, fun id hid => ?_, ?_⟩
  · rcases schedule_active hidle hid with ⟨-, htoken⟩ | ⟨hne, hid⟩
    · omega
    · exact hne (h.request_eq ht hid)
  · rw [hfires]
    exact fun f hf heq => h.spent f hf requestId (heq ▸ ht)

end Replaced

theorem fires_first (h : Sound s) {now : D} {f : Fire D}
    (hf : (s.expire now).fires = s.fires++[f]) :
    ∀ e ∈ s.heap, live s.active e = true → f.entry.key ≤ e.key := by
  intro e he hlive
  rcases expire_cases s now with hx | ⟨first, rest, hdrop, hfirst, -, hx⟩
  · rw [hx] at hf
    simp at hf
  · rw [hx] at hf
    obtain ⟨rfl⟩ := List.singleton_inj.mp (List.append_cancel_left hf)
    have hsorted := (dropStale_sound h).sorted
    obtain ⟨d, hd⟩ := h.mem_dropWhile (of_decide_eq_true hlive)
    have hmem := (List.dropWhile_sublist fun e => !live s.active e).subset hd
    rw [← h.entry_eq hmem he rfl]
    dsimp only at hsorted
    rw [hdrop] at hsorted hd
    rcases List.mem_cons.mp hd with hd | hd
    · rw [hd]
    · exact (List.pairwise_cons.mp hsorted).1 _ hd

end Invariant

end FerricStore.DeadlineScheduler
