import FerricStore.Dict
import FerricStore.Transitions

/-!
# Bounded fan-out

Items are submitted to an executor in their order, a bounded number at a time, and the
completed futures are swept in the order of their items. The executor decides which
futures are complete whenever the loop waits.
-/

set_option autoImplicit false

namespace FerricStore.FanOut

variable {ι ρ ε : Type}

/-- The arguments of `run_sync_fanout_on_executor`; the limit was validated. -/
structure Fanout (ι ρ ε : Type) where
  items : List ι
  operation : ι → Except ε ρ
  maxConcurrency : ℕ
  positive : 0 < maxConcurrency
  stopOnError : Bool

/-- Where the caller stands: in one of the loops that submit, before `wait`, in the sweep
of the completed futures, or behind the loop. -/
inductive Phase where
  | filling (room : ℕ)
  | waiting
  | sweeping (completed : List ℕ)
  | finished
  deriving DecidableEq, Repr

structure State (ρ ε : Type) where
  phase : Phase
  next : ℕ
  pending : List ℕ
  results : List (Option ρ)
  errors : Dict ℕ ε
  submitted : List ℕ

variable (f : Fanout ι ρ ε)

def pendingLimit : ℕ := min f.maxConcurrency f.items.length

/-- Before the first submission; no items are answered at once. -/
def start : State ρ ε :=
  ⟨if f.items = [] then .finished else .filling (pendingLimit f), 0, [],
    List.replicate f.items.length none, [], []⟩

def submit (s : State ρ ε) (room : ℕ) : State ρ ε :=
  ⟨.filling room, s.next+1, s.pending++[s.next], s.results, s.errors, s.submitted++[s.next]⟩

/-- The result or the error of a completed future. -/
def observe (s : State ρ ε) (index : ℕ) (item : ι) (completed : List ℕ) : State ρ ε :=
  let s := { s with phase := .sweeping completed, pending := s.pending.erase index }
  match f.operation item with
  | .ok r => { s with results := s.results.set index (some r) }
  | .error e => { s with errors := Dict.set s.errors index e }

/-- One step of the caller. The completed futures are some of the pending ones, sorted by
their index. -/
inductive Step : State ρ ε → State ρ ε → Prop where
  | submit {s : State ρ ε} {room : ℕ} (h : s.phase = .filling (room+1))
      (hn : s.next < f.items.length) : Step s (submit s room)
  | exhausted {s : State ρ ε} {room : ℕ} (h : s.phase = .filling (room+1))
      (hn : f.items.length ≤ s.next) : Step s { s with phase := .waiting }
  | full {s : State ρ ε} (h : s.phase = .filling 0) : Step s { s with phase := .waiting }
  | wait {s : State ρ ε} {completed : List ℕ} (h : s.phase = .waiting)
      (hc : completed ≠ []) (hs : completed.Pairwise (· < ·))
      (hp : ∀ i ∈ completed, i ∈ s.pending) : Step s { s with phase := .sweeping completed }
  | observe {s : State ρ ε} {index : ℕ} {completed : List ℕ} {item : ι}
      (h : s.phase = .sweeping (index::completed)) (hi : f.items[index]? = some item) :
      Step s (observe f s index item completed)
  | stopping {s : State ρ ε} (h : s.phase = .sweeping []) (he : s.errors ≠ [])
      (hstop : f.stopOnError = true) : Step s { s with phase := .waiting }
  | refill {s : State ρ ε} (h : s.phase = .sweeping [])
      (he : s.errors = [] ∨ f.stopOnError = false) :
      Step s { s with phase := .filling (pendingLimit f-s.pending.length) }
  | finish {s : State ρ ε} (h : s.phase = .waiting) (hp : s.pending = []) :
      Step s { s with phase := .finished }

/-- What the call returns or raises: `errors[min(errors)]`, or the results. -/
def outcome (s : State ρ ε) : Except ε (List (Option ρ)) :=
  match (s.errors.map Prod.fst).min? with
  | none => .ok s.results
  | some index => match Dict.get? s.errors index with
    | some e => .error e
    | none => .ok s.results

/-- The errors are recorded for the swept items that failed, the results for the others. -/
def Recorded (s : State ρ ε) (index : ℕ) (item : ι) : Prop :=
  match f.operation item with
  | .ok r => s.results[index]? = some (some r) ∧ Dict.get? s.errors index = none
  | .error e => Dict.get? s.errors index = some e

/-- How much room the phase leaves, and what it has seen. -/
def PhaseOk (s : State ρ ε) : Prop :=
  match s.phase with
  | .filling room => s.pending.length+room = pendingLimit f ∧
      (f.stopOnError = true → s.errors = [])
  | .waiting => s.pending.length ≤ pendingLimit f ∧
      (s.errors = [] ∨ f.stopOnError = false →
        s.next = f.items.length ∨ s.pending.length = pendingLimit f)
  | .sweeping completed => s.pending.length ≤ pendingLimit f ∧ completed.Pairwise (· < ·) ∧
      ∀ i ∈ completed, i ∈ s.pending
  | .finished => s.pending = [] ∧
      (s.errors = [] ∨ f.stopOnError = false → s.next = f.items.length)

structure Inv (s : State ρ ε) : Prop where
  next : s.next ≤ f.items.length
  submitted : s.submitted = List.range s.next
  nodup : s.pending.Nodup
  pending : ∀ i ∈ s.pending, i < s.next
  length : s.results.length = f.items.length
  recorded : ∀ i item, f.items[i]? = some item → i < s.next → i ∉ s.pending → Recorded f s i item
  clear : ∀ i, s.next ≤ i ∨ i ∈ s.pending → Dict.get? s.errors i = none
  phase : PhaseOk f s

/-!
## The invariant of a bounded fan-out

What was submitted is always an initial part of the items. A submitted item is pending, or
its result or error is recorded. Each kind of step keeps this, whatever futures the
executor completes, and the caller is never stuck.
-/

open Transitions

variable {ι ρ ε : Type} {f : Fanout ι ρ ε} {s t : State ρ ε}

theorem start_inv (f : Fanout ι ρ ε) : Inv f (start f) where
  next := Nat.zero_le _
  submitted := rfl
  nodup := List.nodup_nil
  pending := nofun
  length := List.length_replicate
  recorded := fun _ _ _ h => absurd h (Nat.not_lt_zero _)
  clear := fun _ _ => rfl
  phase := by
    by_cases h : f.items = []
    · simp only [PhaseOk, start, if_pos h]
      exact ⟨trivial, fun _ => by rw [h]; rfl⟩
    · simp only [PhaseOk, start, if_neg h]
      exact ⟨Nat.zero_add _, fun _ => trivial⟩

/-- A step that changes the phase alone keeps the rest of the invariant. -/
theorem Inv.turn (h : Inv f s) {phase : Phase} (hp : PhaseOk f { s with phase := phase }) :
    Inv f { s with phase := phase } :=
  ⟨h.next, h.submitted, h.nodup, h.pending, h.length, h.recorded, h.clear, hp⟩

theorem phase_of {phase : Phase} (h : Inv f s) (hp : s.phase = phase) :
    PhaseOk f { s with phase := phase } := by
  have hphase := h.phase
  subst hp
  exact hphase

theorem submit_inv (h : Inv f s) {room : ℕ} (hp : s.phase = .filling (room+1))
    (hn : s.next < f.items.length) : Inv f (submit s room) where
  next := hn
  submitted := by
    simp only [submit, h.submitted, List.range_succ]
  nodup := by
    have hfresh : s.next ∉ s.pending := fun hmem => absurd (h.pending _ hmem) (lt_irrefl _)
    exact List.nodup_append.mpr ⟨h.nodup, List.nodup_singleton _, by
      rintro a ha b hb rfl
      exact hfresh (List.mem_singleton.mp hb ▸ ha)⟩
  pending := by
    intro i hi
    rcases List.mem_append.mp hi with hi | hi
    · exact Nat.lt_succ_of_lt (h.pending i hi)
    · rw [List.mem_singleton.mp hi]
      exact Nat.lt_succ_self _
  length := h.length
  recorded := by
    intro i item hitem hi hmem
    simp only [submit, List.mem_append, List.mem_singleton, not_or] at hi hmem
    exact h.recorded i item hitem (by omega) hmem.1
  clear := by
    intro i hi
    simp only [submit, List.mem_append, List.mem_singleton] at hi
    refine h.clear i ?_
    rcases hi with hi | hi | rfl
    · exact .inl (by omega)
    · exact .inr hi
    · exact .inl le_rfl
  phase := by
    obtain ⟨hroom, hstop⟩ := phase_of h hp
    refine ⟨?_, hstop⟩
    simp only [submit, List.length_append, List.length_singleton] at hroom ⊢
    omega

theorem observe_fields (f : Fanout ι ρ ε) (s : State ρ ε) (index : ℕ) (item : ι)
    (completed : List ℕ) :
    (observe f s index item completed).phase = .sweeping completed ∧
      (observe f s index item completed).next = s.next ∧
      (observe f s index item completed).pending = s.pending.erase index ∧
      (observe f s index item completed).submitted = s.submitted := by
  unfold observe
  cases f.operation item <;> exact ⟨rfl, rfl, rfl, rfl⟩

theorem observe_length (f : Fanout ι ρ ε) (s : State ρ ε) (index : ℕ) (item : ι)
    (completed : List ℕ) :
    (observe f s index item completed).results.length = s.results.length := by
  unfold observe
  cases f.operation item with
  | ok r => exact List.length_set
  | error e => rfl

theorem observe_other (f : Fanout ι ρ ε) (s : State ρ ε) {index i : ℕ} (item : ι)
    (completed : List ℕ) (h : index ≠ i) :
    (observe f s index item completed).results[i]? = s.results[i]? ∧
      Dict.get? (observe f s index item completed).errors i = Dict.get? s.errors i := by
  unfold observe
  cases f.operation item with
  | ok r => exact ⟨List.getElem?_set_ne h, rfl⟩
  | error e => exact ⟨rfl, Dict.get?_set_ne _ _ _ _ h⟩

theorem observe_recorded (hs : s.results.length = f.items.length) {index : ℕ} {item : ι}
    {completed : List ℕ} (hi : f.items[index]? = some item)
    (hc : Dict.get? s.errors index = none) :
    Recorded f (observe f s index item completed) index item := by
  have hlt := (List.getElem?_eq_some_iff.mp hi).1
  unfold Recorded observe
  cases hop : f.operation item with
  | ok r => exact ⟨List.getElem?_set_self (by rw [hs]; exact hlt), hc⟩
  | error e => exact (Dict.get?_set s.errors index index e).trans (if_pos rfl)

theorem observe_inv (h : Inv f s) {index : ℕ} {completed : List ℕ} {item : ι}
    (hp : s.phase = .sweeping (index::completed)) (hi : f.items[index]? = some item) :
    Inv f (observe f s index item completed) := by
  obtain ⟨hphase, hnext, hpending, hsubmitted⟩ := observe_fields f s index item completed
  obtain ⟨hlimit, hsorted, hmem⟩ := phase_of h hp
  have hindex : index ∈ s.pending := hmem index List.mem_cons_self
  constructor
  · rw [hnext]
    exact h.next
  · rw [hsubmitted, hnext]
    exact h.submitted
  · rw [hpending]
    exact h.nodup.erase index
  · rw [hpending, hnext]
    exact fun i hi => h.pending i (List.mem_of_mem_erase hi)
  · rw [observe_length]
    exact h.length
  · intro i other hother hlt hout
    rw [hnext] at hlt
    rw [hpending] at hout
    by_cases hii : index = i
    · subst hii
      obtain rfl : item = other := Option.some.inj (hi.symm.trans hother)
      exact observe_recorded h.length hi (h.clear index (.inr hindex))
    · have hprev := h.recorded i other hother hlt fun hin =>
        hout ((List.mem_erase_of_ne (Ne.symm hii)).mpr hin)
      obtain ⟨hresults, herrors⟩ := observe_other f s item completed hii
      unfold Recorded at hprev ⊢
      rw [hresults, herrors]
      exact hprev
  · intro i hclear
    rw [hnext, hpending] at hclear
    have hii : index ≠ i := by
      rintro rfl
      rcases hclear with hge | hin
      · exact absurd (h.pending index hindex) (not_lt.mpr hge)
      · exact absurd hin h.nodup.not_mem_erase
    rw [(observe_other f s item completed hii).2]
    exact h.clear i (hclear.imp_right List.mem_of_mem_erase)
  · simp only [PhaseOk, hphase, hpending]
    rw [List.pairwise_cons] at hsorted
    refine ⟨(List.length_erase_le).trans hlimit, hsorted.2, fun i hi' => ?_⟩
    have hii : i ≠ index := ne_of_gt (hsorted.1 i hi')
    exact (List.mem_erase_of_ne hii).mpr (hmem i (List.mem_cons_of_mem _ hi'))

theorem step_inv (h : Inv f s) (hst : Step f s t) : Inv f t := by
  cases hst with
  | submit hp hn => exact submit_inv h hp hn
  | exhausted hp hn =>
    obtain ⟨hroom, -⟩ := phase_of h hp
    simp only at hroom
    exact h.turn ⟨by simp only; omega, fun _ => .inl (le_antisymm h.next hn)⟩
  | full hp =>
    obtain ⟨hroom, -⟩ := phase_of h hp
    simp only at hroom
    exact h.turn ⟨by simp only; omega, fun _ => .inr (by simp only; omega)⟩
  | wait hp hc hs hm =>
    obtain ⟨hlimit, -⟩ := phase_of h hp
    exact h.turn ⟨hlimit, hs, hm⟩
  | observe hp hi => exact observe_inv h hp hi
  | stopping hp he hstop =>
    obtain ⟨hlimit, -⟩ := phase_of h hp
    refine h.turn ⟨hlimit, fun hor => ?_⟩
    rcases hor with hno | hno
    · exact absurd hno he
    · rw [hstop] at hno
      cases hno
  | refill hp he =>
    obtain ⟨hlimit, -⟩ := phase_of h hp
    simp only at hlimit
    refine h.turn ⟨by simp only; omega, fun hstop => ?_⟩
    rcases he with he | he
    · exact he
    · rw [hstop] at he
      cases he
  | finish hp hempty =>
    obtain ⟨-, hwait⟩ := phase_of h hp
    refine h.turn ⟨hempty, fun hor => ?_⟩
    rcases hwait hor with hnext | hfull
    · exact hnext
    · have hpos := f.positive
      have hn := h.next
      simp only [hempty, List.length_nil, pendingLimit] at hfull ⊢
      omega

theorem reached_inv (h : Relation.ReflTransGen (Step f) (start f) s) : Inv f s :=
  invariant (I := Inv f) (fun _ _ hs hst => step_inv hs hst) (start_inv f) h

theorem pending_bounded (h : Inv f s) : s.pending.length ≤ pendingLimit f := by
  have hphase := h.phase
  unfold PhaseOk at hphase
  split at hphase
  · omega
  · exact hphase.1
  · exact hphase.1
  · rw [hphase.1]
    exact Nat.zero_le _

/-- Items are submitted only while no error was seen, when an error stops the call. -/
theorem submits_before_error (h : Inv f s) (hst : Step f s t) (hne : t.submitted ≠ s.submitted)
    (hstop : f.stopOnError = true) : s.errors = [] := by
  cases hst with
  | submit hp _ => exact (phase_of h hp).2 hstop
  | @observe index completed item hp _ =>
    exact absurd (observe_fields f s index item completed).2.2.2 hne
  | _ => exact absurd rfl hne

theorem progress (h : Inv f s) (hp : s.phase ≠ .finished) : ∃ t, Step f s t := by
  cases hphase : s.phase with
  | filling room =>
    cases room with
    | zero => exact ⟨_, .full hphase⟩
    | succ room =>
      by_cases hn : s.next < f.items.length
      · exact ⟨_, .submit hphase hn⟩
      · exact ⟨_, .exhausted hphase (not_lt.mp hn)⟩
  | waiting =>
    cases hpending : s.pending with
    | nil => exact ⟨_, .finish hphase hpending⟩
    | cons i rest =>
      exact ⟨_, .wait hphase (List.cons_ne_nil i []) (List.pairwise_singleton _ i)
        fun j hj => by rw [hpending, List.mem_singleton.mp hj]; exact List.mem_cons_self⟩
  | sweeping completed =>
    cases completed with
    | nil =>
      by_cases he : s.errors = []
      · exact ⟨_, .refill hphase (.inl he)⟩
      · cases hstop : f.stopOnError with
        | true => exact ⟨_, .stopping hphase he hstop⟩
        | false => exact ⟨_, .refill hphase (.inr hstop)⟩
    | cons index completed =>
      have hmem := (phase_of h hphase).2.2 index List.mem_cons_self
      have hlt := (h.pending index hmem).trans_le h.next
      exact ⟨_, .observe hphase (List.getElem?_eq_getElem hlt)⟩
  | finished => exact absurd hphase hp

end FerricStore.FanOut
