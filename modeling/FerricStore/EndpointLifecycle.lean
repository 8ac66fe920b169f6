import FerricStore.Dict
import FerricStore.Transitions

/-!
# The lifecycle of endpoint adapters

The adapters of the current topology are active, those it dropped are retired
until their work is done. A lease counts against the identity of its adapter, a
reservation against the endpoint whose adapter is being created. An adapter that
is handed out for cleanup leaves the tables. Whether an adapter has work of its
own is asked of the adapter, and may change from one call to the next.
-/

set_option autoImplicit false

namespace FerricStore.EndpointLifecycle

structure EndpointAdapterLease (κ α : Type) where
  key : κ
  adapter : α
  generation : ℕ
  deriving DecidableEq, Repr

/-- The tables of `EndpointAdapterLifecycle`; adapters are compared by identity. -/
structure Lifecycle (κ α : Type) where
  active : Dict κ α := []
  retired : Dict κ (α × ℕ) := []
  generation : ℕ := 0
  idleCallbacks : List κ := []
  leases : Dict α ℕ := []
  reservations : Dict κ ℕ := []

section Operations

variable {κ α : Type} [DecidableEq κ] [DecidableEq α]

def count {γ : Type} [DecidableEq γ] (counts : Dict γ ℕ) (key : γ) : ℕ :=
  (Dict.get? counts key).getD 0

/-- `_decrement`. -/
def decrement {γ : Type} [DecidableEq γ] (counts : Dict γ ℕ) (key : γ) : Dict γ ℕ :=
  if count counts key ≤ 1 then Dict.pop counts key
  else Dict.set counts key (count counts key-1)

def increment {γ : Type} [DecidableEq γ] (counts : Dict γ ℕ) (key : γ) : Dict γ ℕ :=
  Dict.set counts key (count counts key+1)

namespace Lifecycle

def removeIdleListener (s : Lifecycle κ α) (key : κ) : Lifecycle κ α :=
  { s with idleCallbacks := s.idleCallbacks.filter fun k => k ≠ key }

/-- `_add_idle_listener`; `listens` tells whether the adapter takes a listener. -/
def addIdleListener (listens : α → Bool) (s : Lifecycle κ α) (key : κ) (adapter : α) :
    Lifecycle κ α :=
  if listens adapter then
    { s with idleCallbacks := key::s.idleCallbacks.filter fun k => k ≠ key }
  else s

/-- `get` revives a retired adapter. -/
def get (s : Lifecycle κ α) (key : κ) : Option α × Lifecycle κ α :=
  match Dict.get? s.active key with
  | some adapter => (some adapter, s)
  | none => match Dict.get? s.retired key with
    | none => (none, s)
    | some (adapter, _) =>
      let s := removeIdleListener { s with retired := Dict.pop s.retired key } key
      (some adapter, { s with active := Dict.set s.active key adapter })

def put (s : Lifecycle κ α) (key : κ) (adapter : α) : Lifecycle κ α :=
  { s with active := Dict.set s.active key adapter }

def reserve (s : Lifecycle κ α) (key : κ) : Lifecycle κ α :=
  { s with reservations := increment s.reservations key }

def adapterIsIdle (isIdle : α → Bool) (s : Lifecycle κ α) (key : κ) (adapter : α) : Bool :=
  count s.leases adapter = 0 && (count s.reservations key = 0 && isIdle adapter)

def owns (s : Lifecycle κ α) (key : κ) (adapter : α) : Bool :=
  Dict.get? s.active key = some adapter ||
    (Dict.get? s.retired key).any fun item => item.1 = adapter

def claimIdle (isIdle : α → Bool) (s : Lifecycle κ α) (key : κ) (adapter : α) :
    Option α × Lifecycle κ α :=
  if ((Dict.get? s.retired key).any fun item => item.1 = adapter) &&
      adapterIsIdle isIdle s key adapter then
    (some adapter, removeIdleListener { s with retired := Dict.pop s.retired key } key)
  else (none, s)

def claimReadyRetired (isIdle : α → Bool) (s : Lifecycle κ α) (key : κ) :
    Option α × Lifecycle κ α :=
  match Dict.get? s.retired key with
  | none => (none, s)
  | some (adapter, _) => claimIdle isIdle s key adapter

def cancelReservation (isIdle : α → Bool) (s : Lifecycle κ α) (key : κ) :
    Option α × Lifecycle κ α :=
  claimReadyRetired isIdle { s with reservations := decrement s.reservations key } key

def lease (s : Lifecycle κ α) (key : κ) (adapter : α) :
    Option (EndpointAdapterLease κ α) × Lifecycle κ α :=
  (some ⟨key, adapter, s.generation⟩, { s with leases := increment s.leases adapter })

/-- `acquire`; without an adapter the one of the key is meant. -/
def acquire (s : Lifecycle κ α) (key : κ) :
    Option α → Option (EndpointAdapterLease κ α) × Lifecycle κ α
  | none => match get s key with
    | (none, s) => (none, s)
    | (some adapter, s) => lease s key adapter
  | some adapter => if owns s key adapter then lease s key adapter else (none, s)

def acquireReserved (s : Lifecycle κ α) (key : κ) (adapter : α) :
    Option (EndpointAdapterLease κ α) × Lifecycle κ α :=
  acquire { s with reservations := decrement s.reservations key } key (some adapter)

def release (isIdle : α → Bool) (s : Lifecycle κ α) (lease : EndpointAdapterLease κ α) :
    Option α × Lifecycle κ α :=
  claimReadyRetired isIdle { s with leases := decrement s.leases lease.adapter } lease.key

/-- The adapters of `install` that are ready, with the tables so far. -/
def retire (liveKeys : List κ) (isIdle listens : α → Bool) (acc : List α × Lifecycle κ α)
    (key : κ) : List α × Lifecycle κ α :=
  if key ∈ liveKeys then acc
  else match Dict.get? acc.2.active key with
    | none => acc
    | some adapter =>
      let s := { acc.2 with active := Dict.pop acc.2.active key }
      if adapterIsIdle isIdle s key adapter then (acc.1++[adapter], s)
      else (acc.1, addIdleListener listens
        { s with retired := Dict.set s.retired key (adapter, s.generation) } key adapter)

/-- One entry of the final scan of `install`, which asks twice. -/
def sweep (scanIdle claimedIdle : α → Bool) (acc : List α × Lifecycle κ α)
    (entry : κ × α × ℕ) : List α × Lifecycle κ α :=
  if adapterIsIdle scanIdle acc.2 entry.1 entry.2.1 then
    match claimIdle claimedIdle acc.2 entry.1 entry.2.1 with
    | (some adapter, s) => (acc.1++[adapter], s)
    | (none, s) => (acc.1, s)
  else acc

def install (liveKeys : List κ) (isIdle scanIdle claimedIdle listens : α → Bool)
    (s : Lifecycle κ α) : List α × Lifecycle κ α :=
  let s := { s with generation := s.generation+1 }
  let s := liveKeys.foldl (fun s key => (get s key).2) s
  let acc := (s.active.map Prod.fst).foldl (retire liveKeys isIdle listens) ([], s)
  acc.2.retired.foldl (sweep scanIdle claimedIdle) acc

end Lifecycle
end Operations

/-- A call on the lifecycle, with the answers the adapters give during it. -/
inductive Event (κ α : Type) where
  | reserve (key : κ)
  | cancelReservation (key : κ) (isIdle : α → Bool)
  | get (key : κ)
  | put (key : κ) (adapter : α)
  | acquire (key : κ) (adapter : Option α)
  | acquireReserved (key : κ) (adapter : α)
  | release (lease : EndpointAdapterLease κ α) (isIdle : α → Bool)
  | install (liveKeys : List κ) (isIdle scanIdle claimedIdle listens : α → Bool)
  | claimIdle (key : κ) (adapter : α) (isIdle : α → Bool)

/-- The tables together with what the callers hold: the leases not yet released, the
reservations not yet used, and the adapters put and handed out so far. -/
structure World (κ α : Type) where
  life : Lifecycle κ α := {}
  outstanding : List (EndpointAdapterLease κ α) := []
  reserved : κ → ℕ := fun _ => 0
  everPut : List α := []
  handedOut : List α := []

section Runs

variable {κ α : Type} [DecidableEq κ] [DecidableEq α]

/-- The adapters an event hands out for cleanup, the lease it grants, and the tables
after it. -/
def perform (s : Lifecycle κ α) :
    Event κ α → List α × Option (EndpointAdapterLease κ α) × Lifecycle κ α
  | .reserve key => ([], none, s.reserve key)
  | .cancelReservation key isIdle =>
    let r := s.cancelReservation isIdle key
    (r.1.toList, none, r.2)
  | .get key => ([], none, (s.get key).2)
  | .put key adapter => ([], none, s.put key adapter)
  | .acquire key adapter =>
    let r := s.acquire key adapter
    ([], r.1, r.2)
  | .acquireReserved key adapter =>
    let r := s.acquireReserved key adapter
    ([], r.1, r.2)
  | .release lease isIdle =>
    let r := s.release isIdle lease
    (r.1.toList, none, r.2)
  | .install liveKeys isIdle scanIdle claimedIdle listens =>
    let r := s.install liveKeys isIdle scanIdle claimedIdle listens
    (r.1, none, r.2)
  | .claimIdle key adapter isIdle =>
    let r := s.claimIdle isIdle key adapter
    (r.1.toList, none, r.2)

/-- How an event changes the number of reservations of a key. -/
def reservedAfter (reserved : κ → ℕ) : Event κ α → κ → ℕ
  | .reserve key => Function.update reserved key (reserved key+1)
  | .cancelReservation key _ => Function.update reserved key (reserved key-1)
  | .acquireReserved key _ => Function.update reserved key (reserved key-1)
  | _ => reserved

def outstandingAfter (outstanding : List (EndpointAdapterLease κ α))
    (granted : Option (EndpointAdapterLease κ α)) :
    Event κ α → List (EndpointAdapterLease κ α)
  | .release lease _ => outstanding.erase lease
  | _ => granted.toList++outstanding

def everPutAfter (everPut : List α) : Event κ α → List α
  | .put _ adapter => adapter::everPut
  | _ => everPut

def step (w : World κ α) (e : Event κ α) : World κ α :=
  let r := perform w.life e
  { life := r.2.2
    outstanding := outstandingAfter w.outstanding r.2.1 e
    reserved := reservedAfter w.reserved e
    everPut := everPutAfter w.everPut e
    handedOut := w.handedOut++r.1 }

/-- What the callers ensure: an adapter is put once, for a key that has none, and a
lease is released once. -/
def Legal (w : World κ α) : Event κ α → Prop
  | .put key adapter =>
    Dict.get? w.life.active key = none ∧ Dict.get? w.life.retired key = none ∧
      adapter ∉ w.everPut
  | .release lease _ => lease ∈ w.outstanding
  | _ => True

end Runs

/-!
## What an operation does to the adapter tables

Every operation moves adapters between active and retired under their own key,
and removes the adapters it hands out; each of these had no lease, no reservation
on its key and no work of its own.
-/

variable {κ α : Type} [DecidableEq κ]

/-- The adapter stands in one of the tables under the key. -/
def Held (s : Lifecycle κ α) (key : κ) (adapter : α) : Prop :=
  Dict.get? s.active key = some adapter ∨ ∃ g, Dict.get? s.retired key = some (adapter, g)

/-- No key is in both tables, and no adapter is under two keys. -/
structure Sound (s : Lifecycle κ α) : Prop where
  apart : ∀ key, Dict.get? s.active key ≠ none → Dict.get? s.retired key = none
  single : ∀ key other adapter, Held s key adapter → Held s other adapter → key = other

theorem Sound.active_none {s : Lifecycle κ α} (hs : Sound s) {key : κ} {item : α × ℕ}
    (h : Dict.get? s.retired key = some item) : Dict.get? s.active key = none := by
  by_contra hne
  rw [hs.apart key hne] at h
  cases h

theorem held_congr {s t : Lifecycle κ α} (ha : t.active = s.active)
    (hr : t.retired = s.retired) (key : κ) (adapter : α) :
    Held t key adapter ↔ Held s key adapter := by
  rw [Held, Held, ha, hr]

theorem sound_congr {s t : Lifecycle κ α} (ha : t.active = s.active)
    (hr : t.retired = s.retired) (hs : Sound s) : Sound t := by
  refine ⟨?_, ?_⟩
  · rw [ha, hr]
    exact hs.apart
  · intro key other adapter hk ho
    exact hs.single key other adapter ((held_congr ha hr key adapter).mp hk)
      ((held_congr ha hr other adapter).mp ho)

theorem get_held {s t : Lifecycle κ α} {key : κ} {adapter : α}
    (h : s.get key = (some adapter, t)) : Held t key adapter := by
  unfold Lifecycle.get at h
  split at h
  · next a ha =>
    cases h
    exact .inl ha
  · split at h
    · cases h
    · cases h
      exact .inl (by simp [Dict.get?_set])

variable [DecidableEq α]

/-- The tables after an operation that hands out the adapters `out`. -/
structure Change (idle : α → Prop) (s t : Lifecycle κ α) (out : List α) : Prop where
  apart : ∀ key, Dict.get? t.active key ≠ none → Dict.get? t.retired key = none
  held : ∀ key adapter, Held t key adapter ↔ Held s key adapter ∧ adapter ∉ out
  ready : ∀ adapter ∈ out, idle adapter ∧ ∃ key, Held s key adapter ∧
    count s.leases adapter = 0 ∧ count s.reservations key = 0
  nodup : out.Nodup
  leases : t.leases = s.leases
  reservations : t.reservations = s.reservations

theorem Change.sound {idle : α → Prop} {s t : Lifecycle κ α} {out : List α}
    (h : Change idle s t out) (hs : Sound s) : Sound t := by
  refine ⟨h.apart, ?_⟩
  intro key other adapter hk ho
  exact hs.single key other adapter ((h.held key adapter).mp hk).1
    ((h.held other adapter).mp ho).1

theorem Change.refl (idle : α → Prop) {s : Lifecycle κ α} (hs : Sound s) :
    Change idle s s [] :=
  ⟨hs.apart, by simp, by simp, List.nodup_nil, rfl, rfl⟩

theorem Change.trans {idle : α → Prop} {s t u : Lifecycle κ α} {out others : List α}
    (h : Change idle s t out) (k : Change idle t u others) :
    Change idle s u (out++others) := by
  refine ⟨k.apart, ?_, ?_, ?_, k.leases.trans h.leases,
    k.reservations.trans h.reservations⟩
  · intro key adapter
    rw [k.held, h.held, List.mem_append, not_or, and_assoc]
  · intro adapter ha
    rcases List.mem_append.mp ha with ha | ha
    · exact h.ready adapter ha
    · obtain ⟨hidle, key, hheld, hl, hr⟩ := k.ready adapter ha
      rw [h.leases] at hl
      rw [h.reservations] at hr
      exact ⟨hidle, key, ((h.held key adapter).mp hheld).1, hl, hr⟩
  · refine List.nodup_append.mpr ⟨h.nodup, k.nodup, ?_⟩
    rintro a ha b hb rfl
    obtain ⟨-, key, hheld, -⟩ := k.ready a hb
    exact ((h.held key a).mp hheld).2 ha

theorem Change.mono {idle other : α → Prop} {s t : Lifecycle κ α} {out : List α}
    (h : Change idle s t out) (hi : ∀ a, idle a → other a) : Change other s t out :=
  ⟨h.apart, h.held, fun a ha => ⟨hi a (h.ready a ha).1, (h.ready a ha).2⟩, h.nodup, h.leases,
    h.reservations⟩

/-- A loop whose steps are changes is a change. -/
theorem Change.fold {γ : Type} {idle : α → Prop}
    {f : List α × Lifecycle κ α → γ → List α × Lifecycle κ α}
    (hf : ∀ acc x, Sound acc.2 → ∃ out, (f acc x).1 = acc.1++out ∧
      Change idle acc.2 (f acc x).2 out)
    (xs : List γ) (acc : List α × Lifecycle κ α) (hs : Sound acc.2) :
    ∃ out, (xs.foldl f acc).1 = acc.1++out ∧ Change idle acc.2 (xs.foldl f acc).2 out := by
  induction xs generalizing acc with
  | nil => exact ⟨[], by simp, Change.refl idle hs⟩
  | cons x xs ih =>
    obtain ⟨out, hout, hchange⟩ := hf acc x hs
    obtain ⟨others, hothers, hrest⟩ := ih (f acc x) (hchange.sound hs)
    refine ⟨out++others, ?_, hchange.trans hrest⟩
    rw [List.foldl_cons, hothers, hout, List.append_assoc]

theorem get_change (idle : α → Prop) {s : Lifecycle κ α} (hs : Sound s) (key : κ) :
    Change idle s (s.get key).2 [] := by
  unfold Lifecycle.get
  cases ha : Dict.get? s.active key with
  | some adapter => exact Change.refl idle hs
  | none =>
    cases hr : Dict.get? s.retired key with
    | none => exact Change.refl idle hs
    | some item =>
      obtain ⟨adapter, g⟩ := item
      refine ⟨?_, ?_, by simp, List.nodup_nil, rfl, rfl⟩
      · intro k hk
        simp only [Lifecycle.removeIdleListener, Dict.get?_set, Dict.get?_pop] at hk ⊢
        split at hk
        · next he => rw [if_pos he]
        · next he =>
          rw [if_neg he]
          exact hs.apart k hk
      · intro k b
        simp only [Held, Lifecycle.removeIdleListener, Dict.get?_set, Dict.get?_pop,
          List.not_mem_nil, not_false_eq_true, and_true]
        by_cases he : key = k
        · subst he
          simp [ha, hr]
        · simp [he]

theorem claimIdle_change (isIdle : α → Bool) {s : Lifecycle κ α} (hs : Sound s) (key : κ)
    (adapter : α) : Change (fun a => isIdle a = true) s (s.claimIdle isIdle key adapter).2
      (s.claimIdle isIdle key adapter).1.toList := by
  unfold Lifecycle.claimIdle
  split
  · next h =>
    simp only [Lifecycle.adapterIsIdle, Bool.and_eq_true, decide_eq_true_eq,
      Option.any_eq_true] at h
    obtain ⟨⟨item, hr, hitem⟩, hl, hres, hidle⟩ := h
    obtain ⟨a, g⟩ := item
    obtain rfl : a = adapter := hitem
    have hheld : Held s key a := .inr ⟨g, hr⟩
    refine ⟨?_, ?_, ?_, by simp, rfl, rfl⟩
    · intro k hk
      simp only [Lifecycle.removeIdleListener, Dict.get?_pop] at hk ⊢
      split
      · rfl
      · exact hs.apart k hk
    · intro k b
      simp only [Option.toList_some, List.mem_singleton]
      by_cases he : key = k
      · subst he
        simp only [Held, Lifecycle.removeIdleListener, Dict.get?_pop, if_true,
          hs.active_none hr, hr]
        simp [eq_comm]
      · have hsame : Held (Lifecycle.removeIdleListener
            { s with retired := Dict.pop s.retired key } key) k b ↔ Held s k b := by
          simp [Held, Lifecycle.removeIdleListener, Dict.get?_pop, he]
        rw [hsame]
        refine ⟨fun hb => ⟨hb, ?_⟩, And.left⟩
        rintro rfl
        exact he (hs.single key k b hheld hb)
    · intro b hb
      obtain rfl : b = a := by simpa using hb
      exact ⟨hidle, key, hheld, hl, hres⟩
  · exact Change.refl _ hs

theorem claimReadyRetired_change (isIdle : α → Bool) {s : Lifecycle κ α} (hs : Sound s)
    (key : κ) : Change (fun a => isIdle a = true) s (s.claimReadyRetired isIdle key).2
      (s.claimReadyRetired isIdle key).1.toList := by
  unfold Lifecycle.claimReadyRetired
  cases Dict.get? s.retired key with
  | none => exact Change.refl _ hs
  | some item => exact claimIdle_change isIdle hs key item.1

theorem cancelReservation_change (isIdle : α → Bool) {s : Lifecycle κ α} (hs : Sound s)
    (key : κ) : Change (fun a => isIdle a = true)
      { s with reservations := decrement s.reservations key }
      (s.cancelReservation isIdle key).2 (s.cancelReservation isIdle key).1.toList := by
  have hsame : Sound { s with reservations := decrement s.reservations key } :=
    sound_congr (s := s) rfl rfl hs
  exact claimReadyRetired_change isIdle hsame key

theorem release_change (isIdle : α → Bool) {s : Lifecycle κ α} (hs : Sound s)
    (lease : EndpointAdapterLease κ α) : Change (fun a => isIdle a = true)
      { s with leases := decrement s.leases lease.adapter }
      (s.release isIdle lease).2 (s.release isIdle lease).1.toList := by
  have hsame : Sound { s with leases := decrement s.leases lease.adapter } :=
    sound_congr (s := s) rfl rfl hs
  exact claimReadyRetired_change isIdle hsame lease.key

theorem retire_change (liveKeys : List κ) (isIdle listens : α → Bool)
    (acc : List α × Lifecycle κ α) (key : κ) (hs : Sound acc.2) :
    ∃ out, (Lifecycle.retire liveKeys isIdle listens acc key).1 = acc.1++out ∧
      Change (fun a => isIdle a = true) acc.2
        (Lifecycle.retire liveKeys isIdle listens acc key).2 out := by
  unfold Lifecycle.retire
  split
  · exact ⟨[], by simp, Change.refl _ hs⟩
  cases ha : Dict.get? acc.2.active key with
  | none => exact ⟨[], by simp, Change.refl _ hs⟩
  | some adapter =>
    have hr : Dict.get? acc.2.retired key = none := hs.apart key (by simp [ha])
    have hheld : Held acc.2 key adapter := .inl ha
    dsimp only
    split
    · next h =>
      simp only [Lifecycle.adapterIsIdle, Bool.and_eq_true, decide_eq_true_eq] at h
      obtain ⟨hl, hres, hidle⟩ := h
      refine ⟨[adapter], rfl, ?_, ?_, ?_, by simp, rfl, rfl⟩
      · intro k hk
        simp only [Dict.get?_pop] at hk
        split at hk
        · exact (hk rfl).elim
        · exact hs.apart k hk
      · intro k b
        simp only [List.mem_singleton]
        by_cases he : key = k
        · subst he
          simp only [Held, Dict.get?_pop, if_true, ha, hr]
          simp [eq_comm]
        · have hsame : Held { acc.2 with active := Dict.pop acc.2.active key } k b ↔
              Held acc.2 k b := by
            simp [Held, Dict.get?_pop, he]
          rw [hsame]
          refine ⟨fun hb => ⟨hb, ?_⟩, And.left⟩
          rintro rfl
          exact he (hs.single key k b hheld hb)
      · intro b hb
        obtain rfl : b = adapter := by simpa using hb
        exact ⟨hidle, key, hheld, hl, hres⟩
    · refine ⟨[], by simp, ?_⟩
      have hactive : ∀ s : Lifecycle κ α,
          (Lifecycle.addIdleListener listens s key adapter).active = s.active ∧
          (Lifecycle.addIdleListener listens s key adapter).retired = s.retired ∧
          (Lifecycle.addIdleListener listens s key adapter).leases = s.leases ∧
          (Lifecycle.addIdleListener listens s key adapter).reservations = s.reservations := by
        intro s
        unfold Lifecycle.addIdleListener
        split <;> exact ⟨rfl, rfl, rfl, rfl⟩
      obtain ⟨h1, h2, h3, h4⟩ := hactive { acc.2 with
        active := Dict.pop acc.2.active key
        retired := Dict.set acc.2.retired key (adapter, acc.2.generation) }
      refine ⟨?_, ?_, by simp, List.nodup_nil, h3, h4⟩
      · intro k hk
        rw [h1] at hk
        rw [h2]
        simp only [Dict.get?_pop, Dict.get?_set] at hk ⊢
        split at hk
        · exact (hk rfl).elim
        · next he =>
          rw [if_neg he]
          exact hs.apart k hk
      · intro k b
        rw [Held, h1, h2]
        simp only [Held, Dict.get?_pop, Dict.get?_set, List.not_mem_nil, not_false_eq_true,
          and_true]
        by_cases he : key = k
        · subst he
          simp [ha, hr]
        · simp [he]

theorem sweep_change (scanIdle claimedIdle : α → Bool) (acc : List α × Lifecycle κ α)
    (entry : κ × α × ℕ) (hs : Sound acc.2) :
    ∃ out, (Lifecycle.sweep scanIdle claimedIdle acc entry).1 = acc.1++out ∧
      Change (fun a => claimedIdle a = true) acc.2
        (Lifecycle.sweep scanIdle claimedIdle acc entry).2 out := by
  unfold Lifecycle.sweep
  split
  · have hchange := claimIdle_change claimedIdle hs entry.1 entry.2.1
    split
    · next adapter s hclaim =>
      rw [hclaim] at hchange
      exact ⟨[adapter], rfl, hchange⟩
    · next s hclaim =>
      rw [hclaim] at hchange
      exact ⟨[], by simp, hchange⟩
  · exact ⟨[], by simp, Change.refl _ hs⟩

theorem revive_change (idle : α → Prop) (liveKeys : List κ) (s : Lifecycle κ α) (hs : Sound s) :
    Change idle s (liveKeys.foldl (fun t key => (Lifecycle.get t key).2) s) [] := by
  induction liveKeys generalizing s with
  | nil => exact Change.refl idle hs
  | cons key keys ih =>
    have hget := get_change idle hs key
    exact hget.trans (ih (s.get key).2 (hget.sound hs))

theorem install_change (liveKeys : List κ) (isIdle scanIdle claimedIdle listens : α → Bool)
    {s : Lifecycle κ α} (hs : Sound s) :
    Change (fun a => isIdle a = true ∨ claimedIdle a = true) s
      (s.install liveKeys isIdle scanIdle claimedIdle listens).2
      (s.install liveKeys isIdle scanIdle claimedIdle listens).1 := by
  have hbump : Change (fun a => isIdle a = true ∨ claimedIdle a = true) s
      { s with generation := s.generation+1 } [] :=
    ⟨hs.apart, by simp [Held], by simp, List.nodup_nil, rfl, rfl⟩
  have hrevive := hbump.trans (revive_change (fun a => isIdle a = true ∨ claimedIdle a = true)
    liveKeys _ (hbump.sound hs))
  unfold Lifecycle.install
  dsimp only
  generalize liveKeys.foldl (fun t key => (Lifecycle.get t key).2)
    { s with generation := s.generation+1 } = t at hrevive ⊢
  have ht := hrevive.sound hs
  obtain ⟨out, hout, hretire⟩ :=
    Change.fold (retire_change liveKeys isIdle listens) (t.active.map Prod.fst) ([], t) ht
  generalize (t.active.map Prod.fst).foldl (Lifecycle.retire liveKeys isIdle listens) ([], t) = acc
    at hout hretire ⊢
  obtain ⟨others, hothers, hsweep⟩ :=
    Change.fold (sweep_change scanIdle claimedIdle) acc.2.retired acc (hretire.sound ht)
  rw [hothers, hout]
  exact hrevive.trans ((hretire.mono fun a => Or.inl).trans (hsweep.mono fun a => Or.inr))

end FerricStore.EndpointLifecycle
