import FerricStore.TopologyRetry

/-!
# Traces of a routed command

A trace is careful when each dispatch stands first or after an error that permits a
replay. The leases of a trace are a ledger: those taken are those released, in the same
order, and the one that is held.
-/

set_option autoImplicit false

namespace FerricStore.TopologyRetry
open Stateful

section Traces

variable {ℓ β : Type}

def Event.isDispatch : Event ℓ β → Bool
  | .dispatch _ => true
  | _ => false

def Event.taken : Event ℓ β → Option ℓ
  | .lease l => some l
  | _ => none

def Event.released : Event ℓ β → Option ℓ
  | .release l => some l
  | _ => none

/-- The leases taken, in order. -/
def taken (t : List (Event ℓ β)) : List ℓ := t.filterMap Event.taken

/-- The leases released, in order. -/
def released (t : List (Event ℓ β)) : List ℓ := t.filterMap Event.released

/-- The command was not sent. -/
def Untouched (t : List (Event ℓ β)) : Prop := ∀ e ∈ t, e.isDispatch = false

/-- The last dispatch failed with the error, and these events followed. -/
def LastFailed (exc : Exn) (t mid : List (Event ℓ β)) : Prop :=
  ∃ pre, t = pre++.dispatch (.error exc)::mid ∧ Untouched mid

/-- The last dispatch failed with an error that permits another one: the server allows it,
its delay is over, and the topology was refreshed if the error called for that. -/
def Cleared (rt : Runtime) (t : List (Event ℓ β)) : Prop :=
  ∃ exc mid, LastFailed exc t mid ∧ serverAllowsRetry exc = true ∧
    (∃ ms, serverRetryDelay exc = some ms ∧ (ms ≠ 0 → .sleep ms ∈ mid)) ∧
    (isTopologyRefreshError rt exc = .ok true → .refresh (.ok ()) ∈ mid)

theorem untouched_append {t u : List (Event ℓ β)} :
    Untouched (t++u) ↔ Untouched t ∧ Untouched u := List.forall_mem_append

theorem untouched_single {e : Event ℓ β} (h : e.isDispatch = false) : Untouched [e] := by
  intro x hx
  rw [List.mem_singleton.mp hx]
  exact h

theorem LastFailed.append {exc : Exn} {t mid u : List (Event ℓ β)} (h : LastFailed exc t mid)
    (hu : Untouched u) : LastFailed exc (t++u) (mid++u) := by
  obtain ⟨pre, rfl, hmid⟩ := h
  exact ⟨pre, by simp, untouched_append.mpr ⟨hmid, hu⟩⟩

theorem Cleared.append {rt : Runtime} {t u : List (Event ℓ β)} (h : Cleared rt t)
    (hu : Untouched u) : Cleared rt (t++u) := by
  obtain ⟨exc, mid, hlast, hallows, ⟨ms, hms, hsleep⟩, hrefresh⟩ := h
  exact ⟨exc, mid++u, hlast.append hu, hallows,
    ⟨ms, hms, fun h => List.mem_append_left u (hsleep h)⟩,
    fun h => List.mem_append_left u (hrefresh h)⟩

variable (rt : Runtime) (args : List Value)

/-- The command may be sent. -/
def Ready (t : List (Event ℓ β)) : Prop :=
  Untouched t ∨ isSafeControlRetry rt args = true ∧ Cleared rt t

/-- What is known when the exception is raised. -/
def After (exc : Exn) (t : List (Event ℓ β)) : Prop :=
  Ready rt args t ∨ (∃ mid, LastFailed exc t mid) ∨ isRetryableRouteError rt exc ≠ .ok true

/-- The command was sent only when it might be. -/
def Careful (t : List (Event ℓ β)) : Prop :=
  ∀ pre r post, t = pre++.dispatch r::post → Ready rt args pre

variable {rt args}

theorem Ready.append {t u : List (Event ℓ β)} (h : Ready rt args t) (hu : Untouched u) :
    Ready rt args (t++u) := by
  rcases h with h | ⟨hsafe, h⟩
  · exact .inl (untouched_append.mpr ⟨h, hu⟩)
  · exact .inr ⟨hsafe, h.append hu⟩

theorem After.append {exc : Exn} {t u : List (Event ℓ β)} (h : After rt args exc t)
    (hu : Untouched u) : After rt args exc (t++u) := by
  rcases h with h | ⟨mid, h⟩ | h
  · exact .inl (h.append hu)
  · exact .inr (.inl ⟨mid++u, h.append hu⟩)
  · exact .inr (.inr h)

theorem After.dispatch (exc : Exn) (t : List (Event ℓ β)) :
    After rt args exc (t++[Event.dispatch (.error exc)]) :=
  .inr (.inl ⟨[], t, rfl, by simp [Untouched]⟩)

theorem Careful.snoc {t : List (Event ℓ β)} {e : Event ℓ β} (h : Careful rt args t)
    (he : e.isDispatch = true → Ready rt args t) : Careful rt args (t++[e]) := by
  intro pre r post heq
  rcases List.eq_nil_or_concat post with rfl | ⟨post, last, rfl⟩
  · obtain ⟨rfl, hlast⟩ := List.append_inj' heq rfl
    cases hlast
    exact he rfl
  · have heq' : t++[e] = (pre++.dispatch r::post)++[last] := by simpa using heq
    exact h pre r post (List.append_inj' heq' rfl).1

/-- The books of the leases: at every moment those taken are those released, in the same
order, and at most one that is held. -/
structure Ledger (rt : Runtime) (args : List Value) (held : Option ℓ)
    (t : List (Event ℓ β)) : Prop where
  careful : Careful rt args t
  orderly : ∀ p, p <+: t → ∃ held : Option ℓ, taken p = released p++held.toList
  balance : taken t = released t++held.toList

theorem Ledger.snoc {held held' : Option ℓ} {t : List (Event ℓ β)} {e : Event ℓ β}
    (h : Ledger rt args held t) (he : e.isDispatch = true → Ready rt args t)
    (hbalance : taken (t++[e]) = released (t++[e])++held'.toList) :
    Ledger rt args held' (t++[e]) := by
  refine ⟨h.careful.snoc he, fun p hp => ?_, hbalance⟩
  rcases List.prefix_concat_iff.mp hp with rfl | hp
  · exact ⟨held', hbalance⟩
  · exact h.orderly p hp

/-- An event that moves no lease. -/
theorem Ledger.other {held : Option ℓ} {t : List (Event ℓ β)} {e : Event ℓ β}
    (h : Ledger rt args held t) (he : e.isDispatch = true → Ready rt args t)
    (htaken : e.taken = none) (hreleased : e.released = none) :
    Ledger rt args held (t++[e]) := by
  refine h.snoc he ?_
  simpa [taken, released, htaken, hreleased] using h.balance

theorem Ledger.lease {t : List (Event ℓ β)} (h : Ledger rt args none t) (l : ℓ) :
    Ledger rt args (some l) (t++[Event.lease l]) := by
  refine h.snoc (fun hd => Bool.noConfusion hd) ?_
  have hbalance := h.balance
  simp only [taken, released, List.filterMap_append, List.filterMap_cons, List.filterMap_nil,
    Event.taken, Event.released] at hbalance ⊢
  rw [hbalance]
  simp

theorem Ledger.release {t : List (Event ℓ β)} {l : ℓ} (h : Ledger rt args (some l) t) :
    Ledger rt args none (t++[Event.release l]) := by
  refine h.snoc (fun hd => Bool.noConfusion hd) ?_
  have hbalance := h.balance
  simp only [taken, released, List.filterMap_append, List.filterMap_cons, List.filterMap_nil,
    Event.taken, Event.released] at hbalance ⊢
  rw [hbalance]
  simp

/-- A command that may not be replayed was sent once at most. -/
theorem Careful.once {t : List (Event ℓ β)} (h : Careful rt args t)
    (hrisky : isSafeControlRetry rt args = false) :
    (t.filter Event.isDispatch).length ≤ 1 := by
  by_contra hmany
  obtain ⟨d, rest, hd⟩ : ∃ d rest, t.filter Event.isDispatch = d::rest := by
    cases hfilter : t.filter Event.isDispatch with
    | nil => simp [hfilter] at hmany
    | cons d rest => exact ⟨d, rest, rfl⟩
  obtain ⟨d', hd'⟩ : ∃ d', d' ∈ rest := by
    cases rest with
    | nil => simp [hd] at hmany
    | cons d' rest => exact ⟨d', List.mem_cons_self⟩
  obtain ⟨pre, post, rfl, hpre, hdisp, hpost⟩ := List.filter_eq_cons_iff.mp hd
  rw [← hpost, List.mem_filter] at hd'
  obtain ⟨mid, last, rfl⟩ := List.append_of_mem hd'.1
  cases d' with
  | dispatch r =>
    rcases h (pre++d::mid) r last (by simp) with huntouched | ⟨hsafe, -⟩
    · rw [huntouched d (by simp)] at hdisp
      exact absurd hdisp (by simp)
    · rw [hsafe] at hrisky
      exact absurd hrisky (by simp)
  | refresh r => exact absurd hd'.2 (by simp [Event.isDispatch])
  | sleep ms => exact absurd hd'.2 (by simp [Event.isDispatch])
  | lease l => exact absurd hd'.2 (by simp [Event.isDispatch])
  | release l => exact absurd hd'.2 (by simp [Event.isDispatch])

end Traces

end FerricStore.TopologyRetry
