import FerricStore.RoutedBatch

/-!
# What an attempt has done so far

The leases taken in an attempt are those of its local list, one for each endpoint among the
routed commands, and each routed command names the generation that the attempt noted. Over
all attempts the leases taken are those released and those of the running attempt.
-/

set_option autoImplicit false

namespace FerricStore.RoutedBatch
open Stateful EndpointLifecycle
open TopologyRetry (Exn)

section Traces

variable {κ α τ μ : Type}

def Event.taken : Event κ α τ μ → Option (Lease κ α)
  | .leased l => some l
  | _ => none

def Event.given : Event κ α τ μ → Option (Lease κ α)
  | .released l => some l
  | _ => none

/-- The leases taken, in order. -/
def taken (t : List (Event κ α τ μ)) : List (Lease κ α) := t.filterMap Event.taken

/-- The leases released, in order. -/
def released (t : List (Event κ α τ μ)) : List (Lease κ α) := t.filterMap Event.given

/-- Every lease taken was released, as often as it was taken. -/
def Balanced (t : List (Event κ α τ μ)) : Prop := (taken t).Perm (released t)

/-- Each attempt started with all leases returned, and no lease was released before it was
taken. -/
structure History (t : List (Event κ α τ μ)) : Prop where
  starts : ∀ pre g post, t = pre++.attempt g::post → Balanced pre
  orderly : ∀ p, p <+: t → (released p).Subperm (taken p)

theorem taken_append (t u : List (Event κ α τ μ)) : taken (t++u) = taken t++taken u :=
  List.filterMap_append

theorem released_append (t u : List (Event κ α τ μ)) :
    released (t++u) = released t++released u := List.filterMap_append

theorem History.snoc {t : List (Event κ α τ μ)} {e : Event κ α τ μ} {held : List (Lease κ α)}
    (h : History t) (he : ∀ g, e = .attempt g → Balanced t)
    (hheld : (taken (t++[e])).Perm (released (t++[e])++held)) : History (t++[e]) := by
  refine ⟨fun pre g post heq => ?_, fun p hp => ?_⟩
  · rcases List.eq_nil_or_concat post with rfl | ⟨post, last, rfl⟩
    · obtain ⟨rfl, hlast⟩ := List.append_inj' heq rfl
      exact he g (List.singleton_inj.mp hlast)
    · have heq' : t++[e] = (pre++.attempt g::post)++[last] := by simpa using heq
      exact h.starts pre g post (List.append_inj' heq' rfl).1
  · rcases List.prefix_concat_iff.mp hp with rfl | hp
    · exact (List.Sublist.subperm (List.sublist_append_left _ held)).trans hheld.symm.subperm
    · exact h.orderly p hp

/-- An event that moves no lease. -/
theorem taken_other {t : List (Event κ α τ μ)} {e : Event κ α τ μ} (h : e.taken = none) :
    taken (t++[e]) = taken t := by
  simp [taken, h]

theorem released_other {t : List (Event κ α τ μ)} {e : Event κ α τ μ} (h : e.given = none) :
    released (t++[e]) = released t := by
  simp [released, h]

theorem taken_leased (t : List (Event κ α τ μ)) (l : Lease κ α) :
    taken (t++[Event.leased l]) = taken t++[l] := by
  rw [taken_append]
  rfl

theorem released_released (t : List (Event κ α τ μ)) (l : Lease κ α) :
    released (t++[Event.released l]) = released t++[l] := by
  rw [released_append]
  rfl

end Traces

section Attempts

variable {σ κ α τ ρ μ π : Type} (host : Host σ κ α τ ρ μ π)

/-- The key of the command was routed to the endpoint under the generation. -/
def RoutedTo (g : ℕ) (during : List (Event κ α τ μ)) (prepared : π) (route : ρ) (key : κ) :
    Prop :=
  ∃ routing topology, host.routableKey prepared = .ok (some routing) ∧
    .routed routing topology g ∈ during ∧ host.route topology routing = .ok route ∧
    host.endpointKey route = .ok key

/-- A command without a key goes to a control adapter, and one with a key to the adapter of
a lease for the endpoint that it was routed to. -/
def Placed (g : ℕ) (during : List (Event κ α τ μ)) (leases : List (Lease κ α))
    (x : Target α × π) : Prop :=
  host.routableKey x.2 = .ok none ∧ x.1.laneId = none ∨
    ∃ lease ∈ leases, ∃ route, RoutedTo host g during x.2 route lease.key ∧
      x.1 = ⟨lease.adapter, some (host.laneId route)⟩

/-- The local variables after the commands `done`, and the events since the attempt began. -/
structure Progress (g : ℕ) (done : List π) (l : Locals κ α π)
    (during : List (Event κ α τ μ)) : Prop where
  commands : l.routedCommands.map Prod.snd = done
  taken : taken during = l.leases
  released : released during = []
  byEndpoint : l.leasesByEndpoint = l.leases.map fun lease => (lease.key, lease)
  distinct : (l.leases.map fun lease => lease.key).Nodup
  placed : ∀ x ∈ l.routedCommands, Placed host g during l.leases x
  needed : ∀ lease ∈ l.leases, ∃ p ∈ done, ∃ route, RoutedTo host g during p route lease.key

variable {host}

theorem RoutedTo.mono {g : ℕ} {during more : List (Event κ α τ μ)} {p : π} {route : ρ} {key : κ}
    (h : RoutedTo host g during p route key) : RoutedTo host g (during++more) p route key := by
  obtain ⟨routing, topology, hkey, hmem, hroute⟩ := h
  exact ⟨routing, topology, hkey, List.mem_append_left _ hmem, hroute⟩

theorem Placed.mono {g : ℕ} {during more : List (Event κ α τ μ)} {leases others : List (Lease κ α)}
    {x : Target α × π} (h : Placed host g during leases x) :
    Placed host g (during++more) (leases++others) x := by
  rcases h with h | ⟨lease, hlease, route, hrouted, hx⟩
  · exact .inl h
  · exact .inr ⟨lease, List.mem_append_left _ hlease, route, hrouted.mono, hx⟩

/-- An event that moves no lease. -/
theorem Progress.other {g : ℕ} {done : List π} {l : Locals κ α π} {during : List (Event κ α τ μ)}
    {e : Event κ α τ μ} (h : Progress host g done l during) (ht : e.taken = none)
    (hr : e.given = none) : Progress host g done l (during++[e]) where
  commands := h.commands
  taken := (taken_other ht).trans h.taken
  released := (released_other hr).trans h.released
  byEndpoint := h.byEndpoint
  distinct := h.distinct
  placed x hx := by
    have hplaced : Placed host g (during++[e]) (l.leases++[]) x := (h.placed x hx).mono
    rwa [List.append_nil] at hplaced
  needed lease hlease := by
    obtain ⟨p, hp, route, hrouted⟩ := h.needed lease hlease
    exact ⟨p, hp, route, hrouted.mono⟩

/-- The command goes to the control adapter. -/
theorem Progress.control {g : ℕ} {done : List π} {l : Locals κ α π}
    {during : List (Event κ α τ μ)} {p : π} (h : Progress host g done l during)
    (hkey : host.routableKey p = .ok none) (adapter : α) :
    Progress host g (done++[p]) (addTarget ⟨adapter, none⟩ p l) during where
  commands := by simp [addTarget, h.commands]
  taken := h.taken
  released := h.released
  byEndpoint := h.byEndpoint
  distinct := h.distinct
  placed x hx := by
    rcases List.mem_append.mp hx with hx | hx
    · exact h.placed x hx
    · rw [List.mem_singleton.mp hx]
      exact .inl ⟨hkey, rfl⟩
  needed lease hlease := by
    obtain ⟨q, hq, hrouted⟩ := h.needed lease hlease
    exact ⟨q, List.mem_append_left _ hq, hrouted⟩

/-- The command goes to an endpoint that is leased already. -/
theorem Progress.leased {g : ℕ} {done : List π} {l : Locals κ α π}
    {during : List (Event κ α τ μ)} {p : π} {route : ρ} {lease : Lease κ α}
    (h : Progress host g done l during) (hlease : lease ∈ l.leases)
    (hrouted : RoutedTo host g during p route lease.key) :
    Progress host g (done++[p]) (addTarget ⟨lease.adapter, some (host.laneId route)⟩ p l)
      during where
  commands := by simp [addTarget, h.commands]
  taken := h.taken
  released := h.released
  byEndpoint := h.byEndpoint
  distinct := h.distinct
  placed x hx := by
    rcases List.mem_append.mp hx with hx | hx
    · exact h.placed x hx
    · rw [List.mem_singleton.mp hx]
      exact .inr ⟨lease, hlease, route, hrouted, rfl⟩
  needed other hother := by
    obtain ⟨q, hq, hneeded⟩ := h.needed other hother
    exact ⟨q, List.mem_append_left _ hq, hneeded⟩

/-- The command goes to an endpoint that is leased for it. -/
theorem Progress.fresh [DecidableEq κ] {g : ℕ} {done : List π} {l : Locals κ α π}
    {during : List (Event κ α τ μ)} {p : π} {route : ρ} {lease : Lease κ α}
    (h : Progress host g done l during) (hnew : Dict.get? l.leasesByEndpoint lease.key = none)
    (hrouted : RoutedTo host g during p route lease.key) :
    Progress host g (done++[p]) (addTarget ⟨lease.adapter, some (host.laneId route)⟩ p
      (addLease lease.key lease l)) (during++[Event.leased lease]) := by
  have hkeys : lease.key ∉ l.leases.map fun x => x.key := by
    intro hmem
    have hsome := (Dict.get?_isSome_iff l.leasesByEndpoint lease.key).mpr (by
      rw [Dict.keys, h.byEndpoint, List.map_map]
      exact hmem)
    rw [hnew] at hsome
    cases hsome
  refine ⟨by simp [addTarget, addLease, h.commands], ?_, ?_, ?_, ?_, ?_, ?_⟩
  · rw [taken_leased, h.taken]
    rfl
  · rw [released_append, h.released]
    rfl
  · have hset := Dict.set_of_not_mem l.leasesByEndpoint lease.key lease (by
      rw [Dict.keys, h.byEndpoint, List.map_map]
      exact hkeys)
    simp only [addTarget, addLease, List.map_append, List.map_cons, List.map_nil]
    rw [hset, h.byEndpoint]
  · simp only [addTarget, addLease, List.map_append, List.map_cons, List.map_nil]
    exact List.nodup_append.mpr ⟨h.distinct, by simp, fun a ha b hb => by
      rw [List.mem_singleton.mp hb]
      exact fun heq => hkeys (heq ▸ ha)⟩
  · intro x hx
    rcases List.mem_append.mp hx with hx | hx
    · exact (h.placed x hx).mono
    · rw [List.mem_singleton.mp hx]
      exact .inr ⟨lease, by simp [addTarget, addLease], route, hrouted.mono, rfl⟩
  · intro other hother
    rcases List.mem_append.mp hother with hother | hother
    · obtain ⟨q, hq, r, hneeded⟩ := h.needed other hother
      exact ⟨q, List.mem_append_left _ hq, r, hneeded.mono⟩
    · rw [List.mem_singleton.mp hother]
      exact ⟨p, by simp, route, hrouted.mono⟩

end Attempts

end FerricStore.RoutedBatch
