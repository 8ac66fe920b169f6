import FerricStore.RoutedBatchLeases

/-!
# A batch is routed under one generation

An attempt keeps its progress from command to command. It ends with all commands placed and
the generation unchanged, or it returns its leases; so does every attempt before it.
-/

set_option autoImplicit false

namespace FerricStore.RoutedBatch
open Stateful EndpointLifecycle
open TopologyRetry (Exn)

section Attempts

variable {σ κ α τ ρ μ π : Type} (host : Host σ κ α τ ρ μ π)

/-- All leases but the local ones were returned. -/
def Held (l : Locals κ α π) (t : List (Event κ α τ μ)) : Prop :=
  History t ∧ (taken t).Perm (released t++l.leases)

/-- In an attempt that began after `before` and has placed the commands `done`, with what
else is known of its events. -/
def InAttempt (before : List (Event κ α τ μ)) (g : ℕ) (done : List π)
    (X : List (Event κ α τ μ) → Prop) (l : Locals κ α π) (t : List (Event κ α τ μ)) : Prop :=
  History t ∧ Balanced before ∧ ∃ during, t = before++.attempt g::during ∧
    Progress host g done l during ∧ X during

variable {host} {before : List (Event κ α τ μ)} {g : ℕ} {done : List π}
  {X Y : List (Event κ α τ μ) → Prop} {l : Locals κ α π} {t : List (Event κ α τ μ)}

theorem attempt_held {during : List (Event κ α τ μ)} (hb : Balanced before)
    (ht : taken during = l.leases) (hr : released during = []) :
    (taken (before++.attempt g::during)).Perm (released (before++.attempt g::during)++l.leases) := by
  have htaken : taken (before++.attempt g::during) = taken before++l.leases := by
    rw [taken_append, ← ht]
    rfl
  have hreleased : released (before++.attempt g::during) = released before++[] := by
    rw [released_append, ← hr]
    rfl
  rw [htaken, hreleased, List.append_nil]
  exact hb.append_right _

theorem InAttempt.held (h : InAttempt host before g done X l t) : Held l t := by
  obtain ⟨hhistory, hb, during, rfl, hprogress, -⟩ := h
  exact ⟨hhistory, attempt_held hb hprogress.taken hprogress.released⟩

theorem InAttempt.mono (h : InAttempt host before g done X l t) (hX : ∀ u, X u → Y u) :
    InAttempt host before g done Y l t := by
  obtain ⟨hhistory, hb, during, ht, hprogress, hx⟩ := h
  exact ⟨hhistory, hb, during, ht, hprogress, hX during hx⟩

/-- An event that moves no lease. -/
theorem InAttempt.other {e : Event κ α τ μ} (h : InAttempt host before g done X l t)
    (ht : e.taken = none) (hr : e.given = none) (he : ∀ g, e ≠ .attempt g)
    (hX : ∀ u, X u → Y (u++[e])) : InAttempt host before g done Y l (t++[e]) := by
  obtain ⟨hhistory, hb, during, rfl, hprogress, hx⟩ := h
  have hnext := hprogress.other ht hr
  have htrace : before++.attempt g::during++[e] = before++.attempt g::(during++[e]) := by simp
  have hheld := attempt_held (g := g) hb hnext.taken hnext.released
  rw [← htrace] at hheld
  exact ⟨hhistory.snoc (fun g hg => absurd hg (he g)) hheld, hb, during++[e], htrace, hnext,
    hX during hx⟩

section Commands

variable (host) [DecidableEq κ] [DecidableEq α]

/-- Where the command goes, as far as the events of the attempt tell. -/
def Destination (prepared : π) (r : Option (ρ × ℕ)) (during : List (Event κ α τ μ)) : Prop :=
  match r with
  | none => host.routableKey prepared = .ok none
  | some (route, current) => ∃ routing topology, host.routableKey prepared = .ok (some routing) ∧
      .routed routing topology current ∈ during ∧ host.route topology routing = .ok route

omit [DecidableEq κ] [DecidableEq α] in
theorem routePrepared_contract (prepared : π) :
    Contract (fun w => InAttempt host before g done (fun _ => True) w.locals w.trace)
      (routePrepared host prepared)
      (fun r w => InAttempt host before g done (Destination host prepared r) w.locals w.trace)
      (fun _ (w : World σ κ α τ μ π) => Held w.locals w.trace) := by
  refine Contract.bind ((lift_keeps (InAttempt host before g done fun _ => True) _).weaken
    (fun _ h => h) (fun _ _ h => h) fun _ _ h => h.held) fun key => ?_
  cases key with
  | none => exact Contract.pure fun w hw => hw.2.mono fun _ _ => hw.1
  | some routing =>
    refine (locked_contract host (fun r l t => match r with
      | .ok r => InAttempt host before g done (Destination host prepared r) l t
      | .error _ => Held l t) ?_).weaken (fun _ h => h) (fun _ _ h => h) fun _ _ h => h
    rintro w ⟨hkey, hw⟩ e s
    by_cases hclosed : s.closed = true
    · simp only [hclosed, if_true, List.append_nil]
      exact hw.held
    · simp only [if_neg hclosed]
      cases hroute : host.route s.topology routing with
      | error e =>
        simp only [List.append_nil]
        exact hw.held
      | ok route =>
        exact hw.other rfl rfl (fun _ h => (nomatch h)) fun u _ =>
          ⟨routing, s.topology, hkey, by simp, hroute⟩

omit [DecidableEq κ] [DecidableEq α] in
theorem Destination.routedTo {host : Host σ κ α τ ρ μ π} {prepared : π} {route : ρ} {key : κ}
    {during : List (Event κ α τ μ)} (h : Destination host prepared (some (route, g)) during)
    (hkey : host.endpointKey route = .ok key) : RoutedTo host g during prepared route key := by
  obtain ⟨routing, topology, hrouting, hmem, hroute⟩ := h
  exact ⟨routing, topology, hrouting, hmem, hroute, hkey⟩

/-- The local variables when the command is sent to the lease. -/
def place (route : ρ) (prepared : π) (lease : Lease κ α) : Locals κ α π → Locals κ α π :=
  addTarget ⟨lease.adapter, some (host.laneId route)⟩ prepared

omit [DecidableEq α] in
theorem InAttempt.reuse {host : Host σ κ α τ ρ μ π} {prepared : π} {route : ρ} {key : κ} {lease : Lease κ α}
    (h : InAttempt host before g done (Destination host prepared (some (route, g))) l t)
    (hkey : host.endpointKey route = .ok key)
    (hlease : Dict.get? l.leasesByEndpoint key = some lease) :
    InAttempt host before g (done++[prepared]) (fun _ => True)
      (place host route prepared lease l) t := by
  obtain ⟨hhistory, hb, during, ht, hprogress, hdest⟩ := h
  have hmem := Dict.mem_of_get? hlease
  rw [hprogress.byEndpoint] at hmem
  obtain ⟨other, hother, heq⟩ := List.mem_map.mp hmem
  cases heq
  exact ⟨hhistory, hb, during, ht, hprogress.leased hother (hdest.routedTo hkey), trivial⟩

omit [DecidableEq α] in
theorem InAttempt.fresh {host : Host σ κ α τ ρ μ π} {prepared : π} {route : ρ} {lease : Lease κ α}
    (h : InAttempt host before g done (Destination host prepared (some (route, g))) l t)
    (hkey : host.endpointKey route = .ok lease.key)
    (hlease : Dict.get? l.leasesByEndpoint lease.key = none) :
    InAttempt host before g (done++[prepared]) (fun _ => True)
      (place host route prepared lease (addLease lease.key lease l)) (t++[Event.leased lease]) := by
  obtain ⟨hhistory, hb, during, rfl, hprogress, hdest⟩ := h
  have hnext := hprogress.fresh hlease (hdest.routedTo hkey)
  have htrace : before++.attempt g::during++[Event.leased lease] =
      before++.attempt g::(during++[Event.leased lease]) := by simp
  have hheld := attempt_held (g := g) hb hnext.taken hnext.released
  rw [← htrace] at hheld
  exact ⟨hhistory.snoc (fun _ h => (nomatch h)) hheld, hb, _, htrace, hnext, trivial⟩

/-- The endpoint is leased if it was not, and the command can be placed there. -/
theorem leaseEndpoint_contract (fuel : ℕ) (prepared : π) (route : ρ) :
    Contract (fun w => InAttempt host before g done (Destination host prepared (some (route, g)))
        w.locals w.trace)
      (leaseEndpoint host fuel route g)
      (fun lease w => InAttempt host before g (done++[prepared]) (fun _ => True)
        (place host route prepared lease w.locals) w.trace)
      (fun _ (w : World σ κ α τ μ π) => Held w.locals w.trace) := by
  refine Contract.bind ((lift_keeps (InAttempt host before g done
    (Destination host prepared (some (route, g)))) _).weaken (fun _ h => h) (fun _ _ h => h)
      fun _ _ h => h.held) fun key => Contract.assuming fun hkey => ?_
  refine Contract.bind (Q := fun l (w : World σ κ α τ μ π) => w.locals = l ∧
    InAttempt host before g done (Destination host prepared (some (route, g))) l w.trace)
      (fun w hw => ⟨rfl, hw⟩) fun l => ?_
  cases hfound : Dict.get? l.leasesByEndpoint key with
  | some lease =>
    refine Contract.pure ?_
    rintro w ⟨hl, hw⟩
    rw [hl]
    exact hw.reuse hkey hfound
  | none =>
    refine Contract.bind ((leasedAdapterForEndpoint_contract host (fun l' t => l' = l ∧
      InAttempt host before g done (Destination host prepared (some (route, g))) l t) fuel route
        g).weaken (fun _ h => h) (fun _ _ h => h) ?_) fun lease => ?_
    · rintro e w ⟨hl, hw⟩
      rw [hl]
      exact hw.held
    · refine Contract.bind (Q := fun _ w => InAttempt host before g (done++[prepared])
        (fun _ => True) (place host route prepared lease w.locals) w.trace) ?_
          fun _ => Contract.pure fun _ h => h
      rintro w ⟨hlease, -, u, hu, hl, hw⟩
      have heq : key = lease.key := Except.ok.inj (hkey.symm.trans hlease)
      subst heq
      simp only [setLocals, hl, hu]
      exact hw.fresh hlease hfound

theorem routeCommand_contract (fuel : ℕ) (prepared : π) :
    Contract (fun w => InAttempt host before g done (fun _ => True) w.locals w.trace)
      (routeCommand host fuel g prepared)
      (fun _ w => InAttempt host before g (done++[prepared]) (fun _ => True) w.locals w.trace)
      (fun _ (w : World σ κ α τ μ π) => Held w.locals w.trace) := by
  refine (routePrepared_contract host prepared).bind fun r => ?_
  match r with
  | none =>
    refine Contract.bind ((external_keeps (InAttempt host before g done
      (Destination host prepared none)) _).weaken (fun _ h => h) (fun _ _ h => h)
        fun _ _ h => h.held) fun adapter => ?_
    rintro w ⟨hhistory, hb, during, ht, hprogress, hdest⟩
    exact ⟨hhistory, hb, during, ht, hprogress.control hdest adapter, trivial⟩
  | some (route, current) =>
    simp only
    split_ifs with hcurrent
    · exact Contract.throw fun _ h => h.held
    · rw [not_not.mp hcurrent]
      exact (leaseEndpoint_contract host fuel prepared route).bind fun lease => fun w hw => hw

theorem routeCommands_contract (fuel : ℕ) (commands : List π) :
    Contract (fun w => InAttempt host before g done (fun _ => True) w.locals w.trace)
      (routeCommands host fuel g commands)
      (fun _ w => InAttempt host before g (done++commands) (fun _ => True) w.locals w.trace)
      (fun _ (w : World σ κ α τ μ π) => Held w.locals w.trace) := by
  induction commands generalizing done with
  | nil => exact Contract.pure fun _ h => by rwa [List.append_nil]
  | cons prepared rest ih =>
    refine (routeCommand_contract host fuel prepared).bind fun _ => ?_
    have hrest := @ih (done++[prepared])
    rwa [List.append_assoc] at hrest

/-- The attempt is over: all commands are placed, and the generation is the noted one. -/
def Finished (commands : List π) (l : Locals κ α π) (t : List (Event κ α τ μ)) : Prop :=
  History t ∧ ∃ before g during, t = before++.attempt g::during++[Event.checked g] ∧
    Balanced before ∧ Progress host g commands l during

omit [DecidableEq κ] [DecidableEq α] in
theorem checkGeneration_contract (commands : List π) :
    Contract (fun w => InAttempt host before g commands (fun _ => True) w.locals w.trace)
      (checkGeneration host g)
      (fun _ w => Finished host commands w.locals w.trace)
      (fun _ (w : World σ κ α τ μ π) => Held w.locals w.trace) := by
  refine (locked_contract host (fun r l t => match r with
    | .ok _ => Finished host commands l t
    | .error _ => Held l t) ?_).weaken (fun _ h => h) (fun _ _ h => h) fun _ _ h => h
  intro w hw e s
  have hnext : InAttempt host before g commands (fun _ => True) w.locals
      (w.trace++[Event.checked s.generation]) :=
    hw.other rfl rfl (fun _ h => (nomatch h)) fun _ h => h
  split_ifs with hchanged
  · exact hnext.held
  · obtain ⟨-, hb, during, ht, hprogress, -⟩ := hw
    refine ⟨hnext.1, before, g, during, ?_, hb, hprogress⟩
    rw [ht, not_not.mp hchanged]

end Commands

section Releases

variable (host) [DecidableEq κ] [DecidableEq α]

theorem releaseAll_contract (leases : List (Lease κ α)) :
    Contract (fun w => History w.trace ∧ (taken w.trace).Perm (released w.trace++leases))
      (releaseAll host leases)
      (fun _ w => History w.trace ∧ Balanced w.trace)
      (fun _ (_ : World σ κ α τ μ π) => False) := by
  induction leases with
  | nil =>
    refine Contract.pure ?_
    rintro w ⟨hhistory, hperm⟩
    rw [List.append_nil] at hperm
    exact ⟨hhistory, hperm⟩
  | cons lease rest ih =>
    refine Contract.bind (Contract.bind (Q := fun _ (w : World σ κ α τ μ π) => History w.trace ∧
      (taken w.trace).Perm (released w.trace++rest)) ?_ fun ready => ?_) fun _ => ih
    · refine (locked_contract host (fun r l t => match r with
        | .ok _ => History t ∧ (taken t).Perm (released t++rest)
        | .error _ => False) ?_).weaken (fun _ h => h) (fun _ _ h => h) fun _ _ h => h
      rintro w ⟨hhistory, hperm⟩ e s
      have hnext : (taken (w.trace++[Event.released lease])).Perm
          (released (w.trace++[Event.released lease])++rest) := by
        rw [taken_other rfl, released_released, List.append_assoc]
        exact hperm
      exact ⟨hhistory.snoc (fun _ h => (nomatch h)) hnext, hnext⟩
    · exact fun w hw => hw

theorem releaseLeases_contract :
    Contract (fun w => Held w.locals w.trace) (releaseLeases host)
      (fun _ w => History w.trace ∧ Balanced w.trace)
      (fun _ (_ : World σ κ α τ μ π) => False) := by
  refine Contract.bind (Q := fun l w => History w.trace ∧
    (taken w.trace).Perm (released w.trace++l.leases.reverse)) ?_
      fun l => releaseAll_contract host l.leases.reverse
  intro w hw
  exact ⟨hw.1, hw.2.trans (List.Perm.append_left _ (List.reverse_perm _).symm)⟩

/-- How an attempt ends that raises. -/
def Failed (e : Exn) (w : World σ κ α τ μ π) : Prop :=
  History w.trace ∧ (e ≠ .waiting → Balanced w.trace)

theorem attemptHandler_contract (exc : Exn) :
    Contract (fun w => Held w.locals w.trace) (attemptHandler host exc)
      (fun r w => r = none ∧ History w.trace ∧ Balanced w.trace) Failed := by
  unfold attemptHandler
  by_cases hwaiting : exc = .waiting
  · rw [if_pos hwaiting]
    exact Contract.throw fun w h => ⟨h.1, fun hne => absurd hwaiting hne⟩
  · rw [if_neg hwaiting]
    refine ((releaseLeases_contract host).weaken (fun _ h => h) (fun _ _ h => h)
      fun _ _ h => h.elim).bind fun _ => ?_
    by_cases hchanged : exc = .generationChanged
    · rw [if_pos hchanged]
      exact Contract.pure fun _ h => ⟨rfl, h⟩
    · rw [if_neg hchanged]
      exact Contract.throw fun _ h => ⟨h.1, fun _ => h.2⟩

omit [DecidableEq κ] [DecidableEq α] in
theorem Progress.start (g : ℕ) :
    Progress host g [] (⟨[], [], []⟩ : Locals κ α π) ([] : List (Event κ α τ μ)) :=
  ⟨rfl, rfl, rfl, rfl, List.nodup_nil, fun _ h => absurd h List.not_mem_nil,
    fun _ h => absurd h List.not_mem_nil⟩

/-- An attempt places all commands, or leaves no lease behind. -/
theorem attempt_contract (fuel : ℕ) (commands : List π) :
    Contract (fun w : World σ κ α τ μ π => History w.trace ∧ Balanced w.trace) (attempt host fuel commands)
      (fun r w => match r with
        | some l => Finished host commands l w.trace
        | none => History w.trace ∧ Balanced w.trace)
      Failed := by
  refine Contract.bind (Q := fun g (w : World σ κ α τ μ π) => ∃ before, Balanced before ∧
    w.trace = before++[Event.attempt g] ∧ History w.trace) ?_ fun g => ?_
  · refine (locked_contract host (fun r l t => match r with
      | .ok g => ∃ before, Balanced before ∧ t = before++[Event.attempt g] ∧ History t
      | .error _ => False) ?_).weaken (fun _ h => h) (fun _ _ h => h) fun _ _ h => h.elim
    rintro w ⟨hhistory, hb⟩ e s
    have hheld := @attempt_held κ α τ μ π w.trace s.generation ⟨[], [], []⟩ [] hb rfl rfl
    exact ⟨w.trace, hb, rfl, hhistory.snoc (fun _ _ => hb) hheld⟩
  refine Contract.exists_of fun before => ?_
  refine Contract.bind (Q := fun _ w => InAttempt host before g [] (fun _ => True)
    w.locals w.trace) ?_ fun _ => ?_
  · rintro w ⟨hb, ht, hhistory⟩
    exact ⟨hhistory, hb, [], ht, Progress.start host g, trivial⟩
  · refine Contract.handle (E := fun _ w => Held w.locals w.trace) ?_ fun exc => ?_
    · refine (routeCommands_contract host fuel commands).bind fun _ => ?_
      exact (checkGeneration_contract host commands).bind fun _ => Contract.map fun w hw => hw
    · refine (attemptHandler_contract host exc).weaken (fun _ h => h) ?_ fun _ _ h => h
      rintro r w ⟨rfl, h⟩
      exact h

theorem attempts_contract (fuel : ℕ) (commands : List π) (n : ℕ) :
    Contract (fun w : World σ κ α τ μ π => History w.trace ∧ Balanced w.trace) (attempts host fuel commands n)
      (fun l w => Finished host commands l w.trace)
      Failed := by
  induction n with
  | zero => exact Contract.throw fun w h => ⟨h.1, fun hne => absurd rfl hne⟩
  | succ n ih =>
    refine (attempt_contract host fuel commands).bind fun r => ?_
    cases r with
    | some l => exact Contract.pure fun _ h => h
    | none => exact ih

end Releases

end Attempts

section Batches

variable {σ κ α τ ρ μ π : Type} [DecidableEq κ] [DecidableEq α] (host : Host σ κ α τ ρ μ π)
  (prepare : List Value → Except Exn π) (maxBatchItems : Option ℕ) (fuel : ℕ)
  (commands : List (List Value))

theorem prepareRoutedBatch_contract :
    Contract (fun w => History w.trace ∧ Balanced w.trace)
      (prepareRoutedBatch host prepare maxBatchItems fuel commands)
      (fun l w => ∃ prepared, commands.mapM prepare = .ok prepared ∧
        Finished host prepared l w.trace)
      (Failed : Exn → World σ κ α τ μ π → Prop) := by
  refine Contract.bind ((lift_keeps (fun _ t => History t ∧ Balanced t) _).weaken (fun _ h => h)
    (fun _ _ h => h.2) fun _ _ h => ⟨h.1, fun _ => h.2⟩) fun _ => ?_
  refine Contract.bind ((lift_keeps (fun _ t => History t ∧ Balanced t) _).weaken (fun _ h => h)
    (fun _ _ h => h) fun _ _ h => ⟨h.1, fun _ => h.2⟩) fun prepared =>
      Contract.assuming fun hprepared => ?_
  exact (attempts_contract host fuel prepared fuel).weaken (fun _ h => h)
    (fun _ _ h => ⟨prepared, hprepared, h⟩) fun _ _ h => h

/-- Whatever other threads do, a batch that is returned has its commands in order, each with
a key routed under the generation that the last attempt noted and found again at its end;
the leases returned are those taken in that attempt, one for each endpoint of these commands.
Every attempt began with all leases of the attempts before it returned, and a batch that
raises returned all of them. -/
theorem routed_batch_uses_one_generation (env : σ) (shared : Shared κ α τ) :
    match prepareRoutedBatch host prepare maxBatchItems fuel commands
      ⟨env, shared, ⟨[], [], []⟩, []⟩ with
    | .ok l w => History w.trace ∧ ∃ prepared before g during,
        commands.mapM prepare = .ok prepared ∧
        w.trace = before++.attempt g::during++[Event.checked g] ∧ Balanced before ∧
        l.routedCommands.map Prod.snd = prepared ∧
        taken during = l.leases ∧ released during = [] ∧
        (l.leases.map fun lease => lease.key).Nodup ∧
        (∀ x ∈ l.routedCommands, Placed host g during l.leases x) ∧
        ∀ lease ∈ l.leases, ∃ p ∈ prepared, ∃ route, RoutedTo host g during p route lease.key
    | .error e w => History w.trace ∧ (e ≠ .waiting → Balanced w.trace) := by
  have hstart : History ([] : List (Event κ α τ μ)) := by
    refine ⟨fun pre g post h => absurd h.symm (by simp), fun p hp => ?_⟩
    rw [List.prefix_nil.mp hp]
    exact List.Subperm.refl _
  have hrun := prepareRoutedBatch_contract host prepare maxBatchItems fuel commands
    ⟨env, shared, ⟨[], [], []⟩, []⟩ ⟨hstart, List.Perm.refl _⟩
  cases h : prepareRoutedBatch host prepare maxBatchItems fuel commands
      ⟨env, shared, ⟨[], [], []⟩, []⟩ with
  | ok l w =>
    rw [h] at hrun
    obtain ⟨prepared, hprepared, hhistory, before, g, during, ht, hb, hprogress⟩ := hrun
    exact ⟨hhistory, prepared, before, g, during, hprepared, ht, hb, hprogress.commands,
      hprogress.taken, hprogress.released, hprogress.distinct, hprogress.placed,
      hprogress.needed⟩
  | error e w =>
    rw [h] at hrun
    exact hrun

end Batches

end FerricStore.RoutedBatch
