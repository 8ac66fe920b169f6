import FerricStore.EndpointLifecycle

/-!
# No adapter is cleaned up while it is in use

Along every run the tables keep each adapter in one place, the lease counts are
the leases the callers hold, and the reservation counts are the reservations not
yet used. An adapter that is handed out for cleanup is held by nobody and never
comes back.
-/

set_option autoImplicit false

namespace FerricStore.EndpointLifecycle
open GuardedRuns

variable {κ α : Type} [DecidableEq κ] [DecidableEq α]

theorem count_increment {γ : Type} [DecidableEq γ] (counts : Dict γ ℕ) (key other : γ) :
    count (increment counts key) other =
      if key = other then count counts key+1 else count counts other := by
  simp only [count, increment, Dict.get?_set]
  split <;> rfl

theorem count_decrement {γ : Type} [DecidableEq γ] (counts : Dict γ ℕ) (key other : γ) :
    count (decrement counts key) other =
      if key = other then count counts key-1 else count counts other := by
  unfold decrement
  by_cases he : key = other
  · subst he
    rw [if_pos rfl]
    split
    · next hle =>
      have hz : count (Dict.pop counts key) key = 0 := by simp [count, Dict.get?_pop]
      omega
    · simp [count, Dict.get?_set]
  · rw [if_neg he]
    split
    · simp [count, Dict.get?_pop, he]
    · simp [count, Dict.get?_set, he]

/-- The facts that hold of the tables and the callers along every run. -/
structure Inv (w : World κ α) : Prop where
  sound : Sound w.life
  put : ∀ key adapter, Held w.life key adapter → adapter ∈ w.everPut
  handed : ∀ adapter ∈ w.handedOut, adapter ∈ w.everPut ∧ ∀ key, ¬ Held w.life key adapter
  once : w.handedOut.Nodup
  leases : ∀ adapter, count w.life.leases adapter =
    w.outstanding.countP fun l => l.adapter = adapter
  leased : ∀ l ∈ w.outstanding, Held w.life l.key l.adapter
  reservations : ∀ key, count w.life.reservations key = w.reserved key

/-- An adapter that is ready for cleanup has no lease among its callers. -/
theorem Change.unleased {idle : α → Prop} {s t : Lifecycle κ α} {out : List α}
    (h : Change idle s t out) {outstanding : List (EndpointAdapterLease κ α)}
    (hl : ∀ adapter, count s.leases adapter =
      outstanding.countP fun l => l.adapter = adapter)
    {adapter : α} (ha : adapter ∈ out) {l : EndpointAdapterLease κ α}
    (hm : l ∈ outstanding) : l.adapter ≠ adapter := by
  rintro rfl
  obtain ⟨-, -, -, hz, -⟩ := h.ready l.adapter ha
  rw [hl] at hz
  exact List.countP_eq_zero.mp hz l hm (by simp)

/-- A change of the tables under counts that match the callers keeps the facts. -/
theorem Inv.change {w : World κ α} (h : Inv w) {idle : α → Prop} {s t : Lifecycle κ α}
    {out : List α} {outstanding : List (EndpointAdapterLease κ α)} {reserved : κ → ℕ}
    (hc : Change idle s t out) (ha : s.active = w.life.active)
    (hr : s.retired = w.life.retired)
    (hl : ∀ adapter, count s.leases adapter =
      outstanding.countP fun l => l.adapter = adapter)
    (hsub : ∀ l ∈ outstanding, Held w.life l.key l.adapter)
    (hres : ∀ key, count s.reservations key = reserved key) :
    Inv ⟨t, outstanding, reserved, w.everPut, w.handedOut++out⟩ := by
  have hheld (key : κ) (adapter : α) : Held t key adapter ↔
      Held w.life key adapter ∧ adapter ∉ out := by
    rw [hc.held, held_congr ha hr]
  have hout (adapter : α) (hm : adapter ∈ out) : ∃ key, Held w.life key adapter := by
    obtain ⟨-, key, hk, -⟩ := hc.ready adapter hm
    exact ⟨key, (held_congr ha hr key adapter).mp hk⟩
  refine ⟨hc.sound (sound_congr ha hr h.sound), ?_, ?_, ?_, ?_, ?_, ?_⟩
  · intro key adapter hk
    exact h.put key adapter ((hheld key adapter).mp hk).1
  · intro adapter hm
    rcases List.mem_append.mp hm with hm | hm
    · exact ⟨(h.handed adapter hm).1, fun key hk =>
        (h.handed adapter hm).2 key ((hheld key adapter).mp hk).1⟩
    · obtain ⟨key, hk⟩ := hout adapter hm
      exact ⟨h.put key adapter hk, fun other ho => ((hheld other adapter).mp ho).2 hm⟩
  · refine List.nodup_append.mpr ⟨h.once, hc.nodup, ?_⟩
    rintro a hm b hb rfl
    obtain ⟨key, hk⟩ := hout a hb
    exact (h.handed a hm).2 key hk
  · intro adapter
    rw [hc.leases]
    exact hl adapter
  · intro l hm
    exact (hheld l.key l.adapter).mpr ⟨hsub l hm, fun hin => hc.unleased hl hin hm rfl⟩
  · intro key
    rw [hc.reservations]
    exact hres key

/-- A lease of an adapter in the tables keeps the facts. -/
theorem Inv.grant {w : World κ α} (h : Inv w) {key : κ} {adapter : α}
    (hheld : Held w.life key adapter) :
    Inv { w with
      life := (w.life.lease key adapter).2
      outstanding := (w.life.lease key adapter).1.toList++w.outstanding } := by
  refine ⟨sound_congr (s := w.life) rfl rfl h.sound, h.put, h.handed, h.once, ?_, ?_, h.reservations⟩
  · intro other
    simp only [Lifecycle.lease, count_increment, Option.toList_some, List.singleton_append,
      List.countP_cons, h.leases]
    by_cases he : adapter = other <;> simp [he]
  · intro l hm
    simp only [Lifecycle.lease, Option.toList_some, List.singleton_append, List.mem_cons] at hm
    rcases hm with rfl | hm
    · exact hheld
    · exact h.leased l hm

theorem owns_held {s : Lifecycle κ α} {key : κ} {adapter : α}
    (h : s.owns key adapter = true) : Held s key adapter := by
  simp only [Lifecycle.owns, Bool.or_eq_true, decide_eq_true_eq, Option.any_eq_true] at h
  rcases h with h | ⟨item, hr, hitem⟩
  · exact .inl h
  · obtain ⟨a, g⟩ := item
    exact .inr ⟨g, by rw [hr, show a = adapter from hitem]⟩

theorem Inv.acquire {w : World κ α} (h : Inv w) (key : κ) (adapter : Option α) :
    Inv { w with
      life := (w.life.acquire key adapter).2
      outstanding := (w.life.acquire key adapter).1.toList++w.outstanding } := by
  cases adapter with
  | some adapter =>
    simp only [Lifecycle.acquire]
    split
    · next how => exact h.grant (owns_held how)
    · exact h
  | none =>
    have hchange := get_change (fun _ => True) h.sound key
    have hinv := h.change hchange rfl rfl h.leases h.leased h.reservations
    rw [List.append_nil] at hinv
    unfold Lifecycle.acquire
    dsimp only
    split
    · next t hget =>
      rw [hget] at hinv
      exact hinv
    · next a t hget =>
      rw [hget] at hinv
      exact hinv.grant (get_held hget)

theorem Inv.used {w : World κ α} (h : Inv w) (key other : κ) :
    count (decrement w.life.reservations key) other =
      Function.update w.reserved key (w.reserved key-1) other := by
  rw [count_decrement, Function.update_apply, h.reservations, h.reservations]
  simp only [eq_comm]

theorem Inv.released {w : World κ α} (h : Inv w) {lease : EndpointAdapterLease κ α}
    (hl : lease ∈ w.outstanding) (adapter : α) :
    count (decrement w.life.leases lease.adapter) adapter =
      (w.outstanding.erase lease).countP fun l => l.adapter = adapter := by
  rw [count_decrement, h.leases, h.leases]
  have hp := List.perm_cons_erase hl
  have hc := hp.countP_eq fun l => decide (l.adapter = adapter)
  rw [List.countP_cons] at hc
  by_cases he : lease.adapter = adapter
  · rw [he]
    simp only [he, decide_true, if_true] at hc ⊢
    omega
  · simp only [he, decide_false, Bool.false_eq_true, if_false, Nat.add_zero] at hc ⊢
    exact hc

theorem Inv.put_new {w : World κ α} (h : Inv w) {key : κ} {adapter : α}
    (ha : Dict.get? w.life.active key = none) (hr : Dict.get? w.life.retired key = none)
    (hnew : adapter ∉ w.everPut) :
    Inv { w with life := w.life.put key adapter, everPut := adapter::w.everPut } := by
  have hheld (k : κ) (a : α) : Held (w.life.put key adapter) k a ↔
      Held w.life k a ∨ (k = key ∧ a = adapter) := by
    simp only [Held, Lifecycle.put, Dict.get?_set]
    by_cases he : key = k
    · subst he
      simp [ha, hr, eq_comm]
    · simp [he, Ne.symm he]
  have hold (k : κ) (a : α) (hk : Held w.life k a) : a ≠ adapter := by
    rintro rfl
    exact hnew (h.put k a hk)
  refine ⟨⟨?_, ?_⟩, ?_, ?_, h.once, h.leases, ?_, h.reservations⟩
  · intro k hk
    by_cases he : key = k
    · subst he
      exact hr
    · refine h.sound.apart k ?_
      simpa [Lifecycle.put, Dict.get?_set, he] using hk
  · intro k l a hk hl
    rcases (hheld k a).mp hk with hk | ⟨rfl, rfl⟩
    · rcases (hheld l a).mp hl with hl | ⟨-, he⟩
      · exact h.sound.single k l a hk hl
      · exact (hold k a hk he).elim
    · rcases (hheld l a).mp hl with hl | ⟨rfl, -⟩
      · exact (hold l a hl rfl).elim
      · rfl
  · intro k a hk
    rcases (hheld k a).mp hk with hk | ⟨-, rfl⟩
    · exact List.mem_cons_of_mem _ (h.put k a hk)
    · exact List.mem_cons_self
  · intro a hm
    obtain ⟨hput, hno⟩ := h.handed a hm
    refine ⟨List.mem_cons_of_mem _ hput, fun k hk => ?_⟩
    rcases (hheld k a).mp hk with hk | ⟨-, rfl⟩
    · exact hno k hk
    · exact hnew hput
  · intro l hm
    exact (hheld l.key l.adapter).mpr (.inl (h.leased l hm))

/-- What the callers ensure is enough for one step. -/
theorem step_inv (w : World κ α) (e : Event κ α) (h : Inv w) (hl : Legal w e) :
    Inv (step w e) := by
  cases e with
  | reserve key =>
    refine Inv.change (s := w.life.reserve key) h (Change.refl (fun _ => True)
      (sound_congr (s := w.life) rfl rfl h.sound)) rfl rfl h.leases h.leased ?_
    intro k
    simp only [Lifecycle.reserve, count_increment, reservedAfter, Function.update_apply,
      h.reservations, eq_comm]
  | cancelReservation key isIdle =>
    exact Inv.change h (cancelReservation_change isIdle h.sound key) rfl rfl h.leases h.leased
      (h.used key)
  | get key =>
    exact Inv.change h (get_change (fun _ => True) h.sound key) rfl rfl h.leases h.leased
      h.reservations
  | put key adapter =>
    obtain ⟨ha, hr, hnew⟩ := hl
    have hinv := h.put_new ha hr hnew
    rw [← List.append_nil w.handedOut] at hinv
    exact hinv
  | acquire key adapter =>
    have hinv := h.acquire key adapter
    rw [← List.append_nil w.handedOut] at hinv
    exact hinv
  | acquireReserved key adapter =>
    have hused := Inv.change (s := { w.life with
      reservations := decrement w.life.reservations key }) h
      (Change.refl (fun _ => True) (sound_congr (s := w.life) rfl rfl h.sound)) rfl rfl h.leases
      h.leased (h.used key)
    exact hused.acquire key (some adapter)
  | release lease isIdle =>
    exact Inv.change h (release_change isIdle h.sound lease) rfl rfl (h.released hl)
      (fun l hm => h.leased l (List.mem_of_mem_erase hm)) h.reservations
  | install liveKeys isIdle scanIdle claimedIdle listens =>
    exact Inv.change h (install_change liveKeys isIdle scanIdle claimedIdle listens h.sound)
      rfl rfl h.leases h.leased
      h.reservations
  | claimIdle key adapter isIdle =>
    exact Inv.change h (claimIdle_change isIdle h.sound key adapter) rfl rfl h.leases h.leased
      h.reservations

theorem run_inv {es : List (Event κ α)} (h : Allowed Legal step ({} : World κ α) es) :
    Inv (run step ({} : World κ α) es) := by
  refine Allowed.invariant step_inv ?_ h
  have hnone (key : κ) (adapter : α) : ¬ Held ({} : World κ α).life key adapter := by
    simp [Held]
  exact ⟨⟨by simp, fun k l a hk => (hnone k a hk).elim⟩, fun k a hk => (hnone k a hk).elim,
    by simp, List.nodup_nil, fun _ => rfl, by simp, fun _ => rfl⟩

/-- The adapter said during the event that it has no work. -/
def AnsweredIdle (adapter : α) : Event κ α → Prop
  | .cancelReservation _ isIdle => isIdle adapter = true
  | .release _ isIdle => isIdle adapter = true
  | .install _ isIdle _ claimedIdle _ => isIdle adapter = true ∨ claimedIdle adapter = true
  | .claimIdle _ _ isIdle => isIdle adapter = true
  | _ => False

/-- An adapter handed out by an event: its key, free of reservations, held it until
then, it had no work and no lease, and it was not handed out before. -/
structure SafeHandout (w : World κ α) (e : Event κ α) (adapter : α) : Prop where
  idle : AnsweredIdle adapter e
  owner : ∃ key, Held w.life key adapter ∧ (step w e).reserved key = 0
  unleased : ∀ l ∈ (step w e).outstanding, l.adapter ≠ adapter
  removed : ∀ key, ¬ Held (step w e).life key adapter
  first : adapter ∉ w.handedOut

theorem handout_ready (w : World κ α) (e : Event κ α) (h : Inv w) {adapter : α}
    (ha : adapter ∈ (perform w.life e).1) :
    AnsweredIdle adapter e ∧ ∃ key, Held w.life key adapter ∧ (step w e).reserved key = 0 := by
  cases e with
  | reserve key => simp [perform] at ha
  | get key => simp [perform] at ha
  | put key adapter => simp [perform] at ha
  | acquire key adapter => simp [perform] at ha
  | acquireReserved key adapter => simp [perform] at ha
  | cancelReservation key isIdle =>
    have hc := cancelReservation_change isIdle h.sound key
    obtain ⟨hidle, k, hk, -, hr⟩ := hc.ready adapter ha
    exact ⟨hidle, k, hk, (h.used key k).symm.trans hr⟩
  | release lease isIdle =>
    have hc := release_change isIdle h.sound lease
    obtain ⟨hidle, k, hk, -, hr⟩ := hc.ready adapter ha
    exact ⟨hidle, k, hk, (h.reservations k).symm.trans hr⟩
  | install liveKeys isIdle scanIdle claimedIdle listens =>
    have hc := install_change liveKeys isIdle scanIdle claimedIdle listens h.sound
    obtain ⟨hidle, k, hk, -, hr⟩ := hc.ready adapter ha
    exact ⟨hidle, k, hk, (h.reservations k).symm.trans hr⟩
  | claimIdle key other isIdle =>
    have hc := claimIdle_change isIdle h.sound key other
    obtain ⟨hidle, k, hk, -, hr⟩ := hc.ready adapter ha
    exact ⟨hidle, k, hk, (h.reservations k).symm.trans hr⟩

theorem handout_safe (w : World κ α) (e : Event κ α) (h : Inv w) (hl : Legal w e) {adapter : α}
    (ha : adapter ∈ (perform w.life e).1) : SafeHandout w e adapter := by
  have hnext := step_inv w e h hl
  have hm : adapter ∈ (step w e).handedOut := List.mem_append_right _ ha
  obtain ⟨hidle, howner⟩ := handout_ready w e h ha
  have hgone := (hnext.handed adapter hm).2
  refine ⟨hidle, howner, ?_, hgone, ?_⟩
  · rintro l hl rfl
    exact hgone l.key (hnext.leased l hl)
  · intro hin
    have hdisjoint := (List.nodup_append.mp hnext.once).2.2
    exact hdisjoint adapter hin adapter ha rfl

/-- An adapter outside the tables cannot be acquired. -/
theorem acquire_not_held {w : World κ α} (h : Inv w) {adapter : α}
    (hno : ∀ key, ¬ Held w.life key adapter) (key : κ) (given : Option α)
    (l : EndpointAdapterLease κ α) (hl : (w.life.acquire key given).1 = some l) :
    l.adapter ≠ adapter := by
  rintro rfl
  cases given with
  | some a =>
    simp only [Lifecycle.acquire] at hl
    split at hl
    · next how =>
      cases hl
      exact hno key (owns_held how)
    · cases hl
  | none =>
    have hchange := get_change (fun _ => True) h.sound key
    simp only [Lifecycle.acquire] at hl
    split at hl
    · cases hl
    · next a t hget =>
      cases hl
      rw [hget] at hchange
      exact hno key ((hchange.held key a).mp (get_held hget)).1

/-- Along every run that the callers may make, the tables keep every adapter in one
place and count its leases, and an adapter is cleaned up once, unused, for good. -/
theorem endpoint_lifecycle_safe (es : List (Event κ α))
    (h : Allowed Legal step ({} : World κ α) es) :
    Sound (run step {} es).life ∧
    (∀ adapter, count (run step {} es).life.leases adapter =
      (run step {} es).outstanding.countP fun l => l.adapter = adapter) ∧
    (∀ before e after, es = before++e::after →
      ∀ adapter ∈ (perform (run step {} before).life e).1,
        SafeHandout (run step {} before) e adapter) ∧
    (run step {} es).handedOut.Nodup ∧
    ∀ adapter ∈ (run step {} es).handedOut,
      (∀ key, ¬ Held (run step {} es).life key adapter) ∧
      (∀ l ∈ (run step {} es).outstanding, l.adapter ≠ adapter) ∧
      ∀ key given l, ((run step {} es).life.acquire key given).1 = some l →
        l.adapter ≠ adapter := by
  have hinv := run_inv h
  refine ⟨hinv.sound, hinv.leases, ?_, hinv.once, ?_⟩
  · rintro before e after rfl adapter ha
    obtain ⟨hbefore, hlegal, -⟩ := allowed_append.mp h
    exact handout_safe _ e (run_inv hbefore) hlegal ha
  · intro adapter hm
    have hgone := (hinv.handed adapter hm).2
    refine ⟨hgone, ?_, acquire_not_held hinv hgone⟩
    rintro l hl rfl
    exact hgone l.key (hinv.leased l hl)

/-- An adapter is leased, dropped by a new topology while it works, and cleaned up
when its lease ends. -/
def drained : List (Event ℕ ℕ) :=
  [.put 0 7, .acquire 0 none, .install [] (fun _ => true) (fun _ => true) (fun _ => true)
    (fun _ => true), .release ⟨0, 7, 0⟩ (fun _ => true)]

theorem drained_safe :
    (run step {} drained).handedOut = [7] ∧ Sound (run step {} drained).life ∧
      SafeHandout (run step {} (drained.take 3)) (.release ⟨0, 7, 0⟩ fun _ => true) 7 := by
  have h : Allowed Legal step ({} : World ℕ ℕ) drained :=
    ⟨⟨rfl, rfl, by decide⟩, trivial, trivial, List.Mem.head _, trivial⟩
  have hsafe := endpoint_lifecycle_safe drained h
  exact ⟨rfl, hsafe.1, hsafe.2.2.1 (drained.take 3) _ [] rfl 7 (by decide)⟩

end FerricStore.EndpointLifecycle
