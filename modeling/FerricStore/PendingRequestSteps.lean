import FerricStore.PendingRequests

/-!
# One step of the registry

The tables are sound when the futures, the sizes and the bindings have the same
ids in the same order and the byte total is the sum of the sizes. A request that
leaves keeps them sound, and a failed registration leaves nothing behind.
-/

set_option autoImplicit false

namespace FerricStore.PendingRequests
open Dict

variable {φ σ τ : Type}

/-- The tables agree with each other and with the budget. -/
structure Sound (r : Registry φ σ τ) : Prop where
  unique : (keys r.pending).Nodup
  sizes : keys r.budget.sizes = keys r.pending
  bindings : keys r.bindings = keys r.pending
  identities : ∀ k ∈ keys r.identities, k ∈ keys r.pending
  traces : ∀ k ∈ keys r.traces, k ∈ keys r.pending
  total : r.budget.totalBytes = ((r.budget.sizes.map Prod.snd).sum : ℕ)
  bytes : ∀ limit ∈ r.budget.maxBytes, r.budget.totalBytes ≤ limit
  requests : ∀ limit ∈ r.budget.maxRequests, r.pending.length ≤ limit

/-- The tables that the limits and the responses are read from. -/
def SameTables (r s : Registry φ σ τ) : Prop :=
  s.budget = r.budget ∧ s.pending = r.pending ∧ s.bindings = r.bindings ∧
    s.identities = r.identities ∧ s.traces = r.traces

theorem length_sizes {r : Registry φ σ τ} (h : Sound r) :
    r.budget.sizes.length = r.pending.length := by
  have hs := congrArg List.length h.sizes
  simpa using hs

namespace PendingRequestBudget

theorem reserve_ok {b c : PendingRequestBudget} {id : ℕ} (h : b.reserve id = .ok c) :
    id ∉ keys b.sizes ∧ (∀ limit ∈ b.maxRequests, b.sizes.length < limit) ∧
      c = { b with sizes := b.sizes++[(id, 0)] } := by
  unfold reserve at h
  by_cases hc : contains b.sizes id = true
  · rw [if_pos hc] at h
    cases h
  · rw [if_neg hc] at h
    have hid : id ∉ keys b.sizes := fun hm => hc ((get?_isSome_iff b.sizes id).mpr hm)
    rw [set_of_not_mem b.sizes id 0 hid] at h
    cases hm : b.maxRequests with
    | none =>
      rw [hm] at h
      cases h
      exact ⟨hid, by simp, rfl⟩
    | some limit =>
      simp only [hm] at h
      split at h
      · cases h
      · next hl =>
        cases h
        refine ⟨hid, ?_, rfl⟩
        intro l he
        cases he
        omega

theorem setSize_ok {b c : PendingRequestBudget} {id : ℕ} {size : ℤ}
    (h : b.setSize id size = .ok c) :
    0 ≤ size ∧ ∃ previous, get? b.sizes id = some previous ∧
      (∀ limit ∈ b.maxBytes, b.totalBytes-previous+size ≤ limit) ∧
      c = b.resize id size.toNat (b.totalBytes-previous+size) := by
  unfold setSize at h
  by_cases hz : size < 0
  · rw [if_pos hz] at h
    cases h
  · rw [if_neg hz] at h
    refine ⟨by omega, ?_⟩
    cases hp : get? b.sizes id with
    | none =>
      rw [hp] at h
      cases h
    | some previous =>
      rw [hp] at h
      refine ⟨previous, rfl, ?_⟩
      cases hm : b.maxBytes with
      | none =>
        simp only [hm] at h
        cases h
        exact ⟨by simp, rfl⟩
      | some limit =>
        simp only [hm] at h
        split at h
        · cases h
        · next hl =>
          cases h
          refine ⟨?_, rfl⟩
          intro l he
          cases he
          omega

theorem release_sizes (b : PendingRequestBudget) (id : ℕ) :
    (b.release id).sizes = pop b.sizes id := by
  unfold release
  cases h : get? b.sizes id with
  | none =>
    have hid : id ∉ keys b.sizes := fun hm => by
      simpa [h] using (get?_isSome_iff b.sizes id).mpr hm
    exact (pop_of_not_mem b.sizes id hid).symm
  | some size => rfl

theorem release_limits (b : PendingRequestBudget) (id : ℕ) :
    (b.release id).maxBytes = b.maxBytes ∧ (b.release id).maxRequests = b.maxRequests := by
  unfold release
  split <;> exact ⟨rfl, rfl⟩

theorem release_total {b : PendingRequestBudget} (id : ℕ) (hd : (keys b.sizes).Nodup)
    (h : b.totalBytes = ((b.sizes.map Prod.snd).sum : ℕ)) :
    (b.release id).totalBytes = (((b.release id).sizes.map Prod.snd).sum : ℕ) ∧
      (b.release id).totalBytes ≤ b.totalBytes := by
  rw [release_sizes]
  unfold release
  cases hs : get? b.sizes id with
  | none =>
    have hid : id ∉ keys b.sizes := fun hm => by
      simpa [hs] using (get?_isSome_iff b.sizes id).mpr hm
    rw [pop_of_not_mem b.sizes id hid]
    exact ⟨h, le_refl _⟩
  | some size =>
    have hp := sum_pop b.sizes id size hd hs
    dsimp only
    constructor <;> omega

end PendingRequestBudget

theorem keys_setIfGiven {β : Type} (d : Dict ℕ β) (id : ℕ) (v : Option β) (k : ℕ)
    (h : k ∈ keys (setIfGiven d id v)) : k = id ∨ k ∈ keys d := by
  cases v with
  | none => exact .inr h
  | some v => exact (mem_keys_set d id k v).mp h

theorem pop_setIfGiven {β : Type} (d : Dict ℕ β) (id : ℕ) (v : Option β) (h : id ∉ keys d) :
    pop (setIfGiven d id v) id = d := by
  cases v with
  | none => exact pop_of_not_mem d id h
  | some v => exact pop_set_of_not_mem d id v h

theorem get?_setIfGiven {β : Type} (d : Dict ℕ β) (id k : ℕ) (v : Option β)
    (h : id ∉ keys d) :
    get? (setIfGiven d id v) k = if id = k then v else get? d k := by
  cases v with
  | some v => exact get?_set d id k v
  | none =>
    by_cases hk : id = k
    · subst hk
      rw [if_pos rfl]
      exact get?_eq_none_of_not_mem d id h
    · rw [if_neg hk]
      rfl

namespace Registry

theorem forget_tables (keepCount : Bool) (r : Registry φ σ τ) (id : ℕ) :
    (r.forget keepCount id).pending = pop r.pending id ∧
      (r.forget keepCount id).bindings = pop r.bindings id ∧
      (r.forget keepCount id).identities = pop r.identities id ∧
      (r.forget keepCount id).traces = pop r.traces id ∧
      (r.forget keepCount id).budget = r.budget.release id := ⟨rfl, rfl, rfl, rfl, rfl⟩

theorem forget_pending (keepCount : Bool) (r : Registry φ σ τ) (id : ℕ) :
    (r.forget keepCount id).pending = pop r.pending id := rfl

theorem forget_identities (keepCount : Bool) (r : Registry φ σ τ) (id : ℕ) :
    (r.forget keepCount id).identities = pop r.identities id := rfl

theorem forget_bindings (keepCount : Bool) (r : Registry φ σ τ) (id : ℕ) :
    (r.forget keepCount id).bindings = pop r.bindings id := rfl

/-- Whoever leaves, the tables stay sound. -/
theorem sound_forget {r : Registry φ σ τ} (h : Sound r) (keepCount : Bool) (id : ℕ) :
    Sound (r.forget keepCount id) := by
  have hd : (keys r.budget.sizes).Nodup := h.sizes ▸ h.unique
  obtain ⟨htotal, hle⟩ := PendingRequestBudget.release_total id hd h.total
  obtain ⟨hbytes, hrequests⟩ := r.budget.release_limits id
  refine ⟨nodup_pop r.pending id h.unique, ?_, ?_, ?_, ?_, htotal, ?_, ?_⟩
  · change keys (r.budget.release id).sizes = keys (pop r.pending id)
    rw [PendingRequestBudget.release_sizes, keys_pop, keys_pop, h.sizes]
  · change keys (pop r.bindings id) = keys (pop r.pending id)
    rw [keys_pop, keys_pop, h.bindings]
  · intro k hk
    change k ∈ keys (pop r.identities id) at hk
    change k ∈ keys (pop r.pending id)
    rw [keys_pop, List.mem_filter] at hk ⊢
    exact ⟨h.identities k hk.1, hk.2⟩
  · intro k hk
    change k ∈ keys (pop r.traces id) at hk
    change k ∈ keys (pop r.pending id)
    rw [keys_pop, List.mem_filter] at hk ⊢
    exact ⟨h.traces k hk.1, hk.2⟩
  · intro limit hm
    exact hle.trans (h.bytes limit (hbytes ▸ hm))
  · intro limit hm
    exact (List.length_filter_le _ _).trans (h.requests limit (hrequests ▸ hm))

theorem sound_enter {r : Registry φ σ τ} (h : Sound r) {a : Registration φ σ τ}
    {budget : PendingRequestBudget} (hb : r.budget.reserve a.requestId = .ok budget) :
    Sound (r.enter budget a) := by
  obtain ⟨hs, hlt, rfl⟩ := PendingRequestBudget.reserve_ok hb
  have hp : a.requestId ∉ keys r.pending := h.sizes ▸ hs
  have hbd : a.requestId ∉ keys r.bindings := h.bindings ▸ hp
  have hkeys : keys (set r.pending a.requestId a.future) =
      keys r.pending++[a.requestId] := by
    rw [set_of_not_mem _ _ _ hp]
    simp [keys]
  refine ⟨nodup_set _ _ _ h.unique, ?_, ?_, ?_, ?_, ?_, h.bytes, ?_⟩
  · change keys (r.budget.sizes++[(a.requestId, 0)]) = keys (set r.pending _ _)
    rw [hkeys, ← h.sizes]
    simp [keys]
  · change keys (set r.bindings _ _) = keys (set r.pending _ _)
    rw [hkeys, set_of_not_mem _ _ _ hbd, ← h.bindings]
    simp [keys]
  · intro k hk
    refine (mem_keys_set _ _ _ _).mpr ?_
    rcases keys_setIfGiven _ _ _ k hk with he | hm
    · exact .inl he
    · exact .inr (h.identities k hm)
  · intro k hk
    refine (mem_keys_set _ _ _ _).mpr ?_
    rcases keys_setIfGiven _ _ _ k hk with he | hm
    · exact .inl he
    · exact .inr (h.traces k hm)
  · change r.budget.totalBytes = (((r.budget.sizes++[(a.requestId, 0)]).map Prod.snd).sum : ℕ)
    rw [List.map_append, List.sum_append]
    simpa using h.total
  · intro limit hm
    have hl := hlt limit hm
    rw [length_sizes h] at hl
    change (set r.pending a.requestId a.future).length ≤ limit
    rw [set_of_not_mem _ _ _ hp, List.length_append, List.length_singleton]
    omega

/-- The rollback undoes what a failed registration has written. -/
theorem rollback_enter {r : Registry φ σ τ} (h : Sound r) {a : Registration φ σ τ}
    {budget : PendingRequestBudget} (hb : r.budget.reserve a.requestId = .ok budget) :
    SameTables r ((r.enter budget a).rollback a.requestId) := by
  obtain ⟨hs, -, rfl⟩ := PendingRequestBudget.reserve_ok hb
  have hp : a.requestId ∉ keys r.pending := h.sizes ▸ hs
  have hbd : a.requestId ∉ keys r.bindings := h.bindings ▸ hp
  have hi : a.requestId ∉ keys r.identities := fun hm => hp (h.identities _ hm)
  have ht : a.requestId ∉ keys r.traces := fun hm => hp (h.traces _ hm)
  refine ⟨?_, pop_set_of_not_mem _ _ _ hp, pop_set_of_not_mem _ _ _ hbd,
    pop_setIfGiven _ _ _ hi, pop_setIfGiven _ _ _ ht⟩
  have hsize : get? (r.budget.sizes++[(a.requestId, 0)]) a.requestId = some 0 := by
    rw [get?_append, get?_eq_none_of_not_mem _ _ hs]
    simp [get?]
  have hpop : pop (r.budget.sizes++[(a.requestId, 0)]) a.requestId = r.budget.sizes := by
    rw [← set_of_not_mem _ _ _ hs]
    exact pop_set_of_not_mem _ _ _ hs
  simp only [rollback, enter, PendingRequestBudget.release, hsize, hpop, Nat.cast_zero, sub_zero]

theorem sound_setSize {r : Registry φ σ τ} (h : Sound r) {id : ℕ} {size : ℤ}
    {budget : PendingRequestBudget} (hb : r.budget.setSize id size = .ok budget) :
    Sound { r with budget := budget } := by
  obtain ⟨hz, previous, hp, hle, rfl⟩ := PendingRequestBudget.setSize_ok hb
  have hk : id ∈ keys r.budget.sizes := (get?_isSome_iff _ _).mp (by simp [hp])
  refine ⟨h.unique, ?_, h.bindings, h.identities, h.traces, ?_, hle, h.requests⟩
  · change keys (set r.budget.sizes id size.toNat) = keys r.pending
    rw [keys_set_of_mem _ _ _ hk, h.sizes]
  · change r.budget.totalBytes-previous+size =
      (((set r.budget.sizes id size.toNat).map Prod.snd).sum : ℕ)
    have hsum := sum_set r.budget.sizes id size.toNat previous hp
    have htotal := h.total
    omega

/-- A registration that raises leaves the tables as they were. -/
theorem register_raises {r : Registry φ σ τ} (h : Sound r) {a : Registration φ σ τ}
    (he : (r.register a).1 ≠ none) : SameTables r (r.register a).2 := by
  unfold register at he ⊢
  cases hb : r.budget.reserve a.requestId with
  | error e => exact ⟨rfl, rfl, rfl, rfl, rfl⟩
  | ok budget =>
    simp only [hb] at he ⊢
    split
    · exact rollback_enter h hb
    · split
      · simp_all
      · simp_all

/-- A registration that returns has entered the request. -/
theorem register_returns {r : Registry φ σ τ} {a : Registration φ σ τ}
    (he : (r.register a).1 = none) : ∃ budget deadlines,
      r.budget.reserve a.requestId = .ok budget ∧
      (r.register a).2 = { r.enter budget a with deadlines := deadlines } := by
  unfold register at he ⊢
  cases hb : r.budget.reserve a.requestId with
  | error e => simp [hb] at he
  | ok budget =>
    simp only [hb] at he ⊢
    refine ⟨budget, ?_⟩
    split
    · next hx => simp [hx] at he
    · split
      · exact ⟨_, rfl, rfl⟩
      · exact ⟨_, rfl, rfl⟩

theorem setSize_raises (r : Registry φ σ τ) {id : ℕ} {size : ℤ}
    (he : (r.setSize id size).1 ≠ none) : SameTables r (r.setSize id size).2 := by
  unfold setSize at he ⊢
  split
  · exact ⟨rfl, rfl, rfl, rfl, rfl⟩
  · simp_all

theorem bound_forget (r : Registry φ σ τ) (keepCount : Bool) (generation : Option ℕ)
    {id other : ℕ} (hne : id ≠ other) :
    (r.forget keepCount id).bound generation other = r.bound generation other := by
  simp only [bound, forget_bindings, get?_pop, hne, if_false]

/-- The requests that `fail` takes, each with its own identity, and the tables it leaves. -/
theorem foldl_failOne (generation : Option ℕ) (entries : List (ℕ × φ))
    (hd : (keys entries).Nodup) (acc : List (φ × Option ResponseIdentity))
    (r : Registry φ σ τ) :
    entries.foldl (failOne generation) (acc, r) =
      (acc++(entries.filter fun e => r.bound generation e.1).map
          (fun e => (e.2, get? r.identities e.1)),
        (entries.filter fun e => r.bound generation e.1).foldl
          (fun s e => s.forget false e.1) r) := by
  induction entries generalizing acc r with
  | nil => simp
  | cons e entries ih =>
    rw [keys, List.map_cons, List.nodup_cons] at hd
    rw [List.foldl_cons, failOne]
    by_cases hb : r.bound generation e.1 = true
    · have hne (x : ℕ × φ) (hx : x ∈ entries) : e.1 ≠ x.1 := fun he =>
        hd.1 (he ▸ List.mem_map_of_mem (f := Prod.fst) hx)
      have hbound : (entries.filter fun x => (r.forget false e.1).bound generation x.1) =
          entries.filter fun x => r.bound generation x.1 :=
        List.filter_congr fun x hx => bound_forget r false generation (hne x hx)
      have hids : (entries.filter fun x => r.bound generation x.1).map
            (fun x => (x.2, get? (r.forget false e.1).identities x.1)) =
          (entries.filter fun x => r.bound generation x.1).map
            (fun x => (x.2, get? r.identities x.1)) := by
        refine List.map_congr_left fun x hx => ?_
        rw [forget_identities, get?_pop, if_neg (hne x (List.mem_of_mem_filter hx))]
      have hcons : (List.filter (fun x => r.bound generation x.1) (e::entries)) =
          e::entries.filter fun x => r.bound generation x.1 := List.filter_cons_of_pos hb
      rw [if_pos hb, ih hd.2, hbound, hids, hcons, List.map_cons, List.foldl_cons,
        List.append_assoc, List.singleton_append]
    · have hcons : (List.filter (fun x => r.bound generation x.1) (e::entries)) =
          entries.filter fun x => r.bound generation x.1 := List.filter_cons_of_neg hb
      rw [if_neg hb, ih hd.2, hcons]

theorem pending_foldl_forget (entries : List (ℕ × φ)) (r : Registry φ σ τ) :
    (entries.foldl (fun s e => s.forget false e.1) r).pending =
      r.pending.filter fun e => e.1 ∉ keys entries := by
  induction entries generalizing r with
  | nil => simp
  | cons e entries ih =>
    rw [List.foldl_cons, ih, forget_pending, pop, List.filter_filter]
    refine List.filter_congr fun x _ => ?_
    simp only [keys, List.map_cons, List.mem_cons, not_or, ← Bool.decide_and, decide_eq_decide]
    tauto

/-- `fail` removes exactly the requests bound to the generation. -/
theorem fail_pending {ε : Type} {r : Registry φ σ τ} (h : Sound r) (exc : ε)
    (generation : Option ℕ) :
    (r.fail exc generation).2.pending =
      r.pending.filter fun e => !r.bound generation e.1 := by
  unfold fail
  rw [foldl_failOne generation r.pending h.unique, pending_foldl_forget]
  refine List.filter_congr fun e he => ?_
  have hmem : e.1 ∈ keys (r.pending.filter fun x => r.bound generation x.1) ↔
      r.bound generation e.1 = true := by
    constructor
    · intro hm
      obtain ⟨x, hx, hxe⟩ := List.mem_map.mp hm
      rw [← hxe]
      exact (List.mem_filter.mp hx).2
    · intro hb
      exact List.mem_map_of_mem (f := Prod.fst) (List.mem_filter.mpr ⟨he, hb⟩)
  cases hb : r.bound generation e.1 <;> simp [hmem, hb]

theorem fail_attempts {ε : Type} {r : Registry φ σ τ} (h : Sound r) (exc : ε)
    (generation : Option ℕ) :
    (r.fail exc generation).1 = (r.pending.filter fun e => r.bound generation e.1).map
      fun e => (e.2, failError exc (get? r.identities e.1)) := by
  unfold fail
  rw [foldl_failOne generation r.pending h.unique]
  simp

theorem limits_forget (r : Registry φ σ τ) (keepCount : Bool) (id : ℕ) :
    (r.forget keepCount id).budget.maxRequests = r.budget.maxRequests ∧
      (r.forget keepCount id).budget.maxBytes = r.budget.maxBytes :=
  ⟨(r.budget.release_limits id).2, (r.budget.release_limits id).1⟩

theorem limits_reserve {r : Registry φ σ τ} {a : Registration φ σ τ}
    {budget : PendingRequestBudget} (hb : r.budget.reserve a.requestId = .ok budget) :
    budget.maxRequests = r.budget.maxRequests ∧ budget.maxBytes = r.budget.maxBytes := by
  obtain ⟨-, -, rfl⟩ := PendingRequestBudget.reserve_ok hb
  exact ⟨rfl, rfl⟩

theorem limits_foldl (entries : List (ℕ × φ)) (r : Registry φ σ τ) :
    (entries.foldl (fun s e => s.forget false e.1) r).budget.maxRequests =
        r.budget.maxRequests ∧
      (entries.foldl (fun s e => s.forget false e.1) r).budget.maxBytes = r.budget.maxBytes := by
  induction entries generalizing r with
  | nil => exact ⟨rfl, rfl⟩
  | cons e entries ih =>
    obtain ⟨hr, hb⟩ := ih (r.forget false e.1)
    obtain ⟨hr', hb'⟩ := limits_forget r false e.1
    exact ⟨hr.trans hr', hb.trans hb'⟩

/-- A pending request has a binding, and it is of the generation or not. -/
theorem bound_iff {r : Registry φ σ τ} (h : Sound r) {id : ℕ} (generation : ℕ) {future : φ}
    (hm : (id, future) ∈ r.pending) :
    ∃ binding, get? r.bindings id = some binding ∧
      (r.bound (some generation) id = true ↔ binding.1 = generation) := by
  have hk : id ∈ keys r.bindings := h.bindings ▸ List.mem_map_of_mem (f := Prod.fst) hm
  obtain ⟨binding, hb⟩ := Option.isSome_iff_exists.mp ((get?_isSome_iff _ _).mpr hk)
  exact ⟨binding, hb, by simp [bound, hb]⟩

end Registry
end FerricStore.PendingRequests
