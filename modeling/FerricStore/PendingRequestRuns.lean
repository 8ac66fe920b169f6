import FerricStore.PendingRequestSteps

/-!
# Every request is answered at most once

Beside the registry the futures that were registered, each with the identity its
response must have, and the futures that left it, each with the error it was
resolved with when the registry resolved it. Along every run a future leaves once,
and an error is the one of its own request.
-/

set_option autoImplicit false

namespace FerricStore.PendingRequests
open Dict GuardedRuns

variable {φ σ τ ε : Type}

inductive Op (φ σ τ ε : Type) where
  | register (a : Registration φ σ τ)
  | setSize (requestId : ℕ) (size : ℤ)
  | discard (requestId : ℕ) (expectedFuture : Option φ)
  | takeResponse (requestId : ℕ) (sock : Option σ)
  | expire (requestId : ℕ)
  | fail (exc : ε) (generation : Option ℕ)

/-- `resolved` holds the futures that left; one that was handed to the caller has no
error of the registry. -/
structure World (φ σ τ ε : Type) where
  registry : Registry φ σ τ
  registered : Dict φ (Option ResponseIdentity) := []
  resolved : Dict φ (Option (Failure ε)) := []

def start (maxRequests maxBytes : Option ℕ) : World φ σ τ ε :=
  ⟨⟨⟨maxRequests, maxBytes, [], 0⟩, [], [], [], [], [], []⟩, [], []⟩

def handed (future : Option φ) : Dict φ (Option (Failure ε)) :=
  future.toList.map fun f => (f, none)

def failed (attempts : List (φ × Failure ε)) : Dict φ (Option (Failure ε)) :=
  attempts.map fun a => (a.1, some a.2)

/-- What the world sees of a registration. -/
def entered (a : Registration φ σ τ) : Option RegistryError → Dict φ (Option ResponseIdentity)
  | none => [(a.future, a.responseIdentity)]
  | some _ => []

/-- The error of a request with this identity, expired or failed. -/
def OwnError (identity : Option ResponseIdentity) (failure : Failure ε) : Prop :=
  failure = expireError identity ∨ ∃ exc, failure = failError exc identity

/-- The facts that hold along every run. -/
structure Inv (w : World φ σ τ ε) : Prop where
  sound : Sound w.registry
  distinct : (keys w.registered).Nodup
  futures : (w.registry.pending.map Prod.snd).Nodup
  own : ∀ id future, (id, future) ∈ w.registry.pending →
    (future, get? w.registry.identities id) ∈ w.registered
  open_ : ∀ id future, (id, future) ∈ w.registry.pending → future ∉ keys w.resolved
  once : (keys w.resolved).Nodup
  answered : ∀ future outcome, (future, outcome) ∈ w.resolved → ∃ identity,
    (future, identity) ∈ w.registered ∧ ∀ failure ∈ outcome, OwnError identity failure

theorem inv_start (maxRequests maxBytes : Option ℕ) :
    Inv (start maxRequests maxBytes : World φ σ τ ε) := by
  refine ⟨⟨?_, rfl, rfl, ?_, ?_, rfl, ?_, ?_⟩, ?_, ?_, ?_, ?_, ?_, ?_⟩ <;> simp [start]

/-- A future leaves the registry, with an error of its own if any. -/
theorem Inv.leave {r : Registry φ σ τ} {registered : Dict φ (Option ResponseIdentity)}
    {resolved : Dict φ (Option (Failure ε))} (h : Inv ⟨r, registered, resolved⟩)
    {id : ℕ} {future : φ} (hm : (id, future) ∈ r.pending) (keepCount : Bool)
    (outcome : Option (Failure ε))
    (ho : ∀ failure ∈ outcome, OwnError (get? r.identities id) failure) :
    Inv ⟨r.forget keepCount id, registered, resolved++[(future, outcome)]⟩ := by
  have hsub {k : ℕ} {f : φ} (hk : (k, f) ∈ pop r.pending id) : (k, f) ∈ r.pending ∧ k ≠ id := by
    simpa [pop] using hk
  have hother {k : ℕ} {f : φ} (hk : (k, f) ∈ pop r.pending id) : f ≠ future := by
    rintro rfl
    have hinj := List.inj_on_of_nodup_map h.futures (hsub hk).1 hm rfl
    exact (hsub hk).2 (congrArg Prod.fst hinj)
  refine ⟨Registry.sound_forget h.sound keepCount id, h.distinct, ?_, ?_, ?_, ?_, ?_⟩
  · exact h.futures.sublist (List.filter_sublist.map _)
  · intro k f hk
    have hget : get? (r.forget keepCount id).identities k = get? r.identities k := by
      rw [Registry.forget_identities, get?_pop, if_neg (Ne.symm (hsub hk).2)]
    rw [hget]
    exact h.own k f (hsub hk).1
  · intro k f hk
    simp only [keys, List.map_append, List.map_cons, List.map_nil, List.mem_append,
      List.mem_singleton, not_or]
    exact ⟨h.open_ k f (hsub hk).1, hother hk⟩
  · simp only [keys, List.map_append, List.map_cons, List.map_nil]
    refine List.nodup_append.mpr ⟨h.once, List.nodup_singleton _, ?_⟩
    intro a ha b hb hab
    rw [List.mem_singleton] at hb
    subst hb hab
    exact h.open_ id a hm ha
  · intro f o hf
    rcases List.mem_append.mp hf with hf | hf
    · exact h.answered f o hf
    · cases List.mem_singleton.mp hf
      exact ⟨_, h.own id future hm, ho⟩

/-- A request that is not pending leaves no trace. -/
theorem Inv.absent {r : Registry φ σ τ} {registered : Dict φ (Option ResponseIdentity)}
    {resolved : Dict φ (Option (Failure ε))} (h : Inv ⟨r, registered, resolved⟩)
    {id : ℕ} (hm : get? r.pending id = none) (keepCount : Bool) :
    Inv ⟨r.forget keepCount id, registered, resolved⟩ := by
  have hid : id ∉ keys r.pending := fun hk => by
    simpa [hm] using (get?_isSome_iff r.pending id).mpr hk
  have hpending : (r.forget keepCount id).pending = r.pending := pop_of_not_mem _ _ hid
  have hidentities : (r.forget keepCount id).identities = r.identities :=
    pop_of_not_mem _ _ fun hk => hid (h.sound.identities id hk)
  refine ⟨Registry.sound_forget h.sound keepCount id, h.distinct, ?_, ?_, ?_, h.once, h.answered⟩
  · dsimp only
    rw [hpending]
    exact h.futures
  · dsimp only
    rw [hpending, hidentities]
    exact h.own
  · dsimp only
    rw [hpending]
    exact h.open_

/-- A request is taken out and its future, if it had one, is handed over. -/
theorem Inv.hand {r : Registry φ σ τ} {registered : Dict φ (Option ResponseIdentity)}
    {resolved : Dict φ (Option (Failure ε))} (h : Inv ⟨r, registered, resolved⟩)
    (id : ℕ) (keepCount : Bool) (outcome : Option (Failure ε))
    (ho : ∀ failure ∈ outcome, OwnError (get? r.identities id) failure) :
    Inv ⟨r.forget keepCount id, registered,
      resolved++(get? r.pending id).toList.map fun f => (f, outcome)⟩ := by
  cases hp : get? r.pending id with
  | none =>
    rw [Option.toList_none, List.map_nil, List.append_nil]
    exact h.absent hp keepCount
  | some future => exact h.leave (mem_of_get? hp) keepCount outcome ho

/-- All the requests of a list of pending entries leave with the errors of `fail`. -/
theorem Inv.leaveAll {registered : Dict φ (Option ResponseIdentity)} (exc : ε)
    (entries : List (ℕ × φ)) (hd : (keys entries).Nodup) (r : Registry φ σ τ)
    (resolved : Dict φ (Option (Failure ε))) (h : Inv ⟨r, registered, resolved⟩)
    (hsub : ∀ e ∈ entries, e ∈ r.pending) :
    Inv ⟨entries.foldl (fun s e => s.forget false e.1) r, registered,
      resolved++entries.map fun e =>
        (e.2, some (failError exc (get? r.identities e.1)))⟩ := by
  induction entries generalizing r resolved with
  | nil => simpa using h
  | cons e entries ih =>
    rw [keys, List.map_cons, List.nodup_cons] at hd
    have hne (x : ℕ × φ) (hx : x ∈ entries) : e.1 ≠ x.1 := fun he =>
      hd.1 (he ▸ List.mem_map_of_mem (f := Prod.fst) hx)
    have hhead := h.leave (hsub e (by simp)) false
      (some (failError exc (get? r.identities e.1)))
      (by rintro _ ⟨⟩; exact .inr ⟨exc, rfl⟩)
    have htail := ih hd.2 _ _ hhead fun x hx => by
      rw [Registry.forget_pending, pop, List.mem_filter]
      exact ⟨hsub x (List.mem_cons_of_mem _ hx), by simpa using Ne.symm (hne x hx)⟩
    have hmap : (entries.map fun x =>
          (x.2, some (failError exc (get? (r.forget false e.1).identities x.1)))) =
        entries.map fun x => (x.2, some (failError exc (get? r.identities x.1))) := by
      refine List.map_congr_left fun x hx => ?_
      rw [Registry.forget_identities, get?_pop, if_neg (hne x hx)]
    rw [hmap, List.append_assoc, List.singleton_append] at htail
    exact htail

theorem Inv.same {w : World φ σ τ ε} (h : Inv w) {r : Registry φ σ τ}
    (hs : SameTables w.registry r) : Inv { w with registry := r } := by
  obtain ⟨hb, hp, hbd, hi, ht⟩ := hs
  have hsound : Sound r := by
    obtain ⟨h1, h2, h3, h4, h5, h6, h7, h8⟩ := h.sound
    constructor <;> simp only [hb, hp, hbd, hi, ht] <;> assumption
  exact ⟨hsound, h.distinct, hp ▸ h.futures, hp ▸ hi ▸ h.own, hp ▸ h.open_, h.once, h.answered⟩

variable [DecidableEq φ] [DecidableEq σ]

def step (w : World φ σ τ ε) : Op φ σ τ ε → World φ σ τ ε
  | .register a =>
    { w with
      registry := (w.registry.register a).2
      registered := w.registered++entered a (w.registry.register a).1 }
  | .setSize requestId size => { w with registry := (w.registry.setSize requestId size).2 }
  | .discard requestId expectedFuture =>
    { w with
      registry := (w.registry.discard requestId expectedFuture).2
      resolved := w.resolved++handed (w.registry.discard requestId expectedFuture).1 }
  | .takeResponse requestId sock =>
    { w with
      registry := (w.registry.takeResponse requestId sock).2
      resolved := w.resolved++handed (w.registry.takeResponse requestId sock).1 }
  | .expire requestId =>
    { w with
      registry := (w.registry.expire (ε := ε) requestId).2
      resolved := w.resolved++failed (w.registry.expire requestId).1 }
  | .fail exc generation =>
    { w with
      registry := (w.registry.fail exc generation).2
      resolved := w.resolved++failed (w.registry.fail exc generation).1 }

/-- Every request comes with a future of its own. -/
def Legal (w : World φ σ τ ε) : Op φ σ τ ε → Prop
  | .register a => a.future ∉ keys w.registered
  | _ => True

theorem Inv.register {w : World φ σ τ ε} (h : Inv w) {a : Registration φ σ τ}
    (hf : a.future ∉ keys w.registered) : Inv (step w (.register a)) := by
  by_cases he : (w.registry.register a).1 = none
  · obtain ⟨budget, deadlines, hb, hr⟩ := Registry.register_returns he
    have hsound := Registry.sound_enter h.sound hb
    obtain ⟨hs, -, -⟩ := PendingRequestBudget.reserve_ok hb
    have hp : a.requestId ∉ keys w.registry.pending := h.sound.sizes ▸ hs
    have hi : a.requestId ∉ keys w.registry.identities := fun hm =>
      hp (h.sound.identities _ hm)
    have hpending : set w.registry.pending a.requestId a.future =
        w.registry.pending++[(a.requestId, a.future)] := set_of_not_mem _ _ _ hp
    have hfresh (id : ℕ) (future : φ) (hm : (id, future) ∈ w.registry.pending) :
        future ≠ a.future := fun hx =>
      hf (hx ▸ List.mem_map_of_mem (f := Prod.fst) (h.own id future hm))
    have hcases {id : ℕ} {future : φ}
        (hm : (id, future) ∈ set w.registry.pending a.requestId a.future) :
        (id, future) ∈ w.registry.pending ∨ id = a.requestId ∧ future = a.future := by
      rw [hpending] at hm
      simpa using hm
    simp only [step, he, hr, entered]
    refine ⟨⟨hsound.1, hsound.2, hsound.3, hsound.4, hsound.5, hsound.6, hsound.7, hsound.8⟩,
      ?_, ?_, ?_, ?_, h.once, ?_⟩
    · simp only [keys, List.map_append, List.map_cons, List.map_nil]
      refine List.nodup_append.mpr ⟨h.distinct, List.nodup_singleton _, ?_⟩
      intro x hx y hy hxy
      rw [List.mem_singleton] at hy
      exact hf (hy ▸ hxy ▸ hx)
    · change ((set w.registry.pending a.requestId a.future).map Prod.snd).Nodup
      rw [hpending, List.map_append]
      refine List.nodup_append.mpr ⟨h.futures, List.nodup_singleton _, ?_⟩
      intro x hx y hy hxy
      obtain ⟨⟨id, future⟩, hm, rfl⟩ := List.mem_map.mp hx
      exact hfresh id future hm (hxy.trans (List.mem_singleton.mp hy))
    · intro id future hm
      change (future, get? (setIfGiven w.registry.identities a.requestId a.responseIdentity) id) ∈
        w.registered++[(a.future, a.responseIdentity)]
      rw [get?_setIfGiven _ _ _ _ hi]
      rcases hcases hm with hold | ⟨rfl, rfl⟩
      · have hne : a.requestId ≠ id := fun hx =>
          hp (hx ▸ List.mem_map_of_mem (f := Prod.fst) hold)
        rw [if_neg hne]
        exact List.mem_append_left _ (h.own id future hold)
      · simp
    · intro id future hm
      rcases hcases hm with hold | ⟨rfl, rfl⟩
      · exact h.open_ id future hold
      · intro hx
        obtain ⟨⟨f, o⟩, ho, hfo⟩ := List.mem_map.mp hx
        obtain ⟨identity, hin, -⟩ := h.answered f o ho
        exact hf (hfo ▸ List.mem_map_of_mem (f := Prod.fst) hin)
    · intro future outcome hm
      obtain ⟨identity, hin, hown⟩ := h.answered future outcome hm
      exact ⟨identity, List.mem_append_left _ hin, hown⟩
  · have hraise := h.same (Registry.register_raises h.sound he)
    have hentered : entered a (w.registry.register a).1 = [] := by
      cases hx : (w.registry.register a).1 with
      | none => exact absurd hx he
      | some e => rfl
    simp only [step, hentered, List.append_nil]
    exact hraise

theorem Inv.setSize {w : World φ σ τ ε} (h : Inv w) (id : ℕ) (size : ℤ) :
    Inv (step w (.setSize id size)) := by
  simp only [step, Registry.setSize]
  split
  · exact h
  · next budget hb =>
    exact ⟨Registry.sound_setSize h.sound hb, h.distinct, h.futures, h.own, h.open_, h.once,
      h.answered⟩

theorem Inv.discard {w : World φ σ τ ε} (h : Inv w) (id : ℕ) (expectedFuture : Option φ) :
    Inv (step w (.discard id expectedFuture)) := by
  simp only [step, Registry.discard]
  split
  · simpa [handed] using h
  · exact h.hand id false none (by simp)

theorem Inv.takeResponse {w : World φ σ τ ε} (h : Inv w) (id : ℕ) (sock : Option σ) :
    Inv (step w (.takeResponse id sock)) := by
  simp only [step, Registry.takeResponse]
  split
  · simpa [handed] using h
  · exact h.hand id true none (by simp)

theorem Inv.expire {w : World φ σ τ ε} (h : Inv w) (id : ℕ) :
    Inv (step w (.expire id)) := by
  have hx := h.hand id false (some (expireError (get? w.registry.identities id)))
    (by rintro _ ⟨⟩; exact .inl rfl)
  simp only [step, Registry.expire, Registry.discard, failed, Option.isSome_none,
    Bool.false_and, Bool.false_eq_true, if_false, List.map_map]
  exact hx

theorem Inv.fail {w : World φ σ τ ε} (h : Inv w) (exc : ε) (generation : Option ℕ) :
    Inv (step w (.fail exc generation)) := by
  have hd : (keys (w.registry.pending.filter fun e => w.registry.bound generation e.1)).Nodup :=
    h.sound.unique.sublist (List.filter_sublist.map _)
  have hx := Inv.leaveAll exc _ hd w.registry w.resolved h
    fun e he => List.mem_of_mem_filter he
  simp only [step, Registry.fail,
    Registry.foldl_failOne generation w.registry.pending h.sound.unique]
  simpa [failed, Function.comp_def] using hx

theorem Inv.step {w : World φ σ τ ε} (h : Inv w) (op : Op φ σ τ ε) (hl : Legal w op) :
    Inv (step w op) := by
  cases op with
  | register a => exact h.register hl
  | setSize id size => exact h.setSize id size
  | discard id expectedFuture => exact h.discard id expectedFuture
  | takeResponse id sock => exact h.takeResponse id sock
  | expire id => exact h.expire id
  | fail exc generation => exact h.fail exc generation

/-- The limits stay what they were set to. -/
def Limited (maxRequests maxBytes : Option ℕ) (w : World φ σ τ ε) : Prop :=
  w.registry.budget.maxRequests = maxRequests ∧ w.registry.budget.maxBytes = maxBytes

theorem Limited.step {maxRequests maxBytes : Option ℕ} {w : World φ σ τ ε} (hi : Inv w)
    (h : Limited maxRequests maxBytes w) (op : Op φ σ τ ε) :
    Limited maxRequests maxBytes (step w op) := by
  obtain ⟨hr, hb⟩ := h
  have hforget (keepCount : Bool) (id : ℕ) :
      (w.registry.forget keepCount id).budget.maxRequests = maxRequests ∧
        (w.registry.forget keepCount id).budget.maxBytes = maxBytes := by
    obtain ⟨hr', hb'⟩ := Registry.limits_forget w.registry keepCount id
    exact ⟨hr'.trans hr, hb'.trans hb⟩
  cases op with
  | register a =>
    by_cases he : (w.registry.register a).1 = none
    · obtain ⟨budget, deadlines, hbudget, hreg⟩ := Registry.register_returns he
      obtain ⟨hr', hb'⟩ := Registry.limits_reserve hbudget
      simp only [Limited, PendingRequests.step, hreg]
      exact ⟨hr'.trans hr, hb'.trans hb⟩
    · obtain ⟨hbudget, -⟩ := Registry.register_raises hi.sound he
      simp only [Limited, PendingRequests.step, hbudget]
      exact ⟨hr, hb⟩
  | setSize id size =>
    simp only [Limited, PendingRequests.step, Registry.setSize]
    split
    · exact ⟨hr, hb⟩
    · next budget hbudget =>
      obtain ⟨-, previous, -, -, rfl⟩ := PendingRequestBudget.setSize_ok hbudget
      exact ⟨hr, hb⟩
  | discard id expectedFuture =>
    simp only [Limited, PendingRequests.step, Registry.discard]
    split
    · exact ⟨hr, hb⟩
    · exact hforget false id
  | takeResponse id sock =>
    simp only [Limited, PendingRequests.step, Registry.takeResponse]
    split
    · exact ⟨hr, hb⟩
    · exact hforget true id
  | expire id => exact hforget false id
  | fail exc generation =>
    obtain ⟨hr', hb'⟩ := Registry.limits_foldl
      (w.registry.pending.filter fun e => w.registry.bound generation e.1) w.registry
    simp only [Limited, PendingRequests.step, Registry.fail,
      Registry.foldl_failOne generation w.registry.pending hi.sound.unique]
    exact ⟨hr'.trans hr, hb'.trans hb⟩

theorem inv_run {maxRequests maxBytes : Option ℕ} {ops : List (Op φ σ τ ε)}
    (h : Allowed Legal step (start maxRequests maxBytes) ops) :
    Inv (run step (start maxRequests maxBytes) ops) ∧
      Limited maxRequests maxBytes (run step (start maxRequests maxBytes) ops) :=
  Allowed.invariant (I := fun w => Inv w ∧ Limited maxRequests maxBytes w)
    (fun _ op hw hl => ⟨hw.1.step op hl, hw.2.step hw.1 op⟩)
    ⟨inv_start maxRequests maxBytes, rfl, rfl⟩ h

theorem pending_registry_safe (maxRequests maxBytes : Option ℕ) (ops : List (Op φ σ τ ε))
    (h : Allowed Legal step (start maxRequests maxBytes) ops) :
    let w := run step (start maxRequests maxBytes) ops
    let r := w.registry
    (keys r.budget.sizes = keys r.pending ∧ keys r.bindings = keys r.pending ∧
      (keys r.pending).Nodup) ∧
    (∀ k ∈ keys r.identities, k ∈ keys r.pending) ∧
    (∀ k ∈ keys r.traces, k ∈ keys r.pending) ∧
    r.budget.totalBytes = ((r.budget.sizes.map Prod.snd).sum : ℕ) ∧
    (∀ limit ∈ maxBytes, r.budget.totalBytes ≤ limit) ∧
    (∀ limit ∈ maxRequests, r.pending.length ≤ limit) ∧
    (∀ a, (r.register a).1 ≠ none → SameTables r (r.register a).2) ∧
    (∀ id size, (r.setSize id size).1 ≠ none → SameTables r (r.setSize id size).2) ∧
    (∀ (exc : ε) generation id future,
      (id, future) ∈ (r.fail exc (some generation)).2.pending ↔
        (id, future) ∈ r.pending ∧
          ∃ binding, get? r.bindings id = some binding ∧ binding.1 ≠ generation) ∧
    (keys w.resolved).Nodup ∧
    (∀ future outcome, (future, outcome) ∈ w.resolved → ∃ identity,
      (future, identity) ∈ w.registered ∧ ∀ failure ∈ outcome, OwnError identity failure) ∧
    (∀ id, (r.expire id).1 = (get? r.pending id).toList.map
      fun future => (future, (expireError (get? r.identities id) : Failure ε))) ∧
    (∀ (exc : ε) generation, (r.fail exc generation).1 =
      (r.pending.filter fun e => r.bound generation e.1).map
        fun e => (e.2, failError exc (get? r.identities e.1))) := by
  obtain ⟨hinv, hrequests, hbytes⟩ := inv_run h
  have hs := hinv.sound
  refine ⟨⟨hs.sizes, hs.bindings, hs.unique⟩, hs.identities, hs.traces, hs.total, ?_, ?_,
    fun a he => Registry.register_raises hs he, fun id size he => Registry.setSize_raises _ he,
    ?_, hinv.once, hinv.answered, fun id => rfl, fun exc generation =>
      Registry.fail_attempts hs exc generation⟩
  · intro limit hm
    exact hs.bytes limit (by rw [hbytes]; exact hm)
  · intro limit hm
    exact hs.requests limit (by rw [hrequests]; exact hm)
  · intro exc generation id future
    rw [Registry.fail_pending hs, List.mem_filter, Bool.not_eq_true']
    refine and_congr_right fun hm => ?_
    obtain ⟨binding, hb, hiff⟩ := Registry.bound_iff hs generation hm
    constructor
    · intro hf
      refine ⟨binding, hb, fun he => ?_⟩
      rw [hiff.mpr he] at hf
      cases hf
    · rintro ⟨other, ho, hne⟩
      rw [hb] at ho
      cases ho
      exact Bool.eq_false_iff.mpr fun ht => hne (hiff.mp ht)

def sampleRegistration (id generation : ℕ) (mayMutate : Bool) : Registration ℕ ℕ Unit :=
  ⟨id, 10*id, none, none, some (generation, none), (0, none), false, false,
    some ⟨0, opcode "SET", id, some mayMutate⟩⟩

/-- Two requests on two connections; one is lost, the other runs out of time. -/
def sampleOps : List (Op ℕ ℕ Unit Unit) :=
  [.register (sampleRegistration 1 7 true), .register (sampleRegistration 2 8 false),
    .setSize 1 5, .setSize 2 6, .fail () (some 7), .expire 2, .expire 2]

theorem sampleOps_safe :
    Allowed Legal step (start (some 2) (some 10)) sampleOps ∧
      (run step (start (some 2) (some 10)) sampleOps).resolved =
        [(10, some (.outcomeUnknown
            "protocol connection closed; mutation outcome is unknown" (some ()))),
          (20, some (.retryable "protocol request timed out" none))] ∧
      (keys (run step (start (some 2) (some 10)) sampleOps).resolved).Nodup := by
  have ha : Allowed Legal step (start (some 2) (some 10)) sampleOps := by
    refine ⟨?_, ?_, trivial, trivial, trivial, trivial, trivial, trivial⟩
    · simp [Legal, start]
    · simp [Legal, step, start, Registry.register, PendingRequestBudget.reserve, entered,
        sampleRegistration, contains]
  exact ⟨ha, rfl, (pending_registry_safe (some 2) (some 10) sampleOps ha).2.2.2.2.2.2.2.2.2.1⟩

end FerricStore.PendingRequests
