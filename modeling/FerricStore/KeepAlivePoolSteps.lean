import FerricStore.KeepAlivePool

/-!
# Steps of the keep-alive pool

Each method moves connections between the idle table, the calls and the connections that
were closed, and moves the counter with them.
-/

set_option autoImplicit false

namespace FerricStore.KeepAlivePool

variable {K C : Type}

theorem popEntry_spec {key : K} {connections : List C} {rest table : Table K C} {c : C}
    (h : popEntry key connections rest = some (c, table)) :
    (idleConnections ((key, connections)::rest)).Perm ((key, c)::idleConnections table) ∧
      ((∀ e ∈ rest, e.2 ≠ []) → ∀ e ∈ table, e.2 ≠ []) := by
  cases connections using List.reverseRecOn with
  | nil => cases h
  | append_singleton front last =>
    simp only [popEntry, List.getLast?_append, List.getLast?_singleton, Option.some_or,
      Option.map_some, Option.some.injEq, Prod.mk.injEq, List.dropLast_concat] at h
    obtain ⟨rfl, rfl⟩ := h
    by_cases hfront : front = []
    · subst hfront
      exact ⟨.refl _, id⟩
    · have hlength : (front++[last]).length ≠ 1 := by simpa using hfront
      rw [if_neg hlength]
      refine ⟨?_, fun hrest e he => ?_⟩
      · simp only [idleConnections, List.flatMap_cons, List.map_append, List.map_singleton,
          List.append_assoc, List.singleton_append]
        exact List.perm_middle
      · rcases List.mem_cons.mp he with rfl | he
        · exact hfront
        · exact hrest e he

section
variable [DecidableEq K]

theorem takeIdle_spec {key : K} {table table' : Table K C} {c : C}
    (h : takeIdle key table = some (c, table')) :
    (idleConnections table).Perm ((key, c)::idleConnections table') ∧
      ((∀ e ∈ table, e.2 ≠ []) → ∀ e ∈ table', e.2 ≠ []) := by
  induction table generalizing table' with
  | nil => cases h
  | cons entry rest ih =>
    obtain ⟨k, connections⟩ := entry
    rw [takeIdle] at h
    by_cases hk : k = key
    · subst hk
      rw [if_pos rfl] at h
      obtain ⟨hperm, hfilled⟩ := popEntry_spec h
      exact ⟨hperm, fun hall => hfilled fun e he => hall e (List.mem_cons_of_mem _ he)⟩
    · rw [if_neg hk, Option.map_eq_some_iff] at h
      obtain ⟨⟨c', rest'⟩, hrest, heq⟩ := h
      obtain ⟨rfl, rfl⟩ := Prod.mk.inj heq
      obtain ⟨hperm, hfilled⟩ := ih hrest
      refine ⟨(hperm.append_left _).trans List.perm_middle, fun hall e he => ?_⟩
      rcases List.mem_cons.mp he with rfl | he
      · exact hall _ List.mem_cons_self
      · exact hfilled (fun e he => hall e (List.mem_cons_of_mem _ he)) e he

omit [DecidableEq K] in
theorem popIdleConnection_spec {table table' : Table K C} {e : K × C}
    (h : popIdleConnection table = some (e, table')) :
    (idleConnections table).Perm (e::idleConnections table') ∧
      ((∀ x ∈ table, x.2 ≠ []) → ∀ x ∈ table', x.2 ≠ []) := by
  induction table generalizing table' with
  | nil => cases h
  | cons entry rest ih =>
    obtain ⟨k, connections⟩ := entry
    cases hpop : popEntry k connections rest with
    | some r =>
      obtain ⟨c, rest'⟩ := r
      simp only [popIdleConnection, hpop, Option.some.injEq, Prod.mk.injEq] at h
      obtain ⟨rfl, rfl⟩ := h
      obtain ⟨hperm, hfilled⟩ := popEntry_spec hpop
      exact ⟨hperm, fun hall => hfilled fun x hx => hall x (List.mem_cons_of_mem _ hx)⟩
    | none =>
      simp only [popIdleConnection, hpop, Option.map_eq_some_iff, Prod.mk.injEq] at h
      obtain ⟨⟨e', rest'⟩, hrest, rfl, rfl⟩ := h
      obtain ⟨hperm, hfilled⟩ := ih hrest
      refine ⟨(hperm.append_left _).trans List.perm_middle, fun hall x hx => ?_⟩
      rcases List.mem_cons.mp hx with rfl | hx
      · exact hall _ List.mem_cons_self
      · exact hfilled (fun x hx => hall x (List.mem_cons_of_mem _ hx)) x hx

/-- The idle connection that a pass took, and the connection that it created. -/
def Taken.reuses (key : K) : Taken C → List (K × C)
  | .reused c => [(key, c)]
  | _ => []

def Taken.creates (key : K) : Taken C → List (K × C)
  | .created c => [(key, c)]
  | _ => []

/-- What a pass of `_take_or_create` does to the pool. -/
structure PassSpec (p : Pool K C) (key : K) (create : Option C) (pass : Pass K C) : Prop where
  moved : (idleConnections p.idle).Perm
    (pass.taken.reuses key++pass.evicted++idleConnections pass.pool.idle)
  counted : pass.pool.totalConnections =
    p.totalConnections-pass.evicted.length+(pass.taken.creates key).length
  bounded : p.totalConnections ≤ p.maxConnections →
    pass.pool.totalConnections ≤ p.maxConnections
  filled : (∀ e ∈ p.idle, e.2 ≠ []) → ∀ e ∈ pass.pool.idle, e.2 ≠ []
  sameBound : pass.pool.maxConnections = p.maxConnections
  sameClosed : pass.pool.closed = p.closed
  closed : p.closed = true → pass.pool = p
  create_eq : ∀ c, pass.taken = .created c → create = some c

theorem takeOrCreate_spec (p : Pool K C) (key : K) (create : Option C) :
    PassSpec p key create (takeOrCreate p key create) := by
  fun_induction takeOrCreate p key create with
  | case1 p hclosed =>
    exact ⟨.refl _, by simp [Taken.creates], id, id, rfl, rfl, fun _ => rfl, nofun⟩
  | case2 p hclosed c idle hidle =>
    obtain ⟨hperm, hfilled⟩ := takeIdle_spec hidle
    exact ⟨hperm, by simp [Taken.creates], id, hfilled, rfl, rfl, fun h => absurd h hclosed, nofun⟩
  | case3 p hclosed hidle hroom c hcreate =>
    refine ⟨.refl _, by simp [Taken.creates], fun _ => ?_, id, rfl, rfl,
      fun h => absurd h hclosed, fun c' h => ?_⟩
    · exact Int.add_one_le_of_lt hroom
    · rw [hcreate, Taken.created.inj h]
  | case4 p hclosed hidle hroom =>
    exact ⟨.refl _, by simp [Taken.creates], id, id, rfl, rfl, fun _ => rfl, nofun⟩
  | case5 p hclosed hidle hroom e idle hpop pass ih =>
    obtain ⟨hperm, hfilled⟩ := popIdleConnection_spec hpop
    refine ⟨hperm.trans ?_, ?_, fun hle => ih.bounded ?_, fun hall => ih.filled (hfilled hall),
      ih.sameBound, ih.sameClosed, fun h => absurd h hclosed, ih.create_eq⟩
    · refine (ih.moved.cons e).trans ?_
      simp only [List.append_assoc, List.cons_append]
      exact List.perm_middle.symm
    · have hcounted : pass.pool.totalConnections = p.totalConnections-1-pass.evicted.length+
          (pass.taken.creates key).length := ih.counted
      simp only [List.length_cons]
      push_cast
      omega
    · simp only
      omega
  | case6 p hclosed hidle hroom hpop =>
    exact ⟨.refl _, by simp [Taken.creates], id, id, rfl, rfl, fun _ => rfl, nofun⟩

omit [DecidableEq K] in
theorem idleConnections_of_pop_none {table : Table K C} (h : popIdleConnection table = none) :
    idleConnections table = [] := by
  induction table with
  | nil => rfl
  | cons entry rest ih =>
    obtain ⟨k, connections⟩ := entry
    cases hpop : popEntry k connections rest with
    | some r => simp [popIdleConnection, hpop] at h
    | none =>
      have hempty : connections = [] := by simpa [popEntry] using hpop
      simp only [popIdleConnection, hpop, Option.map_eq_none_iff] at h
      simpa [idleConnections, hempty] using ih h

/-- Why a pass ends without a connection. -/
theorem takeOrCreate_refused (p : Pool K C) (key : K) (create : Option C) :
    match (takeOrCreate p key create).taken with
    | .poolClosed => p.closed = true
    | .createRaised => create = none
    | .full => (p.maxConnections : ℤ) ≤ (takeOrCreate p key create).pool.totalConnections ∧
        idleConnections (takeOrCreate p key create).pool.idle = []
    | _ => True := by
  fun_induction takeOrCreate p key create with
  | case1 p hclosed => exact hclosed
  | case2 | case3 => trivial
  | case4 p hclosed hidle hroom hcreate => exact hcreate
  | case5 p hclosed hidle hroom e idle hpop pass ih => exact ih
  | case6 p hclosed hidle hroom hpop =>
    exact ⟨not_lt.mp hroom, idleConnections_of_pop_none hpop⟩

theorem idleConnections_add (table : Table K C) (key : K) (c : C) :
    (idleConnections (Dict.set table key ((Dict.get? table key).getD []++[c]))).Perm
      ((key, c)::idleConnections table) := by
  induction table with
  | nil => exact .refl _
  | cons entry rest ih =>
    obtain ⟨k, connections⟩ := entry
    by_cases hk : k = key
    · subst hk
      simp only [Dict.set, Dict.get?, if_true, Option.getD_some, idleConnections,
        List.flatMap_cons, List.map_append, List.map_singleton, List.append_assoc,
        List.singleton_append]
      exact List.perm_middle
    · simp only [Dict.set, Dict.get?, if_neg hk]
      exact (ih.append_left _).trans List.perm_middle

theorem filled_add {table : Table K C} (h : ∀ e ∈ table, e.2 ≠ []) (key : K) (c : C) :
    ∀ e ∈ Dict.set table key ((Dict.get? table key).getD []++[c]), e.2 ≠ [] := by
  induction table with
  | nil => simp [Dict.set]
  | cons entry rest ih =>
    obtain ⟨k, connections⟩ := entry
    have hrest := ih fun e he => h e (List.mem_cons_of_mem _ he)
    intro e he
    by_cases hk : k = key
    · subst hk
      simp only [Dict.set, Dict.get?, if_true, Option.getD_some, List.mem_cons] at he
      rcases he with rfl | he
      · simp
      · exact h e (List.mem_cons_of_mem _ he)
    · simp only [Dict.set, Dict.get?, if_neg hk, List.mem_cons] at he
      rcases he with rfl | he
      · exact h _ List.mem_cons_self
      · exact hrest e he

/-- What a step of a call does: connections move, and the counter moves with them. -/
structure MoveSpec (p : Pool K C) (call : Call K C) (q : Pool K C) (calls : List (Call K C))
    (new gone : List (K × C)) : Prop where
  moved : (idleConnections p.idle : Multiset (K × C))+call.leased+call.leaving+new =
    idleConnections q.idle+calls.flatMap Call.leased+calls.flatMap Call.leaving+gone
  counted : q.totalConnections-(idleConnections q.idle).length-
      (calls.flatMap Call.leased).length =
    p.totalConnections-(idleConnections p.idle).length-call.leased.length
  bounded : p.totalConnections ≤ p.maxConnections → q.totalConnections ≤ q.maxConnections
  filled : (∀ e ∈ p.idle, e.2 ≠ []) → ∀ e ∈ q.idle, e.2 ≠ []
  shut : (p.closed = true → p.idle = []) → q.closed = true → q.idle = []
  sameBound : q.maxConnections = p.maxConnections
  staysClosed : p.closed = true → q.closed = true

omit [DecidableEq K] in
theorem PassSpec.move {p : Pool K C} {key : K} {create : Option C} {pass : Pass K C}
    (h : PassSpec p key create pass) {calls : List (Call K C)} {new : List (K × C)}
    (hleased : calls.flatMap Call.leased = pass.taken.reuses key++new)
    (hnew : new = pass.taken.creates key) (hleaving : calls.flatMap Call.leaving = []) :
    MoveSpec p (.acquiring key) pass.pool calls new pass.evicted where
  moved := by
    have hmoved := Multiset.coe_eq_coe.mpr h.moved
    simp only [← Multiset.coe_add] at hmoved
    rw [hleased, hleaving, hmoved]
    simp only [Call.leased, Call.leaving, ← Multiset.coe_add, Multiset.coe_nil, add_zero]
    abel
  counted := by
    have hlength := h.moved.length_eq
    have hcounted := h.counted
    simp only [List.length_append] at hlength
    rw [hleased, hnew]
    simp only [List.length_append, Call.leased, List.length_nil]
    push_cast
    omega
  bounded := fun hle => h.sameBound ▸ h.bounded hle
  filled := h.filled
  shut := fun hshut hclosed => by
    rw [h.sameClosed] at hclosed
    rw [h.closed hclosed]
    exact hshut hclosed
  sameBound := h.sameBound
  staysClosed := fun hclosed => h.sameClosed.trans hclosed

omit [DecidableEq K] in
theorem again_leased (key : K) (stale : Bool) :
    (again key stale : List (Call K C)).flatMap Call.leased = [] := by
  cases stale <;> rfl

omit [DecidableEq K] in
theorem again_leaving (key : K) (stale : Bool) :
    (again key stale : List (Call K C)).flatMap Call.leaving = [] := by
  cases stale <;> rfl

theorem move_spec {p q : Pool K C} {call : Call K C} {calls : List (Call K C)}
    {new gone : List (K × C)} (h : Move p call q calls new gone) :
    MoveSpec p call q calls new gone := by
  cases h with
  | raised h =>
    refine (takeOrCreate_spec p _ _).move ?_ ?_ rfl
    · rcases h with h | h <;> rw [h] <;> rfl
    · rcases h with h | h <;> rw [h] <;> rfl
  | reused h =>
    refine (takeOrCreate_spec p _ _).move ?_ ?_ rfl
    · rw [h]; rfl
    · rw [h]; rfl
  | created h =>
    refine (takeOrCreate_spec p _ _).move ?_ ?_ rfl
    · rw [h]; rfl
    · rw [h]; rfl
  | waits h =>
    refine (takeOrCreate_spec p _ _).move ?_ ?_ rfl
    · rw [h]; rfl
    · rw [h]; rfl
  | timedOut h =>
    refine (takeOrCreate_spec p _ _).move ?_ ?_ rfl
    · rw [h]; rfl
    · rw [h]; rfl
  | fresh => exact ⟨rfl, rfl, id, id, id, rfl, id⟩
  | stale => exact ⟨rfl, rfl, id, id, id, rfl, id⟩
  | done => exact ⟨rfl, rfl, id, id, id, rfl, id⟩
  | @kept key c reusable stale h =>
    have hcond : (reusable && !p.closed) = true := by
      by_contra hcond
      rw [Pool.release, if_neg hcond] at h
      cases h
    have hopen : p.closed = false := by simpa using (Bool.and_eq_true_iff.mp hcond).2
    have hadd := idleConnections_add p.idle key c
    rw [Pool.release, if_pos hcond]
    refine ⟨?_, ?_, id, fun hfilled => filled_add hfilled key c, fun _ hclosed => ?_, rfl, id⟩
    · rw [again_leased, again_leaving, Multiset.coe_eq_coe.mpr hadd]
      simp only [Call.leased, Call.leaving, Multiset.coe_nil, add_zero, ← Multiset.cons_coe,
        ← Multiset.singleton_add]
      abel
    · rw [again_leased]
      simp only [hadd.length_eq, Call.leased, List.length_cons, List.length_nil]
      push_cast
      omega
    · rw [hopen] at hclosed
      cases hclosed
  | @dropped key c reusable stale h =>
    have hcond : ¬(reusable && !p.closed) = true := by
      intro hcond
      rw [Pool.release, if_pos hcond] at h
      cases h
    rw [Pool.release, if_neg hcond]
    refine ⟨?_, ?_, fun hle => ?_, id, id, rfl, id⟩
    · simp [Call.leased, Call.leaving]
    · simp [Call.leased]
      omega
    · simp only
      omega
  | closed =>
    refine ⟨?_, ?_, id, id, id, rfl, id⟩
    · rw [again_leased, again_leaving]
      simp [Call.leased, Call.leaving]
    · rw [again_leased]
      rfl
  | shut =>
    by_cases hclosed : p.closed = true
    · rw [Pool.close, if_pos hclosed]
      exact ⟨rfl, rfl, id, id, id, rfl, id⟩
    · rw [Pool.close, if_neg hclosed]
      refine ⟨?_, ?_, fun hle => ?_, fun _ _ hidle => (List.not_mem_nil hidle).elim, fun _ _ => rfl,
        rfl, fun _ => rfl⟩
      · simp [Call.leased, Call.leaving, idleConnections]
      · simp [Call.leased, idleConnections]
      · simp only
        omega
  | closedNext e rest =>
    refine ⟨?_, rfl, id, id, id, rfl, id⟩
    simp only [Call.leased, Call.leaving, List.flatMap_cons, List.flatMap_nil, List.append_nil,
      Multiset.coe_nil, add_zero, ← Multiset.cons_coe, ← Multiset.singleton_add]
    abel
  | closedAll => exact ⟨rfl, rfl, id, id, id, rfl, id⟩

end

end FerricStore.KeepAlivePool
