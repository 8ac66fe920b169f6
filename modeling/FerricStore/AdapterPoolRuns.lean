import FerricStore.AdapterPool

/-!
# The calls in progress account for the pool

An active count is the number of commands and polls on its adapter, an adapter is leased
when one session holds it, and so on. The fields of the pool and the calls have a tally,
and every step changes both alike.
-/

set_option autoImplicit false

namespace FerricStore.AdapterPool

section Calls

/-- An ordinary command or an event poll has the adapter. -/
def Call.uses (index : ℕ) : Call → Bool
  | .running i | .tracking i _ | .releasing i | .polling i _ => i = index
  | _ => false

/-- A session has the adapter. -/
def Call.holds (index : ℕ) : Call → Bool
  | .held i | .closing i => i = index
  | _ => false

def Call.isWaiting : Call → Bool
  | .waiting => true
  | _ => false

def Call.isBroadcasting : Call → Bool
  | .broadcasting => true
  | _ => false

def users (calls : List Call) (index : ℕ) : ℕ := calls.countP (Call.uses index)

def holders (calls : List Call) (index : ℕ) : ℕ := calls.countP (Call.holds index)

def waiters (calls : List Call) : ℕ := calls.countP Call.isWaiting

def broadcasts (calls : List Call) : ℕ := calls.countP Call.isBroadcasting

end Calls

/-- Users and holders of each adapter, waiting sessions and broadcasts. -/
abbrev Tally := (ℕ → ℤ) × (ℕ → ℤ) × ℤ × ℤ

def useTally (i : ℕ) (n : ℤ) : Tally := (Pi.single i n, 0)

def holdTally (i : ℕ) (n : ℤ) : Tally := (0, Pi.single i n, 0)

def waitTally (n : ℤ) : Tally := (0, 0, n, 0)

def broadcastTally (n : ℤ) : Tally := (0, 0, 0, n)

def Call.tally : Call → Tally
  | .running i | .tracking i _ | .releasing i | .polling i _ => useTally i 1
  | .held i | .closing i => holdTally i 1
  | .waiting => waitTally 1
  | .broadcasting => broadcastTally 1
  | _ => 0

def tally (calls : List Call) : Tally := (calls.map Call.tally).sum

/-- The tally that the fields of a pool stand for. -/
def Pool.tally (p : Pool) : Tally :=
  (p.active, fun i => if i ∈ p.leased then 1 else 0, p.sessionWaiters,
    if p.broadcasting then 1 else 0)

/-- The calls in progress account for the pool, and the adapters of sessions are at rest. -/
structure Account (s : State) : Prop where
  tally : s.pool.tally = tally s.calls
  alone : ∀ i ∈ s.pool.leased, s.pool.active i = 0
  quiet : s.pool.broadcasting = true → s.pool.leased = ∅

section Tallies

theorem Call.tally_eq (c : Call) :
    c.tally = (fun i => if c.uses i then 1 else 0, fun i => if c.holds i then 1 else 0,
      if c.isWaiting then 1 else 0, if c.isBroadcasting then 1 else 0) := by
  cases c <;> ext i <;> simp [Call.tally, useTally, holdTally, waitTally, broadcastTally,
    Call.uses, Call.holds, Call.isWaiting, Call.isBroadcasting, Pi.single_apply, eq_comm]

theorem tally_eq (calls : List Call) :
    tally calls = (fun i => (users calls i : ℤ), fun i => (holders calls i : ℤ),
      (waiters calls : ℤ), (broadcasts calls : ℤ)) := by
  induction calls with
  | nil => rfl
  | cons c calls ih =>
    rw [tally, List.map_cons, List.sum_cons]
    change c.tally+tally calls = _
    rw [ih, Call.tally_eq]
    ext <;> simp [users, holders, waiters, broadcasts, List.countP_cons, add_comm]

/-- Exchanging a call for others changes the tally by their difference. -/
theorem tally_move (before after cs : List Call) (c : Call) :
    tally (before++cs++after) = tally (before++c::after)-c.tally+tally cs := by
  simp only [tally, List.map_append, List.map_cons, List.sum_append, List.sum_cons]
  abel

end Tallies

section Passes

variable {p q : Pool} {i : ℕ}

theorem scan_eq_some {free : ℕ → Bool} (h : p.scan free = some i) : free i = true :=
  List.find?_some h

theorem acquireAdapter_granted (h : p.acquireAdapter = .granted i q) :
    p.sessionWaiters = 0 ∧ i ∉ p.leased ∧ q = (p.addActive i 1).setCursor (i+1) := by
  unfold Pool.acquireAdapter at h
  split_ifs at h with hclosed hwaiters
  cases hscan : p.scan fun i => i ∉ p.leased with
  | none =>
    rw [hscan] at h
    cases h
  | some j =>
    simp only [hscan] at h
    cases h
    exact ⟨hwaiters, by simpa using scan_eq_some hscan, rfl⟩

theorem reserveEventAdapter_some {excluded : List ℕ}
    (h : p.reserveEventAdapter excluded = some (i, q)) :
    p.sessionWaiters = 0 ∧ i ∉ p.leased ∧ q = p.addActive i 1 := by
  unfold Pool.reserveEventAdapter at h
  split_ifs at h with hguard
  obtain ⟨j, hj, hq⟩ := Option.map_eq_some_iff.mp h
  cases hq
  have hfree := List.find?_some hj
  simp only [Bool.or_eq_true, decide_eq_true_eq, not_or, not_not] at hguard
  simp only [Bool.and_eq_true, decide_eq_true_eq] at hfree
  exact ⟨hguard.2, hfree.2, rfl⟩

theorem sessionPass_granted (h : p.sessionPass = .granted i q) :
    p.broadcasting = false ∧ i ∉ p.leased ∧ p.active i = 0 ∧
      q = { p with leased := insert i p.leased }.setCursor (i+1) := by
  unfold Pool.sessionPass at h
  split_ifs at h with hclosed hbroadcast
  cases hscan : p.scan fun i => i ∉ p.leased && p.active i = 0 with
  | none =>
    rw [hscan] at h
    cases h
  | some j =>
    simp only [hscan] at h
    cases h
    have hfree := scan_eq_some hscan
    simp only [Bool.and_eq_true, decide_eq_true_eq] at hfree
    exact ⟨by simpa using hbroadcast, hfree.1, hfree.2, rfl⟩

theorem broadcastPass_started (h : p.broadcastPass = .started q) :
    p.leased = ∅ ∧ p.broadcasting = false ∧ q = { p with broadcasting := true } := by
  unfold Pool.broadcastPass at h
  split_ifs at h with hwait hclosed
  cases h
  simp only [Bool.not_eq_true] at hclosed
  simp only [hclosed, Bool.not_false, Bool.and_true, Bool.or_eq_true, decide_eq_true_eq, not_or,
    not_not, Bool.not_eq_true] at hwait
  exact ⟨hwait.1, hwait.2, rfl⟩

end Passes

section Steps

variable {p q : Pool} {cs : List Call} {c : Call}

theorem addActive_tally (p : Pool) (j : ℕ) (n : ℤ) :
    (p.addActive j n).tally = p.tally+useTally j n := by
  refine Prod.ext (funext fun i => ?_) (add_zero p.tally.2).symm
  simp only [Pool.tally, Pool.addActive, useTally, Function.update_apply, Prod.fst_add,
    Pi.add_apply, Pi.single_apply]
  split_ifs with h
  · rw [h]
  · rw [add_zero]

theorem addWaiters_tally (p : Pool) (n : ℤ) :
    (p.addWaiters n).tally = p.tally+waitTally n :=
  Prod.ext (add_zero p.tally.1).symm (Prod.ext (add_zero p.tally.2.1).symm
    (Prod.ext rfl (add_zero p.tally.2.2.2).symm))

theorem lease_tally {p : Pool} {j : ℕ} (h : j ∉ p.leased) :
    Pool.tally { p with leased := insert j p.leased } = p.tally+holdTally j 1 := by
  refine Prod.ext (add_zero p.tally.1).symm (Prod.ext (funext fun i => ?_)
    (add_zero p.tally.2.2).symm)
  simp only [Pool.tally, holdTally, Finset.mem_insert, Prod.snd_add, Prod.fst_add, Pi.add_apply,
    Pi.single_apply]
  by_cases hi : i = j
  · simp [hi, h]
  · simp [hi]

theorem releaseSession_tally {p : Pool} {j : ℕ} (h : j ∈ p.leased) :
    (p.releaseSession j).tally = p.tally-holdTally j 1 := by
  refine Prod.ext (sub_zero p.tally.1).symm (Prod.ext (funext fun i => ?_)
    (sub_zero p.tally.2.2).symm)
  simp only [Pool.tally, Pool.releaseSession, holdTally, Finset.mem_erase, Prod.snd_sub,
    Prod.fst_sub, Pi.sub_apply, Pi.single_apply]
  by_cases hi : i = j
  · simp [hi, h]
  · simp [hi]

theorem setBroadcasting_tally (p : Pool) (b : Bool) :
    Pool.tally { p with broadcasting := b } =
      p.tally+broadcastTally ((if b then 1 else 0)-if p.broadcasting then 1 else 0) := by
  refine Prod.ext (add_zero p.tally.1).symm (Prod.ext (add_zero p.tally.2.1).symm
    (Prod.ext (add_zero p.tally.2.2.1).symm ?_))
  simp [Pool.tally, broadcastTally]

theorem useTally_neg (i : ℕ) : useTally i (-1) = -useTally i 1 := by
  simp [useTally, Pi.single_neg]

theorem waitTally_neg : waitTally (-1) = -waitTally 1 := by
  simp [waitTally]

theorem broadcastTally_neg : broadcastTally (-1) = -broadcastTally 1 := by
  simp [broadcastTally]

/-- A granted session, whether it waited for it or not. -/
theorem granted_tally {i : ℕ} (h : p.sessionPass = .granted i q) :
    (q.addWaiters (-1)).tally = p.tally-waitTally 1+holdTally i 1 := by
  obtain ⟨-, hfree, -, rfl⟩ := sessionPass_granted h
  rw [addWaiters_tally, waitTally_neg]
  change Pool.tally { p with leased := insert i p.leased }+_ = _
  rw [lease_tally hfree]
  abel

/-- A step changes the pool as it changes its call. -/
theorem move_tally (hheld : ∀ i, c.holds i = true → i ∈ p.leased)
    (hcast : c.isBroadcasting = true → p.broadcasting = true) (h : Move p c q cs) :
    q.tally = p.tally-c.tally+tally cs := by
  cases h with
  | commandRuns h =>
    obtain ⟨-, -, rfl⟩ := acquireAdapter_granted h
    change (p.addActive _ 1).tally = _
    rw [addActive_tally]
    simp [tally, Call.tally]
  | pollReserves h =>
    obtain ⟨-, -, rfl⟩ := reserveEventAdapter_some h
    rw [addActive_tally]
    simp [tally, Call.tally]
  | release i | pollReturns i | pollNext i =>
    rw [Pool.releaseAdapter, addActive_tally, useTally_neg]
    simp [tally, Call.tally, sub_eq_add_neg]
  | sessionEnters h hpass =>
    rw [addWaiters_tally]
    simp [tally, Call.tally]
  | sessionGranted h hpass =>
    rw [granted_tally hpass, addWaiters_tally]
    simp [tally, Call.tally]
  | waitingGranted h =>
    rw [granted_tally h]
    simp [tally, Call.tally]
  | waitingRaises =>
    rw [addWaiters_tally, waitTally_neg]
    simp [tally, Call.tally, sub_eq_add_neg]
  | sessionReleased i =>
    rw [releaseSession_tally (hheld i (by simp [Call.holds]))]
    simp [tally, Call.tally]
  | broadcastStarts h =>
    obtain ⟨-, hcasting, rfl⟩ := broadcastPass_started h
    rw [setBroadcasting_tally]
    simp [tally, Call.tally, hcasting]
  | broadcastEnds =>
    rw [Pool.endBroadcast, setBroadcasting_tally, hcast rfl]
    simp [tally, Call.tally, broadcastTally_neg, sub_eq_add_neg]
  | _ => simp [tally, Call.tally]

/-- What a step can do to the sessions and their adapters. -/
theorem move_alone (h : Move p c q cs) (halone : ∀ i ∈ p.leased, p.active i = 0)
    (hused : ∀ i, c.uses i = true → i ∉ p.leased) : ∀ i ∈ q.leased, q.active i = 0 := by
  have hadd : ∀ {j : ℕ} {n : ℤ}, j ∉ p.leased → ∀ i ∈ p.leased, (p.addActive j n).active i = 0 := by
    intro j n hj i hi
    have hne : i ≠ j := fun he => hj (he ▸ hi)
    simp only [Pool.addActive, Function.update_apply, if_neg hne]
    exact halone i hi
  have hgrant : ∀ {j : ℕ}, p.active j = 0 → ∀ i ∈ insert j p.leased, p.active i = 0 := by
    intro j hj i hi
    rcases Finset.mem_insert.mp hi with rfl | hi
    · exact hj
    · exact halone i hi
  cases h with
  | commandRuns h =>
    obtain ⟨-, hfree, rfl⟩ := acquireAdapter_granted h
    exact hadd hfree
  | pollReserves h =>
    obtain ⟨-, hfree, rfl⟩ := reserveEventAdapter_some h
    exact hadd hfree
  | release i | pollReturns i | pollNext i => exact hadd (hused i (by simp [Call.uses]))
  | sessionGranted h hpass =>
    obtain ⟨-, -, hidle, rfl⟩ := sessionPass_granted hpass
    exact hgrant hidle
  | waitingGranted h =>
    obtain ⟨-, -, hidle, rfl⟩ := sessionPass_granted h
    exact hgrant hidle
  | sessionReleased i => exact fun j hj => halone j (Finset.mem_of_mem_erase hj)
  | broadcastStarts h =>
    obtain ⟨-, -, rfl⟩ := broadcastPass_started h
    exact halone
  | _ => exact halone

theorem move_quiet (h : Move p c q cs) (hquiet : p.broadcasting = true → p.leased = ∅) :
    q.broadcasting = true → q.leased = ∅ := by
  cases h with
  | commandRuns h =>
    obtain ⟨-, -, rfl⟩ := acquireAdapter_granted h
    exact hquiet
  | pollReserves h =>
    obtain ⟨-, -, rfl⟩ := reserveEventAdapter_some h
    exact hquiet
  | sessionGranted h hpass =>
    obtain ⟨hcast, -, -, rfl⟩ := sessionPass_granted hpass
    exact fun htrue => absurd (htrue.symm.trans hcast) (by simp)
  | waitingGranted h =>
    obtain ⟨hcast, -, -, rfl⟩ := sessionPass_granted h
    exact fun htrue => absurd (htrue.symm.trans hcast) (by simp)
  | sessionReleased i =>
    intro htrue
    simp [Pool.releaseSession, hquiet htrue]
  | broadcastStarts h =>
    obtain ⟨hempty, -, rfl⟩ := broadcastPass_started h
    exact fun _ => hempty
  | broadcastEnds => exact fun htrue => Bool.noConfusion htrue
  | _ => exact hquiet

end Steps

/-!
## Sessions have their adapters alone

The account holds in every state that the calls reach, from any number of threads, so the
guards of the pool's methods are guards on the calls in progress.
-/

section Runs

variable {s t : State}

theorem starts_tally {c : Call} (h : c.starts = true) : c.tally = 0 := by
  cases c with
  | command | session | broadcast | poll => rfl
  | _ => cases h

namespace Account

theorem active (h : Account s) (i : ℕ) : s.pool.active i = users s.calls i := by
  have hi := congrFun (congrArg Prod.fst (h.tally.trans (tally_eq s.calls))) i
  exact hi

theorem leased (h : Account s) (i : ℕ) :
    (holders s.calls i : ℤ) = if i ∈ s.pool.leased then 1 else 0 := by
  have hi := congrFun (congrArg (fun x : Tally => x.2.1) (h.tally.trans (tally_eq s.calls))) i
  exact hi.symm

theorem waiting (h : Account s) : s.pool.sessionWaiters = waiters s.calls :=
  congrArg (fun x : Tally => x.2.2.1) (h.tally.trans (tally_eq s.calls))

theorem broadcasting (h : Account s) :
    (broadcasts s.calls : ℤ) = if s.pool.broadcasting then 1 else 0 :=
  (congrArg (fun x : Tally => x.2.2.2) (h.tally.trans (tally_eq s.calls))).symm

theorem leased_iff (h : Account s) (i : ℕ) : i ∈ s.pool.leased ↔ 0 < holders s.calls i := by
  have hi := h.leased i
  by_cases hmem : i ∈ s.pool.leased
  · rw [if_pos hmem] at hi
    simp only [hmem, true_iff]
    omega
  · rw [if_neg hmem] at hi
    simp only [hmem, false_iff]
    omega

theorem broadcasting_iff (h : Account s) :
    s.pool.broadcasting = true ↔ 0 < broadcasts s.calls := by
  have hb := h.broadcasting
  cases hcast : s.pool.broadcasting with
  | true =>
    rw [hcast] at hb
    simp only [if_true] at hb
    simp only [true_iff]
    omega
  | false =>
    rw [hcast] at hb
    simp only [Bool.false_eq_true, if_false] at hb
    simp only [Bool.false_eq_true, false_iff]
    omega

theorem init (size : ℕ) : Account ⟨Pool.init size, []⟩ where
  tally := by
    rw [tally_eq]
    simp [Pool.tally, Pool.init, users, holders, waiters, broadcasts]
  alone i hi := by simp [Pool.init] at hi
  quiet h := by simp [Pool.init] at h

theorem step (h : Account s) (hstep : Step s t) : Account t := by
  cases hstep with
  | @start _ c hc =>
    refine ⟨?_, h.alone, h.quiet⟩
    rw [AdapterPool.tally, List.map_cons, List.sum_cons, starts_tally hc, zero_add]
    exact h.tally
  | @move p q c cs before after hmove =>
    have hcount : ∀ f : Call → Bool, f c = true → 0 < (before++c::after).countP f := by
      intro f hf
      exact List.countP_pos_iff.mpr ⟨c, by simp, hf⟩
    refine ⟨?_, move_alone hmove h.alone fun i hi hleased => ?_, move_quiet hmove h.quiet⟩
    · rw [tally_move, ← h.tally]
      exact move_tally (fun i hi => (h.leased_iff i).mpr (hcount _ hi))
        (fun hc => h.broadcasting_iff.mpr (hcount _ hc)) hmove
    · have hactive := h.active i
      have hzero := h.alone i hleased
      have hpos := hcount (Call.uses i) hi
      simp only [users] at hactive hzero
      omega
  | close => exact ⟨h.tally, h.alone, h.quiet⟩

theorem of_reachable {size : ℕ} (h : Reachable size s) : Account s :=
  Transitions.invariant (fun _ _ hs hst => hs.step hst) (init size) h

end Account

end Runs

section Sessions

variable {s t : State} {p q : Pool} {c : Call} {cs : List Call} {i : ℕ}

/-- A step adds no call of a kind that it does not put in the place of its own. -/
theorem countP_step {f : Call → Bool} (hstarts : ∀ c : Call, c.starts = true → f c = false)
    (hmove : ∀ p c q cs, Move p c q cs → s.pool = p → cs.countP f ≤ [c].countP f)
    (h : Step s t) : t.calls.countP f ≤ s.calls.countP f := by
  cases h with
  | @start _ c hc =>
    rw [List.countP_cons, hstarts c hc]
    exact le_rfl
  | @move p q c cs before after h =>
    have hle := hmove p c q cs h rfl
    simp only [List.countP_append, List.countP_cons, List.countP_nil] at hle ⊢
    omega
  | close => exact le_rfl

theorem move_holders (h : Move p c q cs) (hcast : p.broadcasting = true) :
    cs.countP (Call.holds i) ≤ [c].countP (Call.holds i) := by
  cases h with
  | sessionGranted h hpass =>
    exact absurd hcast (by simpa [Pool.addWaiters] using (sessionPass_granted hpass).1)
  | waitingGranted h => exact absurd hcast (by simpa using (sessionPass_granted h).1)
  | sessionCloses i => exact le_rfl
  | _ => exact Nat.zero_le _

theorem move_users (h : Move p c q cs) (hwait : p.sessionWaiters ≠ 0) :
    cs.countP (Call.uses i) ≤ [c].countP (Call.uses i) := by
  cases h with
  | commandRuns h => exact absurd (acquireAdapter_granted h).1 hwait
  | pollReserves h => exact absurd (reserveEventAdapter_some h).1 hwait
  | commandEnds i | commandTracked i n | futureDone i n | lastFutureDone i => exact le_rfl
  | _ => exact Nat.zero_le _

theorem move_broadcasts (h : Move p c q cs) (hheld : p.leased ≠ ∅) :
    cs.countP Call.isBroadcasting ≤ [c].countP Call.isBroadcasting := by
  cases h with
  | broadcastStarts h => exact absurd (broadcastPass_started h).1 hheld
  | _ => exact Nat.zero_le _

theorem starts_idle (h : c.starts = true) :
    c.uses i = false ∧ c.holds i = false ∧ c.isBroadcasting = false := by
  cases c with
  | command | session | broadcast | poll => exact ⟨rfl, rfl, rfl⟩
  | _ => cases h

/-- In every state that is reached, the adapter of a session is at rest and no command,
poll or other session has it, and at most one broadcast runs. From there no step grants a
session during a broadcast, starts a broadcast while a session is held, or admits a
command or a poll while a session is waited for. -/
theorem sessions_are_exclusive {size : ℕ} {s : State} (h : Reachable size s) :
    (∀ i ∈ s.pool.leased, s.pool.active i = 0 ∧ users s.calls i = 0 ∧ holders s.calls i = 1) ∧
    (∀ i, i ∉ s.pool.leased → holders s.calls i = 0) ∧
    (∀ i, s.pool.active i = users s.calls i ∧ 0 ≤ s.pool.active i) ∧
    broadcasts s.calls ≤ 1 ∧
    ∀ t, Step s t →
      (0 < broadcasts s.calls → ∀ i, holders t.calls i ≤ holders s.calls i) ∧
      (broadcasts s.calls < broadcasts t.calls → ∀ i, holders s.calls i = 0) ∧
      (0 < waiters s.calls → ∀ i, users t.calls i ≤ users s.calls i) := by
  have haccount := Account.of_reachable h
  refine ⟨fun i hi => ?_, fun i hi => ?_, fun i => ?_, ?_, fun t hstep => ⟨?_, ?_, ?_⟩⟩
  · have hactive := haccount.active i
    have hzero := haccount.alone i hi
    have hheld := haccount.leased i
    rw [if_pos hi] at hheld
    exact ⟨hzero, by omega, by omega⟩
  · have hheld := haccount.leased i
    rw [if_neg hi] at hheld
    omega
  · have hactive := haccount.active i
    exact ⟨hactive, by omega⟩
  · have hcast := haccount.broadcasting
    split_ifs at hcast <;> omega
  · intro hcast i
    have hbroadcasting := haccount.broadcasting_iff.mpr hcast
    exact countP_step (fun c hc => (starts_idle hc).2.1)
      (fun p c q cs hmove hp => move_holders hmove (hp ▸ hbroadcasting)) hstep
  · intro hmore i
    by_contra hheld
    have hleased : s.pool.leased ≠ ∅ :=
      Finset.ne_empty_of_mem ((haccount.leased_iff i).mpr (Nat.pos_of_ne_zero hheld))
    have hle : broadcasts t.calls ≤ broadcasts s.calls :=
      countP_step (fun c hc => (starts_idle (i := i) hc).2.2)
        (fun p c q cs hmove hp => move_broadcasts hmove (hp ▸ hleased)) hstep
    omega
  · intro hwait i
    have hwaiters : s.pool.sessionWaiters ≠ 0 := by
      rw [haccount.waiting]
      omega
    exact countP_step (fun c hc => (starts_idle hc).1)
      (fun p c q cs hmove hp => move_users hmove (hp ▸ hwaiters)) hstep

/-- A session that was granted, and another one that waits for the only adapter. -/
theorem sessions_are_exclusive_waiting :
    ∃ s, Reachable 1 s ∧ s.calls = [.waiting, .held 0] ∧ 0 ∈ s.pool.leased ∧
      users s.calls 0 = 0 ∧ ∀ t, Step s t → users t.calls 0 ≤ users s.calls 0 := by
  let granted : Pool := Pool.addWaiters ⟨1, 1, {0}, fun _ => 0, false, 1, false⟩ (-1)
  have hasked : Step ⟨Pool.init 1, []⟩ ⟨Pool.init 1, [.session]⟩ := .start rfl
  have hgranted : Step ⟨Pool.init 1, []++.session::[]⟩ ⟨granted, []++[Call.held 0]++[]⟩ :=
    .move (.sessionGranted rfl rfl)
  have hagain : Step ⟨granted, [.held 0]⟩ ⟨granted, [.session, .held 0]⟩ := .start rfl
  have hwaits : Step ⟨granted, []++.session::[.held 0]⟩
      ⟨granted.addWaiters 1, []++[Call.waiting]++[Call.held 0]⟩ :=
    .move (.sessionEnters rfl (by simp [granted, Pool.sessionPass, Pool.scan, Pool.addWaiters]))
  have hreach : Reachable 1 ⟨granted.addWaiters 1, [.waiting, .held 0]⟩ :=
    (((Relation.ReflTransGen.single hasked).tail hgranted).tail hagain).tail hwaits
  have hexclusive := sessions_are_exclusive hreach
  refine ⟨_, hreach, rfl, by simp [granted, Pool.addWaiters], ?_, fun t hstep => ?_⟩
  · exact (hexclusive.1 0 (by simp [granted, Pool.addWaiters])).2.1
  · exact (hexclusive.2.2.2.2 t hstep).2.2 (by decide) 0

end Sessions

end FerricStore.AdapterPool
