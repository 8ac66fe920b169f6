import FerricStore.Transitions

/-!
# The command coalescer

Calls of many threads share one slot for the batch that still accepts calls. The call that
finds no such batch starts one and leads it: it waits, takes the batch, sends one request
for its calls and completes them. Each critical section is one step. A batch is named by
the call that leads it. Cancellations and expired deadlines may come at any time.
-/

set_option autoImplicit false

namespace FerricStore.CommandCoalescer

variable {I R E : Type}

/-- What a request body adds to the encodings of so many commands: the braces, names and
commas of the JSON object, or the headers of the MessagePack map. -/
def overhead (compact : Bool) (n : ℕ) : ℕ :=
  if compact then 1+9+(if n < 16 then 1 else if n < 65536 then 3 else 5)+9+23
  else 13+(n-1)+35

/-- `_request_body_size` from the sizes of the encoded commands, which may be faulty. -/
def requestBodySize (compact : Bool) (sizes : List (Option ℕ)) : Option ℕ :=
  (sizes.mapM id).map fun ns => ns.sum+overhead compact ns.length

/-- The limits of a coalescer and the encoded size of each call's command. -/
structure Config (I : Type) where
  maxItems : ℕ
  maxItems_pos : 0 < maxItems
  maxBytes : ℕ
  compact : Bool
  encodedSize : I → Option ℕ

def Config.bodySize (cfg : Config I) (calls : List I) : Option ℕ :=
  requestBodySize cfg.compact (calls.map cfg.encodedSize)

/-- `can_accept`, which raises if the size of the body cannot be computed. -/
def Config.canAccept (cfg : Config I) (calls : List I) (call : I) : Option Bool :=
  if cfg.maxItems ≤ calls.length then some false
  else if calls = [] then some true
  else (cfg.bodySize (calls++[call])).map fun n => n ≤ cfg.maxBytes

/-- How a call is completed. -/
inductive Outcome (R E : Type) where
  | answered (result : R)
  | failed (error : E)
  | cancelled
  | timedOut

/-- A batch: still waited for, in a request, or answered so far. -/
inductive Batch (I R E : Type) where
  | absent
  | waiting (calls : List I)
  | sending (calls : List I)
  | answering (calls : List I) (outcomes : List (Outcome R E)) (completed : ℕ)

def Batch.calls : Batch I R E → List I
  | .absent => []
  | .waiting calls | .sending calls | .answering calls _ _ => calls

/-- `home` is the batch that a call was appended to, `completions` what its event was set
with, and `requests` the requests with the leaders that sent them. -/
structure State (I R E : Type) where
  pending : Option I
  batch : I → Batch I R E
  home : I → Option I
  cancelled : I → Bool
  expired : I → Bool
  completions : I → List (Outcome R E)
  requests : List (I × List I)

def State.init : State I R E :=
  ⟨none, fun _ => .absent, fun _ => none, fun _ => false, fun _ => false, fun _ => [], []⟩

namespace State

variable [DecidableEq I] (s : State I R E)

/-- Why `_remove_inactive_calls` removes a call. -/
def inactive (i : I) : Option (Outcome R E) :=
  if s.cancelled i then some .cancelled else if s.expired i then some .timedOut else none

def active (calls : List I) : List I := calls.filter fun i => (s.inactive i).isNone

/-- `_remove_inactive_calls` completes what it removes. -/
def complete (calls : List I) : State I R E :=
  { s with
    completions := fun i =>
      if i ∈ calls then s.completions i++(s.inactive i).toList else s.completions i }

def setBatch (b : I) (batch : Batch I R E) : State I R E :=
  { s with batch := Function.update s.batch b batch }

def setHome (i b : I) : State I R E := { s with home := Function.update s.home i (some b) }

/-- The end of the critical section of `_dispatch`. -/
def take (b : I) (calls : List I) : State I R E :=
  let s' := (s.complete calls).setBatch b
    (if s.active calls = [] then .answering [] [] 0 else .sending (s.active calls))
  { s' with
    pending := if s.pending = some b then none else s.pending
    requests := if s.active calls = [] then s.requests else s.requests++[(b, s.active calls)] }

end State

/-- A critical section of `execute` or `_dispatch`, the end of a request, the completion of a
call, a cancellation or an expired deadline. -/
inductive Step [DecidableEq I] (cfg : Config I) : State I R E → State I R E → Prop where
  | join {s : State I R E} {i b : I} {calls : List I} (hnew : s.home i = none)
      (hpending : s.pending = some b) (hbatch : s.batch b = .waiting calls)
      (haccept : cfg.canAccept calls i = some true) :
      Step cfg s ((s.setBatch b (.waiting (calls++[i]))).setHome i b)
  | lead {s : State I R E} {i : I} (hnew : s.home i = none)
      (hfree : s.pending = none ∨ ∃ b calls, s.pending = some b ∧
        s.batch b = .waiting calls ∧ cfg.canAccept calls i = some false) :
      Step cfg s { (s.setBatch i (.waiting [i])).setHome i i with pending := some i }
  | wake {s : State I R E} {b : I} {calls : List I} (hbatch : s.batch b = .waiting calls)
      (hpending : s.pending = some b) (hroom : calls.length < cfg.maxItems)
      (hleft : s.active calls ≠ []) :
      Step cfg s ((s.complete calls).setBatch b (.waiting (s.active calls)))
  | take {s : State I R E} {b : I} {calls : List I} (hbatch : s.batch b = .waiting calls) :
      Step cfg s (s.take b calls)
  /-- The request raises. -/
  | fail {s : State I R E} {b : I} {calls : List I} (hbatch : s.batch b = .sending calls)
      (e : E) :
      Step cfg s (s.setBatch b (.answering calls (calls.map fun _ => .failed e) 0))
  /-- The request returns as many results as it had commands. -/
  | respond {s : State I R E} {b : I} {calls : List I} (hbatch : s.batch b = .sending calls)
      {results : List (Except E R)} (hlength : results.length = calls.length) :
      Step cfg s (s.setBatch b (.answering calls
        (results.map fun | .ok result => .answered result | .error e => .failed e) 0))
  | complete {s : State I R E} {b i : I} {calls : List I} {outcomes : List (Outcome R E)} {n : ℕ}
      {outcome : Outcome R E} (hbatch : s.batch b = .answering calls outcomes n)
      (hcall : calls[n]? = some i) (houtcome : outcomes[n]? = some outcome) :
      Step cfg s
        { s.setBatch b (.answering calls outcomes (n+1)) with
          completions := Function.update s.completions i (s.completions i++[outcome]) }
  | cancel {s : State I R E} (i : I) :
      Step cfg s { s with cancelled := Function.update s.cancelled i true }
  | expire {s : State I R E} (i : I) :
      Step cfg s { s with expired := Function.update s.expired i true }

/-- Every interleaving. -/
def Reached [DecidableEq I] (cfg : Config I) (s : State I R E) : Prop :=
  Relation.ReflTransGen (Step cfg) .init s

/-- The calls of the batch were snapshotted. -/
def Batch.taken : Batch I R E → Bool
  | .sending _ | .answering _ _ _ => true
  | _ => false

/-- All calls of the batch are completed. -/
def Batch.finished : Batch I R E → Bool
  | .answering calls _ n => calls.length = n
  | _ => false

/-!
## Steps of the command coalescer

What is known of a batch depends on its calls, on the calls whose home it is, on their
completions and on its own requests. A step changes these for one batch only.
-/

variable {I R E : Type}

theorem mapM_sublist {sizes sizes' : List (Option ℕ)} (h : sizes'.Sublist sizes) {ns : List ℕ}
    (hns : sizes.mapM id = some ns) : ∃ ns', sizes'.mapM id = some ns' ∧ ns'.Sublist ns := by
  induction h generalizing ns with
  | slnil => exact ⟨ns, hns, .refl _⟩
  | cons a _ ih =>
    rw [List.mapM_cons] at hns
    obtain ⟨n, -, hns⟩ := Option.bind_eq_some_iff.mp hns
    obtain ⟨rest, hrest, hns⟩ := Option.bind_eq_some_iff.mp hns
    obtain rfl := Option.some.inj hns
    obtain ⟨ns', hns', hsub⟩ := ih hrest
    exact ⟨ns', hns', hsub.cons n⟩
  | cons_cons a _ ih =>
    rw [List.mapM_cons] at hns
    obtain ⟨n, hn, hns⟩ := Option.bind_eq_some_iff.mp hns
    obtain ⟨rest, hrest, hns⟩ := Option.bind_eq_some_iff.mp hns
    obtain rfl := Option.some.inj hns
    obtain ⟨ns', hns', hsub⟩ := ih hrest
    refine ⟨n::ns', ?_, hsub.cons_cons n⟩
    rw [List.mapM_cons, hn, hns']
    rfl

theorem overhead_mono (compact : Bool) {m n : ℕ} (h : m ≤ n) :
    overhead compact m ≤ overhead compact n := by
  cases compact with
  | true =>
    simp only [overhead, if_true]
    split_ifs <;> omega
  | false =>
    simp only [overhead, Bool.false_eq_true, if_false]
    omega

/-- Removing calls never increases the size of the body. -/
theorem Config.bodySize_sublist (cfg : Config I) {calls calls' : List I}
    (h : calls'.Sublist calls) {n : ℕ} (hn : cfg.bodySize calls = some n) :
    ∃ m, cfg.bodySize calls' = some m ∧ m ≤ n := by
  obtain ⟨ns, hns, rfl⟩ := Option.map_eq_some_iff.mp hn
  obtain ⟨ns', hns', hsub⟩ := mapM_sublist (h.map cfg.encodedSize) hns
  refine ⟨ns'.sum+overhead cfg.compact ns'.length,
    by simp [Config.bodySize, requestBodySize, hns'], ?_⟩
  exact Nat.add_le_add (hsub.sum_le_sum fun _ _ => Nat.zero_le _)
    (overhead_mono _ hsub.length_le)

/-- The completions of the calls that a batch has. -/
def Batch.Progress (completions : I → List (Outcome R E)) : Batch I R E → Prop
  | .answering calls outcomes n => outcomes.length = calls.length ∧ n ≤ calls.length ∧
      ∀ k i, calls[k]? = some i → completions i = if k < n then outcomes[k]?.toList else []
  | batch => ∀ i ∈ batch.calls, completions i = []

/-- The requests of a batch. -/
def Batch.asks (b : I) (batch : Batch I R E) : List (I × List I) :=
  if batch.taken ∧ batch.calls ≠ [] then [(b, batch.calls)] else []

/-- What holds of the batch that a call leads. -/
structure Fits [DecidableEq I] (cfg : Config I) (s : State I R E) (b : I) : Prop where
  member : ∀ i ∈ (s.batch b).calls, s.home i = some b
  nodup : (s.batch b).calls.Nodup
  count : (s.batch b).calls.length ≤ cfg.maxItems
  size : 1 < (s.batch b).calls.length →
    ∃ n, cfg.bodySize (s.batch b).calls = some n ∧ n ≤ cfg.maxBytes
  removed : ∀ i, s.home i = some b → i ∉ (s.batch b).calls →
    s.completions i = [.cancelled] ∨ s.completions i = [.timedOut]
  progress : (s.batch b).Progress s.completions
  asked : s.requests.filter (·.1 = b) = (s.batch b).asks b

/-- What holds of the slot and of calls without a batch. -/
structure Orderly [DecidableEq I] (cfg : Config I) (s : State I R E) : Prop where
  fits : ∀ b, Fits cfg s b
  pending : ∀ b, s.pending = some b → ∃ calls, s.batch b = .waiting calls
  fresh : ∀ i, s.home i = none → s.completions i = []
  leads : ∀ b, s.batch b ≠ .absent → s.home b = some b
  led : ∀ i b, s.home i = some b → s.batch b ≠ .absent

section
variable [DecidableEq I] {cfg : Config I} {s t : State I R E} {b : I}

omit [DecidableEq I] in
theorem Batch.Progress.congr {batch : Batch I R E} {c d : I → List (Outcome R E)}
    (h : batch.Progress c) (heq : ∀ i ∈ batch.calls, d i = c i) : batch.Progress d := by
  cases batch with
  | answering calls outcomes n =>
    obtain ⟨hlength, hle, hdone⟩ := h
    refine ⟨hlength, hle, fun k i hk => ?_⟩
    rw [heq i (List.mem_of_getElem? hk)]
    exact hdone k i hk
  | absent => nofun
  | waiting calls => exact fun i hi => (heq i hi).trans (h i hi)
  | sending calls => exact fun i hi => (heq i hi).trans (h i hi)

/-- A step at another batch keeps what holds of this one. -/
theorem Fits.frame (h : Fits cfg s b) (hbatch : t.batch b = s.batch b)
    (hhome : ∀ i, t.home i = some b ↔ s.home i = some b)
    (hdone : ∀ i, s.home i = some b → t.completions i = s.completions i)
    (hasked : t.requests.filter (·.1 = b) = s.requests.filter (·.1 = b)) : Fits cfg t b where
  member := fun i hi => (hhome i).mpr (h.member i (hbatch ▸ hi))
  nodup := hbatch ▸ h.nodup
  count := hbatch ▸ h.count
  size := hbatch ▸ h.size
  removed := fun i hi hout => by
    rw [hdone i ((hhome i).mp hi)]
    exact h.removed i ((hhome i).mp hi) (hbatch ▸ hout)
  progress := by
    rw [hbatch]
    exact h.progress.congr fun i hi => hdone i (h.member i hi)
  asked := by rw [hasked, hbatch]; exact h.asked

theorem Fits.join {i : I} {calls : List I} (h : Fits cfg s b) (hnew : s.home i = none)
    (hfresh : s.completions i = []) (hbatch : s.batch b = .waiting calls)
    (haccept : cfg.canAccept calls i = some true) :
    Fits cfg ((s.setBatch b (.waiting (calls++[i]))).setHome i b) b := by
  have hcalls : (s.batch b).calls = calls := by rw [hbatch]; rfl
  have hnot : i ∉ calls := fun hi => by
    have hhome := h.member i (hcalls ▸ hi)
    rw [hnew] at hhome
    cases hhome
  have hbatch' : (((s.setBatch b (.waiting (calls++[i]))).setHome i b).batch b) =
      .waiting (calls++[i]) := by simp [State.setBatch, State.setHome]
  have hroom : calls.length < cfg.maxItems := by
    by_contra hfull
    rw [Config.canAccept, if_pos (not_lt.mp hfull)] at haccept
    cases haccept
  refine ⟨fun j hj => ?_, ?_, ?_, fun hmany => ?_, fun j hj hout => ?_, ?_, ?_⟩
  · rw [hbatch'] at hj
    by_cases hji : j = i
    · simp [State.setHome, hji]
    · have hj : j ∈ calls := by simpa [Batch.calls, hji] using hj
      simpa [State.setHome, State.setBatch, hji] using h.member j (hcalls ▸ hj)
  · rw [hbatch']
    refine List.nodup_append.mpr ⟨hcalls ▸ h.nodup, List.nodup_singleton i, fun x hx y hy => ?_⟩
    rw [List.mem_singleton.mp hy]
    rintro rfl
    exact hnot hx
  · rw [hbatch']
    simpa [Batch.calls] using hroom
  · rw [hbatch'] at hmany ⊢
    have hne : calls ≠ [] := by
      rintro rfl
      simp [Batch.calls] at hmany
    rw [Config.canAccept, if_neg (not_le.mpr hroom), if_neg hne] at haccept
    obtain ⟨n, hn, hle⟩ := Option.map_eq_some_iff.mp haccept
    exact ⟨n, hn, by simpa using hle⟩
  · rw [hbatch'] at hout
    have hout : j ∉ calls ∧ j ≠ i := by simpa [Batch.calls] using hout
    have hj : s.home j = some b := by simpa [State.setHome, State.setBatch, hout.2] using hj
    exact h.removed j hj (hcalls ▸ hout.1)
  · rw [hbatch']
    intro j hj
    have hprogress := h.progress
    rw [hbatch] at hprogress
    rcases List.mem_append.mp hj with hj | hj
    · exact hprogress j hj
    · rw [List.mem_singleton.mp hj]
      exact hfresh
  · rw [hbatch']
    have hasked := h.asked
    rw [hbatch] at hasked
    exact hasked

theorem Fits.lead {i : I} (h : Fits cfg s i) (hfresh : s.completions i = [])
    (habsent : s.batch i = .absent) (hled : ∀ j, s.home j ≠ some i) :
    Fits cfg { (s.setBatch i (.waiting [i])).setHome i i with pending := some i } i := by
  refine ⟨?_, ?_, ?_, ?_, fun j hj hout => ?_, ?_, ?_⟩
  · simp [State.setBatch, State.setHome, Batch.calls]
  · simp [State.setBatch, State.setHome, Batch.calls]
  · have hpos : 1 ≤ cfg.maxItems := cfg.maxItems_pos
    simpa [State.setBatch, State.setHome, Batch.calls] using hpos
  · simp [State.setBatch, State.setHome, Batch.calls]
  · have hne : j ≠ i := by simpa [State.setBatch, State.setHome, Batch.calls] using hout
    exact absurd (by simpa [State.setBatch, State.setHome, hne] using hj) (hled j)
  · simpa [State.setBatch, State.setHome, Batch.Progress, Batch.calls] using hfresh
  · have hasked := h.asked
    rw [habsent] at hasked
    simpa [State.setBatch, State.setHome, Batch.asks, Batch.taken] using hasked

omit [DecidableEq I] in
theorem inactive_of_not_active {calls : List I} {i : I} (hi : i ∈ calls)
    (hout : i ∉ s.active calls) : s.inactive i = some .cancelled ∨ s.inactive i = some .timedOut := by
  have hsome : (s.inactive i).isNone = false := by
    by_contra hnone
    exact hout (List.mem_filter.mpr ⟨hi, by simpa using hnone⟩)
  unfold State.inactive at hsome ⊢
  split_ifs at hsome ⊢ with hcancelled hexpired
  · exact .inl rfl
  · exact .inr rfl
  · cases hsome

/-- `_remove_inactive_calls` keeps what holds of its batch. -/
theorem Fits.remove {calls : List I} {batch : Batch I R E} (h : Fits cfg s b)
    (hbatch : s.batch b = .waiting calls) (htbatch : t.batch b = batch)
    (hcalls : batch.calls = s.active calls) (hhome : t.home = s.home)
    (hdone : t.completions = (s.complete calls).completions)
    (hprogress : (∀ i ∈ batch.calls, t.completions i = []) → batch.Progress t.completions)
    (hasked : t.requests.filter (·.1 = b) = batch.asks b) : Fits cfg t b := by
  have hold : (s.batch b).calls = calls := by rw [hbatch]; rfl
  have hsub : (s.active calls).Sublist calls := List.filter_sublist
  have hquiet : ∀ i ∈ calls, s.completions i = [] := by
    have hprogress := h.progress
    rw [hbatch] at hprogress
    exact hprogress
  refine ⟨fun i hi => ?_, ?_, ?_, fun hmany => ?_, fun i hi hout => ?_, ?_, htbatch ▸ hasked⟩
  · rw [htbatch, hcalls] at hi
    rw [hhome]
    exact h.member i (hold ▸ hsub.subset hi)
  · rw [htbatch, hcalls]
    exact hsub.nodup (hold ▸ h.nodup)
  · rw [htbatch, hcalls]
    exact hsub.length_le.trans (hold ▸ h.count)
  · rw [htbatch, hcalls] at hmany ⊢
    obtain ⟨n, hn, hle⟩ := h.size (by rw [hold]; exact hmany.trans_le hsub.length_le)
    obtain ⟨m, hm, hmn⟩ := cfg.bodySize_sublist hsub (hold ▸ hn)
    exact ⟨m, hm, hmn.trans hle⟩
  · rw [htbatch, hcalls] at hout
    rw [hhome] at hi
    rw [hdone]
    by_cases hin : i ∈ calls
    · simp only [State.complete, if_pos hin, hquiet i hin, List.nil_append]
      rcases inactive_of_not_active hin hout with hcancelled | hexpired
      · exact .inl (by rw [hcancelled]; rfl)
      · exact .inr (by rw [hexpired]; rfl)
    · simp only [State.complete, if_neg hin]
      exact h.removed i hi (hold ▸ hin)
  · rw [htbatch]
    refine hprogress fun i hi => ?_
    rw [hcalls] at hi
    have hnone : s.inactive i = none := by simpa using (List.mem_filter.mp hi).2
    have hin := hsub.subset hi
    rw [hdone]
    simp only [State.complete, if_pos hin, hquiet i hin, hnone]
    rfl

/-- Answers and completions keep what holds of their batch. -/
theorem Fits.answer {calls : List I} {batch : Batch I R E} (h : Fits cfg s b)
    (hcalls : (s.batch b).calls = calls) (htbatch : t.batch b = batch)
    (hsame : batch.calls = calls) (htaken : (s.batch b).taken = batch.taken)
    (hhome : t.home = s.home) (hrequests : t.requests = s.requests)
    (hdone : ∀ i ∉ calls, t.completions i = s.completions i)
    (hprogress : batch.Progress t.completions) : Fits cfg t b where
  member := fun i hi => by
    rw [htbatch, hsame] at hi
    rw [hhome]
    exact h.member i (hcalls ▸ hi)
  nodup := by rw [htbatch, hsame]; exact hcalls ▸ h.nodup
  count := by rw [htbatch, hsame]; exact hcalls ▸ h.count
  size := by rw [htbatch, hsame]; exact hcalls ▸ h.size
  removed := fun i hi hout => by
    rw [htbatch, hsame] at hout
    rw [hhome] at hi
    rw [hdone i hout]
    exact h.removed i hi (hcalls ▸ hout)
  progress := htbatch ▸ hprogress
  asked := by
    rw [hrequests, h.asked, htbatch, Batch.asks, Batch.asks, htaken, hcalls, hsame]

end

end FerricStore.CommandCoalescer
