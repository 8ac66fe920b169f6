import FerricStore.CommandCoalescer

/-!
# Runs of the command coalescer

Only the slot lets calls join, and a batch that was taken is not in the slot. So the calls
of a request are fixed when it is sent, and each is completed by its leader alone.
-/

set_option autoImplicit false

namespace FerricStore.CommandCoalescer

variable {I R E : Type} [DecidableEq I] {cfg : Config I} {s t : State I R E}

theorem Orderly.init : Orderly cfg (.init : State I R E) := by
  refine ⟨fun b => ⟨nofun, List.nodup_nil, Nat.zero_le _, ?_, nofun, nofun, rfl⟩, nofun,
    fun _ _ => rfl, fun _ h => absurd rfl h, nofun⟩
  intro hmany
  exact absurd hmany (by simp [State.init, Batch.calls])

theorem Orderly.absent {i : I} (h : Orderly cfg s) (hi : s.home i = none) :
    s.batch i = .absent := by
  by_contra hne
  have hhome := h.leads i hne
  rw [hi] at hhome
  cases hhome

theorem Orderly.join {i b : I} {calls : List I} (h : Orderly cfg s) (hnew : s.home i = none)
    (hpending : s.pending = some b) (hbatch : s.batch b = .waiting calls)
    (haccept : cfg.canAccept calls i = some true) :
    Orderly cfg ((s.setBatch b (.waiting (calls++[i]))).setHome i b) := by
  have habsent := h.absent hnew
  have hib : i ≠ b := by
    rintro rfl
    rw [habsent] at hbatch
    cases hbatch
  have hold : s.batch b ≠ .absent := by simp [hbatch]
  refine ⟨fun c => ?_, fun c hc => ?_, fun j hj => ?_, fun c hc => ?_, fun j c hj => ?_⟩
  · by_cases hc : c = b
    · subst hc
      exact (h.fits c).join hnew (h.fresh i hnew) hbatch haccept
    · refine (h.fits c).frame ?_ (fun j => ?_) (fun _ _ => rfl) rfl
      · simp [State.setBatch, State.setHome, hc]
      · by_cases hj : j = i
        · subst hj
          simp [State.setBatch, State.setHome, hnew, Ne.symm hc]
        · simp [State.setBatch, State.setHome, hj]
  · obtain rfl : b = c := Option.some.inj (hpending.symm.trans hc)
    exact ⟨_, Function.update_self _ _ _⟩
  · have hne : j ≠ i := by
      rintro rfl
      simp [State.setHome] at hj
    exact h.fresh j (by simpa [State.setBatch, State.setHome, hne] using hj)
  · have hc : s.batch c ≠ .absent := by
      by_cases hcb : c = b
      · exact hcb ▸ hold
      · simpa [State.setBatch, State.setHome, hcb] using hc
    have hci : c ≠ i := fun heq => hc (heq ▸ habsent)
    simpa [State.setBatch, State.setHome, hci] using h.leads c hc
  · by_cases hcb : c = b
    · simp [State.setBatch, State.setHome, hcb]
    · have hji : j ≠ i := by
        rintro rfl
        exact hcb (by simpa [State.setHome, eq_comm] using hj)
      have hj : s.home j = some c := by simpa [State.setBatch, State.setHome, hji] using hj
      simpa [State.setBatch, State.setHome, hcb] using h.led j c hj

theorem Orderly.lead {i : I} (h : Orderly cfg s) (hnew : s.home i = none) :
    Orderly cfg { (s.setBatch i (.waiting [i])).setHome i i with pending := some i } := by
  have habsent := h.absent hnew
  have hled : ∀ j, s.home j ≠ some i := fun j hj => h.led j i hj habsent
  refine ⟨fun c => ?_, fun c hc => ?_, fun j hj => ?_, fun c hc => ?_, fun j c hj => ?_⟩
  · by_cases hc : c = i
    · subst hc
      exact (h.fits c).lead (h.fresh c hnew) habsent hled
    · refine (h.fits c).frame ?_ (fun j => ?_) (fun _ _ => rfl) rfl
      · simp [State.setBatch, State.setHome, hc]
      · by_cases hj : j = i
        · subst hj
          simp [State.setBatch, State.setHome, hnew, Ne.symm hc]
        · simp [State.setBatch, State.setHome, hj]
  · obtain rfl : i = c := Option.some.inj hc
    exact ⟨[i], by simp [State.setBatch, State.setHome]⟩
  · have hne : j ≠ i := by
      rintro rfl
      simp [State.setHome] at hj
    exact h.fresh j (by simpa [State.setBatch, State.setHome, hne] using hj)
  · by_cases hci : c = i
    · simp [State.setBatch, State.setHome, hci]
    · have hc : s.batch c ≠ .absent := by simpa [State.setBatch, State.setHome, hci] using hc
      simpa [State.setBatch, State.setHome, hci] using h.leads c hc
  · by_cases hci : c = i
    · simp [State.setBatch, State.setHome, hci]
    · have hji : j ≠ i := by
        rintro rfl
        exact hci (by simpa [State.setHome, eq_comm] using hj)
      have hj : s.home j = some c := by simpa [State.setBatch, State.setHome, hji] using hj
      simpa [State.setBatch, State.setHome, hci] using h.led j c hj

/-- A step that changes one batch and the completions of its calls. -/
theorem Orderly.replace {b : I} (h : Orderly cfg s) (hold : s.batch b ≠ .absent)
    (hnew : t.batch b ≠ .absent) (hothers : ∀ c ≠ b, t.batch c = s.batch c)
    (hhome : t.home = s.home)
    (hdone : ∀ i, s.home i ≠ some b → t.completions i = s.completions i)
    (hasked : ∀ c ≠ b, t.requests.filter (·.1 = c) = s.requests.filter (·.1 = c))
    (hpending : ∀ c, t.pending = some c →
      s.pending = some c ∧ (c = b → ∃ calls, t.batch b = .waiting calls))
    (hfits : Fits cfg t b) : Orderly cfg t := by
  refine ⟨fun c => ?_, fun c hc => ?_, fun i hi => ?_, fun c hc => ?_, fun i c hi => ?_⟩
  · by_cases hc : c = b
    · exact hc ▸ hfits
    · refine (h.fits c).frame (hothers c hc) (fun i => by rw [hhome]) (fun i hi => ?_)
        (hasked c hc)
      refine hdone i fun hib => hc ?_
      exact Option.some.inj (hi.symm.trans hib)
  · obtain ⟨hs, hb⟩ := hpending c hc
    by_cases hcb : c = b
    · exact hcb ▸ hb hcb
    · rw [hothers c hcb]
      exact h.pending c hs
  · rw [hhome] at hi
    rw [hdone i (by rw [hi]; nofun)]
    exact h.fresh i hi
  · rw [hhome]
    by_cases hcb : c = b
    · exact hcb ▸ h.leads b hold
    · exact h.leads c (by rwa [hothers c hcb] at hc)
  · rw [hhome] at hi
    by_cases hcb : c = b
    · exact hcb ▸ hnew
    · rw [hothers c hcb]
      exact h.led i c hi

theorem complete_other {b : I} {calls : List I} (h : Orderly cfg s)
    (hbatch : s.batch b = .waiting calls) {i : I} (hi : s.home i ≠ some b) :
    (s.complete calls).completions i = s.completions i := by
  have hout : i ∉ calls := fun hin => hi ((h.fits b).member i (by rw [hbatch]; exact hin))
  simp [State.complete, hout]

theorem Orderly.wake {b : I} {calls : List I} (h : Orderly cfg s)
    (hbatch : s.batch b = .waiting calls) :
    Orderly cfg ((s.complete calls).setBatch b (.waiting (s.active calls))) := by
  have hasked : s.requests.filter (·.1 = b) = [] := by
    rw [(h.fits b).asked, hbatch]
    rfl
  have hbatch' : ((s.complete calls).setBatch b (.waiting (s.active calls))).batch b =
      .waiting (s.active calls) := by simp [State.setBatch]
  exact h.replace (by simp [hbatch]) (by simp [hbatch'])
    (fun c hc => by simp [State.setBatch, State.complete, hc]) rfl
    (fun i hi => complete_other h hbatch hi) (fun _ _ => rfl)
    (fun c hc => ⟨hc, fun _ => ⟨s.active calls, hbatch'⟩⟩)
    ((h.fits b).remove hbatch hbatch' rfl rfl rfl (fun hquiet => hquiet) hasked)

theorem Orderly.take {b : I} {calls : List I} (h : Orderly cfg s)
    (hbatch : s.batch b = .waiting calls) : Orderly cfg (s.take b calls) := by
  have hasked : s.requests.filter (·.1 = b) = [] := by
    rw [(h.fits b).asked, hbatch]
    rfl
  have hbatch' : (s.take b calls).batch b =
      if s.active calls = [] then .answering [] [] 0 else .sending (s.active calls) := by
    simp [State.take, State.setBatch]
  refine h.replace (by simp [hbatch]) (by rw [hbatch']; split_ifs <;> (intro hidle; cases hidle))
    (fun c hc => by simp [State.take, State.setBatch, State.complete, hc]) rfl
    (fun i hi => complete_other h hbatch hi) (fun c hc => ?_) (fun c hc => ?_)
    ((h.fits b).remove hbatch hbatch' ?_ rfl rfl (fun hquiet => ?_) ?_)
  · by_cases hactive : s.active calls = []
    · simp [State.take, hactive]
    · simp [State.take, hactive, Ne.symm hc]
  · by_cases hpending : s.pending = some b
    · simp [State.take, hpending] at hc
    · have hc : s.pending = some c := by simpa [State.take, hpending] using hc
      exact ⟨hc, fun heq => absurd (heq ▸ hc) hpending⟩
  · split_ifs with hactive
    · simp [Batch.calls, hactive]
    · rfl
  · split_ifs with hactive
    · exact ⟨rfl, le_rfl, by simp⟩
    · rw [if_neg hactive] at hquiet
      exact hquiet
  · by_cases hactive : s.active calls = []
    · simp [State.take, hactive, hasked, Batch.asks, Batch.taken, Batch.calls]
    · simp [State.take, hactive, hasked, Batch.asks, Batch.taken, Batch.calls]

/-- The outcomes of a request take its place. -/
theorem Orderly.answer {b : I} {calls : List I} {outcomes : List (Outcome R E)}
    (h : Orderly cfg s) (hbatch : s.batch b = .sending calls)
    (hlength : outcomes.length = calls.length) :
    Orderly cfg (s.setBatch b (.answering calls outcomes 0)) := by
  have hbatch' : (s.setBatch b (.answering calls outcomes 0)).batch b =
      .answering calls outcomes 0 := by simp [State.setBatch]
  have hprogress := (h.fits b).progress
  rw [hbatch] at hprogress
  refine h.replace (by simp [hbatch]) (by simp [hbatch'])
    (fun c hc => by simp [State.setBatch, hc]) rfl (fun _ _ => rfl) (fun _ _ => rfl)
    (fun c hc => ⟨hc, fun heq => ?_⟩)
    ((h.fits b).answer (by rw [hbatch]; rfl) hbatch' rfl (by rw [hbatch]; rfl) rfl rfl
      (fun _ _ => rfl) ⟨hlength, Nat.zero_le _, fun k i hk => ?_⟩)
  · obtain ⟨waiting, hwaiting⟩ := h.pending c hc
    rw [heq, hbatch] at hwaiting
    cases hwaiting
  · simpa [State.setBatch] using hprogress i (List.mem_of_getElem? hk)

theorem Orderly.complete {b i : I} {calls : List I} {outcomes : List (Outcome R E)} {n : ℕ}
    {outcome : Outcome R E} (h : Orderly cfg s) (hbatch : s.batch b = .answering calls outcomes n)
    (hcall : calls[n]? = some i) (houtcome : outcomes[n]? = some outcome) :
    Orderly cfg
      { s.setBatch b (.answering calls outcomes (n+1)) with
        completions := Function.update s.completions i (s.completions i++[outcome]) } := by
  have hfits := h.fits b
  have hcalls : (s.batch b).calls = calls := by rw [hbatch]; rfl
  have hprogress := hfits.progress
  rw [hbatch] at hprogress
  obtain ⟨hlength, hle, hdone⟩ := hprogress
  have hmem := List.mem_of_getElem? hcall
  have hhome := hfits.member i (hcalls ▸ hmem)
  have hnodup : calls.Nodup := hcalls ▸ hfits.nodup
  have hlt := (List.getElem?_eq_some_iff.mp hcall).1
  have hbatch' : (s.setBatch b (.answering calls outcomes (n+1))).batch b =
      .answering calls outcomes (n+1) := by simp [State.setBatch]
  refine h.replace (b := b) (by simp [hbatch]) (by simp [State.setBatch])
    (fun c hc => by simp [State.setBatch, hc]) rfl (fun j hj => ?_) (fun _ _ => rfl)
    (fun c hc => ⟨hc, fun heq => ?_⟩)
    (hfits.answer hcalls hbatch' rfl (by rw [hbatch]; rfl) rfl rfl (fun j hj => ?_)
      ⟨hlength, hlt, fun k j hk => ?_⟩)
  · have hne : j ≠ i := fun heq => hj (heq ▸ hhome)
    simp [hne]
  · obtain ⟨waiting, hwaiting⟩ := h.pending c hc
    rw [heq, hbatch] at hwaiting
    cases hwaiting
  · have hne : j ≠ i := fun heq => hj (heq ▸ hmem)
    simp [hne]
  · by_cases hkn : k = n
    · subst hkn
      obtain rfl : i = j := Option.some.inj (hcall.symm.trans hk)
      simp [hdone k i hk, houtcome]
    · have hne : j ≠ i := by
        rintro rfl
        exact hkn ((List.getElem?_inj hlt hnodup).mp (hcall.trans hk.symm)).symm
      have hiff : k < n+1 ↔ k < n := by omega
      simp only [Function.update_of_ne hne, hdone k j hk, hiff]

theorem Orderly.step (h : Orderly cfg s) (hstep : Step cfg s t) : Orderly cfg t := by
  cases hstep with
  | join hnew hpending hbatch haccept => exact h.join hnew hpending hbatch haccept
  | lead hnew => exact h.lead hnew
  | wake hbatch => exact h.wake hbatch
  | take hbatch => exact h.take hbatch
  | fail hbatch e => exact h.answer hbatch (by simp)
  | respond hbatch hlength => exact h.answer hbatch (by simpa using hlength)
  | complete hbatch hcall houtcome => exact h.complete hbatch hcall houtcome
  | cancel i =>
    exact ⟨fun b => (h.fits b).frame rfl (fun _ => .rfl) (fun _ _ => rfl) rfl, h.pending,
      h.fresh, h.leads, h.led⟩
  | expire i =>
    exact ⟨fun b => (h.fits b).frame rfl (fun _ => .rfl) (fun _ _ => rfl) rfl, h.pending,
      h.fresh, h.leads, h.led⟩

theorem Reached.orderly (h : Reached cfg s) : Orderly cfg s :=
  Transitions.invariant (fun _ _ hs hst => hs.step hst) .init h

/-- A batch that was taken keeps its calls, and no call joins it. -/
theorem step_taken {b : I} (h : Orderly cfg s) (hstep : Step cfg s t)
    (htaken : (s.batch b).taken = true) :
    (t.batch b).taken = true ∧ (t.batch b).calls = (s.batch b).calls ∧
      ∀ i, t.home i = some b → s.home i = some b := by
  have hwaiting : ∀ {c calls}, s.batch c = .waiting calls → b ≠ c := by
    rintro c calls hbatch rfl
    rw [hbatch] at htaken
    cases htaken
  have hhome : ∀ {i c j}, b ≠ c → (s.setHome i c).home j = some b → s.home j = some b := by
    intro i c j hne hj
    by_cases hji : j = i
    · subst hji
      exact absurd (by simpa [State.setHome] using hj) (Ne.symm hne)
    · simpa [State.setHome, hji] using hj
  have hanswered : ∀ {c calls outcomes n}, (s.batch c).calls = calls →
      ((s.setBatch c (.answering calls outcomes n)).batch b).taken = true ∧
        ((s.setBatch c (.answering calls outcomes n)).batch b).calls = (s.batch b).calls := by
    intro c calls outcomes n hcalls
    by_cases hc : b = c
    · subst hc
      simp [State.setBatch, Batch.taken, Batch.calls, ← hcalls]
    · simp [State.setBatch, hc, htaken]
  cases hstep with
  | join hnew hpending hbatch =>
    have hne := hwaiting hbatch
    exact ⟨by simpa [State.setBatch, State.setHome, hne] using htaken,
      by simp [State.setBatch, State.setHome, hne], fun j hj => hhome hne hj⟩
  | @lead i hnew =>
    have hne : b ≠ i := by
      rintro rfl
      rw [h.absent hnew] at htaken
      cases htaken
    exact ⟨by simpa [State.setBatch, State.setHome, hne] using htaken,
      by simp [State.setBatch, State.setHome, hne], fun j hj => hhome hne hj⟩
  | wake hbatch =>
    have hne := hwaiting hbatch
    exact ⟨by simpa [State.setBatch, State.complete, hne] using htaken,
      by simp [State.setBatch, State.complete, hne], fun _ hj => hj⟩
  | take hbatch =>
    have hne := hwaiting hbatch
    exact ⟨by simpa [State.take, State.setBatch, State.complete, hne] using htaken,
      by simp [State.take, State.setBatch, State.complete, hne], fun _ hj => hj⟩
  | fail hbatch e =>
    obtain ⟨htaken', hcalls⟩ := hanswered (congrArg Batch.calls hbatch)
    exact ⟨htaken', hcalls, fun _ hj => hj⟩
  | respond hbatch =>
    obtain ⟨htaken', hcalls⟩ := hanswered (congrArg Batch.calls hbatch)
    exact ⟨htaken', hcalls, fun _ hj => hj⟩
  | complete hbatch =>
    obtain ⟨htaken', hcalls⟩ := hanswered (congrArg Batch.calls hbatch)
    exact ⟨htaken', hcalls, fun _ hj => hj⟩
  | cancel i => exact ⟨htaken, rfl, fun _ hj => hj⟩
  | expire i => exact ⟨htaken, rfl, fun _ hj => hj⟩

theorem run_taken {b : I} (h : Reached cfg s) (htaken : (s.batch b).taken = true)
    (hrun : Relation.ReflTransGen (Step cfg) s t) :
    (t.batch b).taken = true ∧ (t.batch b).calls = (s.batch b).calls ∧
      ∀ i, t.home i = some b → s.home i = some b := by
  induction hrun with
  | refl => exact ⟨htaken, rfl, fun _ hi => hi⟩
  | tail hrun hstep ih =>
    obtain ⟨htaken', hcalls, hhome⟩ := ih
    obtain ⟨htaken'', hcalls', hhome'⟩ := step_taken (Reached.orderly (h.trans hrun)) hstep htaken'
    exact ⟨htaken'', hcalls'.trans hcalls, fun i hi => hhome i (hhome' i hi)⟩

theorem Orderly.requests_once (h : Orderly cfg s) : (s.requests.map Prod.fst).Nodup := by
  refine List.nodup_iff_count_le_one.mpr fun b => ?_
  have hcount : (s.requests.map Prod.fst).count b = (s.requests.filter (·.1 = b)).length := by
    rw [List.count_eq_countP, List.countP_map, List.countP_eq_length_filter]
    congr 2
  rw [hcount, (h.fits b).asked, Batch.asks]
  split_ifs <;> simp

theorem Orderly.request_eq (h : Orderly cfg s) {b : I} {calls : List I}
    (hmem : (b, calls) ∈ s.requests) :
    (s.batch b).taken = true ∧ (s.batch b).calls = calls := by
  have hfilter : (b, calls) ∈ s.requests.filter (·.1 = b) := List.mem_filter.mpr ⟨hmem, by simp⟩
  rw [(h.fits b).asked, Batch.asks] at hfilter
  split_ifs at hfilter with hcond
  · have heq := List.mem_singleton.mp hfilter
    exact ⟨hcond.1, (Prod.mk.inj heq).2.symm⟩
  · cases hfilter

theorem Orderly.requests_disjoint (h : Orderly cfg s) :
    (s.requests.flatMap Prod.snd).Nodup := by
  refine List.nodup_flatMap.mpr ⟨fun r hr => ?_, ?_⟩
  · rw [← (h.request_eq hr).2]
    exact (h.fits r.1).nodup
  · refine (List.pairwise_map.mp h.requests_once).imp_of_mem fun {q r} hq hr hne => ?_
    intro i hiq hir
    rw [← (h.request_eq hq).2] at hiq
    rw [← (h.request_eq hr).2] at hir
    have hhomeq := (h.fits q.1).member i hiq
    have hhomer := (h.fits r.1).member i hir
    exact hne (Option.some.inj (hhomeq.symm.trans hhomer))

/-- The completions of a call that joined a batch: none yet, one for its removal, or its
own outcome. -/
theorem Orderly.completions_le (h : Orderly cfg s) (i : I) : (s.completions i).length ≤ 1 := by
  cases hhome : s.home i with
  | none => simp [h.fresh i hhome]
  | some b =>
    by_cases hi : i ∈ (s.batch b).calls
    · have hprogress := (h.fits b).progress
      cases hbatch : s.batch b with
      | answering calls outcomes n =>
        rw [hbatch] at hprogress hi
        obtain ⟨k, hk⟩ := List.mem_iff_getElem?.mp hi
        rw [hprogress.2.2 k i hk]
        split_ifs
        · cases outcomes[k]? <;> simp
        · simp
      | absent => rw [hbatch] at hi; cases hi
      | waiting calls =>
        rw [hbatch] at hprogress hi
        simp [hprogress i hi]
      | sending calls =>
        rw [hbatch] at hprogress hi
        simp [hprogress i hi]
    · rcases (h.fits b).removed i hhome hi with heq | heq <;> simp [heq]

/-!
## Safety of the command coalescer

What every interleaving keeps: one batch for a call, one leader and one request for a batch,
the limits of a request, and one completion for a call.
-/

variable {I R E : Type} [DecidableEq I]

/-- A request keeps within the limits of the coalescer. -/
def Config.Admits (cfg : Config I) (calls : List I) : Prop :=
  calls.length ≤ cfg.maxItems ∧
    (1 < calls.length → ∃ n, cfg.bodySize calls = some n ∧ n ≤ cfg.maxBytes)

/-- In every interleaving: a call is in no batch but its own, and its batch is led by a call
of it; each batch sends at most one request, with the calls it had when it was taken, and
each call is in at most one; requests keep their limits; a removed call is in no request;
no call joins a batch that was taken; a call is completed at most once, and once the batch is
answered each of its calls has its own positional outcome. -/
theorem coalescing_safe {cfg : Config I} {s : State I R E} (h : Reached cfg s) :
    (∀ b, (s.batch b).calls.Nodup ∧ ∀ i ∈ (s.batch b).calls, s.home i = some b) ∧
    (∀ i b, s.home i = some b → s.home b = some b) ∧
    (s.requests.map Prod.fst).Nodup ∧ (s.requests.flatMap Prod.snd).Nodup ∧
    (∀ r ∈ s.requests, (s.batch r.1).calls = r.2 ∧ cfg.Admits r.2) ∧
    (∀ i b, s.home i = some b → i ∉ (s.batch b).calls →
      (s.completions i = [.cancelled] ∨ s.completions i = [.timedOut]) ∧
        ∀ r ∈ s.requests, i ∉ r.2) ∧
    (∀ b t, (s.batch b).taken = true → Relation.ReflTransGen (Step cfg) s t →
      (t.batch b).calls = (s.batch b).calls ∧ ∀ i, t.home i = some b → s.home i = some b) ∧
    (∀ i, (s.completions i).length ≤ 1) ∧
    ∀ b calls outcomes, s.batch b = .answering calls outcomes calls.length →
      ∀ (k : ℕ) (i : I), calls[k]? = some i → ∃ outcome, outcomes[k]? = some outcome ∧
        s.completions i = [outcome] := by
  have horderly := h.orderly
  refine ⟨fun b => ⟨(horderly.fits b).nodup, (horderly.fits b).member⟩,
    fun i b hi => horderly.leads b (horderly.led i b hi), horderly.requests_once,
    horderly.requests_disjoint, fun r hr => ?_, fun i b hi hout => ?_,
    fun b t htaken hrun => (run_taken h htaken hrun).2, horderly.completions_le,
    fun b calls outcomes hbatch k i hk => ?_⟩
  · have heq := (horderly.request_eq hr).2
    exact ⟨heq, heq ▸ ⟨(horderly.fits r.1).count, (horderly.fits r.1).size⟩⟩
  · refine ⟨(horderly.fits b).removed i hi hout, fun r hr hir => ?_⟩
    rw [← (horderly.request_eq hr).2] at hir
    have hhome := (horderly.fits r.1).member i hir
    exact hout (Option.some.inj (hi.symm.trans hhome) ▸ hir)
  · have hprogress := (horderly.fits b).progress
    rw [hbatch] at hprogress
    obtain ⟨hlength, -, hdone⟩ := hprogress
    have hlt := (List.getElem?_eq_some_iff.mp hk).1
    refine ⟨outcomes[k], by simp [hlength, hlt], ?_⟩
    rw [hdone k i hk, if_pos hlt]
    simp [hlength, hlt]

/-- Two items of ten bytes in a body of at most a hundred. -/
def sampleConfig : Config ℕ := ⟨2, by decide, 100, false, fun _ => some 10⟩

/-- The batch of calls 0 and 1, whose leader was cancelled. -/
def joinedState : State ℕ ℕ Unit where
  pending := some 0
  batch := Function.update (fun _ => .absent) 0 (.waiting [0, 1])
  home := Function.update (Function.update (fun _ => none) 0 (some 0)) 1 (some 0)
  cancelled := Function.update (fun _ => false) 0 true
  expired := fun _ => false
  completions := fun _ => []
  requests := []

theorem joinedState_reached : Reached sampleConfig joinedState := by
  have hled : Reached sampleConfig
      ({ (State.init.setBatch 0 (.waiting [0])).setHome 0 0 with pending := some 0 } :
        State ℕ ℕ Unit) :=
    .tail .refl (.lead rfl (.inl rfl))
  have hjoined := Relation.ReflTransGen.tail hled
    (.join (i := 1) (b := 0) rfl rfl rfl (by decide))
  have hstep := Relation.ReflTransGen.tail hjoined (.cancel 0)
  have heq : Function.update (Function.update (fun _ : ℕ => (Batch.absent : Batch ℕ ℕ Unit)) 0
      (.waiting [0])) 0 (.waiting [0, 1]) = Function.update (fun _ => .absent) 0
      (.waiting [0, 1]) := Function.update_idem _ _ _
  simpa [Reached, State.init, State.setBatch, State.setHome, joinedState, heq] using hstep

theorem coalescing_safe_leader_removed :
    (joinedState.take 0 [0, 1]).requests = [(0, [1])] ∧
      (joinedState.take 0 [0, 1]).completions 0 = [.cancelled] ∧
      ∀ i, ((joinedState.take 0 [0, 1]).completions i).length ≤ 1 :=
  ⟨rfl, rfl, (coalescing_safe (Relation.ReflTransGen.tail joinedState_reached
    (.take rfl))).2.2.2.2.2.2.2.1⟩

end FerricStore.CommandCoalescer
