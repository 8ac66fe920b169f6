import FerricStore.LockedPlans

/-!
# Jobs under locks

Jobs start with disjoint locks, ask, are answered one command at a time, go on and stop,
in any order. If every plan is safe under each of its locks, the view of every lock is
good in every state that is reached, and a job only changes the views of its own locks.
-/

set_option autoImplicit false

namespace FerricStore.CommandPlans

variable {S C R E α L V O : Type}

structure Job (C R E α O : Type) where
  op : O
  task : Task C R E α

/-- The state and the running jobs. -/
structure Config (S C R E α O : Type) where
  state : S
  jobs : List (Job C R E α O)

variable (M : Guarding S C R L V) (plan : O → Plan C R E α) (locks : O → Set L)
  (admits : O → S → Prop)

/-- The step of the job of an operation, or its start or end. -/
inductive JobStep (M : Guarding S C R L V) (plan : O → Plan C R E α) (locks : O → Set L)
    (admits : O → S → Prop) : O → Config S C R E α O → Config S C R E α O → Prop where
  | start {s : S} {jobs : List (Job C R E α O)} {o : O} (hadmits : admits o s)
      (hfree : ∀ j ∈ jobs, Disjoint (locks j.op) (locks o)) :
      JobStep M plan locks admits o ⟨s, jobs⟩ ⟨s, ⟨o, .ready (plan o)⟩::jobs⟩
  | ask {s : S} {before after : List (Job C R E α O)} {o : O} {cs : List C}
      {next : List R → Plan C R E α} :
      JobStep M plan locks admits o ⟨s, before++⟨o, .ready (.request cs next)⟩::after⟩
        ⟨s, before++⟨o, .waiting (cs.map (·, none)) next⟩::after⟩
  | answer {s : S} {before after : List (Job C R E α O)} {o : O}
      {asked rest : List (C × Option R)} {c : C} {next : List R → Plan C R E α} :
      JobStep M plan locks admits o
        ⟨s, before++⟨o, .waiting (asked++(c, none)::rest) next⟩::after⟩
        ⟨(M.exec c s).2,
          before++⟨o, .waiting (asked++(c, some (M.exec c s).1)::rest) next⟩::after⟩
  | resume {s : S} {before after : List (Job C R E α O)} {o : O}
      {asked : List (C × Option R)} {next : List R → Plan C R E α} {rs : List R}
      (hanswered : asked.map Prod.snd = rs.map some) :
      JobStep M plan locks admits o ⟨s, before++⟨o, .waiting asked next⟩::after⟩
        ⟨s, before++⟨o, .ready (next rs)⟩::after⟩
  | stop {s : S} {before after : List (Job C R E α O)} {o : O} {task : Task C R E α} :
      JobStep M plan locks admits o ⟨s, before++⟨o, task⟩::after⟩ ⟨s, before++after⟩

/-- What the steps of any jobs reach. -/
def Reached : Config S C R E α O → Config S C R E α O → Prop :=
  Relation.ReflTransGen fun a b => ∃ o, JobStep M plan locks admits o a b

variable (G : L → V → Prop) (Q : O → L → Except E α → V → Prop)

/-- A job is safe under each of its locks, and one without locks only asks for what
needs none. -/
structure SafeJob (j : Job C R E α O) (s : S) : Prop where
  safe : ∀ l ∈ locks j.op, SafeTask M (locks j.op) l (G l) (Q j.op l) j.task (M.view l s)
  free : locks j.op = ∅ → FreeTask M j.task

structure Orderly (a : Config S C R E α O) : Prop where
  sound : M.sound a.state
  good : ∀ l, G l (M.view l a.state)
  exclusive : a.jobs.Pairwise fun i j => Disjoint (locks i.op) (locks j.op)
  safe : ∀ j ∈ a.jobs, SafeJob M locks G Q j a.state

/-- A plan that starts in an orderly state is safe. -/
def Starts : Prop := ∀ o s, admits o s → M.sound s → (∀ l, G l (M.view l s)) →
  SafeJob M locks G Q ⟨o, .ready (plan o)⟩ s

variable {M plan locks admits G Q}

theorem SafeJob.permitted {o : O} {asked : List (C × Option R)} {next : List R → Plan C R E α}
    {s : S} (h : SafeJob M locks G Q ⟨o, .waiting asked next⟩ s) {x : C × Option R}
    (hx : x ∈ asked) : Permitted M (locks o) x.1 := by
  rcases (locks o).eq_empty_or_nonempty with hempty | ⟨l, hl⟩
  · have hfree := (h.free hempty).1 x hx
    exact ⟨hfree.1, fun m hm => absurd hm (hfree.2 m)⟩
  · exact (h.safe l hl).1 x hx

theorem view_frame {c : C} {s : S} {l : L} (h : ¬M.touches c l) :
    M.view l (M.exec c s).2 = M.view l s :=
  M.acts_frame l c _ _ _ h (M.exec_acts l c s)

/-- A job whose locks a command does not touch does not see it. -/
theorem SafeJob.frame {j : Job C R E α O} {s : S} {c : C} (h : SafeJob M locks G Q j s)
    (hc : ∀ l ∈ locks j.op, ¬M.touches c l) : SafeJob M locks G Q j (M.exec c s).2 := by
  refine ⟨fun l hl => ?_, h.free⟩
  rw [view_frame (hc l hl)]
  exact h.safe l hl

theorem SafeJob.answer {o : O} {asked rest : List (C × Option R)} {c : C}
    {next : List R → Plan C R E α} {s : S}
    (h : SafeJob M locks G Q ⟨o, .waiting (asked++(c, none)::rest) next⟩ s) :
    SafeJob M locks G Q ⟨o, .waiting (asked++(c, some (M.exec c s).1)::rest) next⟩
      (M.exec c s).2 := by
  have hmem : ∀ x ∈ asked++(c, some (M.exec c s).1)::rest,
      ∃ y ∈ asked++(c, none)::rest, y.1 = x.1 := by
    intro x hx
    simp only [List.mem_append, List.mem_cons] at hx ⊢
    rcases hx with hx | rfl | hx
    · exact ⟨x, .inl hx, rfl⟩
    · exact ⟨(c, none), .inr (.inl rfl), rfl⟩
    · exact ⟨x, .inr (.inr hx), rfl⟩
  refine ⟨fun l hl => ?_, fun hempty => ?_⟩
  · obtain ⟨hpermitted, hreach⟩ := h.safe l hl
    refine ⟨fun x hx => ?_, fun asked' w hw => hreach asked' w (.head ⟨M.exec_acts l c s⟩ hw)⟩
    obtain ⟨y, hy, heq⟩ := hmem x hx
    exact heq ▸ hpermitted y hy
  · obtain ⟨hfree, hnext⟩ := h.free hempty
    refine ⟨fun x hx => ?_, hnext⟩
    obtain ⟨y, hy, heq⟩ := hmem x hx
    exact heq ▸ hfree y hy

theorem SafeJob.resume {o : O} {asked : List (C × Option R)} {next : List R → Plan C R E α}
    {rs : List R} {s : S} (h : SafeJob M locks G Q ⟨o, .waiting asked next⟩ s)
    (hrs : asked.map Prod.snd = rs.map some) :
    SafeJob M locks G Q ⟨o, .ready (next rs)⟩ s :=
  ⟨fun l hl => ((h.safe l hl).2 asked _ .refl).2 rs hrs, fun hempty => (h.free hempty).2 rs⟩

theorem SafeJob.ask {o : O} {cs : List C} {next : List R → Plan C R E α} {s : S}
    (h : SafeJob M locks G Q ⟨o, .ready (.request cs next)⟩ s) :
    SafeJob M locks G Q ⟨o, .waiting (cs.map (·, none)) next⟩ s := by
  refine ⟨h.safe, fun hempty => ⟨fun x hx => ?_, (h.free hempty).2⟩⟩
  obtain ⟨c, hc, rfl⟩ := List.mem_map.mp hx
  exact (h.free hempty).1 c hc

/-- A step changes the task of one job, and keeps its operation. -/
theorem Orderly.replace {s : S} {before after : List (Job C R E α O)} {o : O}
    {task task' : Task C R E α}
    (h : Orderly M locks G Q ⟨s, before++⟨o, task⟩::after⟩)
    (htask : SafeJob M locks G Q ⟨o, task'⟩ s) :
    Orderly M locks G Q ⟨s, before++⟨o, task'⟩::after⟩ := by
  refine ⟨h.sound, h.good, ?_, fun j hj => ?_⟩
  · have hpairs := h.exclusive
    simp only [List.pairwise_append, List.pairwise_cons, List.mem_cons] at hpairs ⊢
    refine ⟨hpairs.1, hpairs.2.1, fun i hi j hj => ?_⟩
    rcases hj with rfl | hj
    · exact hpairs.2.2 i hi ⟨o, task⟩ (.inl rfl)
    · exact hpairs.2.2 i hi j (.inr hj)
  · simp only [List.mem_append, List.mem_cons] at hj
    rcases hj with hj | rfl | hj
    · exact h.safe j (List.mem_append_left _ hj)
    · exact htask
    · exact h.safe j (List.mem_append_right _ (List.mem_cons_of_mem _ hj))

/-- Two jobs of one configuration have no common lock. -/
theorem Orderly.apart {s : S} {before after : List (Job C R E α O)} {i j : Job C R E α O}
    (h : Orderly M locks G Q ⟨s, before++i::after⟩) (hj : j ∈ before ∨ j ∈ after) :
    Disjoint (locks j.op) (locks i.op) := by
  have hpairs := h.exclusive
  simp only [List.pairwise_append, List.pairwise_cons, List.mem_cons] at hpairs
  rcases hj with hj | hj
  · exact hpairs.2.2 j hj i (.inl rfl)
  · exact (hpairs.2.1.1 j hj).symm

theorem Orderly.answer {s : S} {before after : List (Job C R E α O)} {o : O}
    {asked rest : List (C × Option R)} {c : C} {next : List R → Plan C R E α}
    (h : Orderly M locks G Q ⟨s, before++⟨o, .waiting (asked++(c, none)::rest) next⟩::after⟩) :
    Orderly M locks G Q ⟨(M.exec c s).2,
      before++⟨o, .waiting (asked++(c, some (M.exec c s).1)::rest) next⟩::after⟩ := by
  have hjob := h.safe ⟨o, .waiting (asked++(c, none)::rest) next⟩ (by simp)
  have hpermitted := hjob.permitted (x := (c, none)) (by simp)
  have hother : ∀ j, j ∈ before ∨ j ∈ after → SafeJob M locks G Q j (M.exec c s).2 := by
    intro j hj
    have hsafe := h.safe j (by rcases hj with hj | hj <;> simp [hj])
    refine hsafe.frame fun l hl htouches => ?_
    exact Set.disjoint_left.mp (h.apart hj) hl (hpermitted.2 l htouches)
  refine ⟨M.licensed_sound c s hpermitted.1 h.sound, fun l => ?_, ?_, fun j hj => ?_⟩
  · by_cases htouches : M.touches c l
    · exact Awaits.good (hjob.answer.safe l (hpermitted.2 l htouches))
    · rw [view_frame htouches]
      exact h.good l
  · have hpairs := h.exclusive
    simp only [List.pairwise_append, List.pairwise_cons, List.mem_cons] at hpairs ⊢
    refine ⟨hpairs.1, hpairs.2.1, fun i hi j hj => ?_⟩
    rcases hj with rfl | hj
    · exact hpairs.2.2 i hi ⟨o, .waiting (asked++(c, none)::rest) next⟩ (.inl rfl)
    · exact hpairs.2.2 i hi j (.inr hj)
  · simp only [List.mem_append, List.mem_cons] at hj
    rcases hj with hj | rfl | hj
    · exact hother j (.inl hj)
    · exact hjob.answer
    · exact hother j (.inr hj)

theorem Orderly.step (hstarts : Starts M plan locks admits G Q) {o : O}
    {a b : Config S C R E α O} (h : Orderly M locks G Q a)
    (hstep : JobStep M plan locks admits o a b) : Orderly M locks G Q b := by
  cases hstep with
  | start hadmits hfree =>
    refine ⟨h.sound, h.good, ?_, fun j hj => ?_⟩
    · exact List.pairwise_cons.mpr ⟨fun j hj => (hfree j hj).symm, h.exclusive⟩
    · rcases List.mem_cons.mp hj with rfl | hj
      · exact hstarts o _ hadmits h.sound h.good
      · exact h.safe j hj
  | ask => exact h.replace (h.safe _ (by simp)).ask
  | answer => exact h.answer
  | resume hanswered => exact h.replace ((h.safe _ (by simp)).resume hanswered)
  | stop =>
    refine ⟨h.sound, h.good, ?_, fun j hj => ?_⟩
    · exact h.exclusive.sublist (List.Sublist.append_left (List.sublist_cons_self _ _) _)
    · refine h.safe j ?_
      rcases List.mem_append.mp hj with hj | hj
      · exact List.mem_append_left _ hj
      · exact List.mem_append_right _ (List.mem_cons_of_mem _ hj)

/-- The invariant of a system of safe jobs. -/
theorem Orderly.reached (hstarts : Starts M plan locks admits G Q) {a b : Config S C R E α O}
    (ha : Orderly M locks G Q a) (h : Reached M plan locks admits a b) :
    Orderly M locks G Q b :=
  Transitions.invariant (fun _ _ hi hstep => hstep.elim fun _ hstep => hi.step hstarts hstep) ha h

/-- A job changes the views of its own locks only. -/
theorem Orderly.step_frame {o : O} {a b : Config S C R E α O} (h : Orderly M locks G Q a)
    (hstep : JobStep M plan locks admits o a b) {l : L} (hl : l ∉ locks o) :
    M.view l b.state = M.view l a.state := by
  cases hstep with
  | start => rfl
  | ask => rfl
  | @answer s before after _ asked rest c next =>
    have hjob := h.safe ⟨o, .waiting (asked++(c, none)::rest) next⟩ (by simp)
    have hpermitted := hjob.permitted (x := (c, none)) (by simp)
    exact view_frame fun htouches => hl (hpermitted.2 l htouches)
  | resume => rfl
  | stop => rfl

/-- The commands of a batch are answered in their order. -/
theorem Reached.of_execAll {o : O} {next : List R → Plan C R E α} {jobs : List (Job C R E α O)}
    (cs : List C) (answered : List (C × Option R)) (s : S) :
    ∃ rs, rs = (execAll M.exec cs s).1 ∧ Reached M plan locks admits
      ⟨s, ⟨o, .waiting (answered++cs.map (·, none)) next⟩::jobs⟩
      ⟨(execAll M.exec cs s).2,
        ⟨o, .waiting (answered++cs.zip (rs.map some)) next⟩::jobs⟩ := by
  refine ⟨_, rfl, ?_⟩
  induction cs generalizing answered s with
  | nil => exact .refl
  | cons c cs ih =>
    have hfirst : JobStep M plan locks admits o
        ⟨s, []++⟨o, .waiting (answered++(c, none)::cs.map (·, none)) next⟩::jobs⟩
        ⟨(M.exec c s).2, []++⟨o, .waiting (answered++(c, some (M.exec c s).1)::cs.map (·, none))
          next⟩::jobs⟩ := .answer
    have hrest := ih (answered++[(c, some (M.exec c s).1)]) (M.exec c s).2
    simp only [List.append_assoc, List.singleton_append] at hrest
    exact .head ⟨o, hfirst⟩ hrest

/-- A plan that runs alone is a history of its job. -/
theorem Reached.of_run {o : O} {jobs : List (Job C R E α O)} (p : Plan C R E α) (s : S) :
    Reached M plan locks admits ⟨s, ⟨o, .ready p⟩::jobs⟩
      ⟨(run M.exec p s).2, ⟨o, .ready (.finish (run M.exec p s).1)⟩::jobs⟩ := by
  induction p generalizing s with
  | finish result => exact .refl
  | request cs next ih =>
    obtain ⟨rs, hrs, hanswers⟩ : ∃ rs, rs = (execAll M.exec cs s).1 ∧ Reached M plan locks admits
        ⟨s, ⟨o, .waiting ([]++cs.map (·, none)) next⟩::jobs⟩ ⟨(execAll M.exec cs s).2,
          ⟨o, .waiting ([]++cs.zip (rs.map some)) next⟩::jobs⟩ := Reached.of_execAll cs [] s
    have hlength : rs.length = cs.length := hrs ▸ execAll_length cs s
    have hask : JobStep M plan locks admits o ⟨s, []++⟨o, .ready (.request cs next)⟩::jobs⟩
        ⟨s, []++⟨o, .waiting (cs.map (·, none)) next⟩::jobs⟩ := .ask
    have hresume : JobStep M plan locks admits o
        ⟨(execAll M.exec cs s).2, []++⟨o, .waiting (cs.zip (rs.map some)) next⟩::jobs⟩
        ⟨(execAll M.exec cs s).2, []++⟨o, .ready (next rs)⟩::jobs⟩ := by
      refine .resume ?_
      rw [List.map_snd_zip]
      rw [List.length_map, hlength]
    have hrest := ih rs (execAll M.exec cs s).2
    rw [hrs] at hrest hresume hanswers
    exact (Relation.ReflTransGen.head ⟨o, hask⟩ hanswers).trans (.head ⟨o, hresume⟩ hrest)

/-- What a job ended with. -/
theorem Orderly.finished {a : Config S C R E α O} (h : Orderly M locks G Q a) {o : O}
    {result : Except E α} (hjob : ⟨o, .ready (.finish result)⟩ ∈ a.jobs) {l : L}
    (hl : l ∈ locks o) : Q o l result (M.view l a.state) :=
  ((h.safe _ hjob).safe l hl).2

end FerricStore.CommandPlans
