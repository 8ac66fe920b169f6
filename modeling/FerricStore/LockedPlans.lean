import FerricStore.CommandPlans

/-!
# Plans under locks

Jobs hold locks while they run, and jobs with a common lock never overlap. What a lock
guards is seen as a view of the state, and a command changes the views of the locks it
touches only. A plan is then proved for one lock at a time, as if it were alone: the other
jobs answer between its commands but do not change the view, and the plan may end after
any of its commands.
-/

set_option autoImplicit false

namespace FerricStore.CommandPlans

variable {S C R E α β L V O : Type}

/-- What a command does to the state, and what is seen of it under each lock. `sound` is
kept by every licensed command. -/
structure Guarding (S C R L V : Type) where
  exec : C → S → R × S
  sound : S → Prop
  licensed : C → Prop
  licensed_sound : ∀ c s, licensed c → sound s → sound (exec c s).2
  view : L → S → V
  touches : C → L → Prop
  acts : L → C → V → R → V → Prop
  exec_acts : ∀ l c s, acts l c (view l s) (exec c s).1 (view l (exec c s).2)
  acts_frame : ∀ l c v r w, ¬touches c l → acts l c v r w → w = v

/-- A plan, or one that waits for the replies still missing. -/
inductive Task (C R E α : Type) where
  | ready (plan : Plan C R E α)
  | waiting (asked : List (C × Option R)) (next : List R → Plan C R E α)

variable (M : Guarding S C R L V) (K : Set L) (l : L) (G : V → Prop)

/-- A command that a job with the locks `K` may ask for. -/
def Permitted (c : C) : Prop := M.licensed c ∧ ∀ m, M.touches c m → m ∈ K

/-- One command of a batch is answered, as seen under the lock. -/
inductive Answers : List (C × Option R) × V → List (C × Option R) × V → Prop where
  | answer {before after : List (C × Option R)} {c : C} {r : R} {v w : V} (h : M.acts l c v r w) :
      Answers (before++(c, none)::after, v) (before++(c, some r)::after, w)

/-- However the batch is answered, the view stays good, and `P` holds once it is answered. -/
def Awaits (P : List R → V → Prop) (asked : List (C × Option R)) (v : V) : Prop :=
  (∀ x ∈ asked, Permitted M K x.1) ∧ ∀ asked' w,
    Relation.ReflTransGen (Answers M l) (asked, v) (asked', w) →
      G w ∧ ∀ rs, asked'.map Prod.snd = rs.map some → P rs w

/-- From the view `v` the plan keeps the view good, and what it ends with satisfies `Q`. -/
def Safe (Q : Except E α → V → Prop) : Plan C R E α → V → Prop
  | .finish result, v => G v ∧ Q result v
  | .request cs next, v => Awaits M K l G (fun rs w => Safe Q (next rs) w) (cs.map (·, none)) v

def SafeTask (Q : Except E α → V → Prop) : Task C R E α → V → Prop
  | .ready plan, v => Safe M K l G Q plan v
  | .waiting asked next, v => Awaits M K l G (fun rs w => Safe M K l G Q (next rs) w) asked v

/-- A command that no lock is needed for. -/
def Free (c : C) : Prop := M.licensed c ∧ ∀ m, ¬M.touches c m

def FreeTask : Task C R E α → Prop
  | .ready plan => Asks (Free M) (fun _ => True) plan
  | .waiting asked next =>
    (∀ x ∈ asked, Free M x.1) ∧ ∀ rs, Asks (Free M) (fun _ => True) (next rs)

section Rules

variable {M K l G} {Q Q' : Except E α → V → Prop} {v : V}

theorem Awaits.good {P : List R → V → Prop} {asked : List (C × Option R)}
    (h : Awaits M K l G P asked v) : G v := (h.2 _ _ .refl).1

theorem Awaits.mono {P P' : List R → V → Prop} {asked : List (C × Option R)}
    (h : Awaits M K l G P asked v) (hP : ∀ rs w, P rs w → P' rs w) :
    Awaits M K l G P' asked v :=
  ⟨h.1, fun asked' w hw => ⟨(h.2 asked' w hw).1, fun rs hrs => hP rs w ((h.2 asked' w hw).2 rs hrs)⟩⟩

theorem Safe.good {p : Plan C R E α} (h : Safe M K l G Q p v) : G v := by
  cases p with
  | finish result => exact h.1
  | request cs next => exact Awaits.good h

theorem Safe.finish {result : Except E α} (hv : G v) (h : Q result v) :
    Safe M K l G Q (.finish result) v := ⟨hv, h⟩

theorem Safe.mono {p : Plan C R E α} (h : Safe M K l G Q p v) (hQ : ∀ r w, Q r w → Q' r w) :
    Safe M K l G Q' p v := by
  induction p generalizing v with
  | finish result => exact ⟨h.1, hQ _ _ h.2⟩
  | request cs next ih => exact Awaits.mono h fun rs w hw => ih rs hw

/-- The rule for a plan that goes on with the result of another. -/
theorem Safe.bind {p : Plan C R E β} {k : β → Plan C R E α} {P : Except E β → V → Prop}
    (h : Safe M K l G P p v) (hok : ∀ b w, G w → P (.ok b) w → Safe M K l G Q (k b) w)
    (herror : ∀ e w, G w → P (.error e) w → Q (.error e) w) : Safe M K l G Q (p >>= k) v := by
  induction p generalizing v with
  | finish result =>
    cases result with
    | ok b => exact hok b v h.1 h.2
    | error e => exact ⟨h.1, herror e v h.1 h.2⟩
  | request cs next ih => exact Awaits.mono h fun rs w hw => ih rs hw

/-- The rule for a computation that asks for nothing. -/
theorem Safe.lift {x : Except E β} {k : β → Plan C R E α} (hv : G v)
    (hok : ∀ b, x = .ok b → Safe M K l G Q (k b) v) (herror : ∀ e, x = .error e → Q (.error e) v) :
    Safe M K l G Q (.lift x >>= k) v := by
  cases x with
  | ok b => exact hok b rfl
  | error e => exact ⟨hv, herror e rfl⟩

/-- The answered commands and their replies. -/
theorem answered_pairs {D : C → R → Prop} {asked : List (C × Option R)} {cs : List C} {rs : List R}
    (hcs : asked.map Prod.fst = cs) (hrs : asked.map Prod.snd = rs.map some)
    (hD : ∀ c r, (c, some r) ∈ asked → D c r) : List.Forall₂ D cs rs := by
  induction asked generalizing cs rs with
  | nil =>
    cases rs with
    | nil => exact hcs ▸ .nil
    | cons r rs => cases hrs
  | cons x asked ih =>
    cases rs with
    | nil => cases hrs
    | cons r rs =>
      obtain ⟨c, reply⟩ := x
      obtain ⟨hreply, hrest⟩ := List.cons.inj hrs
      simp only at hreply
      subst hreply hcs
      exact .cons (hD c r List.mem_cons_self)
        (ih rfl hrest fun d q hd => hD d q (List.mem_cons_of_mem _ hd))

/-- The rule for a batch: `J` holds while it is answered, and a command that has been
answered leaves the stable fact `D`. -/
theorem Safe.request {cs : List C} {next : List R → Plan C R E α} (J : V → Prop)
    (D : C → R → V → Prop) (hpermitted : ∀ c ∈ cs, Permitted M K c) (hv : J v)
    (hJ : ∀ w, J w → G w)
    (hstep : ∀ c ∈ cs, ∀ w r u, J w → M.acts l c w r u → J u ∧ D c r u ∧
      ∀ d ∈ cs, ∀ q, D d q w → D d q u)
    (hnext : ∀ rs w, J w → List.Forall₂ (fun c r => D c r w) cs rs →
      Safe M K l G Q (next rs) w) :
    Safe M K l G Q (.request cs next) v := by
  let I : List (C × Option R) × V → Prop := fun x =>
    J x.2 ∧ x.1.map Prod.fst = cs ∧ ∀ c r, (c, some r) ∈ x.1 → D c r x.2
  have hI : ∀ x y, I x → Answers M l x y → I y := by
    rintro _ _ ⟨hw, hcs, hD⟩ ⟨hacts⟩
    rename_i before after c r w u
    simp only [List.map_append, List.map_cons] at hcs
    have hc : c ∈ cs := hcs ▸ by simp
    obtain ⟨hu, hnew, hstable⟩ := hstep c hc w r u hw hacts
    refine ⟨hu, by simpa using hcs, fun d q hd => ?_⟩
    simp only [List.mem_append, List.mem_cons, Prod.mk.injEq, Option.some.injEq] at hd
    have hold : (d, some q) ∈ before++(c, none)::after → D d q u := by
      intro hmem
      have hd : d ∈ cs := by
        rw [← hcs]
        have hin := List.mem_map_of_mem (f := Prod.fst) hmem
        simpa using hin
      exact hstable d hd q (hD d q hmem)
    rcases hd with hd | ⟨rfl, rfl⟩ | hd
    · exact hold (List.mem_append_left _ hd)
    · exact hnew
    · exact hold (List.mem_append_right _ (List.mem_cons_of_mem _ hd))
  refine ⟨fun x hx => ?_, fun asked w hw => ?_⟩
  · obtain ⟨c, hc, rfl⟩ := List.mem_map.mp hx
    exact hpermitted c hc
  · have hstart : I (cs.map (·, none), v) := by
      refine ⟨hv, ?_, ?_⟩
      · rw [List.map_map]
        exact List.map_id _
      · intro c r hc
        obtain ⟨d, _, hd⟩ := List.mem_map.mp hc
        cases hd
    obtain ⟨hJw, hfst, hD⟩ := Transitions.invariant hI hstart hw
    exact ⟨hJ w hJw, fun rs hrs => hnext rs w hJw (answered_pairs hfst hrs hD)⟩

/-- The rule for a batch whose replies do not matter. -/
theorem Safe.batch {cs : List C} {P : Except E (List R) → V → Prop} (J : V → Prop)
    (D : C → V → Prop) (hpermitted : ∀ c ∈ cs, Permitted M K c) (hv : J v) (hJ : ∀ w, J w → G w)
    (hstep : ∀ c ∈ cs, ∀ w r u, J w → M.acts l c w r u → J u ∧ D c u ∧ ∀ d ∈ cs, D d w → D d u)
    (hP : ∀ r w, J w → (∀ c ∈ cs, D c w) → P r w) :
    Safe M K l G P (.batch cs) v := by
  refine Safe.request J (fun c _ w => D c w) hpermitted hv hJ ?_ ?_
  · intro c hc w r u hw hacts
    obtain ⟨hu, hnew, hstable⟩ := hstep c hc w r u hw hacts
    exact ⟨hu, hnew, fun d hd _ => hstable d hd⟩
  · intro rs w hw hrs
    refine ⟨hJ w hw, hP _ w hw fun c hc => ?_⟩
    obtain ⟨r, _, hD⟩ := forall₂_mem_left hrs hc
    exact hD

theorem answers_single {c : C} {asked : List (C × Option R)} {w : V}
    (h : Relation.ReflTransGen (Answers M l) ([(c, none)], v) (asked, w)) :
    (asked, w) = ([(c, none)], v) ∨ ∃ r, M.acts l c v r w ∧ asked = [(c, some r)] := by
  generalize hx : ([(c, none)], v) = x at h
  generalize hy : (asked, w) = y at h
  induction h generalizing asked w with
  | refl => exact .inl rfl
  | tail _ hlast ih =>
    subst hx
    cases hlast with
    | @answer before after d r u w hacts =>
      rcases ih rfl with h | ⟨q, _, h⟩
      · obtain ⟨hlist, rfl⟩ := Prod.mk.inj h
        cases before with
        | nil =>
          obtain ⟨hd, rfl⟩ := List.cons.inj hlist
          cases hd
          cases hy
          exact .inr ⟨r, hacts, rfl⟩
        | cons b before => simp at hlist
      · cases before with
        | nil => cases h
        | cons b before => simp at h

/-- The rule for one command. -/
theorem Safe.command [Inhabited R] {c : C} {k : R → Plan C R E α} (hpermitted : Permitted M K c)
    (hv : G v) (h : ∀ r w, M.acts l c v r w → G w ∧ Safe M K l G Q (k r) w) :
    Safe M K l G Q (.command c >>= k) v := by
  refine ⟨fun x hx => List.mem_singleton.mp hx ▸ hpermitted, fun asked w hw => ?_⟩
  rcases answers_single hw with heq | ⟨r, hacts, rfl⟩
  · obtain ⟨rfl, rfl⟩ := Prod.mk.inj heq
    refine ⟨hv, fun rs hrs => ?_⟩
    cases rs with
    | nil => cases hrs
    | cons r rs => cases hrs
  · refine ⟨(h r w hacts).1, fun rs hrs => ?_⟩
    cases rs with
    | nil => cases hrs
    | cons q rs =>
      obtain ⟨hq, hrest⟩ := List.cons.inj hrs
      cases hq
      exact (h r w hacts).2

/-- A plan that no lock is needed for keeps every view. -/
theorem Safe.of_free {A : α → Prop} {p : Plan C R E α} (h : Asks (Free M) A p) (hv : G v)
    (hok : ∀ a, A a → Q (.ok a) v) (herror : ∀ e, Q (.error e) v) : Safe M K l G Q p v := by
  induction p with
  | finish result =>
    cases result with
    | ok a => exact ⟨hv, hok a (h a rfl)⟩
    | error e => exact ⟨hv, herror e⟩
  | request cs next ih =>
    refine Safe.request (fun w => w = v) (fun _ _ _ => True) ?_ rfl (fun w hw => hw ▸ hv) ?_ ?_
    · exact fun c hc => ⟨(h.1 c hc).1, fun m hm => absurd hm ((h.1 c hc).2 m)⟩
    · intro c hc w r u hw hacts
      exact ⟨hw ▸ M.acts_frame l c w r u ((h.1 c hc).2 l) hacts, trivial, fun _ _ _ _ => trivial⟩
    · rintro rs w rfl _
      exact ih rs (h.2 rs)

end Rules

end FerricStore.CommandPlans
