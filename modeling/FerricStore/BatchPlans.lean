import FerricStore.ScatterGather
import FerricStore.Value

/-!
# Plans of routed batches

A batch is split into one group for each target, or for each partition of a create batch,
and the answers of the groups are merged back. Groups that run at the same time are
completed one by one; the last of them merges the answers of all.
-/

set_option autoImplicit false

namespace FerricStore.BatchPlans
open ScatterGather

section Routes

variable {T C κ β : Type} [DecidableEq κ]

structure RouteBatchGroup (T C : Type) where
  target : T
  indexes : List ℕ
  commands : List C
  deriving Repr

structure RouteBatchPlan (T C : Type) where
  groups : List (RouteBatchGroup T C)
  commandCount : ℕ
  deriving Repr

/-- `setdefault`, then the two appends. -/
def addCommand (groupKey : T → κ) (groups : Dict κ (RouteBatchGroup T C))
    (p : ℕ × T × C) : Dict κ (RouteBatchGroup T C) :=
  let group := (Dict.get? groups (groupKey p.2.1)).getD ⟨p.2.1, [], []⟩
  Dict.set groups (groupKey p.2.1)
    ⟨group.target, group.indexes++[p.1], group.commands++[p.2.2]⟩

/-- `RouteBatchPlan.build`; without a `group_key` the key is the identity of the target. -/
def RouteBatchPlan.build (groupKey : T → κ) (routed : List (T × C)) : RouteBatchPlan T C :=
  ⟨((enumerate 0 routed).foldl (addCommand groupKey) []).map Prod.snd, routed.length⟩

/-- The two loops of `merge`. -/
def mergeGroups : List (List ℕ) → List (List β) → List (Option β) → Except Err (List (Option β))
  | indexes::groups, values::rest, results =>
    if values.length ≠ indexes.length then
      .error (.ferricStore "topology batch returned invalid response cardinality")
    else mergeGroups groups rest (place results (indexes.zip values))
  | _, _, results => .ok results

/-- `RouteBatchPlan.merge`. -/
def RouteBatchPlan.merge (plan : RouteBatchPlan T C) (groupValues : List (List β)) :
    Except Err (List (Option β)) :=
  if groupValues.length ≠ plan.groups.length then
    .error (.ferricStore "topology batch returned invalid group cardinality")
  else mergeGroups (plan.groups.map RouteBatchGroup.indexes) groupValues
    (List.replicate plan.commandCount none)

end Routes

section Creates

variable {I κ β ρ : Type} [DecidableEq κ]

structure CreateManyGroup (κ I : Type) where
  partitionKey : κ
  indexedItems : List (ℕ × I)
  deriving Repr

structure CreateManyPlan (κ I : Type) where
  groups : List (CreateManyGroup κ I)
  itemCount : ℕ
  nowMs : ℤ
  deriving Repr

/-- `CreateManyPlan.build`. -/
def CreateManyPlan.build (partitionKey : I → κ) (items : List I) (nowMs : Option ℤ)
    (clock : ℤ) : CreateManyPlan κ I :=
  ⟨(scatter partitionKey items).map fun g => ⟨g.1, g.2⟩, items.length, nowMs.getD clock⟩

/-- The loop of `merge`; `zip` is strict. -/
def mergeCreated (expand : ρ → ℕ → Except Err (List β)) :
    List (List ℕ) → List ρ → List (Option β) → Except Err (List (Option β))
  | indexes::groups, response::rest, results => do
    let expanded ← expand response indexes.length
    if expanded.length ≠ indexes.length then .error .valueError
    else mergeCreated expand groups rest (place results (indexes.zip expanded))
  | _, _, results => .ok results

/-- `CreateManyPlan.merge`. -/
def CreateManyPlan.merge (plan : CreateManyPlan κ I) (responses : List ρ)
    (expand : ρ → ℕ → Except Err (List β)) : Except Err (List (Option β)) :=
  if responses.length ≠ plan.groups.length then
    .error (.ferricStore (s!"create-many returned {responses.length} groups; expected "++
      s!"{plan.groups.length}"))
  else mergeCreated expand (plan.groups.map fun g => g.indexedItems.map Prod.fst) responses
    (List.replicate plan.itemCount none)

end Creates

section Completion

variable {T C β : Type}

/-- The state that the completion callbacks of a batch share. -/
structure Gathering (β : Type) where
  groupValues : List (Option (List β))
  remaining : ℕ
  future : Option (Except Err (List (Option β)))

def Gathering.start (groups : ℕ) : Gathering β := ⟨List.replicate groups none, groups, none⟩

/-- `try_set_future_result` and `try_set_future_exception`: a future is set once. -/
def Gathering.trySet (s : Gathering β) (outcome : Except Err (List (Option β))) : Gathering β :=
  match s.future with
  | some _ => s
  | none => { s with future := some outcome }

/-- `merge` of the collected values, where a group that has none is no sequence. -/
def mergeCollected (plan : RouteBatchPlan T C) (values : List (Option (List β))) :
    Except Err (List (Option β)) :=
  match values.mapM id with
  | some values => plan.merge values
  | none => .error .typeError

/-- `complete_group`. -/
def completeGroup (plan : RouteBatchPlan T C) (s : Gathering β)
    (done : ℕ × Except Err (List β)) : Gathering β :=
  match done.2 with
  | .error e => s.trySet (.error e)
  | .ok values =>
    match s.future with
    | some _ => s
    | none =>
      let collected := s.groupValues.set done.1 (some values)
      let s := { s with groupValues := collected, remaining := s.remaining-1 }
      if s.remaining = 0 then s.trySet (mergeCollected plan collected) else s

end Completion

/-!
## The groups of a plan and their merge

The groups of a plan are the scattered entries of the batch, with the target of the first
of them. A merge that finds the right counts places the answers at the numbers of the
entries, and any other merge raises.
-/

section Splitting

variable {T C κ : Type} [DecidableEq κ] {groupKey : T → κ}

/-- A group of commands and the scattered entries it stands for. -/
structure Mirrors (groupKey : T → κ) (g : κ × RouteBatchGroup T C)
    (h : κ × List (ℕ × T × C)) : Prop where
  key : g.1 = h.1
  target : groupKey g.2.target = h.1
  indexes : g.2.indexes = h.2.map Prod.fst
  commands : g.2.commands = h.2.map fun p => p.2.2

theorem get?_mirrors {d : Dict κ (RouteBatchGroup T C)} {e : Dict κ (List (ℕ × T × C))}
    (h : List.Forall₂ (Mirrors groupKey) d e) (k : κ) :
    (Dict.get? d k = none ∧ Dict.get? e k = none) ∨
      ∃ g entries, Dict.get? d k = some g ∧ Dict.get? e k = some entries ∧
        Mirrors groupKey (k, g) (k, entries) := by
  induction h with
  | nil => exact .inl ⟨rfl, rfl⟩
  | @cons g h d e hgh _ ih =>
    obtain ⟨a, g⟩ := g
    obtain ⟨b, entries⟩ := h
    obtain rfl : a = b := hgh.key
    simp only [Dict.get?]
    by_cases hk : a = k
    · subst hk
      simp only [if_true]
      exact .inr ⟨g, entries, rfl, rfl, hgh⟩
    · simp only [hk, if_false]
      exact ih

theorem set_mirrors {d : Dict κ (RouteBatchGroup T C)} {e : Dict κ (List (ℕ × T × C))}
    (h : List.Forall₂ (Mirrors groupKey) d e) {k : κ} {g : RouteBatchGroup T C}
    {entries : List (ℕ × T × C)} (hg : Mirrors groupKey (k, g) (k, entries)) :
    List.Forall₂ (Mirrors groupKey) (Dict.set d k g) (Dict.set e k entries) := by
  induction h with
  | nil => exact .cons hg .nil
  | @cons g' h' d e hgh htail ih =>
    obtain ⟨a, g'⟩ := g'
    obtain ⟨b, entries'⟩ := h'
    obtain rfl : a = b := hgh.key
    simp only [Dict.set]
    by_cases hk : a = k
    · subst hk
      simp only [if_true]
      exact .cons hg htail
    · simp only [hk, if_false]
      exact .cons hgh ih

theorem addCommand_mirrors {d : Dict κ (RouteBatchGroup T C)}
    {e : Dict κ (List (ℕ × T × C))} (h : List.Forall₂ (Mirrors groupKey) d e) (p : ℕ × T × C) :
    List.Forall₂ (Mirrors groupKey) (addCommand groupKey d p)
      (scatterStep (fun x => groupKey x.1) e p) := by
  refine set_mirrors h ?_
  rcases get?_mirrors h (groupKey p.2.1) with ⟨hd, he⟩ | ⟨g, entries, hd, he, hg⟩
  · rw [hd, he]
    exact ⟨rfl, rfl, rfl, rfl⟩
  · rw [hd, he]
    have hindexes : g.indexes = entries.map Prod.fst := hg.indexes
    have hcommands : g.commands = entries.map fun p => p.2.2 := hg.commands
    exact ⟨rfl, hg.target, by simp [hindexes], by simp [hcommands]⟩

theorem build_mirrors (groupKey : T → κ) (routed : List (T × C)) :
    List.Forall₂ (Mirrors groupKey) ((enumerate 0 routed).foldl (addCommand groupKey) [])
      (scatter (fun x => groupKey x.1) routed) := by
  suffices h : ∀ (ps : List (ℕ × T × C)) (d : Dict κ (RouteBatchGroup T C))
      (e : Dict κ (List (ℕ × T × C))), List.Forall₂ (Mirrors groupKey) d e →
      List.Forall₂ (Mirrors groupKey) (ps.foldl (addCommand groupKey) d)
        (ps.foldl (scatterStep fun x => groupKey x.1) e) from h _ [] [] .nil
  intro ps
  induction ps with
  | nil => exact fun d e h => h
  | cons p ps ih => exact fun d e h => ih _ _ (addCommand_mirrors h p)

theorem build_indexes (groupKey : T → κ) (routed : List (T × C)) :
    (RouteBatchPlan.build groupKey routed).groups.map RouteBatchGroup.indexes =
      numbers (scatter (fun x => groupKey x.1) routed) := by
  have h := build_mirrors groupKey routed
  simp only [RouteBatchPlan.build, numbers, List.map_map]
  generalize scatter (fun x : T × C => groupKey x.1) routed = e at h ⊢
  generalize (enumerate 0 routed).foldl (addCommand groupKey) [] = d at h ⊢
  induction h with
  | nil => rfl
  | cons hg _ ih =>
    rw [List.map_cons, List.map_cons, ih]
    exact congrArg (·::_) hg.indexes

theorem exists_right {A B : Type} {R : A → B → Prop} {as : List A} {bs : List B}
    (h : List.Forall₂ R as bs) {a : A} (ha : a ∈ as) : ∃ b ∈ bs, R a b := by
  induction h with
  | nil => cases ha
  | cons hab _ ih =>
    rcases List.mem_cons.mp ha with rfl | ha
    · exact ⟨_, List.mem_cons_self, hab⟩
    · obtain ⟨b, hb, hr⟩ := ih ha
      exact ⟨b, List.mem_cons_of_mem _ hb, hr⟩

/-- What a group holds: ascending numbers, the commands at them, and one key. -/
theorem build_group {routed : List (T × C)} {g : RouteBatchGroup T C}
    (h : g ∈ (RouteBatchPlan.build groupKey routed).groups) :
    g.indexes.Pairwise (· < ·) ∧
      g.commands.map some = g.indexes.map (fun i => routed[i]?.map Prod.snd) ∧
      ∀ i ∈ g.indexes, (routed[i]?.map fun x => groupKey x.1) = some (groupKey g.target) := by
  obtain ⟨⟨k, g⟩, hg, rfl⟩ := List.mem_map.mp h
  obtain ⟨⟨k', entries⟩, he, hmirror⟩ := exists_right (build_mirrors groupKey routed) hg
  have hentry : ∀ p ∈ entries, routed[p.1]? = some p.2 ∧ groupKey p.2.1 = k' := by
    intro p hp
    rw [mem_scatter he] at hp
    obtain ⟨q, hq, hpq⟩ := mem_enumerate.mp (List.mem_of_mem_filter hp)
    rw [Nat.zero_add] at hpq
    exact ⟨hpq ▸ hq, by simpa using List.of_mem_filter hp⟩
  have hsorted : g.indexes.Pairwise (· < ·) := by
    refine numbers_sorted (fun x => groupKey x.1) routed _ ?_
    exact List.mem_map.mpr ⟨_, he, hmirror.indexes.symm⟩
  have hindexes : g.indexes = entries.map Prod.fst := hmirror.indexes
  have hcommands : g.commands = entries.map fun p => p.2.2 := hmirror.commands
  refine ⟨hsorted, ?_, ?_⟩
  · simp only [hindexes, hcommands, List.map_map]
    refine List.map_congr_left fun p hp => ?_
    simp only [Function.comp, (hentry p hp).1, Option.map_some]
  · intro i hi
    rw [hindexes] at hi
    obtain ⟨p, hp, rfl⟩ := List.mem_map.mp hi
    rw [(hentry p hp).1, Option.map_some, (hentry p hp).2, hmirror.target]

end Splitting

section Merging

variable {T C κ I β ρ : Type} [DecidableEq κ]

theorem mergeGroups_ok {groups : List (List ℕ)} {values : List (List β)}
    (h : List.Forall₂ (fun g v => v.length = g.length) groups values)
    (results : List (Option β)) :
    mergeGroups groups values results = .ok (place results (answersOf groups values)) := by
  induction h generalizing results with
  | nil => rfl
  | cons hv _ ih =>
    rw [mergeGroups, if_neg (not_not.mpr hv), ih, ← place_append]
    rfl

theorem mergeGroups_error {groups : List (List ℕ)} {values : List (List β)}
    (hl : values.length = groups.length)
    (h : ¬List.Forall₂ (fun g v => v.length = g.length) groups values)
    (results : List (Option β)) : ∃ e, mergeGroups groups values results = .error e := by
  induction groups generalizing values results with
  | nil =>
    obtain rfl := List.length_eq_zero_iff.mp hl
    exact absurd .nil h
  | cons g groups ih =>
    cases values with
    | nil => cases hl
    | cons v values =>
      rw [mergeGroups]
      by_cases hv : v.length = g.length
      · rw [if_neg (not_not.mpr hv)]
        exact ih (Nat.succ.inj hl) (fun hrest => h (.cons hv hrest)) _
      · rw [if_pos hv]
        exact ⟨_, rfl⟩

/-- The answer to a group expands to one result for each of its items. -/
def ExpandsTo (expand : ρ → ℕ → Except Err (List β)) (g : List ℕ) (r : ρ) : Prop :=
  ∃ v, expand r g.length = .ok v ∧ v.length = g.length

/-- The results that the answers of the groups expand to. -/
structure Expanded (expand : ρ → ℕ → Except Err (List β)) (groups : List (List ℕ))
    (responses : List ρ) (values : List (List β)) : Prop where
  lengths : List.Forall₂ (fun g v => v.length = g.length) groups values
  results : List.Forall₂ (fun (x : List ℕ × ρ) v => expand x.2 x.1.length = .ok v)
    (groups.zip responses) values

theorem mergeCreated_ok {expand : ρ → ℕ → Except Err (List β)} {groups : List (List ℕ)}
    {responses : List ρ} (h : List.Forall₂ (ExpandsTo expand) groups responses)
    (results : List (Option β)) :
    ∃ values, Expanded expand groups responses values ∧
      mergeCreated expand groups responses results =
        .ok (place results (answersOf groups values)) := by
  induction h generalizing results with
  | nil => exact ⟨[], ⟨.nil, .nil⟩, rfl⟩
  | @cons g r groups responses hr _ ih =>
    obtain ⟨v, hv, hlength⟩ := hr
    obtain ⟨values, hvalues, hmerge⟩ := ih (place results (g.zip v))
    refine ⟨v::values, ⟨.cons hlength hvalues.lengths, .cons hv hvalues.results⟩, ?_⟩
    rw [mergeCreated, hv]
    change (if v.length ≠ g.length then _ else _) = _
    rw [if_neg (not_not.mpr hlength), hmerge, ← place_append]
    rfl

theorem mergeCreated_error {expand : ρ → ℕ → Except Err (List β)} {groups : List (List ℕ)}
    {responses : List ρ} (hl : responses.length = groups.length)
    (h : ¬List.Forall₂ (ExpandsTo expand) groups responses) (results : List (Option β)) :
    ∃ e, mergeCreated expand groups responses results = .error e := by
  induction groups generalizing responses results with
  | nil =>
    obtain rfl := List.length_eq_zero_iff.mp hl
    exact absurd .nil h
  | cons g groups ih =>
    cases responses with
    | nil => cases hl
    | cons r responses =>
      rw [mergeCreated]
      cases hv : expand r g.length with
      | error e => exact ⟨e, rfl⟩
      | ok v =>
        change ∃ e, (if v.length ≠ g.length then _ else _) = _
        by_cases hlength : v.length = g.length
        · rw [if_neg (not_not.mpr hlength)]
          exact ih (Nat.succ.inj hl) (fun hrest => h (.cons ⟨v, hv, hlength⟩ hrest)) _
        · rw [if_pos hlength]
          exact ⟨_, rfl⟩

end Merging

end FerricStore.BatchPlans
