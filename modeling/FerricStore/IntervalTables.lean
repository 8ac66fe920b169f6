import Mathlib.Tactic

/-!
# Tables filled from intervals

The cells of a table are taken by intervals, one after another, and a cell that
is taken is never given away again. The filling succeeds exactly for pairwise
disjoint intervals, and then the table shows at every cell the one interval that
contains it, whatever the order was.
-/

set_option autoImplicit false

namespace FerricStore.IntervalTables

structure Interval (α : Type) where
  first : ℕ
  last : ℕ
  value : α

variable {α : Type}

def Interval.Contains (r : Interval α) (s : ℕ) : Prop := r.first ≤ s ∧ s ≤ r.last

instance (r : Interval α) (s : ℕ) : Decidable (r.Contains s) :=
  inferInstanceAs (Decidable (_ ∧ _))

def Interval.Disjoint (r u : Interval α) : Prop := ∀ s, ¬ (r.Contains s ∧ u.Contains s)

/-- A value for a free cell; the error names a cell that is taken. -/
def put (v : α) (t : List (Option α)) (s : ℕ) : Except ℕ (List (Option α)) :=
  match t[s]? with
  | some none => .ok (t.set s (some v))
  | _ => .error s

def place (t : List (Option α)) (r : Interval α) : Except ℕ (List (Option α)) :=
  (List.range' r.first (r.last+1-r.first)).foldlM (put r.value) t

def placeAll (t : List (Option α)) (rs : List (Interval α)) : Except ℕ (List (Option α)) :=
  rs.foldlM place t

/-- The table of `n` cells that shows the first interval at each. -/
def table (n : ℕ) (rs : List (Interval α)) : List (Option α) :=
  (List.range n).map fun s => (rs.find? fun r => r.Contains s).map Interval.value

theorem Interval.Disjoint.symm {r u : Interval α} (h : r.Disjoint u) : u.Disjoint r :=
  fun s hs => h s ⟨hs.2, hs.1⟩

instance : Std.Symm (Interval.Disjoint (α := α)) := ⟨fun _ _ h => h.symm⟩

theorem table_length (n : ℕ) (rs : List (Interval α)) : (table n rs).length = n := by
  simp [table]

theorem table_get (n : ℕ) (rs : List (Interval α)) (s : ℕ) :
    (table n rs)[s]? =
      if s < n then some ((rs.find? fun r => r.Contains s).map Interval.value) else none := by
  by_cases hs : s < n
  · simp [table, hs]
  · simp [table, hs]

theorem table_nil (n : ℕ) : table n ([] : List (Interval α)) = List.replicate n none := by
  refine List.ext_getElem? fun s => ?_
  rw [table_get, List.getElem?_replicate]
  rfl

/-- A run of free cells takes the value, and nothing else changes. -/
theorem foldlM_put_ok (v : α) (ss : List ℕ) (hd : ss.Nodup) (t u : List (Option α)) :
    ss.foldlM (put v) t = .ok u ↔
      (∀ s ∈ ss, t[s]? = some none) ∧ ∀ s, u[s]? = if s ∈ ss then some (some v) else t[s]? := by
  induction ss generalizing t with
  | nil =>
    simp only [List.foldlM_nil, List.not_mem_nil, false_implies, implies_true, true_and, if_false]
    constructor
    · rintro ⟨⟩ s
      rfl
    · intro h
      exact congrArg Except.ok (List.ext_getElem? h).symm
  | cons s ss ih =>
    rw [List.nodup_cons] at hd
    rw [List.foldlM_cons, put]
    cases hs : t[s]? with
    | none =>
      refine ⟨fun h => (by cases h), fun h => ?_⟩
      have := h.1 s (by simp)
      rw [hs] at this
      cases this
    | some c =>
      cases c with
      | some w =>
        refine ⟨fun h => (by cases h), fun h => ?_⟩
        have := h.1 s (by simp)
        rw [hs] at this
        cases this
      | none =>
        have hlt : s < t.length := (List.getElem?_eq_some_iff.mp hs).1
        have hset (x : ℕ) : (t.set s (some v))[x]? = if s = x then some (some v) else t[x]? := by
          rw [List.getElem?_set]
          split
          · simp
          · rfl
        have hne {x : ℕ} (hx : x ∈ ss) : s ≠ x := fun he => hd.1 (he ▸ hx)
        refine (ih hd.2 (t.set s (some v))).trans ?_
        constructor
        · rintro ⟨hfree, hu⟩
          refine ⟨?_, fun x => ?_⟩
          · intro x hx
            rcases List.mem_cons.mp hx with rfl | hx
            · exact hs
            · have hf := hfree x hx
              rwa [hset, if_neg (hne hx)] at hf
          · rw [hu x, hset]
            by_cases hx : x ∈ ss
            · simp [hx]
            · by_cases he : s = x
              · simp [he]
              · simp [hx, he, Ne.symm he]
        · rintro ⟨hfree, hu⟩
          refine ⟨?_, fun x => ?_⟩
          · intro x hx
            rw [hset, if_neg (hne hx)]
            exact hfree x (List.mem_cons_of_mem _ hx)
          · rw [hu x, hset]
            by_cases hx : x ∈ ss
            · simp [hx]
            · by_cases he : s = x
              · simp [he]
              · simp [hx, he, Ne.symm he]

theorem mem_cells (r : Interval α) (h : r.first ≤ r.last) (s : ℕ) :
    s ∈ List.range' r.first (r.last+1-r.first) ↔ r.Contains s := by
  rw [List.mem_range'_1, Interval.Contains]
  omega

theorem find?_append_contains (done : List (Interval α)) (r : Interval α) (s : ℕ) :
    (done++[r]).find? (fun x => x.Contains s) =
      (done.find? fun x => x.Contains s).or (if r.Contains s then some r else none) := by
  rw [List.find?_append]
  congr 1
  simp [List.find?_cons]
  split <;> simp_all

theorem place_table (n : ℕ) (done : List (Interval α)) (r : Interval α) (h : r.first ≤ r.last)
    (hn : r.last < n) (u : List (Option α)) :
    place (table n done) r = .ok u ↔
      (∀ d ∈ done, d.Disjoint r) ∧ u = table n (done++[r]) := by
  have hfree : (∀ s, r.Contains s → (table n done)[s]? = some none) ↔
      ∀ d ∈ done, d.Disjoint r := by
    constructor
    · rintro hf d hd s ⟨hds, hrs⟩
      have ht := hf s hrs
      have hlt : s < n := by
        have := hrs.2
        omega
      rw [table_get, if_pos hlt, Option.some_inj, Option.map_eq_none_iff,
        List.find?_eq_none] at ht
      exact ht d hd (by simpa using hds)
    · intro hd s hrs
      have hlt : s < n := by
        have := hrs.2
        omega
      rw [table_get, if_pos hlt, Option.some_inj, Option.map_eq_none_iff, List.find?_eq_none]
      intro d hm hds
      exact hd d hm s ⟨by simpa using hds, hrs⟩
  rw [place, foldlM_put_ok r.value _ (List.nodup_range' ..)]
  simp only [mem_cells r h]
  rw [hfree]
  refine and_congr_right fun hd => ?_
  have hcell (s : ℕ) : (table n (done++[r]))[s]? =
      if r.Contains s then some (some r.value) else (table n done)[s]? := by
    rw [table_get, table_get, find?_append_contains]
    by_cases hrs : r.Contains s
    · have hlt : s < n := by
        have := hrs.2
        omega
      have hnone : (done.find? fun x => x.Contains s) = none :=
        List.find?_eq_none.mpr fun d hm hds => hd d hm s ⟨by simpa using hds, hrs⟩
      simp [hlt, hrs, hnone]
    · simp [hrs]
  constructor
  · intro hu
    refine List.ext_getElem? fun s => ?_
    rw [hu s, hcell s]
  · rintro rfl s
    exact hcell s

/-- The filling succeeds exactly for intervals that are disjoint from each other and
from what is there. -/
theorem placeAll_table (n : ℕ) (rs done : List (Interval α))
    (h : ∀ r ∈ rs, r.first ≤ r.last ∧ r.last < n) (u : List (Option α)) :
    placeAll (table n done) rs = .ok u ↔
      (∀ d ∈ done, ∀ r ∈ rs, d.Disjoint r) ∧ rs.Pairwise Interval.Disjoint ∧
        u = table n (done++rs) := by
  induction rs generalizing done with
  | nil =>
    have hnil : placeAll (table n done) [] = .ok (table n done) := rfl
    rw [hnil]
    simp [eq_comm]
  | cons r rs ih =>
    obtain ⟨hr, hrn⟩ := h r (by simp)
    have hstep : placeAll (table n done) (r::rs) =
        (place (table n done) r >>= fun t => placeAll t rs) := rfl
    rw [hstep]
    by_cases hd : ∀ d ∈ done, d.Disjoint r
    · rw [(place_table n done r hr hrn _).mpr ⟨hd, rfl⟩]
      change placeAll (table n (done++[r])) rs = .ok u ↔ _
      rw [ih (done++[r]) fun x hx => h x (List.mem_cons_of_mem _ hx)]
      simp only [List.mem_append, List.append_assoc, List.singleton_append,
        List.pairwise_cons, List.mem_cons, List.not_mem_nil, or_false]
      constructor
      · rintro ⟨hall, hpair, hu⟩
        refine ⟨?_, ⟨fun x hx => hall r (.inr rfl) x hx, hpair⟩, hu⟩
        rintro d hm x (rfl | hx)
        · exact hd d hm
        · exact hall d (.inl hm) x hx
      · rintro ⟨hall, ⟨hhead, hpair⟩, hu⟩
        refine ⟨?_, hpair, hu⟩
        rintro d (hm | rfl) x hx
        · exact hall d hm x (.inr hx)
        · exact hhead x hx
    · have herr : ∃ s, place (table n done) r = .error s := by
        cases hp : place (table n done) r with
        | error s => exact ⟨s, rfl⟩
        | ok t => exact absurd ((place_table n done r hr hrn t).mp hp).1 hd
      obtain ⟨s, hs⟩ := herr
      rw [hs]
      refine ⟨fun hx => (by cases hx), fun hx => ?_⟩
      exact absurd (fun d hm => hx.1 d hm r (by simp)) hd

theorem placeAll_ok (n : ℕ) (rs : List (Interval α))
    (h : ∀ r ∈ rs, r.first ≤ r.last ∧ r.last < n) (u : List (Option α)) :
    placeAll (List.replicate n none) rs = .ok u ↔
      rs.Pairwise Interval.Disjoint ∧ u = table n rs := by
  rw [← table_nil, placeAll_table n rs [] h u]
  simp

/-- Of disjoint intervals the one that contains a cell is found. -/
theorem find?_of_contains {rs : List (Interval α)} (hp : rs.Pairwise Interval.Disjoint)
    {r : Interval α} (hr : r ∈ rs) {s : ℕ} (hs : r.Contains s) :
    rs.find? (fun x => x.Contains s) = some r := by
  have hsome : (rs.find? fun x => x.Contains s).isSome := by
    rw [List.find?_isSome]
    exact ⟨r, hr, by simpa using hs⟩
  obtain ⟨u, hu⟩ := Option.isSome_iff_exists.mp hsome
  have hus : u.Contains s := by simpa using List.find?_some hu
  rw [hu]
  by_contra hne
  have hdis := hp.forall hr (List.mem_of_find?_eq_some hu) fun he => hne (congrArg some he.symm)
  exact hdis s ⟨hs, hus⟩

theorem table_of_contains {n : ℕ} {rs : List (Interval α)}
    (hp : rs.Pairwise Interval.Disjoint) {r : Interval α} (hr : r ∈ rs) {s : ℕ}
    (hs : r.Contains s) (hn : s < n) : (table n rs)[s]? = some (some r.value) := by
  rw [table_get, if_pos hn, find?_of_contains hp hr hs]
  rfl

/-- The order of disjoint intervals does not show in the table. -/
theorem table_perm (n : ℕ) {rs us : List (Interval α)} (hp : rs.Pairwise Interval.Disjoint)
    (h : rs.Perm us) : table n rs = table n us := by
  have hq : us.Pairwise Interval.Disjoint := h.pairwise hp fun h => h.symm
  refine List.map_congr_left fun s _ => congrArg (Option.map Interval.value) ?_
  cases hu : us.find? fun x => x.Contains s with
  | none =>
    rw [List.find?_eq_none] at hu ⊢
    exact fun x hx => hu x (h.mem_iff.mp hx)
  | some u =>
    have hus : u.Contains s := by simpa using List.find?_some hu
    exact find?_of_contains hp (h.mem_iff.mpr (List.mem_of_find?_eq_some hu)) hus

theorem table_complete (n : ℕ) (rs : List (Interval α)) :
    (∀ c ∈ table n rs, c.isSome) ↔ ∀ s < n, ∃ r ∈ rs, r.Contains s := by
  simp only [table, List.forall_mem_map, List.mem_range, Option.isSome_map, List.find?_isSome,
    decide_eq_true_eq]

end FerricStore.IntervalTables
