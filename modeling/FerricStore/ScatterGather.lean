import FerricStore.Dict

/-!
# Scattering a list by keys and gathering the answers

The entries of a list are numbered and put into one group for each key, in the order in
which the keys are met. Every number is in one group, and the numbers of a group ascend.
Answers given group by group are put back at the numbers of their entries.
-/

set_option autoImplicit false

namespace FerricStore.ScatterGather

variable {κ α β : Type} [DecidableEq κ]

/-- `enumerate` from a first number. -/
def enumerate : ℕ → List α → List (ℕ × α)
  | _, [] => []
  | i, a::as => (i, a)::enumerate (i+1) as

def scatterStep (key : α → κ) (groups : Dict κ (List (ℕ × α))) (p : ℕ × α) :
    Dict κ (List (ℕ × α)) :=
  Dict.set groups (key p.2) ((Dict.get? groups (key p.2)).getD []++[p])

def scatter (key : α → κ) (as : List α) : Dict κ (List (ℕ × α)) :=
  (enumerate 0 as).foldl (scatterStep key) []

/-- The answers of one group, put at its numbers. -/
def place (results : List (Option β)) (answers : List (ℕ × β)) : List (Option β) :=
  answers.foldl (fun r a => r.set a.1 (some a.2)) results

theorem mem_enumerate {i j : ℕ} {as : List α} {a : α} :
    (j, a) ∈ enumerate i as ↔ ∃ p, as[p]? = some a ∧ j = i+p := by
  induction as generalizing i with
  | nil => simp [enumerate]
  | cons b as ih =>
    rw [enumerate, List.mem_cons, ih]
    constructor
    · rintro (h | ⟨p, hp, rfl⟩)
      · cases h
        exact ⟨0, rfl, rfl⟩
      · exact ⟨p+1, hp, by omega⟩
    · rintro ⟨p, hp, rfl⟩
      cases p with
      | zero =>
        cases hp
        exact .inl rfl
      | succ p => exact .inr ⟨p, hp, by omega⟩

theorem enumerate_sorted (i : ℕ) (as : List α) :
    ((enumerate i as).map Prod.fst).Pairwise (· < ·) := by
  induction as generalizing i with
  | nil => exact List.Pairwise.nil
  | cons a as ih =>
    refine List.Pairwise.cons ?_ (ih (i+1))
    intro j hj
    obtain ⟨⟨k, b⟩, hb, rfl⟩ := List.mem_map.mp hj
    obtain ⟨p, -, rfl⟩ := mem_enumerate.mp hb
    omega

theorem get?_scatterStep (key : α → κ) (groups : Dict κ (List (ℕ × α))) (p : ℕ × α) (k : κ) :
    Dict.get? (scatterStep key groups p) k =
      if key p.2 = k then some ((Dict.get? groups k).getD []++[p]) else Dict.get? groups k := by
  rw [scatterStep, Dict.get?_set]
  split_ifs with h
  · rw [h]
  · rfl

/-- The group of a key after a run: what was there, then the new entries of the key. -/
theorem get?_scatter_run (key : α → κ) (ps : List (ℕ × α)) (groups : Dict κ (List (ℕ × α)))
    (k : κ) :
    (Dict.get? (ps.foldl (scatterStep key) groups) k).getD [] =
      (Dict.get? groups k).getD []++ps.filter fun p => key p.2 = k := by
  induction ps generalizing groups with
  | nil => simp
  | cons p ps ih =>
    rw [List.foldl_cons, ih, get?_scatterStep]
    by_cases hk : key p.2 = k
    · rw [if_pos hk, List.filter_cons_of_pos (by simpa using hk), Option.getD_some,
        List.append_assoc]
      rfl
    · rw [if_neg hk, List.filter_cons_of_neg (by simpa using hk)]

theorem keys_scatter_run (key : α → κ) (ps : List (ℕ × α)) (groups : Dict κ (List (ℕ × α)))
    (h : (groups.map Prod.fst).Nodup) :
    ((ps.foldl (scatterStep key) groups).map Prod.fst).Nodup := by
  induction ps generalizing groups with
  | nil => exact h
  | cons p ps ih => exact ih _ (Dict.nodup_set groups _ _ h)

theorem scatter_nodup (key : α → κ) (as : List α) : ((scatter key as).map Prod.fst).Nodup :=
  keys_scatter_run key _ [] List.nodup_nil

/-- A group holds the numbered entries of its key, in their order. -/
theorem mem_scatter {key : α → κ} {as : List α} {k : κ} {entries : List (ℕ × α)}
    (h : (k, entries) ∈ scatter key as) :
    entries = (enumerate 0 as).filter fun p => key p.2 = k := by
  have hget := Dict.get?_of_mem (scatter_nodup key as) h
  have hrun := get?_scatter_run key (enumerate 0 as) [] k
  rw [show (enumerate 0 as).foldl (scatterStep key) [] = scatter key as from rfl, hget] at hrun
  simpa using hrun

theorem scatter_group (key : α → κ) {as : List α} {p : ℕ × α} (h : p ∈ enumerate 0 as) :
    ∃ entries, (key p.2, entries) ∈ scatter key as ∧ p ∈ entries := by
  have hrun := get?_scatter_run key (enumerate 0 as) [] (key p.2)
  rw [show (enumerate 0 as).foldl (scatterStep key) [] = scatter key as from rfl] at hrun
  have hmem : p ∈ (Dict.get? (scatter key as) (key p.2)).getD [] := by
    rw [hrun]
    simpa using h
  cases hget : Dict.get? (scatter key as) (key p.2) with
  | none =>
    rw [hget] at hmem
    cases hmem
  | some entries =>
    rw [hget] at hmem
    exact ⟨entries, Dict.mem_of_get? hget, hmem⟩

/-- The numbers of the groups. -/
def numbers (groups : Dict κ (List (ℕ × α))) : List (List ℕ) :=
  groups.map fun g => g.2.map Prod.fst

theorem numbers_sorted (key : α → κ) (as : List α) :
    ∀ g ∈ numbers (scatter key as), g.Pairwise (· < ·) := by
  intro g hg
  obtain ⟨⟨k, entries⟩, hk, rfl⟩ := List.mem_map.mp hg
  rw [mem_scatter hk]
  exact (enumerate_sorted 0 as).sublist (List.filter_sublist.map _)

theorem mem_numbers {key : α → κ} {as : List α} {i : ℕ} :
    i ∈ (numbers (scatter key as)).flatten ↔ i < as.length := by
  constructor
  · intro h
    obtain ⟨g, hg, hi⟩ := List.mem_flatten.mp h
    obtain ⟨⟨k, entries⟩, hk, rfl⟩ := List.mem_map.mp hg
    obtain ⟨⟨j, a⟩, ha, rfl⟩ := List.mem_map.mp hi
    simp only [mem_scatter hk] at ha
    obtain ⟨p, hp, rfl⟩ := mem_enumerate.mp (List.mem_of_mem_filter ha)
    rw [Nat.zero_add]
    exact (List.getElem?_eq_some_iff.mp hp).1
  · intro h
    have hentry : (i, as[i]) ∈ enumerate 0 as :=
      mem_enumerate.mpr ⟨i, List.getElem?_eq_getElem h, (Nat.zero_add i).symm⟩
    obtain ⟨entries, hgroup, hmem⟩ := scatter_group key hentry
    exact List.mem_flatten.mpr ⟨_, List.mem_map_of_mem hgroup, List.mem_map_of_mem hmem⟩

theorem enumerate_inj {i : ℕ} {as : List α} {j : ℕ} {a b : α}
    (ha : (j, a) ∈ enumerate i as) (hb : (j, b) ∈ enumerate i as) : a = b := by
  obtain ⟨p, hp, rfl⟩ := mem_enumerate.mp ha
  obtain ⟨q, hq, hpq⟩ := mem_enumerate.mp hb
  obtain rfl : p = q := by omega
  exact Option.some.inj (hp.symm.trans hq)

/-- No number is in two groups, or twice in one. -/
theorem numbers_nodup (key : α → κ) (as : List α) :
    (numbers (scatter key as)).flatten.Nodup := by
  refine List.nodup_flatten.mpr ⟨fun g hg => (numbers_sorted key as g hg).imp ne_of_lt, ?_⟩
  have hkeys : (scatter key as).Pairwise fun g h => g.1 ≠ h.1 :=
    List.pairwise_map.mp (scatter_nodup key as)
  refine List.pairwise_map.mpr (hkeys.imp_of_mem fun {g h} hg hh hne => ?_)
  intro i hi hi'
  obtain ⟨⟨j, a⟩, ha, rfl⟩ := List.mem_map.mp hi
  obtain ⟨⟨j', b⟩, hb, hj⟩ := List.mem_map.mp hi'
  obtain rfl : j' = j := hj
  rw [mem_scatter hg] at ha
  rw [mem_scatter hh] at hb
  obtain rfl := enumerate_inj (List.mem_of_mem_filter ha) (List.mem_of_mem_filter hb)
  have hka : key a = g.1 := by simpa using List.of_mem_filter ha
  have hkb : key a = h.1 := by simpa using List.of_mem_filter hb
  exact hne (hka.symm.trans hkb)

theorem unique_group {groups : List (List ℕ)} (h : groups.flatten.Nodup) {i : ℕ}
    (hi : i ∈ groups.flatten) : ∃! j : ℕ, ∃ g : List ℕ, groups[j]? = some g ∧ i ∈ g := by
  obtain ⟨g, hg, hig⟩ := List.mem_flatten.mp hi
  obtain ⟨j, hj⟩ := List.mem_iff_getElem?.mp hg
  refine ⟨j, ⟨g, hj, hig⟩, ?_⟩
  rintro j' ⟨g', hj', hig'⟩
  obtain ⟨hlt, heq⟩ := List.getElem?_eq_some_iff.mp hj
  obtain ⟨hlt', heq'⟩ := List.getElem?_eq_some_iff.mp hj'
  have hdisjoint := List.pairwise_iff_getElem.mp (List.nodup_flatten.mp h).2
  rcases lt_trichotomy j j' with hjj | rfl | hjj
  · exact (hdisjoint j j' hlt hlt' hjj (heq ▸ hig) (heq' ▸ hig')).elim
  · rfl
  · exact (hdisjoint j' j hlt' hlt hjj (heq' ▸ hig') (heq ▸ hig)).elim

theorem place_length (results : List (Option β)) (answers : List (ℕ × β)) :
    (place results answers).length = results.length := by
  induction answers generalizing results with
  | nil => rfl
  | cons a answers ih =>
    rw [place, List.foldl_cons]
    exact (ih _).trans List.length_set

theorem place_other (results : List (Option β)) (answers : List (ℕ × β)) {i : ℕ}
    (h : i ∉ answers.map Prod.fst) : (place results answers)[i]? = results[i]? := by
  induction answers generalizing results with
  | nil => rfl
  | cons a answers ih =>
    rw [List.map_cons, List.mem_cons, not_or] at h
    rw [place, List.foldl_cons]
    exact (ih _ h.2).trans (List.getElem?_set_ne (Ne.symm h.1))

theorem place_get {results : List (Option β)} {answers : List (ℕ × β)}
    (hd : (answers.map Prod.fst).Nodup) {i : ℕ} {b : β} (h : (i, b) ∈ answers)
    (hi : i < results.length) : (place results answers)[i]? = some (some b) := by
  induction answers generalizing results with
  | nil => cases h
  | cons a answers ih =>
    rw [List.map_cons, List.nodup_cons] at hd
    rw [place, List.foldl_cons]
    rcases List.mem_cons.mp h with rfl | h
    · refine (place_other _ _ hd.1).trans ?_
      rw [List.getElem?_set_self hi]
    · exact ih hd.2 h (by rwa [List.length_set])

/-- The answers of all groups, one group after another. -/
def answersOf (groups : List (List ℕ)) (values : List (List β)) : List (ℕ × β) :=
  (List.zipWith List.zip groups values).flatten

theorem place_append (results : List (Option β)) (xs ys : List (ℕ × β)) :
    place results (xs++ys) = place (place results xs) ys := List.foldl_append

theorem answersOf_numbers {groups : List (List ℕ)} {values : List (List β)}
    (h : List.Forall₂ (fun g v => v.length = g.length) groups values) :
    (answersOf groups values).map Prod.fst = groups.flatten := by
  induction h with
  | nil => rfl
  | cons hv _ ih =>
    simp only [answersOf, List.zipWith_cons_cons, List.flatten_cons, List.map_append]
    rw [List.map_fst_zip hv.ge]
    exact congrArg _ ih

theorem mem_answersOf {groups : List (List ℕ)} {values : List (List β)} {j p i : ℕ}
    {g : List ℕ} {v : List β} {b : β} (hg : groups[j]? = some g) (hv : values[j]? = some v)
    (hi : g[p]? = some i) (hb : v[p]? = some b) : (i, b) ∈ answersOf groups values := by
  have hzip : (List.zipWith List.zip groups values)[j]? = some (g.zip v) := by
    rw [List.getElem?_zipWith, hg, hv]
  have hpair : (g.zip v)[p]? = some (i, b) := by
    rw [List.zip, List.getElem?_zipWith, hi, hb]
  exact List.mem_flatten.mpr ⟨_, List.mem_of_getElem? hzip, List.mem_of_getElem? hpair⟩

/-- Every answer lands at the number of its entry. -/
theorem gather_get {n : ℕ} {groups : List (List ℕ)} {values : List (List β)}
    (hd : groups.flatten.Nodup) (hn : ∀ i ∈ groups.flatten, i < n)
    (hl : List.Forall₂ (fun g v => v.length = g.length) groups values) {j p i : ℕ} {g : List ℕ}
    {v : List β} {b : β} (hg : groups[j]? = some g) (hv : values[j]? = some v)
    (hi : g[p]? = some i) (hb : v[p]? = some b) :
    (place (List.replicate n none) (answersOf groups values))[i]? = some (some b) := by
  have hmem := mem_answersOf hg hv hi hb
  have hnumbers := answersOf_numbers hl
  refine place_get (by rwa [hnumbers]) hmem ?_
  rw [List.length_replicate]
  exact hn i (hnumbers ▸ List.mem_map_of_mem hmem)

end FerricStore.ScatterGather
