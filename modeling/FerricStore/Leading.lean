import Mathlib.Tactic

/-!
# The leading rows

Of the rows that satisfy a condition, a query with a limit returns the ones of highest rank,
and all of them while the limit is not reached. Leading rows of separate parts are merged by
sorting them and taking as many as the limit allows.
-/

set_option autoImplicit false

namespace FerricStore.Leading

variable {α ι κ : Type} [LinearOrder κ]

/-- The first rows, as many as the limit allows. -/
def upTo (limit : Option ℕ) (xs : List α) : List α := limit.elim xs fun n => xs.take n

/-- The rows are the leading ones of those that satisfy the condition. -/
structure Leads (limit : Option ℕ) (P : α → Prop) (rank : α → κ) (xs : List α) : Prop where
  sound : ∀ x ∈ xs, P x
  nodup : xs.Nodup
  sorted : xs.Pairwise fun a b => rank b ≤ rank a
  bounded : ∀ n, limit = some n → xs.length ≤ n
  complete : ∀ x, P x → x ∉ xs →
    (∃ n, limit = some n ∧ xs.length = n) ∧ ∀ y ∈ xs, rank x ≤ rank y

theorem upTo_split (limit : Option ℕ) (xs : List α) : ∃ rest, xs = upTo limit xs++rest ∧
    (rest ≠ [] → ∃ n, limit = some n ∧ (upTo limit xs).length = n) := by
  cases limit with
  | none => exact ⟨[], (List.append_nil xs).symm, fun h => absurd rfl h⟩
  | some n =>
    refine ⟨xs.drop n, (List.take_append_drop n xs).symm, fun h => ⟨n, rfl, ?_⟩⟩
    have hlong : n < xs.length := by
      by_contra hshort
      exact h (List.drop_eq_nil_of_le (by omega))
    simp only [upTo, Option.elim_some, List.length_take]
    omega

theorem upTo_append {limit : Option ℕ} {xs : List α} (ys : List α)
    (h : limit = some xs.length) : upTo limit (xs++ys) = xs := by
  subst h
  exact List.take_left' rfl

theorem upTo_upTo (limit : Option ℕ) (xs ys : List α) :
    upTo limit (upTo limit xs++ys) = upTo limit (xs++ys) := by
  cases limit with
  | none => rfl
  | some n =>
    simp only [upTo, Option.elim_some, List.take_append, List.take_take, Nat.min_self,
      List.length_take]
    congr 2
    omega

/-- A page, and what comes after it. -/
theorem upTo_page (count : Option ℕ) (xs : List α) :
    upTo count xs++xs.drop (upTo count xs).length = xs := by
  cases count with
  | none => simp [upTo]
  | some n =>
    simp only [upTo, Option.elim_some, List.length_take]
    rcases Nat.le_total n xs.length with h | h
    · rw [Nat.min_eq_left h, List.take_append_drop]
    · rw [Nat.min_eq_right h, List.drop_length, List.append_nil, List.take_of_length_le h]

theorem upTo_of_lt {limit : Option ℕ} {xs : List α}
    (h : ∀ n, limit = some n → xs.length < n) : upTo limit xs = xs := by
  cases limit with
  | none => rfl
  | some n => exact List.take_of_length_le (Nat.le_of_lt (h n rfl))

theorem upTo_length (limit : Option ℕ) (xs : List α) (n : ℕ) (h : limit = some n) :
    (upTo limit xs).length ≤ n := by
  subst h
  exact List.length_take_le n xs

theorem Leads.congr {limit : Option ℕ} {P Q : α → Prop}
    {rank : α → κ} {xs : List α} (h : Leads limit P rank xs) (hPQ : ∀ x, P x ↔ Q x) :
    Leads limit Q rank xs :=
  ⟨fun x hx => (hPQ x).mp (h.sound x hx), h.nodup, h.sorted, h.bounded,
    fun x hx => h.complete x ((hPQ x).mpr hx)⟩

/-- Of all rows in their order, the first ones lead. -/
theorem Leads.of_sorted {P : α → Prop} {rank : α → κ} {xs : List α} (limit : Option ℕ)
    (hmem : ∀ x, x ∈ xs ↔ P x) (hnodup : xs.Nodup)
    (hsorted : xs.Pairwise fun a b => rank b ≤ rank a) : Leads limit P rank (upTo limit xs) := by
  obtain ⟨rest, hsplit, hrest⟩ := upTo_split limit xs
  have hmember : ∀ x ∈ upTo limit xs, x ∈ xs := fun x hx => hsplit ▸ List.mem_append_left _ hx
  refine ⟨fun x hx => (hmem x).mp (hmember x hx), ?_, ?_, fun n hn => upTo_length limit xs n hn,
    fun x hx hnot => ?_⟩
  · rw [hsplit] at hnodup
    exact (List.nodup_append.mp hnodup).1
  · rw [hsplit] at hsorted
    exact (List.pairwise_append.mp hsorted).1
  · have hin := (hmem x).mpr hx
    rw [hsplit] at hin
    have hlater : x ∈ rest := (List.mem_append.mp hin).resolve_left hnot
    refine ⟨hrest (List.ne_nil_of_mem hlater), fun y hy => ?_⟩
    rw [hsplit] at hsorted
    exact (List.pairwise_append.mp hsorted).2.2 y hy x hlater

/-- The merge of the leading rows of separate parts. -/
theorem Leads.merge {P : ι → α → Prop} {rank : α → κ} {parts : List ι} {rows : ι → List α}
    {sorted : List α} {limit : Option ℕ} (h : ∀ i ∈ parts, Leads limit (P i) rank (rows i))
    (hapart : parts.Pairwise fun i j => ∀ x, P i x → ¬P j x)
    (hperm : sorted.Perm (parts.flatMap rows))
    (hsorted : sorted.Pairwise fun a b => rank b ≤ rank a) :
    Leads limit (fun x => ∃ i ∈ parts, P i x) rank (upTo limit sorted) := by
  have hin : ∀ x, x ∈ sorted ↔ ∃ i ∈ parts, x ∈ rows i := fun x => by
    rw [hperm.mem_iff, List.mem_flatMap]
  have hnodup : sorted.Nodup := by
    rw [hperm.nodup_iff, List.flatMap, List.nodup_flatten]
    refine ⟨fun xs hxs => ?_, List.pairwise_map.mpr ?_⟩
    · obtain ⟨i, hi, rfl⟩ := List.mem_map.mp hxs
      exact (h i hi).nodup
    · refine hapart.imp_of_mem fun {i j} hi hj hij => List.disjoint_left.mpr fun x hx hy => ?_
      exact hij x ((h i hi).sound x hx) ((h j hj).sound x hy)
  obtain ⟨rest, hsplit, hrest⟩ := upTo_split limit sorted
  have hpairs := hsorted
  have hsingle := hnodup
  rw [hsplit] at hpairs hsingle
  have hlast := (List.pairwise_append.mp hpairs).2.2
  refine ⟨fun x hx => ?_, (List.nodup_append.mp hsingle).1, (List.pairwise_append.mp hpairs).1,
    fun n hn => upTo_length limit sorted n hn, fun x hx hnot => ?_⟩
  · obtain ⟨i, hi, hmem⟩ := (hin x).mp (hsplit ▸ List.mem_append_left rest hx)
    exact ⟨i, hi, (h i hi).sound x hmem⟩
  obtain ⟨i, hi, hP⟩ := hx
  by_cases hx : x ∈ sorted
  · rw [hsplit] at hx
    have hlater : x ∈ rest := (List.mem_append.mp hx).resolve_left hnot
    exact ⟨hrest (List.ne_nil_of_mem hlater), fun y hy => hlast y hy x hlater⟩
  · have habsent : x ∉ rows i := fun hmem => hx ((hin x).mpr ⟨i, hi, hmem⟩)
    obtain ⟨⟨n, hn, hlength⟩, hbelow⟩ := (h i hi).complete x hP habsent
    have hall : rows i ⊆ sorted := fun z hz => (hin z).mpr ⟨i, hi, hz⟩
    have hmany : n ≤ sorted.length :=
      hlength ▸ (List.subperm_of_subset (h i hi).nodup hall).length_le
    have hfull : (upTo limit sorted).length = n := by
      rw [hn, upTo, Option.elim_some, List.length_take]
      omega
    refine ⟨⟨n, hn, hfull⟩, fun y hy => ?_⟩
    -- A row of lower rank would come after all rows of this part, which fill the limit.
    by_contra hlow
    have hin' : ∀ z ∈ y::rows i, z ∈ upTo limit sorted := by
      intro z hz
      rcases List.mem_cons.mp hz with rfl | hz
      · exact hy
      · have hmem := hall hz
        rw [hsplit] at hmem
        rcases List.mem_append.mp hmem with hmem | hmem
        · exact hmem
        · exact absurd ((hbelow z hz).trans (hlast y hy z hmem)) hlow
    have hfresh : (y::rows i).Nodup :=
      List.nodup_cons.mpr ⟨fun hyi => hlow (hbelow y hyi), (h i hi).nodup⟩
    have hcount := (List.subperm_of_subset hfresh hin').length_le
    rw [List.length_cons, hlength, hfull] at hcount
    omega

end FerricStore.Leading
