import Mathlib.Tactic

/-!
# Groups of adjacent items

Items are taken in order. An item joins the last group if it goes with the first item of that
group, and starts a group otherwise.
-/

set_option autoImplicit false

namespace FerricStore.AdjacentGroups

variable {α : Type} {joins : α → α → Bool}

/-- One turn of the loop: the last group takes the item, or a new group does. -/
def place (joins : α → α → Bool) : List (List α) → α → List (List α)
  | [], x => [[x]]
  | [g], x => if g.head?.any (joins · x) then [g++[x]] else [g, [x]]
  | g::h::gs, x => g::place joins (h::gs) x

def group (joins : α → α → Bool) (xs : List α) : List (List α) := xs.foldl (place joins) []

/-- A group is its first item and items that go with it. -/
def Joined (joins : α → α → Bool) (g : List α) : Prop :=
  ∃ x rest, g = x::rest ∧ ∀ y ∈ rest, joins x y = true

theorem place_flatten (gs : List (List α)) (x : α) :
    (place joins gs x).flatten = gs.flatten++[x] := by
  fun_induction place joins gs x with
  | case1 x => rfl
  | case2 g x h => simp
  | case3 g x h => simp
  | case4 g h gs x ih =>
    simp only [List.flatten_cons, List.append_assoc] at ih ⊢
    rw [ih]

theorem place_joined {gs : List (List α)} (h : ∀ g ∈ gs, Joined joins g) (x : α) :
    ∀ g ∈ place joins gs x, Joined joins g := by
  fun_induction place joins gs x with
  | case1 x => simp [Joined]
  | case2 g x hjoin =>
    intro g' hg'
    cases List.mem_singleton.mp hg'
    obtain ⟨a, rest, rfl, hrest⟩ := h g (by simp)
    refine ⟨a, rest++[x], rfl, ?_⟩
    simp only [List.head?_cons, Option.any_some] at hjoin
    simpa [or_imp, forall_and] using ⟨hrest, hjoin⟩
  | case3 g x hjoin =>
    simp only [List.mem_cons, List.not_mem_nil, or_false, forall_eq_or_imp, forall_eq]
    exact ⟨h g (by simp), x, [], rfl, by simp⟩
  | case4 g g' gs x ih =>
    rw [List.forall_mem_cons] at h
    exact List.forall_mem_cons.mpr ⟨h.1, ih h.2⟩

theorem foldl_place (gs : List (List α)) (xs : List α) :
    (xs.foldl (place joins) gs).flatten = gs.flatten++xs ∧
      ((∀ g ∈ gs, Joined joins g) → ∀ g ∈ xs.foldl (place joins) gs, Joined joins g) := by
  induction xs generalizing gs with
  | nil => exact ⟨by simp, fun h => h⟩
  | cons x xs ih =>
    obtain ⟨hflatten, hjoined⟩ := ih (place joins gs x)
    refine ⟨?_, fun h => hjoined (place_joined h x)⟩
    rw [List.foldl_cons, hflatten, place_flatten, List.append_assoc]
    rfl

/-- The groups are the items, in their order. -/
theorem group_flatten (xs : List α) : (group joins xs).flatten = xs := (foldl_place [] xs).1

theorem group_joined (xs : List α) : ∀ g ∈ group joins xs, Joined joins g :=
  (foldl_place [] xs).2 (by simp)

end FerricStore.AdjacentGroups
