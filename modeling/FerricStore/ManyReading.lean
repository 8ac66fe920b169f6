import FerricStore.FlowManyPayloads
import FerricStore.OptionGroups

/-!
# Reading a written request with many items

The options of a request with many items are written in groups before the marker.
They are read back exactly when the partition argument is text and no value stops
the analysis, and rows of one width are cut where they were joined.
-/

set_option autoImplicit false

namespace FerricStore.FlowManyPayloads
open Text BasicCommands FlowOptions FlowCommands

section Slices

theorem slices_flatMap {α : Type} (row : α → List Value) (width : ℕ) (items : List α)
    (h : ∀ i ∈ items, (row i).length = width) :
    slices width items.length (items.flatMap row) = items.map row := by
  induction items with
  | nil => rfl
  | cons i items ih =>
    have hi := h i (by simp)
    rw [List.length_cons, List.flatMap_cons, slices, List.map_cons, List.take_left' hi,
      List.drop_left' hi, ih fun x hx => h x (List.mem_cons_of_mem _ hx)]

theorem length_flatMap_rows {α : Type} (row : α → List Value) (width : ℕ) (items : List α)
    (h : ∀ i ∈ items, (row i).length = width) :
    (items.flatMap row).length = items.length*width := by
  induction items with
  | nil => simp
  | cons i items ih =>
    rw [List.flatMap_cons, List.length_append, h i (by simp),
      ih fun x hx => h x (List.mem_cons_of_mem _ hx), List.length_cons, Nat.succ_mul,
      Nat.add_comm]

theorem cut_flatMap {α : Type} (row : α → List Value) {width : ℕ} (hw : 0 < width)
    (message : String) (items : List α) (h : ∀ i ∈ items, (row i).length = width) :
    cut width message (items.flatMap row) = .ok (items.map row) := by
  have hlen := length_flatMap_rows row width items h
  rw [cut, hlen, if_neg (by simp), Nat.mul_div_cancel _ hw, slices_flatMap row width items h]

theorem length_slices (width count : ℕ) (values : List Value) :
    (slices width count values).length = count := by
  induction count generalizing values with
  | zero => rfl
  | succ count ih => rw [slices, List.length_cons, ih]

theorem cut_length {width : ℕ} {message : String} {values : List Value}
    {rows : List (List Value)} (h : cut width message values = .ok rows) :
    rows.length*width = values.length := by
  unfold cut at h
  split at h
  · cases h
  · next hm =>
    cases h
    rw [length_slices]
    exact Nat.div_mul_cancel (Nat.dvd_of_mod_eq_zero (by omega))

end Slices

section Options

variable {rt : Runtime}

theorem quiet_plain {values : List Value}
    (h : ∀ v ∈ values, ∃ c, nonNegativeInt rt v = .ok c) : Quiet rt values := by
  induction values with
  | nil => trivial
  | cons v rest ih =>
    refine ⟨fun _ => ?_, ih fun x hx => h x (List.mem_cons_of_mem _ hx)⟩
    cases rest with
    | nil => exact ⟨none, rfl⟩
    | cons w rest => exact h w (by simp)

theorem marker_known {marker : String} (hm : marker ∈ itemMarkers) :
    marker ∈ flowOptionTokens := by
  simp only [itemMarkers, List.mem_cons, List.not_mem_nil, or_false] at hm
  rcases hm with rfl | rfl | rfl <;> decide +kernel

theorem quiet_marker {marker : String} (hm : marker ∈ itemMarkers) (after : List Value) :
    Quiet rt (.str (lit marker)::after) ↔ Quiet rt after := by
  have hne : marker ≠ "PARTITIONS" := by
    rintro rfl
    exact absurd hm (by decide)
  simp only [Quiet, token_lit rt (marker_known hm), Option.some.injEq, hne, false_implies,
    true_and]

/-- A field that no group fills is not among the fields. -/
theorem absent_field {gs : List Group} {field : String} (h : field ∉ gs.map Group.target) :
    Dict.get? (fieldsAll gs) field = none := by
  refine Dict.get?_eq_none_of_not_mem _ _ fun hm => h ?_
  obtain ⟨e, he, hname⟩ := List.mem_map.mp hm
  obtain ⟨g, hg, he⟩ := List.mem_flatMap.mp he
  rw [← hname, keys_fields g e.1 (List.mem_map_of_mem he)]
  exact List.mem_map_of_mem hg

/-- A request with its options in groups. -/
def request (wire : Value) (gs : List Group) (marker : String) (after : List Value) :
    List Value := wire::(flat (emittedAll gs)++.str (lit marker)::after)

theorem quiet_request (hrt : TextNumbers rt) {gs : List Group} (hg : ∀ g ∈ gs, g.Sound rt)
    {marker : String} (hm : marker ∈ itemMarkers) (wire : Value) (after : List Value) :
    Quiet rt (request wire gs marker after) ↔ (∀ g ∈ gs, g.Calm rt) ∧ Quiet rt after := by
  have hstart : StartsText (flat (emittedAll gs)++.str (lit marker)::after) :=
    startsText_flat _ (.inr ⟨_, _, rfl⟩)
  have hq := quiet_groups hrt hg
    (.inr ⟨_, _, rfl⟩ : StartsText (.str (lit marker)::after))
  rw [quiet_marker hm] at hq
  rw [← hq, request, Quiet, and_iff_right_iff_imp]
  exact fun _ _ => nonNegativeInt_head hrt hstart

theorem request_drop (wire : Value) (gs : List Group) (marker : String) (after : List Value) :
    (request wire gs marker after).drop (1+(flat (emittedAll gs)).length+1) = after := by
  simp [request, Nat.add_comm 1, List.drop_append]

theorem request_marker (wire : Value) (gs : List Group) (marker : String)
    (after : List Value) :
    (request wire gs marker after).getD (1+(flat (emittedAll gs)).length) .none =
      .str (lit marker) := by
  simp [request, Nat.add_comm 1, List.getD_eq_getElem?_getD]

/-- The options of a written request, and what can stop reading them. -/
theorem manyOptions_request (hrt : TextNumbers rt) {gs : List Group}
    (hg : ∀ g ∈ gs, g.Sound rt) (hd : (gs.map Group.target).Nodup)
    (hs : "states" ∉ gs.map Group.target) {marker : String} (hm : marker ∈ itemMarkers)
    (name : String) (wire : Value) {after : List Value} (hafter : Quiet rt after)
    (x : Str × Payload × ℕ) :
    manyOptions rt name (request wire gs marker after) = .ok x ↔
      (∀ g ∈ gs, g.Calm rt) ∧ ∃ s, rt.text wire = .ok s ∧
        x = (rt.upperText s, fieldsAll gs, 1+(flat (emittedAll gs)).length) := by
  have hq := quiet_request hrt hg hm wire after
  have hplan := plan_ok_iff rt (request wire gs marker after)
  have hwire : requireArg (request wire gs marker after) 0 name = .ok wire := rfl
  have htake : ((request wire gs marker after).take (1+(flat (emittedAll gs)).length)).drop 1 =
      flat (emittedAll gs) := by
    simp [request, Nat.add_comm 1]
  have hfound {table : List Bool}
      (ht : flowOptionPlan rt (request wire gs marker after) = .ok table) :
      findItemToken rt (request wire gs marker after) 1 =
        .ok (1+(flat (emittedAll gs)).length) := by
    have hrest : flowOptionPlan rt (flat (emittedAll gs)++.str (lit marker)::after) =
        .ok (table.drop 1) := plan_drop ht 1 (by simp [request])
    have hfind := findItemMarker_emissions (emittedAll_fits hg) hm hrest
    rw [findItemToken, ht, except_ok_bind]
    change (findItemMarker rt 0 (flat (emittedAll gs)++.str (lit marker)::after)
      (table.drop 1) >>= _) = _
    rw [hfind, except_ok_bind]
  constructor
  · intro h
    obtain ⟨w, hw, h⟩ := except_bind_eq_ok h
    rw [hwire] at hw
    cases hw
    obtain ⟨s, hs', h⟩ := except_bind_eq_ok h
    obtain ⟨tok, htok, h⟩ := except_bind_eq_ok h
    obtain ⟨table, htable, -⟩ := except_bind_eq_ok htok
    have hcalm := (hq.mp (hplan.mp ⟨table, htable⟩)).1
    rw [hfound htable] at htok
    cases htok
    obtain ⟨options, hoptions, h⟩ := except_bind_eq_ok h
    rw [htake, (optionMap_iff hrt hg hd hs).mpr hcalm] at hoptions
    cases hoptions
    cases h
    exact ⟨hcalm, s, hs', rfl⟩
  · rintro ⟨hcalm, s, hs', rfl⟩
    obtain ⟨table, htable⟩ := hplan.mpr (hq.mpr ⟨hcalm, hafter⟩)
    rw [manyOptions, hwire, except_ok_bind, hs', except_ok_bind, hfound htable, except_ok_bind,
      htake, (optionMap_iff hrt hg hd hs).mpr hcalm, except_ok_bind]
    rfl

end Options

end FerricStore.FlowManyPayloads
