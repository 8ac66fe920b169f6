import FerricStore.FlowRouting

/-!
# Option lists that end at an items marker

The builder of such a command looks for the marker with the analysis of the whole
command, and reads the options with the analysis of the options alone. The two
analyses agree wherever the search passes, so both walks visit the same keywords.
-/

set_option autoImplicit false

namespace FerricStore.FlowRouting
open Text FlowOptions FlowCommands BasicCommands

theorem findItemMarker_succ {rt : Runtime} {skip n : ℕ} {v : Value} {rest : List Value}
    {table : List Bool} (h : findItemMarker rt (skip+1) (v::rest) table = .ok (some n)) :
    ∃ m, n = m+1 ∧ findItemMarker rt skip rest table.tail = .ok (some m) := by
  obtain ⟨found, hfound, h⟩ := except_bind_eq_ok h
  cases found with
  | none => cases h
  | some m =>
    cases h
    exact ⟨m, rfl, hfound⟩

theorem findItemMarker_zero {rt : Runtime} {n : ℕ} {arg : Value} {rest : List Value}
    {table : List Bool} (h : findItemMarker rt 0 (arg::rest) table = .ok (some n)) :
    (n = 0 ∧ rt.commandToken arg ∈ itemMarkers.map lit) ∨
    (rt.commandToken arg ∉ itemMarkers.map lit ∧
      ∃ w m, optionWidth rt rest table.tail (token rt arg) = .ok (some w) ∧
        n = m+1 ∧ findItemMarker rt (w-1) rest table.tail = .ok (some m)) := by
  unfold findItemMarker at h
  split at h
  · next hm =>
    cases h
    exact .inl ⟨rfl, hm⟩
  · next hm =>
    obtain ⟨width, hwidth, h⟩ := except_bind_eq_ok h
    cases width with
    | none => cases h
    | some w =>
      split at h
      · cases h
      · obtain ⟨found, hfound, h⟩ := except_bind_eq_ok h
        cases found with
        | none => cases h
        | some m =>
          cases h
          exact .inr ⟨hm, w, m, hwidth, rfl, hfound⟩

theorem findItemMarker_split {rt : Runtime} {skip n : ℕ} {args : List Value}
    {table : List Bool} (h : findItemMarker rt skip args table = .ok (some n)) :
    skip ≤ n ∧ ∃ opts marker after, args = opts++marker::after ∧ opts.length = n ∧
      rt.commandToken marker ∈ itemMarkers.map lit := by
  induction args generalizing skip n table with
  | nil => cases h
  | cons arg rest ih =>
    cases skip with
    | succ skip =>
      obtain ⟨m, rfl, hm⟩ := findItemMarker_succ h
      obtain ⟨hle, opts, marker, after, rfl, hl, hmark⟩ := ih hm
      exact ⟨by omega, arg::opts, marker, after, rfl, by simp [hl], hmark⟩
    | zero =>
      rcases findItemMarker_zero h with ⟨rfl, hmark⟩ | ⟨-, w, m, -, rfl, hm⟩
      · exact ⟨le_rfl, [], arg, rest, rfl, rfl, hmark⟩
      · obtain ⟨-, opts, marker, after, rfl, hl, hmark⟩ := ih hm
        exact ⟨by omega, arg::opts, marker, after, rfl, by simp [hl], hmark⟩

theorem not_marker_of_token {rt : Runtime} {arg : Value} {t : String}
    (ht : token rt arg = some t) (h : rt.commandToken arg ∉ itemMarkers.map lit) :
    t ∉ itemMarkers := by
  intro hm
  rw [commandToken_of_token rt arg t ht] at h
  exact h (List.mem_map_of_mem hm)

/-- The cases of a width, for a keyword that is no items marker. -/
theorem optionWidth_cases {rt : Runtime} {rest : List Value} {table : List Bool} {t : String}
    {w : ℕ} (hi : t ∉ itemMarkers) (h : optionWidth rt rest table (some t) = .ok (some w)) :
    (t = "NOPAYLOAD" ∧ w = 1) ∨
    (t = "PAYLOAD" ∧ w = if payloadIsFlag rt table rest then 1 else 2) ∨
    (t = "PARTITIONS" ∧ ∃ n, nonNegativeInt rt (rest.headD .none) = .ok (some n) ∧ w = 2+n) ∨
    (t ≠ "NOPAYLOAD" ∧ t ≠ "PAYLOAD" ∧ t ≠ "PARTITIONS" ∧ w = fixedWidth t) := by
  have hitems : ¬ (t = "ITEMS" ∨ t = "ITEMS_EXT") := by
    rintro (rfl | rfl) <;> exact hi (by decide)
  simp only [optionWidth, if_neg hitems] at h
  by_cases hn : t = "NOPAYLOAD"
  · rw [if_pos (.inl hn)] at h
    cases h
    exact .inl ⟨hn, rfl⟩
  by_cases hp : t = "PAYLOAD"
  · refine .inr (.inl ⟨hp, ?_⟩)
    cases hf : payloadIsFlag rt table rest with
    | true =>
      rw [if_pos (.inr ⟨hp, hf⟩)] at h
      cases h
      rfl
    | false =>
      rw [if_neg (by simp [hn, hf]), if_neg (by simp [hp])] at h
      cases h
      simp [hp, fixedWidth, flowThreeValueOptions]
  rw [if_neg (by simp [hn, hp])] at h
  by_cases hps : t = "PARTITIONS"
  · rw [if_pos hps] at h
    obtain ⟨count, hcount, h⟩ := except_bind_eq_ok h
    cases count with
    | none => cases h
    | some n =>
      cases h
      exact .inr (.inr (.inl ⟨hps, n, hcount, rfl⟩))
  · rw [if_neg hps] at h
    cases h
    exact .inr (.inr (.inr ⟨hn, hp, hps, rfl⟩))

theorem optionValid_fixed {rt : Runtime} {rest : List Value} {valid : List Bool} {t : String}
    (hi : t ∉ itemMarkers) (hn : t ≠ "NOPAYLOAD") (hp : t ≠ "PAYLOAD")
    (hps : t ≠ "PARTITIONS") :
    optionValid rt rest valid (some t) = .ok (suffix valid (fixedWidth t-1)) := by
  simp only [optionValid, if_neg hi, if_neg hn, if_neg hp, if_neg hps]

theorem optionValid_payload {rt : Runtime} {rest : List Value} {valid : List Bool} :
    optionValid rt rest valid (some "PAYLOAD") = .ok (payloadValid rt valid rest) := by
  simp [optionValid, itemMarkers]

theorem optionValid_partitions {rt : Runtime} {rest : List Value} {valid : List Bool} {n : ℕ}
    (h : nonNegativeInt rt (rest.headD .none) = .ok (some n)) :
    optionValid rt rest valid (some "PARTITIONS") = .ok (suffix valid (n+1)) := by
  simp only [optionValid, itemMarkers, List.mem_cons, String.reduceEq, List.not_mem_nil,
    or_false, if_false, if_true, h, except_ok_bind, Option.any_some]

theorem suffix_cons_zero (first : Bool) (valid : List Bool) : suffix (first::valid) 0 = first :=
  rfl

theorem suffix_cons_succ (first : Bool) (valid : List Bool) (i : ℕ) :
    suffix (first::valid) (i+1) = suffix valid i := rfl

theorem payloadValid_of_width {rt : Runtime} {full valid : List Bool} {next : Value}
    {more others : List Value} {w : ℕ}
    (hw : w = if payloadIsFlag rt full (next::others) then 1 else 2)
    (hnext : suffix valid (w-1) = true) : payloadValid rt valid (next::more) = true := by
  simp only [payloadValid]
  cases hflag : payloadIsFlag rt full (next::others) with
  | true =>
    rw [hflag, if_pos rfl] at hw
    subst hw
    have hsome : (token rt next).isSome = true := by
      cases ht : token rt next with
      | none => simp [payloadIsFlag, ht] at hflag
      | some t => rfl
    rw [if_pos hsome]
    split
    · exact hnext
    · exact Bool.or_eq_true _ _ ▸ .inl hnext
  | false =>
    rw [hflag, if_neg (by decide)] at hw
    subst hw
    split
    · next hsome =>
      have htext : ¬ isText next = true := by
        intro htext
        simp [payloadIsFlag, htext, Option.isNone_iff_eq_none, Option.isSome_iff_ne_none.mp hsome]
          at hflag
      rw [if_neg htext]
      exact Bool.or_eq_true _ _ ▸ .inr hnext
    · exact hnext

/-- Every place that the search for the marker visits starts an option list that ends
just before the marker. -/
theorem marker_suffix_valid {rt : Runtime} {tail : List Value} {skip : ℕ} {opts : List Value}
    {slice full : List Bool} (hslice : flowOptionPlan rt opts = .ok slice)
    (hfound : findItemMarker rt skip (opts++tail) full = .ok (some opts.length)) :
    suffix slice skip = true := by
  induction opts generalizing skip slice full with
  | nil =>
    cases hslice
    have hle := (findItemMarker_split hfound).1
    obtain rfl : skip = 0 := by simpa using hle
    rfl
  | cons arg rest ih =>
    obtain ⟨first, valid, rfl, hvalid, hfirst⟩ := plan_cons_ok hslice
    rw [List.cons_append] at hfound
    cases skip with
    | succ skip =>
      obtain ⟨m, hm, hfound⟩ := findItemMarker_succ hfound
      obtain rfl : rest.length = m := by simpa using hm
      rw [suffix_cons_succ]
      exact ih hvalid hfound
    | zero =>
      rcases findItemMarker_zero hfound with ⟨hzero, -⟩ | ⟨hmark, w, m, hwidth, hm, hfound⟩
      · simp at hzero
      obtain rfl : rest.length = m := by simpa using hm
      have hnext := ih hvalid hfound
      have hle := (findItemMarker_split hfound).1
      rw [suffix_cons_zero]
      cases ht : token rt arg with
      | none =>
        rw [ht] at hwidth
        cases hwidth
      | some t =>
        rw [ht] at hwidth hfirst
        have hi := not_marker_of_token ht hmark
        rcases optionWidth_cases hi hwidth with
          ⟨rfl, rfl⟩ | ⟨rfl, hw⟩ | ⟨rfl, n, hn, rfl⟩ | ⟨hn, hp, hps, rfl⟩
        · have hv : optionValid rt rest valid (some "NOPAYLOAD") = .ok (suffix valid 0) := by
            simp [optionValid, itemMarkers]
          rw [hv] at hfirst
          cases hfirst
          exact hnext
        · rw [optionValid_payload] at hfirst
          cases hfirst
          cases rest with
          | nil => rfl
          | cons next more => exact payloadValid_of_width hw hnext
        · cases rest with
          | nil => simp at hle
          | cons c more =>
            rw [optionValid_partitions (by simpa using hn)] at hfirst
            cases hfirst
            have he : 2+n-1 = n+1 := by omega
            rw [he] at hnext
            exact hnext
        · rw [optionValid_fixed hi hn hp hps] at hfirst
          cases hfirst
          exact hnext

theorem payloadValid_mono {rt : Runtime} {slice full : List Bool} {next : Value}
    {more others : List Value} (hmono : ∀ i, suffix slice i = true → suffix full i = true)
    (h : payloadValid rt slice (next::more) = true) :
    payloadValid rt full (next::others) = true := by
  simp only [payloadValid] at h ⊢
  split
  · next hs =>
    rw [if_pos hs] at h
    split
    · next htext =>
      rw [if_pos htext] at h
      exact hmono 0 h
    · next htext =>
      rw [if_neg htext] at h
      rw [Bool.or_eq_true] at h ⊢
      exact h.imp (hmono 0) (hmono 1)
  · next hs =>
    rw [if_neg hs] at h
    exact hmono 1 h

/-- An option list in the options is one in the whole command. -/
theorem slice_valid_full {rt : Runtime} {marker : Value} {after opts : List Value}
    {slice full : List Bool} {t : String} (ht : token rt marker = some t)
    (hi : t ∈ itemMarkers) (hslice : flowOptionPlan rt opts = .ok slice)
    (hfull : flowOptionPlan rt (opts++marker::after) = .ok full) (i : ℕ)
    (h : suffix slice i = true) : suffix full i = true := by
  induction opts generalizing slice full i with
  | nil =>
    cases hslice
    obtain ⟨first, valid, rfl, -, hfirst⟩ := plan_cons_ok hfull
    rw [ht] at hfirst
    simp only [optionValid, if_pos hi] at hfirst
    cases hfirst
    cases i with
    | zero => rfl
    | succ i => simp [suffix] at h
  | cons arg rest ih =>
    obtain ⟨first, valid, rfl, hvalid, hfirst⟩ := plan_cons_ok hslice
    rw [List.cons_append] at hfull
    obtain ⟨first', valid', rfl, hvalid', hfirst'⟩ := plan_cons_ok hfull
    have hmono (i : ℕ) (hs : suffix valid i = true) : suffix valid' i = true :=
      ih hvalid hvalid' i hs
    cases i with
    | succ i => exact hmono i h
    | zero =>
      rw [suffix_cons_zero] at h ⊢
      subst h
      cases hs : token rt arg with
      | none =>
        rw [hs] at hfirst
        cases hfirst
      | some s =>
        rw [hs] at hfirst hfirst'
        by_cases hm : s ∈ itemMarkers
        · simp only [optionValid, if_pos hm] at hfirst'
          cases hfirst'
          rfl
        by_cases hn : s = "NOPAYLOAD"
        · simp only [optionValid, if_neg hm, if_pos hn] at hfirst hfirst'
          injection hfirst with hfirst
          injection hfirst' with hfirst'
          rw [← hfirst']
          exact hmono 0 hfirst
        by_cases hp : s = "PAYLOAD"
        · rw [hp, optionValid_payload] at hfirst hfirst'
          injection hfirst with hfirst
          injection hfirst' with hfirst'
          rw [← hfirst']
          cases rest with
          | nil =>
            have hstart : suffix valid' 0 = true :=
              hmono 0 (by cases hvalid; rfl)
            simp only [List.nil_append, payloadValid, ht, Option.isSome_some, if_true, hstart,
              Bool.true_or, ite_self]
          | cons next more =>
            rw [List.cons_append]
            exact payloadValid_mono hmono hfirst
        by_cases hps : s = "PARTITIONS"
        · subst hps
          simp only [optionValid, if_neg hm, if_neg hn, if_neg hp, if_true] at hfirst hfirst'
          obtain ⟨count, hcount, hany⟩ := except_bind_eq_ok hfirst
          cases rest with
          | nil =>
            cases hcount
            cases hany
          | cons c more =>
            obtain ⟨count', hcount', hfirst'⟩ := except_bind_eq_ok hfirst'
            obtain rfl : count = count' := by
              rw [List.cons_append, List.headD_cons] at hcount'
              rw [List.headD_cons] at hcount
              rw [hcount] at hcount'
              exact Except.ok.inj hcount'
            injection hany with hany
            injection hfirst' with hfirst'
            rw [← hfirst']
            cases count with
            | none => cases hany
            | some n => exact hmono _ hany
        · rw [optionValid_fixed hm hn hp hps] at hfirst hfirst'
          injection hfirst with hfirst
          injection hfirst' with hfirst'
          rw [← hfirst']
          exact hmono _ hfirst

/-- Where the search passes a `PAYLOAD` as one that takes a value, so does the analysis of
the options. -/
theorem payloadIsFlag_value_passed {rt : Runtime} {marker : Value} {after rest : List Value}
    {valid valid' : List Bool} {w : ℕ} (hvalid : flowOptionPlan rt rest = .ok valid)
    (hw : w = if payloadIsFlag rt valid' (rest++marker::after) then 1 else 2)
    (hfound : findItemMarker rt (w-1) (rest++marker::after) valid' = .ok (some rest.length))
    (hflag : payloadIsFlag rt valid' (rest++marker::after) = false) :
    payloadIsFlag rt valid rest = false := by
  rw [hflag, if_neg (by decide)] at hw
  subst hw
  have hsecond := marker_suffix_valid hvalid hfound
  cases rest with
  | nil =>
    have hle := (findItemMarker_split hfound).1
    simp at hle
  | cons next more =>
    simp only [List.cons_append, payloadIsFlag] at hflag ⊢
    split at hflag
    · next hs => rw [if_pos hs]
    · next hs =>
      rw [if_neg hs]
      split at hflag
      · cases hflag
      · next htext =>
        have hz : suffix valid 1 = true := hsecond
        rw [if_neg htext, hz]
        simp

/-- Where the search passes, both analyses take a `PAYLOAD` the same way. -/
theorem payloadIsFlag_at_marker {rt : Runtime} {marker : Value} {after rest : List Value}
    {valid valid' : List Bool} {t : String} {w : ℕ} (ht : token rt marker = some t)
    (hi : t ∈ itemMarkers) (hvalid : flowOptionPlan rt rest = .ok valid)
    (hvalid' : flowOptionPlan rt (rest++marker::after) = .ok valid')
    (hw : w = if payloadIsFlag rt valid' (rest++marker::after) then 1 else 2)
    (hfound : findItemMarker rt (w-1) (rest++marker::after) valid' = .ok (some rest.length)) :
    payloadIsFlag rt valid' (rest++marker::after) = payloadIsFlag rt valid rest := by
  cases hflag : payloadIsFlag rt valid' (rest++marker::after) with
  | true =>
    rw [hflag, if_pos rfl] at hw
    subst hw
    have hstart := marker_suffix_valid hvalid hfound
    cases rest with
    | nil => rfl
    | cons next more =>
      simp only [List.cons_append, payloadIsFlag] at hflag ⊢
      split at hflag
      · cases hflag
      · next hs =>
        rw [if_neg hs]
        split at hflag
        · next htext => rw [if_pos htext]
        · next htext =>
          rw [if_neg htext]
          simp only [Bool.and_eq_true, Bool.not_eq_true'] at hflag
          have hsecond : suffix valid 1 = false := by
            by_contra hne
            have := slice_valid_full ht hi hvalid hvalid' 1 (by simpa using hne)
            rw [hflag.2] at this
            cases this
          have hz : suffix valid 0 = true := hstart
          simp [hz, hsecond]
  | false => exact (payloadIsFlag_value_passed hvalid hw hfound hflag).symm

/-- The options before a marker that the grammar knows are read alike by both
analyses. -/
theorem flagsAgree_of_marker {rt : Runtime} {marker : Value} {after opts : List Value}
    {slice full : List Bool} {t : String} {idx skip : ℕ} {p payload : Payload}
    (ht : token rt marker = some t) (hi : t ∈ itemMarkers)
    (hslice : flowOptionPlan rt opts = .ok slice)
    (hfull : flowOptionPlan rt (opts++marker::after) = .ok full)
    (hfound : findItemMarker rt skip (opts++marker::after) full = .ok (some opts.length))
    (hwalk : optionWalk rt false idx skip p opts slice = .ok payload) :
    FlagsAgree rt false (marker::after) skip opts slice full := by
  induction opts generalizing idx skip p slice full with
  | nil => trivial
  | cons arg rest ih =>
    have hvalid := plan_tail hslice
    have hvalid' : flowOptionPlan rt (rest++marker::after) = .ok full.tail := plan_tail hfull
    rw [List.cons_append] at hfound
    cases skip with
    | succ skip =>
      obtain ⟨m, hm, hfound⟩ := findItemMarker_succ hfound
      obtain rfl : rest.length = m := by simpa using hm
      exact ih hvalid hvalid' hfound hwalk
    | zero =>
      rcases findItemMarker_zero hfound with ⟨hzero, -⟩ | ⟨hmark, w, m, hwidth, hm, hfound⟩
      · simp at hzero
      obtain rfl : rest.length = m := by simpa using hm
      obtain ⟨next, hnext, hwalk⟩ := except_bind_eq_ok hwalk
      cases hs : token rt arg with
      | none =>
        rw [hs] at hwidth
        cases hwidth
      | some s =>
        rw [hs] at hwidth
        have hsi := not_marker_of_token hs hmark
        have htoken := commandToken_of_token rt arg s hs
        have hflag (hp : s = "PAYLOAD") :
            payloadIsFlag rt full.tail (rest++marker::after) =
              payloadIsFlag rt slice.tail rest := by
          rcases optionWidth_cases hsi hwidth with
            ⟨hn, -⟩ | ⟨-, hw⟩ | ⟨hn, -⟩ | ⟨-, hn, -⟩
          · rw [hp] at hn
            simp at hn
          · exact payloadIsFlag_at_marker ht hi hvalid hvalid' hw hfound
          · rw [hp] at hn
            simp at hn
          · exact (hn hp).elim
        have hspan : optionSpan rt false (rt.commandToken arg) rest slice.tail = w := by
          rw [htoken] at hnext ⊢
          by_cases hps : s = "PARTITIONS"
          · subst hps
            rcases optionStep_cases hnext with
              ⟨hopt, -⟩ | ⟨-, n, more, rfl, hn, -⟩ | ⟨-, hno, -⟩
            · simp [lit_inj] at hopt
            · simpa [optionWidth, nonNegativeInt, Runtime.toInt, hn, except_ok_bind, optionSpan,
                lit_inj] using hwidth
            · exact (hno rfl).elim
          · have hw : optionWidth rt (rest++marker::after) full.tail (some s) =
                .ok (some (optionSpan rt false (lit s) rest slice.tail)) :=
              optionWidth_eq_span hsi hps (by simp) hflag
            rw [hwidth] at hw
            exact (Option.some.inj (Except.ok.inj hw)).symm
        refine ⟨fun hp => hflag (lit_inj.mp (htoken ▸ hp)), ?_⟩
        rw [optionStep_span hnext, hspan] at hwalk
        rw [hspan]
        exact ih hvalid hvalid' hfound hwalk

end FerricStore.FlowRouting
