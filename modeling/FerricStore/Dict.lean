import Mathlib.Tactic

/-!
# Insertion-ordered dictionaries

A dictionary is the list of its entries, first inserted first. Assigning to a
present key keeps the place of the entry. Lookups after an assignment or a
removal are decided by comparing the keys.
-/

set_option autoImplicit false

namespace FerricStore

abbrev Dict (κ β : Type) := List (κ × β)

namespace Dict

variable {κ β : Type} [DecidableEq κ]

def get? : Dict κ β → κ → Option β
  | [], _ => none
  | (a, v)::d, k => if a = k then some v else get? d k

def contains (d : Dict κ β) (k : κ) : Bool := (get? d k).isSome

def set : Dict κ β → κ → β → Dict κ β
  | [], k, v => [(k, v)]
  | (a, w)::d, k, v => if a = k then (a, v)::d else (a, w)::set d k v

def pop (d : Dict κ β) (k : κ) : Dict κ β := d.filter fun e => e.1 ≠ k

def update (d e : Dict κ β) : Dict κ β := e.foldl (fun acc p => set acc p.1 p.2) d

/-- `setdefault`: the first value of a key stays. -/
def setdefault (d : Dict κ β) (k : κ) (v : β) : Dict κ β :=
  if contains d k then d else d++[(k, v)]

@[simp] theorem get?_nil (k : κ) : get? ([] : Dict κ β) k = none := rfl

theorem get?_set (d : Dict κ β) (a b : κ) (v : β) :
    get? (set d a v) b = if a = b then some v else get? d b := by
  induction d with
  | nil => rfl
  | cons e d ih =>
    obtain ⟨k, w⟩ := e
    by_cases hk : k = a
    · subst hk
      by_cases hb : k = b <;> simp [set, get?, hb]
    · by_cases hb : k = b
      · subst hb
        simp [set, get?, hk, Ne.symm hk]
      · simp [set, get?, hk, hb, ih]

theorem get?_set_ne (d : Dict κ β) (a b : κ) (v : β) (h : a ≠ b) :
    get? (set d a v) b = get? d b := by
  rw [get?_set, if_neg h]

theorem get?_pop (d : Dict κ β) (a b : κ) :
    get? (pop d a) b = if a = b then none else get? d b := by
  induction d with
  | nil => simp [pop]
  | cons e d ih =>
    obtain ⟨k, w⟩ := e
    by_cases hk : k = a
    · subst hk
      by_cases hb : k = b
      · subst hb
        simpa [pop] using ih
      · simpa [pop, get?, hb] using ih
    · by_cases hb : k = b
      · subst hb
        simp [pop, get?, hk, Ne.symm hk]
      · simp only [pop, List.filter_cons, decide_eq_true_eq, ne_eq, hk, not_false_eq_true,
          if_true, get?, hb, if_false] at *
        exact ih

theorem get?_eq_none_of_not_mem (d : Dict κ β) (k : κ) (h : k ∉ d.map Prod.fst) :
    get? d k = none := by
  induction d with
  | nil => rfl
  | cons e d ih =>
    obtain ⟨a, v⟩ := e
    simp only [List.map_cons, List.mem_cons, not_or] at h
    rw [get?, if_neg (Ne.symm h.1)]
    exact ih h.2

theorem mem_keys_set (d : Dict κ β) (k a : κ) (v : β) :
    a ∈ (set d k v).map Prod.fst ↔ a = k ∨ a ∈ d.map Prod.fst := by
  induction d with
  | nil => simp [set]
  | cons e d ih =>
    obtain ⟨b, w⟩ := e
    by_cases hb : b = k
    · subst hb
      simp [set]
    · simp only [set, hb, if_false, List.map_cons, List.mem_cons, ih]
      tauto

theorem nodup_set (d : Dict κ β) (k : κ) (v : β) (h : (d.map Prod.fst).Nodup) :
    ((set d k v).map Prod.fst).Nodup := by
  induction d with
  | nil => simp [set]
  | cons e d ih =>
    obtain ⟨a, w⟩ := e
    rw [List.map_cons, List.nodup_cons] at h
    by_cases ha : a = k
    · simpa [set, ha] using h
    · simp only [set, ha, if_false, List.map_cons, List.nodup_cons]
      refine ⟨?_, ih h.2⟩
      intro hm
      rcases (mem_keys_set d k a v).mp hm with hk | hd
      · exact ha hk
      · exact h.1 hd

theorem nodup_pop (d : Dict κ β) (k : κ) (h : (d.map Prod.fst).Nodup) :
    ((pop d k).map Prod.fst).Nodup :=
  h.sublist (List.filter_sublist.map _)

theorem get?_update (d e : Dict κ β) (k : κ) (h : (e.map Prod.fst).Nodup) :
    get? (update d e) k = (get? e k).or (get? d k) := by
  induction e generalizing d with
  | nil => rfl
  | cons p e ih =>
    obtain ⟨a, v⟩ := p
    rw [List.map_cons, List.nodup_cons] at h
    have hu : update d ((a, v)::e) = update (set d a v) e := rfl
    rw [hu, ih _ h.2, get?_set]
    by_cases ha : a = k
    · subst ha
      rw [get?_eq_none_of_not_mem e a h.1]
      simp [get?]
    · simp [get?, ha]

abbrev keys (d : Dict κ β) : List κ := d.map Prod.fst

theorem get?_append (d e : Dict κ β) (k : κ) : get? (d++e) k = (get? d k).or (get? e k) := by
  induction d with
  | nil => rfl
  | cons p d ih =>
    obtain ⟨a, v⟩ := p
    by_cases ha : a = k
    · simp [get?, ha]
    · simpa [get?, ha] using ih

theorem mem_of_get? {d : Dict κ β} {k : κ} {v : β} (h : get? d k = some v) : (k, v) ∈ d := by
  induction d with
  | nil => cases h
  | cons e d ih =>
    obtain ⟨a, w⟩ := e
    by_cases ha : a = k
    · rw [get?, if_pos ha] at h
      cases h
      simp [ha]
    · rw [get?, if_neg ha] at h
      exact List.mem_cons_of_mem _ (ih h)

theorem get?_of_mem {d : Dict κ β} {k : κ} {v : β} (hd : (keys d).Nodup) (h : (k, v) ∈ d) :
    get? d k = some v := by
  induction d with
  | nil => cases h
  | cons e d ih =>
    obtain ⟨a, w⟩ := e
    rw [keys, List.map_cons, List.nodup_cons] at hd
    rcases List.mem_cons.mp h with he | hm
    · cases he
      simp [get?]
    · have hk : k ∈ keys d := List.mem_map_of_mem (f := Prod.fst) hm
      have ha : a ≠ k := fun he => hd.1 (he ▸ hk)
      rw [get?, if_neg ha]
      exact ih hd.2 hm

theorem get?_isSome_iff (d : Dict κ β) (k : κ) : (get? d k).isSome ↔ k ∈ keys d := by
  constructor
  · intro h
    obtain ⟨v, hv⟩ := Option.isSome_iff_exists.mp h
    exact List.mem_map_of_mem (f := Prod.fst) (mem_of_get? hv)
  · intro h
    induction d with
    | nil => cases h
    | cons e d ih =>
      obtain ⟨a, v⟩ := e
      by_cases ha : a = k
      · simp [get?, ha]
      · rw [get?, if_neg ha]
        exact ih (by simpa [keys, Ne.symm ha] using h)

theorem set_of_not_mem (d : Dict κ β) (k : κ) (v : β) (h : k ∉ keys d) :
    set d k v = d++[(k, v)] := by
  induction d with
  | nil => rfl
  | cons e d ih =>
    obtain ⟨a, w⟩ := e
    rw [keys, List.map_cons, List.mem_cons, not_or] at h
    rw [set, if_neg (Ne.symm h.1), ih h.2, List.cons_append]

theorem keys_set_of_mem (d : Dict κ β) (k : κ) (v : β) (h : k ∈ keys d) :
    keys (set d k v) = keys d := by
  induction d with
  | nil => cases h
  | cons e d ih =>
    obtain ⟨a, w⟩ := e
    by_cases ha : a = k
    · simp [set, keys, ha]
    · have hk : k ∈ keys d := by simpa [keys, Ne.symm ha] using h
      have hs := ih hk
      simp only [keys] at hs
      simp [set, keys, ha, hs]

theorem keys_pop (d : Dict κ β) (k : κ) :
    keys (pop d k) = (keys d).filter fun a => a ≠ k := by
  simp only [keys, pop, List.filter_map]
  rfl

theorem pop_of_not_mem (d : Dict κ β) (k : κ) (h : k ∉ keys d) : pop d k = d := by
  refine List.filter_eq_self.mpr fun e he => ?_
  have hk : e.1 ∈ keys d := List.mem_map_of_mem (f := Prod.fst) he
  simpa using fun hek : e.1 = k => h (hek ▸ hk)

theorem pop_set_of_not_mem (d : Dict κ β) (k : κ) (v : β) (h : k ∉ keys d) :
    pop (set d k v) k = d := by
  have hp := pop_of_not_mem d k h
  rw [pop] at hp
  rw [set_of_not_mem d k v h, pop, List.filter_append, hp]
  simp

/-- The sum of the values after an assignment to a present key. -/
theorem sum_set (d : Dict κ ℕ) (k : κ) (v w : ℕ) (h : get? d k = some w) :
    ((set d k v).map Prod.snd).sum+w = (d.map Prod.snd).sum+v := by
  induction d with
  | nil => cases h
  | cons e d ih =>
    obtain ⟨a, u⟩ := e
    by_cases ha : a = k
    · rw [get?, if_pos ha] at h
      cases h
      simp only [set, ha, if_true, List.map_cons, List.sum_cons]
      omega
    · rw [get?, if_neg ha] at h
      have hs := ih h
      simp only [set, ha, if_false, List.map_cons, List.sum_cons]
      omega

/-- The sum of the values after the removal of a present key. -/
theorem sum_pop (d : Dict κ ℕ) (k : κ) (w : ℕ) (hd : (keys d).Nodup)
    (h : get? d k = some w) : ((pop d k).map Prod.snd).sum+w = (d.map Prod.snd).sum := by
  induction d with
  | nil => cases h
  | cons e d ih =>
    obtain ⟨a, u⟩ := e
    rw [keys, List.map_cons, List.nodup_cons] at hd
    by_cases ha : a = k
    · subst ha
      have hp := pop_of_not_mem d a hd.1
      rw [pop] at hp
      rw [get?, if_pos rfl] at h
      cases h
      rw [pop, List.filter_cons_of_neg (by simp), hp, List.map_cons, List.sum_cons]
      omega
    · rw [get?, if_neg ha] at h
      have hs := ih hd.2 h
      rw [pop, List.filter_cons_of_pos (by simpa using ha), List.map_cons, List.sum_cons,
        List.map_cons, List.sum_cons]
      rw [pop] at hs
      omega

end Dict
end FerricStore
