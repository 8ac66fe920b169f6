import Mathlib.Tactic

/-!
# Reading a sequence at an offset

`Suffix data offset rest` says that `rest` is what a reader standing at `offset`
has left of `data`. A slice of the right length is then the part in front, and
moving past it leaves the part behind.
-/

set_option autoImplicit false

namespace FerricStore.Cursor

variable {α : Type}

def slice (data : List α) (offset size : ℕ) : List α := (data.drop offset).take size

structure Suffix (data : List α) (offset : ℕ) (rest : List α) : Prop where
  bound : offset ≤ data.length
  drop : data.drop offset = rest

theorem Suffix.start (data : List α) : Suffix data 0 data := ⟨Nat.zero_le _, rfl⟩

theorem Suffix.length {data rest : List α} {offset : ℕ} (h : Suffix data offset rest) :
    offset+rest.length = data.length := by
  have hb := h.bound
  have hl := congrArg List.length h.drop
  rw [List.length_drop] at hl
  omega

theorem Suffix.available {data x rest : List α} {offset : ℕ}
    (h : Suffix data offset (x++rest)) : offset+x.length ≤ data.length := by
  have hl := h.length
  rw [List.length_append] at hl
  omega

theorem Suffix.slice_eq {data x rest : List α} {offset : ℕ}
    (h : Suffix data offset (x++rest)) : slice data offset x.length = x := by
  rw [slice, h.drop, List.take_left]

theorem Suffix.advance {data x rest : List α} {offset : ℕ}
    (h : Suffix data offset (x++rest)) : Suffix data (offset+x.length) rest := by
  refine ⟨h.available, ?_⟩
  rw [← List.drop_drop, h.drop, List.drop_left]

/-- Every available slice stands in front of the suffix behind it. -/
theorem Suffix.of_available {data : List α} {offset size : ℕ}
    (h : offset+size ≤ data.length) :
    (slice data offset size).length = size ∧
      Suffix data offset (slice data offset size ++ data.drop (offset+size)) := by
  refine ⟨?_, by omega, ?_⟩
  · rw [slice, List.length_take, List.length_drop]
    omega
  · rw [slice, ← List.drop_drop, List.take_append_drop]

end FerricStore.Cursor
