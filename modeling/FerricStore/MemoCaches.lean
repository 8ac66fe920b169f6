import FerricStore.Dict

/-!
# Memoised functions

A bounded cache in front of a function, the entry used last in front. Whatever was
asked before, an answer from the cache is the value of the function.
-/

set_option autoImplicit false

namespace FerricStore.MemoCaches

variable {κ β : Type} [DecidableEq κ]

/-- A call through the cache: a hit moves to the front, a miss may push out the entry
that was not used for longest. -/
def callThrough (f : κ → β) (size : ℕ) (cache : Dict κ β) (k : κ) : β × Dict κ β :=
  match Dict.get? cache k with
  | some v => (v, (k, v)::Dict.pop cache k)
  | none => (f k, ((k, f k)::cache).take size)

def Holds (f : κ → β) (cache : Dict κ β) : Prop := ∀ e ∈ cache, e.2 = f e.1

omit [DecidableEq κ] in
theorem holds_nil (f : κ → β) : Holds f [] := fun _ he => absurd he List.not_mem_nil

theorem call_value {f : κ → β} {cache : Dict κ β} (h : Holds f cache) (size : ℕ) (k : κ) :
    (callThrough f size cache k).1 = f k := by
  unfold callThrough
  cases hk : Dict.get? cache k with
  | none => rfl
  | some v => exact h _ (Dict.mem_of_get? hk)

theorem call_holds {f : κ → β} {cache : Dict κ β} (h : Holds f cache) (size : ℕ) (k : κ) :
    Holds f (callThrough f size cache k).2 := by
  unfold callThrough
  cases hk : Dict.get? cache k with
  | none =>
    intro e he
    rcases List.mem_cons.mp (List.mem_of_mem_take he) with rfl | hm
    · rfl
    · exact h e hm
  | some v =>
    intro e he
    rcases List.mem_cons.mp he with rfl | hm
    · exact h _ (Dict.mem_of_get? hk)
    · exact h e (List.mem_of_mem_filter hm)

end FerricStore.MemoCaches
