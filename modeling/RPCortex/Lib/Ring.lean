import Mathlib.Logic.Function.Basic

/-! A ring of `n` slots, which are written one behind the other: it holds the last `n` entries of what was written. -/

namespace RPCortex.Lib

variable {α : Type} {n : Nat} {slot : Nat → α} {l : List α}

/-- The slots hold the last of the entries, each where it was written. -/
def RingHolds (n : Nat) (slot : Nat → α) (l : List α) : Prop :=
  ∀ k a, l.length - n ≤ k → l[k]? = some a → slot (k % n) = a

theorem RingHolds.nil : RingHolds n slot [] := fun _ _ _ here => by cases here

/-- Two places that are less than `n` apart are different slots. -/
theorem mod_ne_mod {i k : Nat} (before : k < i) (near : i < k + n) : k % n ≠ i % n := by
  intro same
  have whole : n ∣ i - k := Nat.dvd_of_mod_eq_zero (Nat.sub_mod_eq_zero_of_mod_eq same.symm)
  exact absurd (Nat.le_of_dvd (by omega) whole) (by omega)

/-- An entry goes into the slot behind the last one. -/
theorem RingHolds.put (h : RingHolds n slot l) (a : α) :
    RingHolds n (Function.update slot (l.length % n) a) (l ++ [a]) := by
  intro k b kept here
  rw [List.length_append, List.length_singleton] at kept
  rcases Nat.lt_trichotomy k l.length with before | rfl | behind
  · rw [List.getElem?_append_left before] at here
    rw [Function.update_of_ne (mod_ne_mod before (by omega))]
    exact h k b (by omega) here
  · rw [List.getElem?_concat_length] at here
    rw [Function.update_self]
    exact Option.some.inj here
  · rw [List.getElem?_eq_none (by rw [List.length_append, List.length_singleton]; omega)] at here
    cases here

/-- The slot of an entry that is still there. -/
theorem RingHolds.slot_eq (h : RingHolds n slot l) {k : Nat} (kept : l.length - n ≤ k) (lt : k < l.length) :
    slot (k % n) = l[k] := h k _ kept (List.getElem?_eq_getElem lt)

end RPCortex.Lib
