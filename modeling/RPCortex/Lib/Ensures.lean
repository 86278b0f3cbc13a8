import Mathlib

/-! Partial correctness of programs that may throw.  `Ensures x P` says that whatever `x` returns
satisfies `P`; the rules follow the shapes such programs have. -/

namespace RPCortex.Lib

universe u

variable {ε γ : Type*} {α β : Type u}

/-- If `x` returns a value, the value satisfies `P`. -/
def Ensures (x : Except ε α) (P : α → Prop) : Prop := ∀ a, x = .ok a → P a

namespace Ensures

variable {x : Except ε α} {P P' : α → Prop} {Q : β → Prop}

theorem mono (h : Ensures x P) (hP : ∀ a, P a → P' a) : Ensures x P' :=
  fun a ha => hP a (h a ha)

theorem ok {a : α} (h : P a) : Ensures (.ok a : Except ε α) P := by
  intro b hb
  cases hb
  exact h

theorem pure {a : α} (h : P a) : Ensures (Pure.pure a : Except ε α) P := ok h

theorem error {e : ε} : Ensures (.error e : Except ε α) P := fun _ h => nomatch h

theorem throw {e : ε} : Ensures (MonadExcept.throw e : Except ε α) P := error

/-- What follows runs on a value that satisfies what came before. -/
theorem bind {f : α → Except ε β} (hx : Ensures x P) (hf : ∀ a, P a → Ensures (f a) Q) :
    Ensures (x >>= f) Q := by
  rcases x with e | a
  · exact error
  · exact hf a (hx a rfl)

theorem ite {p : Prop} [Decidable p] {y : Except ε α} (hx : p → Ensures x P)
    (hy : ¬p → Ensures y P) : Ensures (if p then x else y) P := by
  split
  · exact hx ‹_›
  · exact hy ‹_›

/-- A loop keeps what each turn keeps. -/
theorem foldlM {I : β → Prop} {f : β → γ → Except ε β} {l : List γ} {init : β} (h : I init)
    (hf : ∀ b, I b → ∀ a ∈ l, Ensures (f b a) I) : Ensures (l.foldlM f init) I := by
  induction l generalizing init with
  | nil => exact pure h
  | cons a l ih =>
    rw [List.foldlM_cons]
    refine bind (hf init h a List.mem_cons_self) ?_
    intro b hb
    exact ih hb fun b hb a ha => hf b hb a (List.mem_cons_of_mem _ ha)

end Ensures

/-- A loop whose turns all succeed from what they keep. -/
theorem foldlM_some {I : β → Prop} {f : β → γ → Option β} {l : List γ} {init : β} (h : I init)
    (hf : ∀ b, I b → ∀ a ∈ l, ∃ b', f b a = some b' ∧ I b') :
    ∃ b, l.foldlM f init = some b ∧ I b := by
  induction l generalizing init with
  | nil => exact ⟨init, rfl, h⟩
  | cons a l ih =>
    rcases hf init h a List.mem_cons_self with ⟨b, hb, keeps⟩
    rw [List.foldlM_cons, hb]
    exact ih keeps fun b hb a ha => hf b hb a (List.mem_cons_of_mem _ ha)

end RPCortex.Lib
