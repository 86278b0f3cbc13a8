import Mathlib

/-! Runs of a labelled transition function.  `step s a` is the state after action `a` in `s`, or
`none` when `a` is not possible there.  `Run step ok s t` is a finite run from `s` to `t` each of
whose actions satisfies the condition `ok` in the state it is taken in.  An invariant is proved for
one step and carried to whole runs by `Run.invariant`; `exec` runs a list of actions. -/

namespace RPCortex.Lib

variable {σ α : Type*} {step : σ → α → Option σ} {ok : σ → α → Prop}

/-- A finite run from `s` whose actions all satisfy `ok` where they are taken. -/
inductive Run (step : σ → α → Option σ) (ok : σ → α → Prop) (s : σ) : σ → Prop
  | refl : Run step ok s s
  | tail {t u : σ} {a : α} (run : Run step ok s t) (allowed : ok t a) (taken : step t a = some u) :
      Run step ok s u

/-- What one allowed step preserves holds after every run. -/
theorem Run.invariant {P : σ → Prop} {s t : σ} (run : Run step ok s t) (hs : P s)
    (preserves : ∀ s a t, P s → ok s a → step s a = some t → P t) : P t := by
  induction run with
  | refl => exact hs
  | tail _ allowed taken ih => exact preserves _ _ _ ih allowed taken

/-- A run under one condition is a run under another, when an invariant of the first condition
makes each of its steps meet the second. -/
theorem Run.mono {ok' : σ → α → Prop} {P : σ → Prop} {s t : σ} (run : Run step ok s t)
    (hs : P s) (preserves : ∀ s a t, P s → ok s a → step s a = some t → P t)
    (implies : ∀ s a, P s → ok s a → ok' s a) : Run step ok' s t := by
  have both : Run step ok' s t ∧ P t := by
    induction run with
    | refl => exact ⟨.refl, hs⟩
    | tail _ allowed taken ih =>
      exact ⟨.tail ih.1 (implies _ _ ih.2 allowed) taken, preserves _ _ _ ih.2 allowed taken⟩
  exact both.1

/-- The state after a list of actions, or `none` when one of them is not possible. -/
def exec (step : σ → α → Option σ) (s : σ) : List α → Option σ
  | [] => some s
  | a :: rest => match step s a with
    | some t => exec step t rest
    | none => none

/-- Whether a list of actions is possible from `s` and each satisfies `ok` where it is taken. -/
def allowed (step : σ → α → Option σ) (ok : σ → α → Prop) [∀ s a, Decidable (ok s a)] (s : σ) :
    List α → Bool
  | [] => true
  | a :: rest => decide (ok s a) && match step s a with
    | some t => allowed step ok t rest
    | none => false

theorem Run.head {s t u : σ} {a : α} (h : ok s a) (hs : step s a = some t)
    (run : Run step ok t u) : Run step ok s u := by
  induction run with
  | refl => exact .tail .refl h hs
  | tail _ allowed taken ih => exact .tail ih allowed taken

/-- An allowed list of actions is a run. -/
theorem Run.of_exec [∀ s a, Decidable (ok s a)] {as : List α} {s t : σ}
    (h : exec step s as = some t) (hok : allowed step ok s as = true) : Run step ok s t := by
  induction as generalizing s with
  | nil =>
    obtain rfl : s = t := by simpa [exec] using h
    exact .refl
  | cons a rest ih =>
    simp only [exec] at h
    simp only [Lib.allowed, Bool.and_eq_true, decide_eq_true_eq] at hok
    cases hstep : step s a with
    | none => rw [hstep] at h; cases h
    | some u =>
      rw [hstep] at h hok
      exact .head hok.1 hstep (ih h hok.2)

/-- An allowed list of actions is a run to the state it ends in. -/
theorem Run.of_exec_get [∀ s a, Decidable (ok s a)] {as : List α} {s : σ}
    (h : (exec step s as).isSome) (hok : allowed step ok s as = true) :
    Run step ok s ((exec step s as).get h) :=
  .of_exec (Option.some_get h).symm hok

/-! ### Refusals -/

/-- A guard that refuses is passed exactly when its condition is false. -/
theorem ite_error_eq_ok {ε β : Type*} {p : Prop} [Decidable p] {e : ε} {x : Except ε β} {b : β} :
    (if p then .error e else x) = .ok b ↔ ¬p ∧ x = .ok b := by
  split
  · simp [*]
  · simp [*]

/-! ### Finite maps -/

/-- The map `f` with the value at `a` replaced by `b`. -/
def upd {β : Type*} [DecidableEq α] (f : α → β) (a : α) (b : β) : α → β :=
  fun x => if x = a then b else f x

section Upd

variable {β : Type*} [DecidableEq α] {f : α → β} {a x : α} {b : β}

@[simp] theorem upd_same : upd f a b a = b := by simp [upd]

theorem upd_ne (h : x ≠ a) : upd f a b x = f x := by simp [upd, h]

theorem upd_apply : upd f a b x = if x = a then b else f x := rfl

end Upd

end RPCortex.Lib
