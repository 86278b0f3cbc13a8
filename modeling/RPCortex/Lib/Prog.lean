import Mathlib

/-! Programs that ask an outside for operations and go on with its answers.  A program is a tree of
operations; `Prog.All P` says that it asks for operations with the property `P` only, whatever the
answers are.  `Prog.run` runs a program on a state, with a supply of results for what the outside
leaves open, and `Prog.trace` lists the operations of the run.  What each of them keeps is kept by
the run (`run_invariant`), and so is what each keeps between two states (`run_related`). -/

namespace RPCortex.Lib

/-- A program that asks for operations `ω` and ends with a value. -/
inductive Prog (ω ρ α : Type)
  | ret (a : α)
  | ask (op : ω) (go : ρ → Prog ω ρ α)

namespace Prog

variable {ω ρ α β σ ε : Type} {P : ω → Prop}

/-- One program after another. -/
def bind : Prog ω ρ α → (α → Prog ω ρ β) → Prog ω ρ β
  | .ret a, f => f a
  | .ask op go, f => .ask op fun r => (go r).bind f

instance : Monad (Prog ω ρ) where
  pure := .ret
  bind := bind

/-- Ask for one operation. -/
def call (op : ω) : Prog ω ρ ρ := .ask op .ret

/-- The program asks only for operations with the property `P`. -/
def All (P : ω → Prop) : Prog ω ρ α → Prop
  | .ret _ => True
  | .ask op go => P op ∧ ∀ r, (go r).All P

theorem all_pure (a : α) : (pure a : Prog ω ρ α).All P := trivial

theorem All.bind {p : Prog ω ρ α} {f : α → Prog ω ρ β} (h : p.All P) (hf : ∀ a, (f a).All P) :
    (p >>= f).All P := by
  induction p with
  | ret a => exact hf a
  | ask op go ih => exact ⟨h.1, fun r => ih r (h.2 r)⟩

theorem all_call {op : ω} (h : P op) : (call op : Prog ω ρ ρ).All P := ⟨h, fun _ => trivial⟩

/-- An operation and what follows it. -/
theorem all_call_bind {op : ω} {f : ρ → Prog ω ρ α} (h : P op) (hf : ∀ r, (f r).All P) :
    (call op >>= f).All P := (all_call h).bind hf

theorem All.ite {c : Prop} [Decidable c] {p q : Prog ω ρ α} (hp : c → p.All P)
    (hq : ¬c → q.All P) : (if c then p else q).All P := by
  split
  · exact hp ‹_›
  · exact hq ‹_›

theorem All.mono {Q : ω → Prop} {p : Prog ω ρ α} (h : p.All P) (implies : ∀ op, P op → Q op) :
    p.All Q := by
  induction p with
  | ret a => trivial
  | ask op go ih => exact ⟨implies _ h.1, fun r => ih r (h.2 r)⟩

/-- A run, with the results of operation `n`, `n + 1` and so on taken from `supply`. -/
def run (perform : σ → ω → ε → ρ × σ) (supply : Nat → ε) : Prog ω ρ α → Nat → σ → α × Nat × σ
  | .ret a, n, s => (a, n, s)
  | .ask op go, n, s =>
    let (r, s) := perform s op (supply n)
    (go r).run perform supply (n + 1) s

/-- The operations that a run asks for. -/
def trace (perform : σ → ω → ε → ρ × σ) (supply : Nat → ε) : Prog ω ρ α → Nat → σ → List ω
  | .ret _, _, _ => []
  | .ask op go, n, s =>
    let (r, s) := perform s op (supply n)
    op :: (go r).trace perform supply (n + 1) s

variable {perform : σ → ω → ε → ρ × σ} {supply : Nat → ε} {p : Prog ω ρ α} {n : Nat} {s s' : σ}

theorem All.trace (h : p.All P) : ∀ op ∈ p.trace perform supply n s, P op := by
  induction p generalizing n s with
  | ret a => exact fun _ mem => nomatch mem
  | ask op go ih =>
    intro op' mem
    rcases List.mem_cons.mp mem with rfl | mem
    · exact h.1
    · exact ih _ (h.2 _) op' mem

/-- What the operations of a run keep is kept by the run. -/
theorem run_invariant {I : σ → Prop} (h : ∀ op ∈ p.trace perform supply n s, P op) (hs : I s)
    (keeps : ∀ s op o, P op → I s → I (perform s op o).2) :
    I (p.run perform supply n s).2.2 := by
  induction p generalizing n s with
  | ret a => exact hs
  | ask op go ih =>
    have first := h op (by simp [Prog.trace])
    exact ih _ (fun op' mem => h op' (List.mem_cons_of_mem _ mem))
      (keeps s op (supply n) first hs)

/-- Two states that no operation of a run tells apart are not told apart by the run. -/
theorem run_related {R : σ → σ → Prop} (h : ∀ op ∈ p.trace perform supply n s, P op)
    (hs : R s s')
    (keeps : ∀ s s' op o, P op → R s s' →
      (perform s op o).1 = (perform s' op o).1 ∧ R (perform s op o).2 (perform s' op o).2) :
    (p.run perform supply n s).1 = (p.run perform supply n s').1 ∧
      R (p.run perform supply n s).2.2 (p.run perform supply n s').2.2 := by
  induction p generalizing n s s' with
  | ret a => exact ⟨rfl, hs⟩
  | ask op go ih =>
    have first := h op (by simp [Prog.trace])
    obtain ⟨same, next⟩ := keeps s s' op (supply n) first hs
    have rest : ∀ op' ∈ (go (perform s op (supply n)).1).trace perform supply (n + 1)
        (perform s op (supply n)).2, P op' := fun op' mem => h op' (List.mem_cons_of_mem _ mem)
    simp only [run]
    rw [← same]
    exact ih _ rest next

end Prog

end RPCortex.Lib
