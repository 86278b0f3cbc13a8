import RPCortex.Lib.Prog

/-! Conditions along the run of a program for given results of the outside: each operation satisfies a
condition on the state it is asked for in and on its result.  A program `ensures` what holds at the end of
every run whose operations satisfy it. -/

namespace RPCortex.Lib.Prog

variable {ω ρ α β σ ε : Type} {perform : σ → ω → ε → ρ × σ} {supply : Nat → ε}
  {R : σ → ω → ε → Prop} {Q Q' : α → σ → Prop} {n : Nat} {s : σ}

/-- Each operation of the run satisfies `R`. -/
def along (perform : σ → ω → ε → ρ × σ) (supply : Nat → ε) (R : σ → ω → ε → Prop) :
    Prog ω ρ α → Nat → σ → Prop
  | .ret _, _, _ => True
  | .ask op go, n, s =>
    R s op (supply n) ∧
      (go (perform s op (supply n)).1).along perform supply R (n + 1) (perform s op (supply n)).2

theorem run_bind {p : Prog ω ρ β} {f : β → Prog ω ρ α} : (p >>= f).run perform supply n s =
    (f (p.run perform supply n s).1).run perform supply (p.run perform supply n s).2.1
      (p.run perform supply n s).2.2 := by
  induction p generalizing n s with
  | ret b => rfl
  | ask op go ih => exact ih _

theorem along_bind {p : Prog ω ρ β} {f : β → Prog ω ρ α} : (p >>= f).along perform supply R n s ↔
    p.along perform supply R n s ∧
      (f (p.run perform supply n s).1).along perform supply R (p.run perform supply n s).2.1
        (p.run perform supply n s).2.2 := by
  induction p generalizing n s with
  | ret b => exact (and_iff_right trivial).symm
  | ask op go ih => exact (and_congr_right fun _ => ih _).trans and_assoc.symm

/-- An operation and what follows it. -/
theorem along_call_bind {op : ω} {f : ρ → Prog ω ρ α} :
    (call op >>= f).along perform supply R n s ↔ R s op (supply n) ∧
      (f (perform s op (supply n)).1).along perform supply R (n + 1) (perform s op (supply n)).2 :=
  Iff.rfl

theorem run_call_bind {op : ω} {f : ρ → Prog ω ρ α} : (call op >>= f).run perform supply n s =
    (f (perform s op (supply n)).1).run perform supply (n + 1) (perform s op (supply n)).2 := rfl

theorem along_pure {a : α} : (pure a : Prog ω ρ α).along perform supply R n s ↔ True := Iff.rfl

/-! ### The results that a run uses -/

theorem le_run {p : Prog ω ρ α} : n ≤ (p.run perform supply n s).2.1 := by
  induction p generalizing n s with
  | ret a => exact le_rfl
  | ask op go ih => exact n.le_succ.trans (ih _)

/-- A run depends on the results up to its end only. -/
theorem run_congr {supply' : Nat → ε} {p : Prog ω ρ α}
    (same : ∀ k < (p.run perform supply n s).2.1, supply' k = supply k) :
    p.run perform supply' n s = p.run perform supply n s := by
  induction p generalizing n s with
  | ret a => rfl
  | ask op go ih =>
    rw [run, run, same n (lt_of_lt_of_le n.lt_succ_self le_run)]
    exact ih _ same

/-! ### What holds at the end -/

/-- As long as each operation satisfies `R`, the end satisfies `Q`. -/
def ensures (perform : σ → ω → ε → ρ × σ) (R : σ → ω → ε → Prop) (Q : α → σ → Prop) : Prog ω ρ α → σ → Prop
  | .ret a, s => Q a s
  | .ask op go, s => ∀ e, R s op e → (go (perform s op e).1).ensures perform R Q (perform s op e).2

theorem ensures_call_bind {op : ω} {f : ρ → Prog ω ρ α} : (call op >>= f).ensures perform R Q s ↔
    ∀ e, R s op e → (f (perform s op e).1).ensures perform R Q (perform s op e).2 := Iff.rfl

theorem ensures.mono {p : Prog ω ρ α} (h : p.ensures perform R Q s) (implies : ∀ a s, Q a s → Q' a s) :
    p.ensures perform R Q' s := by
  induction p generalizing s with
  | ret a => exact implies a s h
  | ask op go ih => exact fun e ok => ih _ (h e ok)

theorem ensures_of_forall {p : Prog ω ρ α} (all : ∀ a s, Q a s) : p.ensures perform R Q s := by
  induction p generalizing s with
  | ret a => exact all a s
  | ask op go ih => exact fun e _ => ih _

theorem ensures.and {p : Prog ω ρ α} (h : p.ensures perform R Q s) (h' : p.ensures perform R Q' s) :
    p.ensures perform R (fun a s => Q a s ∧ Q' a s) s := by
  induction p generalizing s with
  | ret a => exact ⟨h, h'⟩
  | ask op go ih => exact fun e ok => ih _ (h e ok) (h' e ok)

theorem ensures_bind {p : Prog ω ρ β} {f : β → Prog ω ρ α} : (p >>= f).ensures perform R Q s ↔
    p.ensures perform R (fun b => (f b).ensures perform R Q) s := by
  induction p generalizing s with
  | ret b => exact Iff.rfl
  | ask op go ih => exact forall_congr' fun e => imp_congr_right fun _ => ih _

/-- One program after another, by what holds between them. -/
theorem ensures.bind {p : Prog ω ρ β} {f : β → Prog ω ρ α} {M : β → σ → Prop} (h : p.ensures perform R M s)
    (hf : ∀ b s, M b s → (f b).ensures perform R Q s) : (p >>= f).ensures perform R Q s :=
  ensures_bind.mpr (h.mono hf)

theorem along_of_forall {p : Prog ω ρ α} (all : ∀ k s op, R s op (supply k)) :
    p.along perform supply R n s := by
  induction p generalizing n s with
  | ret a => trivial
  | ask op go ih => exact ⟨all n s op, ih _⟩

/-- A run whose operations satisfy `R` ends in `Q`. -/
theorem ensures.run {p : Prog ω ρ α} (h : p.ensures perform R Q s) (ok : p.along perform supply R n s) :
    Q (p.run perform supply n s).1 (p.run perform supply n s).2.2 := by
  induction p generalizing n s with
  | ret a => exact h
  | ask op go ih => exact ih _ (h _ ok.1) ok.2

end RPCortex.Lib.Prog
