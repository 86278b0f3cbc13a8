import RPCortex.Lib.Prog

/-! Weakest preconditions of the programs of `Prog`, whatever the outside decides.  `wp perform P Q`
says that each operation has the property `P` in the state it is asked for in, and that `Q` holds at
the end.  A loop is proved by an invariant that its body keeps. -/

namespace RPCortex.Lib.Prog

variable {ω ρ α β γ σ ε : Type} {perform : σ → ω → ε → ρ × σ} {P : σ → ω → Prop}
  {Q R : α → σ → Prop} {I : σ → Prop} {s : σ}

/-- Every operation satisfies `P` where it is asked for, and the end satisfies `Q`. -/
def wp (perform : σ → ω → ε → ρ × σ) (P : σ → ω → Prop) (Q : α → σ → Prop) :
    Prog ω ρ α → σ → Prop
  | .ret a, s => Q a s
  | .ask op go, s => P s op ∧ ∀ e, (go (perform s op e).1).wp perform P Q (perform s op e).2

theorem wp_pure {a : α} : (pure a : Prog ω ρ α).wp perform P Q s ↔ Q a s := Iff.rfl

theorem wp_call {op : ω} {Q : ρ → σ → Prop} : (call op).wp perform P Q s ↔
    P s op ∧ ∀ e, Q (perform s op e).1 (perform s op e).2 := Iff.rfl

theorem wp_bind {p : Prog ω ρ β} {f : β → Prog ω ρ α} : (p >>= f).wp perform P Q s ↔
    p.wp perform P (fun b => (f b).wp perform P Q) s := by
  induction p generalizing s with
  | ret b => exact Iff.rfl
  | ask op go ih =>
    show (P s op ∧ ∀ e, ((go (perform s op e).1) >>= f).wp perform P Q (perform s op e).2) ↔ _
    simp only [ih]
    exact Iff.rfl

theorem bind_assoc {p : Prog ω ρ γ} {f : γ → Prog ω ρ β} {g : β → Prog ω ρ α} :
    (p >>= f) >>= g = p >>= fun c => f c >>= g := by
  induction p with
  | ret c => rfl
  | ask op go ih => exact congrArg (Prog.ask op) (funext ih)

/-- An operation and what follows it. -/
theorem wp_call_bind {op : ω} {f : ρ → Prog ω ρ α} : (call op >>= f).wp perform P Q s ↔
    P s op ∧ ∀ e, (f (perform s op e).1).wp perform P Q (perform s op e).2 := wp_bind

theorem wp_ite {c : Prop} [Decidable c] {p q : Prog ω ρ α} (hp : c → p.wp perform P Q s)
    (hq : ¬c → q.wp perform P Q s) : (if c then p else q).wp perform P Q s := by
  split
  · exact hp ‹_›
  · exact hq ‹_›

theorem wp.mono {p : Prog ω ρ α} (h : p.wp perform P Q s) (implies : ∀ a s, Q a s → R a s) :
    p.wp perform P R s := by
  induction p generalizing s with
  | ret a => exact implies a s h
  | ask op go ih => exact ⟨h.1, fun e => ih _ (h.2 e)⟩

/-- One program after another, by what holds between them. -/
theorem wp.bind {p : Prog ω ρ β} {f : β → Prog ω ρ α} {M : β → σ → Prop}
    (h : p.wp perform P M s) (hf : ∀ b s, M b s → (f b).wp perform P Q s) :
    (p >>= f).wp perform P Q s := wp_bind.mpr (h.mono hf)

/-- A loop over a list keeps what its body keeps. -/
theorem wp_forM {l : List γ} {body : γ → Prog ω ρ Unit}
    (h : ∀ x ∈ l, ∀ s, I s → (body x).wp perform P (fun _ => I) s) (hs : I s) :
    (l.forM body).wp perform P (fun _ => I) s := by
  induction l generalizing s with
  | nil => exact hs
  | cons x l ih =>
    refine (h x (by simp) s hs).bind fun _ s hs => ?_
    exact ih (fun y hy => h y (List.mem_cons_of_mem _ hy)) hs

/-! ### Runs -/

/-- The operations of a run, each with the state it is asked for in. -/
def asked (perform : σ → ω → ε → ρ × σ) (supply : Nat → ε) : Prog ω ρ α → Nat → σ → List (σ × ω)
  | .ret _, _, _ => []
  | .ask op go, n, s =>
    (s, op) :: (go (perform s op (supply n)).1).asked perform supply (n + 1)
      (perform s op (supply n)).2

variable {p : Prog ω ρ α} {supply : Nat → ε} {n : Nat}

theorem wp.asked (h : p.wp perform P Q s) : ∀ v ∈ p.asked perform supply n s, P v.1 v.2 := by
  induction p generalizing n s with
  | ret a => exact fun _ mem => nomatch mem
  | ask op go ih =>
    intro v mem
    rcases List.mem_cons.mp mem with rfl | mem
    · exact h.1
    · exact ih _ (h.2 _) v mem

/-- Where the outside decides nothing, the operations of the run are all there are. -/
theorem wp_of_asked {perform : σ → ω → Unit → ρ × σ}
    (h : ∀ v ∈ p.asked perform (fun _ => ()) n s, P v.1 v.2) :
    p.wp perform P (fun _ _ => True) s := by
  induction p generalizing n s with
  | ret a => trivial
  | ask op go ih =>
    refine ⟨h (s, op) (by simp [Prog.asked]), fun _ => ?_⟩
    refine @ih _ _ (n + 1) fun v mem => h v ?_
    exact List.mem_cons_of_mem _ mem

/-! ### Runs that are cut -/

/-- What is left of a run that ends after `cut` operations, and the state then. -/
def runFor (perform : σ → ω → ε → ρ × σ) (supply : Nat → ε) :
    (cut : Nat) → Prog ω ρ α → Nat → σ → Prog ω ρ α × σ
  | 0, p, _, s => (p, s)
  | _ + 1, .ret a, _, s => (.ret a, s)
  | cut + 1, .ask op go, n, s =>
    (go (perform s op (supply n)).1).runFor perform supply cut (n + 1)
      (perform s op (supply n)).2

/-- The value of a program that asks for nothing more. -/
def value : Prog ω ρ α → Option α
  | .ret a => some a
  | .ask _ _ => none

theorem wp.runFor {cut : Nat} (h : p.wp perform P Q s) :
    (p.runFor perform supply cut n s).1.wp perform P Q (p.runFor perform supply cut n s).2 := by
  induction cut generalizing p n s with
  | zero => exact h
  | succ cut ih =>
    cases p with
    | ret a => exact h
    | ask op go => exact ih (h.2 _)

/-- Where a run is cut, either the next operation has the property `P` or the end `Q`. -/
theorem wp.runFor_cases (h : p.wp perform P Q s) (supply : Nat → ε) (cut n : Nat) :
    (∃ a, (p.runFor perform supply cut n s).1.value = some a ∧
        Q a (p.runFor perform supply cut n s).2) ∨
      (p.runFor perform supply cut n s).1.value = none ∧
        ∃ op, P (p.runFor perform supply cut n s).2 op := by
  have left : (p.runFor perform supply cut n s).1.wp perform P Q
      (p.runFor perform supply cut n s).2 := h.runFor
  generalize p.runFor perform supply cut n s = rest at left ⊢
  obtain ⟨rest, t⟩ := rest
  cases rest with
  | ret a => exact .inl ⟨a, rfl, left⟩
  | ask op go => exact .inr ⟨rfl, op, left.1⟩

/-- What each operation before the cut keeps is kept until the cut. -/
theorem runFor_invariant {cut : Nat} {I : σ → Prop}
    (h : ∀ k < cut, ∀ op, (p.trace perform supply n s)[k]? = some op →
      ∀ t, I t → I (perform t op (supply (n + k))).2) (hs : I s) :
    I (p.runFor perform supply cut n s).2 := by
  induction cut generalizing p n s with
  | zero => exact hs
  | succ cut ih =>
    cases p with
    | ret a => exact hs
    | ask op go =>
      refine ih (fun k hk op' asked t ht => ?_) (h 0 cut.succ_pos op rfl s hs)
      have later := h (k + 1) (Nat.succ_lt_succ hk) op' asked t ht
      rwa [Nat.add_comm k 1, ← Nat.add_assoc] at later

end RPCortex.Lib.Prog
