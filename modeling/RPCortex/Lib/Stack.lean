import Mathlib

/-! A stack that is pushed to and popped from, and one that refuses some of the pushes.  Refusing a
push is not noticed by the pop that was meant for it, which takes the element below.  `intact` says
when a run of the refusing stack ends like the run of the other: nothing was refused since the
stack that refuses nothing was last empty. -/

namespace RPCortex.Lib

variable {α : Type*} {ok : List α → α → Bool}

/-- A move on a stack. -/
inductive Move (α : Type*)
  | push (a : α)
  | pop

/-- A move on a stack whose top is the head of the list.  Nothing comes off an empty stack. -/
def Move.on (s : List α) : Move α → List α
  | .push a => a :: s
  | .pop => s.tail

/-- A move on a stack that accepts only the pushes `ok`. -/
def Move.onIf (ok : List α → α → Bool) (s : List α) : Move α → List α
  | .push a => if ok s a then a :: s else s
  | .pop => s.tail

/-- Whether nothing was refused since the stack was last empty, with the stack. -/
def Move.watch (ok : List α → α → Bool) (s : List α × Bool) : Move α → List α × Bool
  | .push a => (a :: s.1, s.2 && ok s.1 a)
  | .pop => (s.1.tail, s.2 || s.1.tail.isEmpty)

/-- The stack after a list of moves. -/
def stack (moves : List (Move α)) : List α := moves.foldl Move.on []

/-- The stack that accepts only the pushes `ok`. -/
def stackIf (ok : List α → α → Bool) (moves : List (Move α)) : List α :=
  moves.foldl (Move.onIf ok) []

/-- Nothing was refused since the stack was last empty. -/
def intact (ok : List α → α → Bool) (moves : List (Move α)) : Bool :=
  (moves.foldl (Move.watch ok) ([], true)).2

/-- How the stack `t` that refuses pushes stands to the stack `s.1` that does not. -/
def Follows (s : List α × Bool) (t : List α) : Prop :=
  t.Sublist s.1 ∧ if s.2 then t = s.1 else t.length < s.1.length

theorem Follows.move {s : List α × Bool} {t : List α} (h : Follows s t) (m : Move α) :
    Follows (m.watch ok s) (m.onIf ok t) := by
  obtain ⟨s, clean⟩ := s
  obtain ⟨sub, h⟩ := h
  cases m with
  | push a =>
    cases clean with
    | true =>
      obtain rfl : t = s := by simpa using h
      by_cases accepted : ok t a
      · simp [Move.watch, Move.onIf, Follows, accepted]
      · simp [Move.watch, Move.onIf, Follows, accepted]
    | false =>
      replace h : t.length < s.length := by simpa using h
      by_cases accepted : ok t a
      · simp [Move.watch, Move.onIf, Follows, accepted, sub, h]
      · have : t.length < s.length + 1 := by omega
        simp [Move.watch, Move.onIf, Follows, accepted, this]
        exact sub.cons a
  | pop =>
    refine ⟨sub.tail, ?_⟩
    cases clean with
    | true =>
      obtain rfl : t = s := by simpa using h
      simp [Move.watch, Move.onIf]
    | false =>
      replace h : t.length < s.length := by simpa using h
      -- an element that was refused may be the last one
      by_cases last : s.tail = []
      · have short : t.tail = [] := by
          refine List.eq_nil_of_length_eq_zero ?_
          have := congrArg List.length last
          rw [List.length_tail] at this ⊢
          simp only [List.length_nil] at this
          omega
        simp [Move.watch, Move.onIf, last, short]
      · have : 0 < s.tail.length := List.length_pos_iff.mpr last
        simp only [List.length_tail] at this
        simp [Move.watch, Move.onIf, last]
        omega

theorem watch_fst (moves : List (Move α)) (s : List α × Bool) :
    (moves.foldl (Move.watch ok) s).1 = moves.foldl Move.on s.1 := by
  induction moves generalizing s with
  | nil => rfl
  | cons m moves ih =>
    rw [List.foldl_cons, List.foldl_cons, ih]
    cases m <;> rfl

theorem follows_foldl (moves : List (Move α)) {s : List α × Bool} {t : List α} (h : Follows s t) :
    Follows (moves.foldl (Move.watch ok) s) (moves.foldl (Move.onIf ok) t) := by
  induction moves generalizing s t with
  | nil => exact h
  | cons m moves ih => exact ih (h.move m)

theorem follows_stackIf (ok : List α → α → Bool) (moves : List (Move α)) :
    Follows (stack moves, intact ok moves) (stackIf ok moves) := by
  have h : Follows (moves.foldl (Move.watch ok) ([], true)) (moves.foldl (Move.onIf ok) []) :=
    follows_foldl moves ⟨List.Sublist.refl _, rfl⟩
  rw [← Prod.mk.eta (p := moves.foldl (Move.watch ok) ([], true)), watch_fst] at h
  exact h

/-- An intact run ends with the same stack. -/
theorem stackIf_of_intact {moves : List (Move α)} (h : intact ok moves = true) :
    stackIf ok moves = stack moves := by
  have := (follows_stackIf ok moves).2
  rwa [if_pos h] at this

/-- A run that is not intact ends with fewer elements. -/
theorem length_stackIf_lt {moves : List (Move α)} (h : ¬intact ok moves = true) :
    (stackIf ok moves).length < (stack moves).length := by
  have := (follows_stackIf ok moves).2
  rwa [if_neg h] at this

theorem stackIf_sublist (moves : List (Move α)) : (stackIf ok moves).Sublist (stack moves) :=
  (follows_stackIf ok moves).1

/-- A run ends with the same stack exactly when it is intact. -/
theorem stackIf_eq_iff {moves : List (Move α)} :
    stackIf ok moves = stack moves ↔ intact ok moves = true := by
  refine ⟨fun same => ?_, stackIf_of_intact⟩
  by_contra broken
  exact absurd (congrArg List.length same) (length_stackIf_lt broken).ne

/-- What each accepted push has is had by every element of the stack. -/
theorem forall_stackIf {P : α → Prop} {moves : List (Move α)}
    (h : ∀ s a, Move.push a ∈ moves → ok s a = true → P a) : ∀ a ∈ stackIf ok moves, P a := by
  have step : ∀ (moves' : List (Move α)) (t : List α), (∀ m ∈ moves', m ∈ moves) →
      (∀ a ∈ t, P a) → ∀ a ∈ moves'.foldl (Move.onIf ok) t, P a := by
    intro moves'
    induction moves' with
    | nil => exact fun t _ ht => ht
    | cons m moves' ih =>
      intro t inside ht
      refine ih _ (fun m' hm => inside m' (List.mem_cons_of_mem _ hm)) ?_
      cases m with
      | push a =>
        simp only [Move.onIf]
        split
        · rename_i accepted
          intro b hb
          rcases List.mem_cons.mp hb with rfl | hb
          · exact h t b (inside _ (by simp)) accepted
          · exact ht b hb
        · exact ht
      | pop => exact fun b hb => ht b (List.mem_of_mem_tail hb)
  exact step moves [] (fun _ hm => hm) (by simp)

/-- A stack that accepts everything. -/
theorem stackIf_true (moves : List (Move α)) : stackIf (fun _ _ => true) moves = stack moves := by
  have same : Move.onIf (fun (_ : List α) _ => true) = Move.on := by
    funext s m
    cases m <;> rfl
  rw [stackIf, same, stack]

/-- What each push has is had by every element of the stack. -/
theorem forall_stack {P : α → Prop} {moves : List (Move α)} (h : ∀ a, Move.push a ∈ moves → P a) :
    ∀ a ∈ stack moves, P a := by
  rw [← stackIf_true]
  exact forall_stackIf fun _ a push _ => h a push

end RPCortex.Lib
