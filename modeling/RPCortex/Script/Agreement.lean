import RPCortex.Script.Structured

/-! Scripts run as their structure says, as far as their lines are there: a script of more lines than
`index_lines` has room for loses the rest of them. -/

namespace RPCortex.Script

open Lib

variable {ω : Type}

/-- A run by the lines and one by the structure that are as far: the variables are the same, the host was
asked the same, and if they have ended it was with the same error. -/
def Agree : State ω ⊕ Ended ω → Config ω ⊕ Outcome ω → Prop
  | .inl s, .inl c => s.store = c.store
  | .inr e, .inr o => e.store = o.store ∧ e.ending.error = o.error
  | _, _ => False

theorem Alike.agree {x : State ω ⊕ Ended ω} {y : Config ω ⊕ Outcome ω} (h : Alike lines x y) :
    Agree x y := by
  cases x with
  | inl s =>
    cases y with
    | inl c => exact h.store
    | inr o => exact h.elim
  | inr e =>
    cases y with
    | inl c => exact h.elim
    | inr o => exact h

/-- `text` is the script that is written in `b`: its lines, and they fit the line buffer. -/
structure Writes (text : Str) (b : Block) : Prop where
  lines : (textLines text).map strip = b.lines
  written : b.Written
  deep : b.depth ≤ rpsDepth
  fit : ∀ line ∈ textLines text, line.length < rpsLineMax

/-- A script runs as its structure says when all its lines have a place, none turns into a line of a block by
what its variables hold, and no `prompt` or `capture` finds the variables full. -/
theorem rpsRun_agree (host : Host ω) {text : Str} {b : Block} (writes : Writes text b) (world : ω)
    (short : (textLines text).length ≤ lineLimit)
    (steady : ∀ n c, treeRun host b world n = .inl c → Steady c)
    (roomy : ∀ n c, treeRun host b world n = .inl c → Roomy c) (n : Nat) :
    Agree (rpsRun host (some text) world n) (treeRun host b world n) := by
  have whole : (indexLines (some text)).map getLine = b.lines := by
    rw [indexLines, List.take_of_length_le short, ← writes.lines]
    refine List.map_congr_left fun line mem => ?_
    have := writes.fit line mem
    rw [getLine, List.take_of_length_le (by omega)]
  rw [rpsRun, whole]
  refine (runFor_alike ⟨⟨[], ?_, .top⟩, writes.written, ?_, rfl⟩ steady roomy).agree
  · rw [List.drop_zero, List.append_nil]
  · simpa using writes.deep

example : (blockWord (ascii "whilst")).isSome = false := by decide +kernel

/-- A host whose commands all work, and which remembers them. -/
def recorder : Host (List Str) where
  run log line _ := ((true, []), log ++ [line])
  prompt log _ := ([], log)
  exists_ log _ := (false, log)
  poll log := (false, log)

/-- A block with a `capture` in it. -/
def captured : Block :=
  .ifThen (ascii "if x") (.line (ascii "capture y z") .nil) (ascii "end") .nil

/-- The steps of its run that have a line next. -/
theorem captured_reached {n : Nat} {c : Config (List Str)} (reached : treeRun recorder captured [] n = .inl c)
    {text : Str} {rest : Block} (next : c.current = .line text rest) :
    text = ascii "capture y z" ∧ c.store.vars = [] := by
  match n with
  | 0 =>
    obtain rfl := Sum.inl.inj reached
    exact nomatch next
  | 1 =>
    obtain rfl := Sum.inl.inj reached
    obtain ⟨rfl, rfl⟩ := Block.line.inj next
    exact ⟨rfl, rfl⟩
  | 2 =>
    obtain rfl := Sum.inl.inj reached
    exact nomatch next
  | 3 =>
    obtain rfl := Sum.inl.inj reached
    exact nomatch next
  | n + 4 => exact nomatch reached

theorem rpsRun_agree_if : Agree
    (rpsRun recorder (some (ascii "if x\ncapture y z\nend")) [] 9) (treeRun recorder captured [] 9) := by
  refine rpsRun_agree recorder ⟨by decide +kernel, ?_, by decide, by decide +kernel⟩ []
    (by decide +kernel) (fun n c reached text rest next => ?_) (fun n c reached text rest next => ?_) 9
  · exact ⟨by decide +kernel, ⟨by decide +kernel, trivial⟩, by decide +kernel, trivial⟩
  · obtain ⟨rfl, vars⟩ := captured_reached reached next
    rw [vars]
    decide +kernel
  · obtain ⟨rfl, vars⟩ := captured_reached reached next
    rw [vars]
    exact fun _ _ _ => .inr (by decide)

/-- Some empty lines in front of a statement, as a tree and as a text. -/
def late : (empty : Nat) → Block
  | 0 => .line (ascii "x") .nil
  | n + 1 => .line [] (late n)

def lateText : (empty : Nat) → Str
  | 0 => ascii "x"
  | n + 1 => newline :: lateText n

example : textLines (ascii "x") = [ascii "x"] := by decide +kernel

theorem late_lines (n : Nat) : (textLines (lateText n)).map strip = (late n).lines := by
  induction n with
  | zero => decide +kernel
  | succ n ih =>
    rw [lateText, textLines, if_pos rfl, List.map_cons, ih]
    rfl

theorem late_fit (n : Nat) : ∀ line ∈ textLines (lateText n), line.length < rpsLineMax := by
  induction n with
  | zero => decide +kernel
  | succ n ih =>
    rw [lateText, textLines, if_pos rfl]
    exact List.forall_mem_cons.mpr ⟨by decide, ih⟩

theorem late_written (n : Nat) : (late n).Written := by
  induction n with
  | zero => exact ⟨by decide +kernel, trivial⟩
  | succ n ih => exact ⟨by decide +kernel, ih⟩

theorem late_depth (n : Nat) : (late n).depth = 0 := by
  induction n with
  | zero => rfl
  | succ n ih => exact ih

theorem late_writes (n : Nat) : Writes (lateText n) (late n) :=
  ⟨late_lines n, late_written n, by rw [late_depth]; exact Nat.zero_le _, late_fit n⟩

theorem Agree.store {x : State ω ⊕ Ended ω} {y : Config ω ⊕ Outcome ω} (h : Agree x y) :
    x.elim State.store Ended.store = y.elim Config.store Outcome.store := by
  cases x with
  | inl s =>
    cases y with
    | inl c => exact h
    | inr o => exact h.elim
  | inr e =>
    cases y with
    | inl c => exact h.elim
    | inr o => exact h.1

/-- Empty lines only take their steps. -/
theorem runFor_empty (n i : Nat) (s : Store (List Str)) :
    runFor (step recorder (List.replicate (i + n) [])) (n + 1) ⟨i, [], 0, s⟩ = .inr ⟨.done, 0, s⟩ := by
  induction n generalizing i with
  | zero =>
    have none : (List.replicate (i + 0) ([] : Str))[i]? = none := by simp
    simp only [runFor, step, none]
    rfl
  | succ n ih =>
    have here : (List.replicate (i + (n + 1)) ([] : Str))[i]? = some [] := by simp
    have one : step recorder (List.replicate (i + (n + 1)) []) ⟨i, [], 0, s⟩ = .inl ⟨i + 1, [], 0, s⟩ := by
      simp only [step, here]
      rfl
    rw [runFor, one, ← ih (i + 1), Nat.add_right_comm, Nat.add_assoc]

/-- The statement on the 513th line is not run. -/
theorem not_all_scripts_agree : ¬∀ (ω : Type) (host : Host ω) (text : Str) (b : Block), Writes text b →
    ∀ (world : ω) (n : Nat), Agree (rpsRun host (some text) world n) (treeRun host b world n) := by
  intro all
  have same (n m : Nat) :
      (rpsRun recorder (some (lateText n)) [] m).elim State.store Ended.store =
        (treeRun recorder (late n) [] m).elim Config.store Outcome.store :=
    Agree.store (all (List Str) recorder (lateText n) (late n) (late_writes n) [] m)
  have indexed : (indexLines (some (lateText 512))).map getLine = List.replicate (0 + 512) [] := by
    decide +kernel
  have flat : rpsRun recorder (some (lateText 512)) [] 513 = .inr ⟨.done, 0, ⟨[], []⟩⟩ := by
    rw [rpsRun, indexed]
    exact runFor_empty 512 0 _
  have tree : ((treeRun recorder (late 512) [] 513).elim Config.store Outcome.store).world =
      [ascii "x"] := by
    decide +kernel
  rw [← same 512 513, flat] at tree
  exact absurd tree (by decide)

end RPCortex.Script
