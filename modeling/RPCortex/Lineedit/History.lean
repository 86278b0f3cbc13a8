import RPCortex.Lib.Ring
import RPCortex.Lineedit.Buffer

/-! The ring of lines that were typed, `history.cpp`, and the keys of `line_edit` that go through it. -/

namespace RPCortex.Lineedit

open Lib

/-- `HIST_N`. -/
def histN : Nat := 16

/-- `HIST_LINE_MAX`. -/
def histLineMax : Nat := 128

/-- `g_hist`, `g_count` and `g_next`. -/
structure History where
  hist : Nat → List UInt8
  count : Nat
  next : Nat

/-- `hist_reset`. -/
def History.reset (h : History) : History := { h with count := 0, next := 0 }

/-- `hist_add`, of a line without a NUL. -/
def History.add (h : History) (line : List UInt8) : History :=
  if line = [] then h
  else if h.count ≠ 0 ∧ h.hist ((h.next + histN - 1) % histN) = line then h
  else
    ⟨Function.update h.hist h.next (line.take (histLineMax - 1)),
      if h.count < histN then h.count + 1 else h.count, (h.next + 1) % histN⟩

/-- `hist_get`. -/
def History.get (h : History) (depth : Nat) : Option (List UInt8) :=
  if h.count ≤ depth then none else some (h.hist ((h.next + 2 * histN - 1 - depth) % histN))

/-- What the shell does with its history. -/
inductive Past
  | add (line : List UInt8)
  | reset

def History.step (h : History) : Past → History
  | .add line => h.add line
  | .reset => h.reset

/-! ### The lines that are kept -/

/-- A line is kept, as far as it fits, unless it is empty or the one that was kept last. -/
def keep (lines : List (List UInt8)) : Past → List (List UInt8)
  | .add line =>
    if line = [] ∨ lines.getLast? = some line then lines else lines ++ [line.take (histLineMax - 1)]
  | .reset => []

/-- The last of them, the newest first. -/
def recent (lines : List (List UInt8)) : List (List UInt8) := lines.reverse.take histN

/-- The ring holds the last lines. -/
structure History.Holds (h : History) (lines : List (List UInt8)) : Prop where
  count : h.count = min lines.length histN
  next : h.next = lines.length % histN
  slots : RingHolds histN h.hist lines

variable {h : History} {lines : List (List UInt8)}

theorem History.Holds.last (held : h.Holds lines) (line : List UInt8) :
    h.count ≠ 0 ∧ h.hist ((h.next + histN - 1) % histN) = line ↔ lines.getLast? = some line := by
  have count := held.count
  have next := held.next
  cases lines using List.reverseRecOn with
  | nil =>
    have zero : h.count = 0 := count
    simp [zero]
  | append_singleton lines last =>
    have longer : (lines ++ [last]).length = lines.length + 1 := List.length_append
    have slot : (h.next + histN - 1) % histN = lines.length % histN := by
      rw [next, longer]
      unfold histN
      omega
    have there := held.slots lines.length last (by rw [longer]; unfold histN; omega) (List.getElem?_concat_length)
    have some_ : h.count ≠ 0 := by
      rw [count, longer]
      unfold histN
      omega
    rw [slot, there, List.getLast?_concat, Option.some.injEq]
    exact and_iff_right some_

theorem History.Holds.step (held : h.Holds lines) (p : Past) : (h.step p).Holds (keep lines p) := by
  cases p with
  | reset => exact ⟨rfl, rfl, .nil⟩
  | add line =>
    unfold History.step History.add keep
    dsimp only
    by_cases empty : line = []
    · rw [if_pos empty, if_pos (.inl empty)]
      exact held
    · rw [if_neg empty]
      by_cases again : lines.getLast? = some line
      · rw [if_pos ((held.last line).mpr again), if_pos (.inr again)]
        exact held
      · rw [if_neg (mt (held.last line).mp again), if_neg (not_or_intro empty again)]
        have count := held.count
        have next := held.next
        have longer : (lines ++ [line.take (histLineMax - 1)]).length = lines.length + 1 := List.length_append
        refine ⟨?_, ?_, ?_⟩
        · dsimp only
          rw [longer, count]
          split <;> omega
        · dsimp only
          rw [longer, next, Nat.mod_add_mod]
        · dsimp only
          rw [next]
          exact held.slots.put _

theorem History.Holds.run (held : h.Holds lines) (past : List Past) :
    (past.foldl History.step h).Holds (past.foldl keep lines) := by
  induction past generalizing h lines with
  | nil => exact held
  | cons p past ih => exact ih (held.step p)

theorem History.Holds.get_eq (held : h.Holds lines) (depth : Nat) : h.get depth = (recent lines)[depth]? := by
  have count := held.count
  have next := held.next
  unfold History.get recent
  split
  next old =>
    rw [List.getElem?_eq_none]
    rw [List.length_take, List.length_reverse]
    omega
  next kept =>
    have near : depth < histN := by omega
    have lt : depth < lines.length := by omega
    have slot : (h.next + 2 * histN - 1 - depth) % histN = (lines.length - 1 - depth) % histN := by
      rw [next]
      unfold histN at near ⊢
      omega
    rw [List.getElem?_take_of_lt near, List.getElem?_reverse lt, slot,
      held.slots.slot_eq (by omega) (by omega), List.getElem?_eq_getElem (by omega)]

/-! ### Going through them -/

/-- The two keys of the history. -/
inductive Press
  | up
  | down

/-- The bytes that a terminal sends for it. -/
def Press.bytes : Press → List (Option UInt8)
  | .up => [some 0x1B, some 0x5B, some 0x41]
  | .down => [some 0x1B, some 0x5B, some 0x42]

/-- What a press should show: how many lines one has gone back, and the text. -/
def look (cap : Nat) (lines : List (List UInt8)) (at_ : Nat × List UInt8) : Press → Nat × List UInt8
  | .up =>
    match lines[at_.1]? with
    | some line => (at_.1 + 1, line.take (cap - 1))
    | none => at_
  | .down =>
    match at_.1 - 1 with
    | 0 => (0, [])
    | back + 1 => (back + 1, (lines.getD back []).take (cap - 1))

theorem fill_chars {cap : Nat} (some_ : 1 ≤ cap) (buf : Nat → UInt8) (text : List UInt8) :
    ∃ buf', fill cap buf text = some buf' ∧
      Text.chars ⟨buf', (text.take (cap - 1)).length, (text.take (cap - 1)).length⟩ = text.take (cap - 1) := by
  have fits : (text.take (cap - 1)).length < cap := by
    rw [List.length_take]
    omega
  refine ⟨_, if_pos fits, ?_⟩
  apply List.ext_getElem
  · rw [chars_length]
  · intro j here there
    rw [getElem_chars]
    dsimp only
    rw [if_pos there, List.getD_eq_getElem _ _ there]

/-- The editor has gone back so many lines, and shows this text. -/
structure Editor.At (e : Editor) (lines : List (List UInt8)) (at_ : Nat × List UInt8) : Prop where
  browse : e.browse = at_.1 - 1
  kept : at_.1 ≤ lines.length
  text : e.text.chars = at_.2

variable {cap : Nat} {complete : Option (Nat → List UInt8 → Nat → Nat → Option (List UInt8))} {e : Editor}
  {at_ : Nat × List UInt8}

theorem refreshGhost_at (src : Sources) (here : e.At lines at_) : (refreshGhost src e).At lines at_ := by
  have same : (refreshGhost src e).text = e.text ∧ (refreshGhost src e).browse = e.browse := by
    unfold refreshGhost
    split
    · exact ⟨rfl, rfl⟩
    · dsimp only
      split <;> exact ⟨rfl, rfl⟩
  exact ⟨same.2.trans here.browse, here.kept, (congrArg Text.chars same.1).trans here.text⟩

/-- What `line_edit` asks, where the lines of the ring are its history. -/
def sources (complete : Option (Nat → List UInt8 → Nat → Nat → Option (List UInt8))) (h : History) : Sources :=
  ⟨complete, some fun _ depth => h.get depth⟩

def Press.key : Press → Key
  | .up => .up
  | .down => .down

/-- A press shows what it should. -/
theorem keyed_at (some_ : 1 ≤ cap) (held : h.Holds lines) (here : e.At (recent lines) at_) (p : Press) :
    ∃ e', keyed (sources complete h) cap e p.key = some e' ∧ e'.At (recent lines) (look cap (recent lines) at_ p) := by
  obtain ⟨browse, kept, text⟩ := here
  obtain ⟨back, typed⟩ := at_
  dsimp only at browse kept text
  cases p with
  | up =>
    have want : max (e.browse + 1) (-1) = (back : Int) := by omega
    have got : h.get back = (recent lines)[back]? := held.get_eq back
    unfold Press.key keyed recalled sources look
    dsimp only
    rw [want, if_neg (Int.not_lt.mpr (Int.natCast_nonneg back)), Int.toNat_natCast, got]
    cases line : (recent lines)[back]? with
    | none => exact ⟨_, rfl, browse, kept, text⟩
    | some line' =>
      obtain ⟨buf, filled, chars⟩ := fill_chars some_ e.text.buf line'
      have lt := (List.getElem?_eq_some_iff.mp line).1
      dsimp only
      rw [filled]
      exact ⟨_, rfl, (Int.add_sub_cancel (back : Int) 1).symm, lt, chars⟩
  | down =>
    unfold Press.key keyed recalled sources look
    dsimp only
    cases back with
    | zero =>
      have want : max (e.browse + -1) (-1) = -1 := by omega
      obtain ⟨buf, filled, chars⟩ := fill_chars some_ e.text.buf []
      rw [want, if_pos (by decide)]
      dsimp only
      rw [filled]
      exact ⟨_, rfl, rfl, Nat.zero_le _, chars.trans List.take_nil⟩
    | succ back =>
      rw [Nat.add_sub_cancel]
      cases back with
      | zero =>
        have want : max (e.browse + -1) (-1) = -1 := by omega
        obtain ⟨buf, filled, chars⟩ := fill_chars some_ e.text.buf []
        rw [want, if_pos (by decide)]
        dsimp only
        rw [filled]
        exact ⟨_, rfl, rfl, Nat.zero_le _, chars.trans List.take_nil⟩
      | succ back =>
        have want : max (e.browse + -1) (-1) = (back : Int) := by omega
        have lt : back < (recent lines).length := by omega
        have got : h.get back = some ((recent lines).getD back []) := by
          rw [held.get_eq, List.getD_eq_getElem _ _ lt, List.getElem?_eq_getElem lt]
        obtain ⟨buf, filled, chars⟩ := fill_chars some_ e.text.buf ((recent lines).getD back [])
        rw [want, if_neg (Int.not_lt.mpr (Int.natCast_nonneg back)), Int.toNat_natCast, got]
        dsimp only
        rw [filled]
        exact ⟨_, rfl, (Int.add_sub_cancel (back : Int) 1).symm, lt, chars⟩

/-- A pass of the loop takes a press. -/
theorem pass_at (some_ : 1 ≤ cap) (held : h.Holds lines) (here : e.At (recent lines) at_) (p : Press)
    (rest : List (Option UInt8)) :
    ∃ e', pass (sources complete h) cap e (p.bytes ++ rest) = some (.on e' rest) ∧
      e'.At (recent lines) (look cap (recent lines) at_ p) := by
  obtain ⟨e', key, there⟩ : ∃ e', keyed (sources complete h) cap e p.key = some e' ∧
      e'.At (recent lines) (look cap (recent lines) at_ p) := keyed_at some_ held here p
  refine ⟨refreshGhost (sources complete h) e', ?_, refreshGhost_at _ there⟩
  cases p with
  | up =>
    have taken : pass (sources complete h) cap e (Press.up.bytes ++ rest) =
        (keyed (sources complete h) cap e .up).map fun e => .on (refreshGhost (sources complete h) e) rest := rfl
    rw [taken, show keyed (sources complete h) cap e .up = some e' from key]
    rfl
  | down =>
    have taken : pass (sources complete h) cap e (Press.down.bytes ++ rest) =
        (keyed (sources complete h) cap e .down).map fun e => .on (refreshGhost (sources complete h) e) rest := rfl
    rw [taken, show keyed (sources complete h) cap e .down = some e' from key]
    rfl

/-- Whatever was typed before and is in the line: the keys up and down go through the last lines, one by one and no
further, and the line shows the one that they have come to. -/
theorem history_shown {cap : Nat} (some_ : 1 ≤ cap) (hist : Nat → List UInt8) (past : List Past)
    (complete : Option (Nat → List UInt8 → Nat → Nat → Option (List UInt8))) {memory : Nat → UInt8}
    {stream rest : List (Option UInt8)} {e : Editor} (presses : List Press)
    (reached : Reached (sources complete (past.foldl History.step ⟨hist, 0, 0⟩)) cap memory stream e
      (presses.flatMap Press.bytes ++ rest)) (live : e.browse = -1) :
    ∃ e', Reached (sources complete (past.foldl History.step ⟨hist, 0, 0⟩)) cap memory stream e' rest ∧
      e'.At (recent (past.foldl keep []))
        (presses.foldl (look cap (recent (past.foldl keep []))) (0, e.text.chars)) := by
  have held : (past.foldl History.step ⟨hist, 0, 0⟩).Holds (past.foldl keep []) :=
    History.Holds.run ⟨rfl, rfl, .nil⟩ past
  have here : e.At (recent (past.foldl keep [])) (0, e.text.chars) := ⟨live, Nat.zero_le _, rfl⟩
  generalize past.foldl History.step ⟨hist, 0, 0⟩ = h at *
  generalize past.foldl keep [] = lines at *
  generalize (0, e.text.chars) = at_ at *
  clear live
  induction presses generalizing e at_ with
  | nil => exact ⟨e, reached, here⟩
  | cons p presses ih =>
    rw [List.flatMap_cons, List.append_assoc] at reached
    obtain ⟨e', went, there⟩ := pass_at some_ held here p (presses.flatMap Press.bytes ++ rest)
    exact ih (reached.pass went) _ there

/-- A line is typed twice and another one behind it; then two steps back, one too many, and one forth. -/
theorem history_shown_twice : ∃ e', Reached
    (sources none ([.add (ascii "ls"), .add (ascii "ls"), .add (ascii "df -h")].foldl History.step ⟨fun _ => [], 0, 0⟩))
    8 (fun _ => 0xFF) ([Press.up, .up, .up, .down].flatMap Press.bytes ++ []) e' [] ∧
    e'.At (recent ([.add (ascii "ls"), .add (ascii "ls"), .add (ascii "df -h")].foldl keep []))
      ([Press.up, .up, .up, .down].foldl
        (look 8 (recent ([.add (ascii "ls"), .add (ascii "ls"), .add (ascii "df -h")].foldl keep []))) (0, [])) :=
  history_shown (by decide) (fun _ => []) [.add (ascii "ls"), .add (ascii "ls"), .add (ascii "df -h")] none
    [.up, .up, .up, .down] (.start rfl) rfl

end RPCortex.Lineedit
